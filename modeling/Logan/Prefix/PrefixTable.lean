import Logan.Util.Table
import Logan.Prefix.PrefixKey

/-!
# The tables of cached prefixes

`RamPrefixCache` and `PrefixIndex` are the same structure: entries by
fingerprint, within a budget of bytes, of which the least recently used one
is dropped first. The one keeps a value with every entry, the other does
not, and they word the refusal of an entry that is too large differently.

A lookup walks the entries in the order of their fingerprints, and finds the
longest whose tokens are a prefix of those of the query. What the tables
count for their statistics is left out.
-/

namespace Logan

/-- The order of fingerprints is that of their fields, one after the other. -/
def PrefixFingerprint.rank (f : PrefixFingerprint) : List ℕ :=
  (f.model.digest.val ++ f.stateSchema.digest.val ++ f.tokenizer.digest.val ++
    f.plan.digest.val).map UInt8.toNat ++ [f.prefixTokenHash.toNat, f.prefixLen.toNat]

/-- Whether a fingerprint does not come after another. -/
def PrefixFingerprint.le (f g : PrefixFingerprint) : Bool := !List.lex g.rank f.rank

/-- An entry, of a size in bytes. -/
structure PrefixEntry (V : Type) where
  key : PrefixKey
  value : V
  size : ℕ
deriving DecidableEq

/-- **A table of cached prefixes.** -/
structure PrefixTable (V : Type) where
  entries : Table PrefixFingerprint (PrefixEntry V)
  /-- The least recently used one comes first. -/
  lru : List PrefixFingerprint
  totalBytes : ℕ
  maxBytes : ℕ

/-- `RamPrefixCache<V>` -/
abbrev RamPrefixCache (V : Type) : Type := PrefixTable V

/-- `PrefixIndex` keeps no values. -/
abbrev PrefixIndex : Type := PrefixTable Unit

namespace PrefixTable

variable {V : Type}

def new (maxBytes : ℕ) : PrefixTable V where
  entries := ∅
  lru := []
  totalBytes := 0
  maxBytes := maxBytes

variable (t : PrefixTable V)

def clear : PrefixTable V :=
  { t with entries := ∅, lru := [], totalBytes := 0 }

/-- The table without an entry, and whether there was one. -/
def remove (f : PrefixFingerprint) : Bool × PrefixTable V :=
  match t.entries.lookup f with
  | none => (false, t)
  | some entry =>
    (true, { t with
      entries := Table.erase t.entries f
      totalBytes := t.totalBytes - entry.size
      lru := t.lru.filter (· ≠ f) })

def touch (f : PrefixFingerprint) : PrefixTable V :=
  { t with lru := t.lru.filter (· ≠ f) ++ [f] }

/-- The loop that makes room: the least recently used entries are dropped
until there is enough. The rounds are bounded, by the number of fingerprints
in the list; a fingerprint without an entry would be tried again for ever. -/
def evictLoop (incoming : ℕ) :
    ℕ → PrefixTable V → Except (Failure String) (List PrefixFingerprint × PrefixTable V)
  | 0, _ => .error .endless
  | fuel + 1, t =>
    if min (t.totalBytes + incoming) usizeMax ≤ t.maxBytes then .ok ([], t)
    else match t.lru with
      | [] => .ok ([], t)
      | oldest :: _ => do
        let p ← evictLoop incoming fuel (t.remove oldest).2
        pure (if (t.remove oldest).1 then (oldest :: p.1, p.2) else p)

/-- `evict_for` -/
def evictFor (incoming : ℕ) :
    Except (Failure String) (List PrefixFingerprint × PrefixTable V) :=
  evictLoop incoming (t.lru.length + 1) t

/-- The table with one more entry, for which there is room. -/
def push (key : PrefixKey) (value : V) (size : ℕ) : PrefixTable V :=
  { t with
    totalBytes := t.totalBytes + size
    lru := t.lru ++ [key.fingerprint]
    entries := t.entries.insert key.fingerprint { key := key, value := value, size := size } }

/-- **`insert_with_evictions`**, with the text for an entry that is too
large. The total is a `usize`, and its sum with the size may overflow where
the budget is the largest `usize`: there the test of the loop never finds the
table too full. -/
def insertWithEvictions (tooLarge : ℕ → ℕ → String) (t : PrefixTable V) (key : PrefixKey)
    (value : V) (size : ℕ) :
    Except (Failure String) (List PrefixFingerprint × PrefixTable V) :=
  if t.maxBytes < size then .error (.error (tooLarge size t.maxBytes))
  else do
    let p ← (t.remove key.fingerprint).2.evictFor size
    if usizeMax < p.2.totalBytes + size then .error .panic
    else pure (p.1, p.2.push key value size)

/-- `max_by_key(|entry| entry.key.prefix_len())`, which takes the last of
several. -/
def longest : List (PrefixFingerprint × PrefixEntry V) →
    Option (PrefixFingerprint × PrefixEntry V)
  | [] => none
  | e :: es =>
    match longest es with
    | none => some e
    | some best =>
      if e.2.key.prefixLen ≤ best.2.key.prefixLen then some best else some e

/-- The entries, in the order of their fingerprints. -/
def sorted : List (PrefixFingerprint × PrefixEntry V) :=
  (t.entries.entries.map fun e => (e.1, e.2)).mergeSort fun a b => a.1.le b.1

/-- **`lookup`**: the longest entry that is a prefix of the query. -/
def lookup (query : PrefixKey) :
    Option (PrefixFingerprint × PrefixEntry V) × PrefixTable V :=
  match longest (t.sorted.filter fun e => e.2.key.isPrefixOf query) with
  | some e => (some e, t.touch e.1)
  | none => (none, t)

end PrefixTable

/-- `RamPrefixCache::insert` -/
def ramInsert {V : Type} (t : RamPrefixCache V) (key : PrefixKey) (value : V) (size : ℕ) :
    Except (Failure String) (RamPrefixCache V) := do
  let p ← t.insertWithEvictions
    (fun size max => s!"prefix entry of {size} bytes exceeds RAM cache budget {max}") key value size
  pure p.2

/-- `PrefixIndex::insert_with_evictions` -/
def indexInsert (t : PrefixIndex) (key : PrefixKey) (size : ℕ) :
    Except (Failure String) (List PrefixFingerprint × PrefixIndex) :=
  t.insertWithEvictions
    (fun size max => s!"prefix entry of {size} bytes exceeds cache budget {max}") key () size

end Logan
