import Logan.Prefix.PrefixRuntime
import Logan.Prefix.ContainerCodec

/-!
# What a hit of the prefix cache returns

The files are not trusted: they may change in any way while a runtime works
on their directory, or between two runtimes. What is read from a file is
checked against itself, against the fingerprint that was looked for, and, by
its tokens, against the query; but the checksums have no key, so that a file
that has been made with care passes for one that the runtime has written.

So a hit returns what has been **cached** before, or what has been
**planted**: brought into the directory as a complete container. Either way
it is for the tokens of the query, and under its identity.
-/

namespace Logan

open Result Table Option
open SsdPrefixStore (readFile readFor readUnder removeUnder writeFor)

/-! ## Tables -/

namespace PrefixTable

variable {V : Type}

/-- **Nothing is lost but entries**: what is in the second table is in the
first. -/
def Within (t' t : PrefixTable V) : Prop :=
  ∀ f e, t'.entries.lookup f = some e → t.entries.lookup f = some e

theorem within_remove (t : PrefixTable V) (f : PrefixFingerprint) : (t.remove f).2.Within t := by
  intro g e h
  unfold remove at h
  cases hf : t.entries.lookup f with
  | none => rwa [hf] at h
  | some =>
    rw [hf] at h
    by_cases hg : g = f
    · subst hg
      rw [lookup_erase_self] at h
      cases h
    · rwa [lookup_erase_ne _ hg] at h

theorem within_evictLoop {incoming fuel : ℕ} {t : PrefixTable V}
    {p : List PrefixFingerprint × PrefixTable V} (h : evictLoop incoming fuel t = .ok p) :
    p.2.Within t := by
  induction fuel generalizing t p with
  | zero => cases h
  | succ fuel ih =>
    rw [evictLoop] at h
    split_ifs at h
    · obtain rfl := Except.ok.inj h
      exact fun _ _ h => h
    · cases hlru : t.lru with
      | nil =>
        rw [hlru] at h
        obtain rfl := Except.ok.inj h
        exact fun _ _ h => h
      | cons oldest =>
        rw [hlru] at h
        obtain ⟨q, hq, h⟩ := bind_eq_ok.mp h
        have hp : p.2 = q.2 := by
          rw [← Except.ok.inj h]
          split <;> rfl
        rw [hp]
        exact fun f e he => within_remove t oldest f e (ih hq f e he)

/-- **An insertion** brings in one entry. -/
theorem lookup_insertWithEvictions {tooLarge : ℕ → ℕ → String} {t : PrefixTable V}
    {key : PrefixKey} {value : V} {size : ℕ} {p : List PrefixFingerprint × PrefixTable V}
    (h : t.insertWithEvictions tooLarge key value size = .ok p) {f : PrefixFingerprint}
    {e : PrefixEntry V} (he : p.2.entries.lookup f = some e) :
    t.entries.lookup f = some e ∨ e.key = key ∧ e.value = value := by
  unfold insertWithEvictions at h
  split_ifs at h
  obtain ⟨q, hq, h⟩ := bind_eq_ok.mp h
  split_ifs at h
  cases h
  rw [push, lookup_insert] at he
  split_ifs at he
  · obtain rfl := some.inj he
    exact Or.inr ⟨rfl, rfl⟩
  · exact Or.inl (within_remove t _ f e (within_evictLoop hq f e he))

theorem mem_of_longest {es : List (PrefixFingerprint × PrefixEntry V)}
    {e : PrefixFingerprint × PrefixEntry V} (h : longest es = some e) : e ∈ es := by
  induction es generalizing e with
  | nil => cases h
  | cons a es ih =>
    rw [longest] at h
    cases hres : longest es with
    | none =>
      rw [hres] at h
      obtain rfl := some.inj h
      exact List.mem_cons_self
    | some =>
      rw [hres] at h
      dsimp only at h
      split_ifs at h
      · obtain rfl := some.inj h
        exact List.mem_cons_of_mem _ (ih hres)
      · cases h
        exact List.mem_cons_self

/-- **A lookup** finds an entry that is a prefix of the query, and changes no
entry. -/
theorem lookup_spec (t : PrefixTable V) (query : PrefixKey) :
    (t.lookup query).2.entries = t.entries ∧ ∀ f e, (t.lookup query).1 = some (f, e) →
      t.entries.lookup f = some e ∧ e.key.isPrefixOf query = true := by
  unfold lookup
  cases hbes : longest (t.sorted.filter fun e => e.2.key.isPrefixOf query) with
  | none => exact ⟨rfl, fun _ _ h => by cases h⟩
  | some =>
    refine ⟨rfl, fun f e h => ?_⟩
    cases h
    obtain ⟨hmem, his⟩ := List.mem_filter.mp (mem_of_longest hbes)
    refine ⟨?_, his⟩
    rw [sorted, List.mem_mergeSort] at hmem
    obtain ⟨⟨f', e'⟩, hent, heq⟩ := List.mem_map.mp hmem
    cases heq
    exact AList.mem_lookup_iff.mpr hent

end PrefixTable

section Sha

variable (sha256 : List UInt8 → Bytes 32) (G : PrefixKey → StateSnapshot → Prop)

/-! ## Good tables, good directories

`G` says of a key and a snapshot that the one is good for the other. -/

/-- Every entry of the table is good. -/
def GoodTable (t : RamPrefixCache StateSnapshot) : Prop :=
  ∀ f e, t.entries.lookup f = some e → G e.key e.value

/-- Every file of the directory that can be read has a good entry. -/
def GoodDirectory (dir : Directory) : Prop :=
  ∀ name content entry, dir.lookup name = some (some content) →
    (readFile sha256 content).result = .ok entry → G entry.1 entry.2

variable {sha256 G}

theorem goodTable_new (maxBytes : ℕ) : GoodTable G (PrefixTable.new maxBytes) := by
  intro f e h
  cases h

theorem GoodTable.insert {t ram : RamPrefixCache StateSnapshot} {key : PrefixKey}
    {snapshot : StateSnapshot} {size : ℕ} (ht : GoodTable G t) (hG : G key snapshot)
    (h : ramInsert t key snapshot size = .ok ram) : GoodTable G ram := by
  obtain ⟨p, hp, h⟩ := bind_eq_ok.mp h
  cases h
  intro f e he
  rcases PrefixTable.lookup_insertWithEvictions hp he with he | ⟨hkey, hval⟩
  · exact ht f e he
  · rwa [hkey, hval]

variable {dir : Directory} {faults : StoreFaults}

theorem GoodDirectory.remove (h : GoodDirectory sha256 G dir)
    (f : PrefixFingerprint) : GoodDirectory sha256 G (SsdPrefixStore.remove sha256 dir f) := by
  intro name content entry hnam
  unfold SsdPrefixStore.remove at hnam
  by_cases heq : name = SsdPrefixStore.snapshotPath sha256 f
  · rw [heq, lookup_erase_self] at hnam
    cases hnam
  · rw [lookup_erase_ne _ heq] at hnam
    exact h name content entry hnam

theorem GoodDirectory.removeUnder (h : GoodDirectory sha256 G dir) (n : ℕ)
    (fs : List PrefixFingerprint) : GoodDirectory sha256 G
      (removeUnder sha256 faults n dir fs) := by
  induction fs generalizing n dir with
  | nil => exact h
  | cons f fs ih =>
    refine ih ?_ (n + 1)
    split_ifs
    · exact h
    · exact h.remove f

/-- What a file holds, as the container in it. -/
theorem readFile_eq_ok {content : List UInt8} {entry : PrefixKey × StateSnapshot} :
    (readFile sha256 content).result = .ok entry ↔
      ∃ header after, (readSnapshot sha256 content).result =
        .ok ((header, entry.1, entry.2), after) := by
  unfold readFile
  rw [Metered.bind_eq_ok]
  constructor
  · rintro ⟨⟨⟨header, key, snapshot⟩, after⟩, hrd, h⟩
    cases h
    exact ⟨header, after, hrd⟩
  · rintro ⟨header, after, hrd⟩
    exact ⟨_, hrd, rfl⟩

variable {failure : Option IoError}

theorem GoodDirectory.write {dir' : Directory} {key : PrefixKey} {snapshot : StateSnapshot}
    (hdir : GoodDirectory sha256 G dir) (hG : G key snapshot)
    (h : writeFor sha256 dir key snapshot failure = .ok dir') : GoodDirectory sha256 G dir' := by
  obtain ⟨content, hcon, h⟩ := bind_eq_ok.mp h
  cases failure with
  | some => cases h
  | none =>
    cases h
    intro name content' entry hnam hrd
    rw [lookup_insert] at hnam
    split_ifs at hnam
    · obtain rfl := some.inj (some.inj hnam)
      obtain ⟨header, after, hrd⟩ := readFile_eq_ok.mp hrd
      obtain ⟨hkey, hsn⟩ := eq_of_read_write sha256 hcon hrd
      rwa [hkey, hsn]
    · exact hdir name content' entry hnam hrd

/-- What is read for a fingerprint is in some file, and of that fingerprint. -/
theorem GoodDirectory.read {f : PrefixFingerprint} {entry : PrefixKey × StateSnapshot}
    (hdir : GoodDirectory sha256 G dir)
    (h : readUnder sha256 faults dir f = .ok entry) : G entry.1 entry.2 := by
  unfold readUnder at h
  split at h
  · cases h
  unfold readFor at h
  cases hfil : dir.lookup (SsdPrefixStore.snapshotPath sha256 f) with
  | none => rw [hfil] at h; cases h
  | some content =>
    rw [hfil] at h
    cases content with
    | none => cases h
    | some content =>
      obtain ⟨entry', hrd, h⟩ := bind_eq_ok.mp h
      split_ifs at h
      obtain rfl := Except.ok.inj h
      exact hdir _ content entry' hfil hrd

/-! ## The runtime -/

namespace PrefixRuntime

/-- A good hit: of an entry that is good, and a prefix of the query. -/
def GoodHit (G : PrefixKey → StateSnapshot → Prop) (query : PrefixKey)
    (r : PrefixLookupResult) : Prop :=
  r.hit = true → ∃ key snapshot, G key snapshot ∧ key.isPrefixOf query = true ∧
    r.prefixLen = key.prefixLen.toNat ∧ r.snapshot = some snapshot

theorem goodHit_miss (query : PrefixKey) (n : ℕ) : GoodHit G query (.miss n) := by
  intro h
  cases h

variable {snapshot : StateSnapshot} {key : PrefixKey}

theorem goodHit_found (query : PrefixKey) (ram : Bool) (n : ℕ)
    (hG : G key snapshot) (his : key.isPrefixOf query = true) :
    GoodHit G query (.found ram n key.prefixLen.toNat snapshot) :=
  fun _ => ⟨key, snapshot, hG, his, rfl, rfl⟩

variable {rt : PrefixRuntime}

/-- **What has been read** is promoted, if it is good. -/
theorem promote_good {query key : PrefixKey} {f : PrefixFingerprint}
    (hram : GoodTable G rt.ramCache) (hG : G key snapshot) :
    GoodTable G (rt.promote sha256 query f key snapshot).2.ramCache ∧
    ∀ r, (rt.promote sha256 query f key snapshot).1 = .ok r → GoodHit G query r := by
  unfold promote
  by_cases his : key.isPrefixOf query = true
  · rw [if_neg (by rw [his]; decide)]
    have hfnd := goodHit_found query false query.prefixLen.toNat hG his
    cases cacheEntryBytes sha256 key snapshot with
    | error => exact ⟨hram, fun _ h => by cases h⟩
    | ok size =>
      dsimp only
      split_ifs
      · cases hins : ramInsert rt.ramCache key snapshot size with
        | ok => exact ⟨hram.insert hG hins, fun r h => Except.ok.inj h ▸ hfnd⟩
        | error e =>
          cases e with
          | error => exact ⟨hram, fun r h => Except.ok.inj h ▸ hfnd⟩
          | panic | endless => exact ⟨hram, fun _ h => by cases h⟩
      · exact ⟨hram, fun r h => Except.ok.inj h ▸ hfnd⟩
  · rw [if_pos (by rw [Bool.not_eq_true] at his; rw [his]; rfl)]
    exact ⟨hram, fun r h => Except.ok.inj h ▸ goodHit_miss query _⟩

/-- **A lookup in the store** returns a good entry, or none. -/
theorem lookupStore_good {query : PrefixKey} (hram : GoodTable G rt.ramCache)
    (hdir : GoodDirectory sha256 G dir) :
    GoodTable G (rt.lookupStore sha256 faults dir query).2.ramCache ∧
    ∀ r, (rt.lookupStore sha256 faults dir query).1 = .ok r → GoodHit G query r := by
  unfold lookupStore
  rcases rt.ssdIndex.lookup query with ⟨_ | ⟨f, e⟩, index⟩
  · exact ⟨hram, fun r h => Except.ok.inj h ▸ goodHit_miss query _⟩
  · dsimp only
    split_ifs
    · exact ⟨hram, fun r h => Except.ok.inj h ▸ goodHit_miss query _⟩
    · cases hrd : readUnder sha256 faults dir f with
      | ok => exact promote_good (by exact hram) (hdir.read hrd)
      | error e =>
        cases e with
        | error =>
          dsimp only
          split_ifs
          · exact ⟨hram, fun r h => Except.ok.inj h ▸ goodHit_miss query _⟩
          · exact ⟨hram, fun _ h => by cases h⟩
        | panic | endless => exact ⟨hram, fun _ h => by cases h⟩

/-- **A lookup** returns a good entry, or none, and leaves the memory good. -/
theorem lookupPrefix_good (faults : StoreFaults) (query : PrefixKey)
    (hram : GoodTable G rt.ramCache) (hdir : GoodDirectory sha256 G dir) :
    GoodTable G (rt.lookupPrefix sha256 faults dir query).2.ramCache ∧
    ∀ r, (rt.lookupPrefix sha256 faults dir query).1 = .ok r →
      GoodHit G (rt.effectiveKey sha256 query) r := by
  unfold lookupPrefix lookupEffective
  obtain ⟨hents, hfnd⟩ := rt.ramCache.lookup_spec (rt.effectiveKey sha256 query)
  have hram' : GoodTable G (rt.ramCache.lookup (rt.effectiveKey sha256 query)).2 := by
    intro f e he
    rw [hents] at he
    exact hram f e he
  generalize rt.ramCache.lookup (rt.effectiveKey sha256 query) = p at hfnd hram'
  rcases p with ⟨_ | ⟨f, e⟩, ram⟩
  · exact lookupStore_good hram' hdir
  · obtain ⟨hlkp, his⟩ := hfnd f e rfl
    exact ⟨hram', fun r h =>
      Except.ok.inj h ▸ goodHit_found _ true _ (hram f e hlkp) his⟩

theorem cacheStore_good {size : ℕ}
    (hram : GoodTable G rt.ramCache) (hdir : GoodDirectory sha256 G dir) (hG : G key snapshot) :
    GoodTable G (rt.cacheStore sha256 faults dir key snapshot size).2.2.ramCache ∧
    GoodDirectory sha256 G (rt.cacheStore sha256 faults dir key snapshot size).2.1 := by
  unfold cacheStore
  split
  · cases indexInsert rt.ssdIndex key size with
    | error => exact ⟨hram, hdir⟩
    | ok p =>
      have hrem : GoodDirectory sha256 G (removeUnder sha256 faults 0 dir p.1) :=
        hdir.removeUnder 0 p.1
      dsimp only
      cases hwr : writeFor sha256 (removeUnder sha256 faults 0 dir p.1) key
        snapshot faults.write with
      | ok => exact ⟨hram, hrem.write hG hwr⟩
      | error => exact ⟨hram, hrem⟩
  · exact ⟨hram, hdir⟩

/-- What `cachePrefix` checks before it caches anything. -/
def Accepts (rt : PrefixRuntime) (key : PrefixKey) (snapshot : StateSnapshot) : Prop :=
  (rt.config.minCacheTokens ≤ key.prefixLen.toNat ∧ rt.config.writesEnabled = true) ∧
    snapshot.prefixLen = key.prefixLen ∧ snapshot.prefixHash = key.prefixTokenHash

instance (rt : PrefixRuntime) (key : PrefixKey) (snapshot : StateSnapshot) :
    Decidable (rt.Accepts key snapshot) :=
  inferInstanceAs (Decidable (_ ∧ _))

/-- What is accepted is cached under the salted key. -/
theorem cachePrefix_of_accepts
    (h : rt.Accepts key snapshot) (dir : Directory) :
    rt.cachePrefix sha256 faults dir key snapshot =
      rt.cacheChecked sha256 faults dir (rt.effectiveKey sha256 key) snapshot := by
  obtain ⟨⟨hmin, hwr⟩, hlen, hhas⟩ := h
  unfold cachePrefix
  rw [if_neg, if_neg (not_or.mpr ⟨not_not.mpr hlen, not_not.mpr hhas⟩)]
  rw [hwr, Bool.not_true, Bool.or_false, decide_eq_true_eq]
  exact Nat.not_lt.mpr hmin

/-- What is not accepted changes nothing. -/
theorem cachePrefix_of_not_accepts
    (h : ¬ rt.Accepts key snapshot) (dir : Directory) :
    (rt.cachePrefix sha256 faults dir key snapshot).2 = (dir, rt) := by
  unfold cachePrefix
  split
  · rfl
  · next hch =>
    split
    · rfl
    · next hid =>
      rw [Bool.or_eq_true, not_or, decide_eq_true_eq, Nat.not_lt, Bool.not_eq_true,
        Bool.not_eq_false'] at hch
      rw [not_or, not_not, not_not] at hid
      exact absurd ⟨hch, hid⟩ h

theorem cacheChecked_good
    (hram : GoodTable G rt.ramCache) (hdir : GoodDirectory sha256 G dir) (hG : G key snapshot) :
    GoodTable G (rt.cacheChecked sha256 faults dir key snapshot).2.2.ramCache ∧
    GoodDirectory sha256 G (rt.cacheChecked sha256 faults dir key snapshot).2.1 := by
  unfold cacheChecked
  cases cacheEntryBytes sha256 key snapshot with
  | error => exact ⟨hram, hdir⟩
  | ok size =>
    dsimp only
    split
    · cases hins : ramInsert rt.ramCache key snapshot size with
      | error => exact ⟨hram, hdir⟩
      | ok => exact cacheStore_good (hram.insert hG hins) hdir hG
    · exact cacheStore_good hram hdir hG

/-- **Caching** brings in one entry, which it has accepted. -/
theorem cachePrefix_good
    (hram : GoodTable G rt.ramCache) (hdir : GoodDirectory sha256 G dir)
    (hG : rt.Accepts key snapshot → G (rt.effectiveKey sha256 key) snapshot) :
    GoodTable G (rt.cachePrefix sha256 faults dir key snapshot).2.2.ramCache ∧
    GoodDirectory sha256 G (rt.cachePrefix sha256 faults dir key snapshot).2.1 := by
  by_cases hacc : rt.Accepts key snapshot
  · rw [cachePrefix_of_accepts hacc]
    exact cacheChecked_good hram hdir (hG hacc)
  · rw [cachePrefix_of_not_accepts hacc]
    exact ⟨hram, hdir⟩

theorem rebuild_of_new {config : PrefixRuntimeConfig} {p : Directory × PrefixRuntime}
    (h : new sha256 faults config dir = .ok p) :
    (empty config).rebuildSsdIndex sha256 faults dir = .ok p := by
  unfold new at h
  split at h
  · split_ifs at h
    exact h
  · exact h

/-- **A new runtime** has nothing in memory, and at most removes files. -/
theorem new_good {config : PrefixRuntimeConfig} {p : Directory × PrefixRuntime}
    (hdir : GoodDirectory sha256 G dir) (h : new sha256 faults config dir = .ok p) :
    GoodTable G p.2.ramCache ∧ GoodDirectory sha256 G p.1 ∧ p.2.config = config := by
  have hreb := rebuild_of_new h
  unfold rebuildSsdIndex at hreb
  split_ifs at hreb
  · obtain ⟨entries, -, hreb⟩ := bind_eq_ok.mp hreb
    obtain ⟨q, -, hreb⟩ := bind_eq_ok.mp hreb
    obtain rfl := Except.ok.inj hreb
    exact ⟨goodTable_new _, hdir.removeUnder 0 q.1, rfl⟩
  · cases hreb
    exact ⟨goodTable_new _, hdir, rfl⟩

end PrefixRuntime

end Sha

end Logan
