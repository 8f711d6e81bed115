import Logan.Prefix.Disk
import Logan.Prefix.PrefixTable
import Logan.Util.Machine

/-!
# The prefix-cache runtime

`PrefixRuntime` looks prefixes up in memory first, and then in the store of
prefix files, of which it keeps an index. What it finds in a file, it keeps
in memory. A runtime with a salt changes the model's fingerprint in every
key, so that its entries are its own.

The runtime is one part of a **world**: the other is the directory, which
outlives it, and the content of which may change under its hands.

Every call of the file system may fail: the directory cannot be created or
listed, a file cannot be read, written or removed. The runtime goes on: a
file that cannot be read is dropped from the index, and a removal that fails
is passed over. What fails during an operation is given with it
(`StoreFaults`).
-/

namespace Logan

open SsdPrefixStore

structure PrefixRuntimeConfig where
  ramCacheBytes : ℕ
  ssdCacheBytes : ℕ
  /-- Whether there is a directory: `ssd_root`. -/
  hasRoot : Bool
  minCacheTokens : ℕ
  writesEnabled : Bool
  salt : List UInt8
deriving DecidableEq

structure PrefixLookupResult where
  hit : Bool
  ramHit : Bool
  ssdHit : Bool
  prefixLen : ℕ
  remainingTokens : ℕ
  snapshot : Option StateSnapshot
deriving DecidableEq

namespace PrefixLookupResult

def miss (queryLen : ℕ) : PrefixLookupResult where
  hit := false
  ramHit := false
  ssdHit := false
  prefixLen := 0
  remainingTokens := queryLen
  snapshot := none

/-- A hit of the given length, in memory or in the store. -/
def found (ram : Bool) (queryLen prefixLen : ℕ) (snapshot : StateSnapshot) :
    PrefixLookupResult where
  hit := true
  ramHit := ram
  ssdHit := !ram
  prefixLen := prefixLen
  remainingTokens := queryLen - prefixLen
  snapshot := some snapshot

end PrefixLookupResult

/-- **The prefix-cache runtime.** -/
structure PrefixRuntime where
  ramCache : RamPrefixCache StateSnapshot
  /-- Whether the store is in use: `ssd_store`. -/
  hasStore : Bool
  ssdIndex : PrefixIndex
  config : PrefixRuntimeConfig

/-- A name for what a failure was part of. -/
def Failure.within (context : String) : Failure IoError → Failure String
  | error e => error (context ++ e.message)
  | panic => panic
  | endless => endless

/-- `key.with_salt(..)`, unless the salt is empty. -/
def saltedKey (sha256 : List UInt8 → Bytes 32) (salt : List UInt8) (key : PrefixKey) : PrefixKey :=
  if salt = [] then key else key.withSalt sha256 salt

/-- **What fails in the file system** during an operation. -/
structure StoreFaults where
  /-- `fs::create_dir_all` -/
  create : Option IoError
  /-- `fs::read_dir` -/
  list : Option IoError
  /-- The read of the file of that name. -/
  read : String → Option IoError
  /-- The write of a file, which leaves it as it was. -/
  write : Option IoError
  /-- Which of the removals fail, in the order in which they are tried. -/
  delete : ℕ → Bool

/-- Nothing fails, but perhaps the creation of the directory and a write. -/
def StoreFaults.only (create write : Option IoError) : StoreFaults where
  create := create
  list := none
  read _ := none
  write := write
  delete _ := false

section Sha

variable (sha256 : List UInt8 → Bytes 32)

/-- `cache_entry_bytes` -/
def cacheEntryBytes (key : PrefixKey) (snapshot : StateSnapshot) : Except (Failure String) ℕ := do
  let bytes ← snapshot.toBytes sha256
  if usizeMax < key.prefixLen.toNat * 4 + bytes.toList.length then
    .error (.error "prefix cache entry size overflow")
  else .ok (key.prefixLen.toNat * 4 + bytes.toList.length)

namespace SsdPrefixStore

variable (faults : StoreFaults)

/-- `let _ = store.remove(..)` for some fingerprints, the first of which is the
`n`-th removal of the operation. A file that cannot be removed stays. -/
def removeUnder : ℕ → Directory → List PrefixFingerprint → Directory
  | _, dir, [] => dir
  | n, dir, f :: fs =>
    removeUnder (n + 1) (if faults.delete n then dir else remove sha256 dir f) fs

/-- `read_for` -/
def readUnder (dir : Directory) (f : PrefixFingerprint) :
    Except (Failure IoError) (PrefixKey × StateSnapshot) :=
  match faults.read (snapshotPath sha256 f) with
  | some e => .error (.error e)
  | none => readFor sha256 dir f

/-- The files as the scan finds them: those that it cannot read have no
content. -/
def filesUnder (dir : Directory) : List (String × Option (List UInt8)) :=
  (files dir).map fun e => (e.1, if (faults.read e.1).isSome then none else e.2)

/-- `scan_entries` -/
def scanUnder (dir : Directory) : Except (Failure IoError) (List (PrefixKey × StateSnapshot)) :=
  match faults.list with
  | some e => .error (.error e)
  | none => (scanEntries sha256 (filesUnder faults dir)).result

end SsdPrefixStore

namespace PrefixRuntime

variable (rt : PrefixRuntime)

def effectiveKey (key : PrefixKey) : PrefixKey :=
  saltedKey sha256 rt.config.salt key

variable (faults : StoreFaults)

/-- One entry that the scan has found: it is indexed, and the files of what is
dropped for it are to be removed. -/
def rebuildEntry (budget : ℕ) (index : PrefixIndex) (key : PrefixKey) (snapshot : StateSnapshot) :
    Except (Failure String) (List PrefixFingerprint × PrefixIndex) := do
  let size ← cacheEntryBytes sha256 key snapshot
  if budget < size then .ok ([key.fingerprint], index)
  else indexInsert index key size

/-- The entries that the scan has found, one after the other. -/
def rebuildEntries (budget : ℕ) : List (PrefixKey × StateSnapshot) → PrefixIndex →
    Except (Failure String) (List PrefixFingerprint × PrefixIndex)
  | [], index => .ok ([], index)
  | e :: es, index => do
    let p ← rebuildEntry sha256 budget index e.1 e.2
    let q ← rebuildEntries budget es p.2
    .ok (p.1 ++ q.1, q.2)

/-- `rebuild_ssd_index`. It removes the files one by one, and reads the
directory only before. -/
def rebuildSsdIndex (dir : Directory) :
    Except (Failure String) (Directory × PrefixRuntime) :=
  if rt.hasStore then do
    let entries ← (scanUnder sha256 faults dir).mapError
      (Failure.within "scan SSD prefix cache: ")
    let p ← rebuildEntries sha256 rt.config.ssdCacheBytes entries rt.ssdIndex
    .ok (removeUnder sha256 faults 0 dir p.1, { rt with ssdIndex := p.2 })
  else .ok (dir, rt)

/-- The runtime before its index is built. -/
def empty (config : PrefixRuntimeConfig) : PrefixRuntime where
  ramCache := PrefixTable.new config.ramCacheBytes
  hasStore := config.hasRoot && 0 < config.ssdCacheBytes
  ssdIndex := PrefixTable.new config.ssdCacheBytes
  config := config

/-- **`PrefixRuntime::new`** -/
def new (config : PrefixRuntimeConfig) (dir : Directory) :
    Except (Failure String) (Directory × PrefixRuntime) :=
  match faults.create with
  | some e =>
    if (empty config).hasStore then .error (.error ("open SSD prefix cache: " ++ e.message))
    else (empty config).rebuildSsdIndex sha256 faults dir
  | none => (empty config).rebuildSsdIndex sha256 faults dir

/-- Whether a failed read is a miss: the file is gone, or is not valid. -/
def isMiss (e : IoError) : Bool := e.kind = .notFound || e.kind = .invalidData

/-- What is made of an entry that has been read from the store: it is looked
at once more, and kept in memory if there is room. -/
def promote (query : PrefixKey) (f : PrefixFingerprint) (key : PrefixKey)
    (snapshot : StateSnapshot) : Except (Failure String) PrefixLookupResult × PrefixRuntime :=
  if !key.isPrefixOf query then
    (.ok (.miss query.prefixLen.toNat), { rt with ssdIndex := (rt.ssdIndex.remove f).2 })
  else match cacheEntryBytes sha256 key snapshot with
    | .error e => (.error e, rt)
    | .ok size =>
      let result := PrefixLookupResult.found false query.prefixLen.toNat key.prefixLen.toNat snapshot
      if size ≤ rt.config.ramCacheBytes then
        match ramInsert rt.ramCache key snapshot size with
        | .ok ram => (.ok result, { rt with ramCache := ram })
        | .error (.error _) => (.ok result, rt)
        | .error e => (.error e, rt)
      else (.ok result, rt)

/-- The lookup in the store, by its index. -/
def lookupStore (dir : Directory) (query : PrefixKey) :
    Except (Failure String) PrefixLookupResult × PrefixRuntime :=
  match rt.ssdIndex.lookup query with
  | (none, index) => (.ok (.miss query.prefixLen.toNat), { rt with ssdIndex := index })
  | (some (f, _), index) =>
    let rt := { rt with ssdIndex := index }
    if !rt.hasStore then (.ok (.miss query.prefixLen.toNat), rt)
    else match readUnder sha256 faults dir f with
      | .ok entry => rt.promote sha256 query f entry.1 entry.2
      | .error (.error e) =>
        -- the file has been removed or corrupted since it was indexed
        let rt := { rt with ssdIndex := (rt.ssdIndex.remove f).2 }
        if isMiss e then (.ok (.miss query.prefixLen.toNat), rt)
        else (.error (.error ("read SSD prefix cache: " ++ e.message)), rt)
      | .error .panic => (.error .panic, rt)
      | .error .endless => (.error .endless, rt)

/-- The lookup of a salted key, in memory first. -/
def lookupEffective (dir : Directory) (query : PrefixKey) :
    Except (Failure String) PrefixLookupResult × PrefixRuntime :=
  match rt.ramCache.lookup query with
  | (some (_, entry), ram) =>
    (.ok (.found true query.prefixLen.toNat entry.key.prefixLen.toNat entry.value),
      { rt with ramCache := ram })
  | (none, ram) => { rt with ramCache := ram }.lookupStore sha256 faults dir query

/-- **`lookup_prefix`** -/
def lookupPrefix (dir : Directory) (query : PrefixKey) :
    Except (Failure String) PrefixLookupResult × PrefixRuntime :=
  rt.lookupEffective sha256 faults dir (rt.effectiveKey sha256 query)

/-- The part of `cache_prefix` that is about the store. -/
def cacheStore (dir : Directory) (key : PrefixKey)
    (snapshot : StateSnapshot) (size : ℕ) :
    Except (Failure String) Unit × Directory × PrefixRuntime :=
  if rt.hasStore && size ≤ rt.config.ssdCacheBytes then
    match indexInsert rt.ssdIndex key size with
    | .error e => (.error e, dir, rt)
    | .ok p =>
      let dir := removeUnder sha256 faults 0 dir p.1
      match writeFor sha256 dir key snapshot faults.write with
      | .ok dir => (.ok (), dir, { rt with ssdIndex := p.2 })
      | .error e => (.error (e.within "write SSD prefix cache: "), dir,
          { rt with ssdIndex := (p.2.remove key.fingerprint).2 })
  else (.ok (), dir, rt)

/-- The part of `cache_prefix` behind its checks, with the salted key. -/
def cacheChecked (dir : Directory) (key : PrefixKey)
    (snapshot : StateSnapshot) : Except (Failure String) Unit × Directory × PrefixRuntime :=
  match cacheEntryBytes sha256 key snapshot with
  | .error e => (.error e, dir, rt)
  | .ok size =>
    if 0 < rt.config.ramCacheBytes && size ≤ rt.config.ramCacheBytes then
      match ramInsert rt.ramCache key snapshot size with
      | .error e => (.error e, dir, rt)
      | .ok ram => { rt with ramCache := ram }.cacheStore sha256 faults dir key snapshot size
    else rt.cacheStore sha256 faults dir key snapshot size

/-- **`cache_prefix`** -/
def cachePrefix (dir : Directory) (key : PrefixKey)
    (snapshot : StateSnapshot) : Except (Failure String) Unit × Directory × PrefixRuntime :=
  if key.prefixLen.toNat < rt.config.minCacheTokens || !rt.config.writesEnabled then
    (.ok (), dir, rt)
  else if snapshot.prefixLen ≠ key.prefixLen ∨ snapshot.prefixHash ≠ key.prefixTokenHash then
    (.error (.error "snapshot prefix identity does not match cache key"), dir, rt)
  else rt.cacheChecked sha256 faults dir (rt.effectiveKey sha256 key) snapshot

/-- `clear_ram` -/
def clearRam : PrefixRuntime := { rt with ramCache := rt.ramCache.clear }

end PrefixRuntime

/-! ## The runtime and its directory -/

/-- **A directory, and the runtime that works on it**, if there is one. -/
structure PrefixWorld where
  directory : Directory
  runtime : Option PrefixRuntime

/-- What happens in the world, and what fails in it. -/
inductive PrefixOp where
  /-- A new runtime takes the place of the old one. -/
  | restart (config : PrefixRuntimeConfig) (faults : StoreFaults)
  | cache (key : PrefixKey) (snapshot : StateSnapshot) (faults : StoreFaults)
  | lookup (query : PrefixKey) (faults : StoreFaults)
  | clear
  /-- The files change, in any way. -/
  | corrupt (directory : Directory)

inductive PrefixAnswer where
  | done
  | found (result : PrefixLookupResult)
  | failed (failure : Failure String)
  /-- There is no runtime. -/
  | absent
deriving DecidableEq

namespace PrefixWorld

/-- The answer to a computation, with the world after it. A panic ends the
runtime. -/
def answer {A : Type} (answerOk : A → PrefixAnswer) (result : Except (Failure String) A)
    (dir : Directory) (rt : PrefixRuntime) : PrefixAnswer × PrefixWorld :=
  match result with
  | .ok a => (answerOk a, ⟨dir, some rt⟩)
  | .error (.error e) => (.failed (.error e), ⟨dir, some rt⟩)
  | .error e => (.failed e, ⟨dir, none⟩)

/-- **One thing that happens.** A runtime that cannot be built is not there;
files that it has removed by then may be missing after a later change of the
directory. -/
def step (w : PrefixWorld) : PrefixOp → PrefixAnswer × PrefixWorld
  | .restart config faults =>
    match PrefixRuntime.new sha256 faults config w.directory with
    | .ok p => (.done, ⟨p.1, some p.2⟩)
    | .error e => (.failed e, ⟨w.directory, none⟩)
  | .cache key snapshot faults =>
    match w.runtime with
    | none => (.absent, w)
    | some rt =>
      let p := rt.cachePrefix sha256 faults w.directory key snapshot
      answer (fun _ => .done) p.1 p.2.1 p.2.2
  | .lookup query faults =>
    match w.runtime with
    | none => (.absent, w)
    | some rt =>
      let p := rt.lookupPrefix sha256 faults w.directory query
      answer .found p.1 w.directory p.2
  | .clear =>
    match w.runtime with
    | none => (.absent, w)
    | some rt => (.done, ⟨w.directory, some rt.clearRam⟩)
  | .corrupt directory => (.done, ⟨directory, w.runtime⟩)

/-- The world as a machine. -/
def machine : Machine PrefixWorld PrefixOp PrefixAnswer := ⟨step sha256⟩

/-- There is no runtime yet, whatever is in the directory. -/
def initial (directory : Directory) : PrefixWorld := ⟨directory, none⟩

end PrefixWorld

end Sha

end Logan
