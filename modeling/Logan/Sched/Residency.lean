import Logan.Sched.Ids
import Logan.Util.Machine
import Logan.Util.Memory

/-!
# The residency manager

`ResidencyManager` keeps the logical residency of experts in memory pools
with hard budgets: which entries are being loaded or resident, who waits for
a load, who holds a lease, and the byte counters of each pool. It performs
no I/O; a driver carries out the loads it starts and reports their
completion.

As in `Logan.Sched.Core`, a method that mutates `self` and returns a
`Result` is a function from the state to the result paired with the state
afterwards: what was written before an error stays written.

Identifiers, generations and the clock are unsigned integers that the source
advances by `saturating_add`; the model saturates where the source does, at
the same bounds, and truncates the lease counter where the source casts it to
`u32`. What the source advances by a plain `+` is a natural number: the byte
sums of a pool and the leases of an entry, for which `Logan.Sched.ResidencyBudget`
says below which limits that is exact, and the counters that are read nowhere
(hits, misses, transfers and so on).
The entries of a hash map have no order; the one traversal whose answer could
depend on it, the search for an eviction victim, is over time stamps that are
distinct as long as the clock has not saturated.
-/

namespace Logan

/-- A typed identifier for a physical memory budget. -/
structure MemoryPoolId where
  val : ℕ
deriving DecidableEq

/-- A typed identifier for an execution device. -/
structure DeviceId where
  val : ℕ
deriving DecidableEq

/-- A typed identifier for one retained lease. -/
structure LeaseId where
  val : ℕ
deriving DecidableEq

/-- **The physical representation requested by a plan.** Two representations
of one expert are two cache entries. -/
structure RepresentationKey where
  layout : ℕ
  kernelAbi : ℕ
  quant : ℕ
deriving DecidableEq

/-- **A fully qualified physical expert identity.** -/
structure ExpertKey where
  model : ℕ
  package : ℕ
  layer : ℕ
  expert : ℕ
  representation : RepresentationKey
  pool : MemoryPoolId
deriving DecidableEq

/-- Residency state of an entry. -/
inductive ResidencyState where
  | absent
  | loading (loadId : LoadId)
  | resident (generation : Generation)
  | failed (message : String)
deriving DecidableEq

/-- Result of asking the manager to make one key available. -/
inductive LoadDisposition where
  | started (loadId : LoadId)
  | joined (loadId : LoadId)
  | alreadyResident (generation : Generation)
deriving DecidableEq

/-- Result reported by an external loader after its physical work ends. -/
inductive LoadResult where
  | success
  | failed (message : String)
  /-- `LoadResult::Partial`. -/
  | partially (message : String)
  | cancelled
deriving DecidableEq

/-- **A lease handed to a waiter or acquired by a ready session.** It
retains the exact generation it was issued for. -/
structure Lease where
  id : LeaseId
  key : ExpertKey
  generation : Generation
  owner : SessionId
deriving DecidableEq

/-- A waiter wake-up produced by load completion. -/
structure LoadWake where
  session : SessionId
  /-- `Ok(lease)` or `Err(message)`. -/
  result : Lease ⊕ String
deriving DecidableEq

/-- Completion result returned to the driver. -/
inductive CompletionDisposition where
  | published (generation : Generation) (wakes : List LoadWake)
  | failed (wakes : List LoadWake)
  | stale
deriving DecidableEq

/-- Completion envelope accepted from an external loader. -/
structure LoadCompletion where
  loadId : LoadId
  result : LoadResult
deriving DecidableEq

/-- **Counters for one physical memory pool.** -/
structure PoolStats where
  budgetBytes : ℕ := 0
  residentBytes : ℕ := 0
  reservedLoadingBytes : ℕ := 0
  pinnedBytes : ℕ := 0
  hits : ℕ := 0
  misses : ℕ := 0
  loadsStarted : ℕ := 0
  loadsJoined : ℕ := 0
  evictions : ℕ := 0
  failures : ℕ := 0
  transfers : ℕ := 0
  transferBytes : ℕ := 0
  exposedWaitNs : ℕ := 0
deriving DecidableEq

/-- One cache entry. -/
structure Entry where
  state : ResidencyState
  bytes : ℕ
  waiters : List SessionId
  leases : ℕ
  lastTouch : ℕ

/-- A session asks for the load: it waits once, however often it asks. -/
def Entry.join (e : Entry) (waiter : SessionId) : Entry :=
  if waiter ∈ e.waiters then e else { e with waiters := e.waiters ++ [waiter] }

/-- The entry is resident. -/
def Entry.IsResident (e : Entry) : Prop := ∃ g, e.state = .resident g

/-- The entry is being loaded. -/
def Entry.IsLoading (e : Entry) : Prop := ∃ id, e.state = .loading id

theorem Entry.not_isResident {e : Entry} {state : ResidencyState} (h : e.state = state)
    (hne : ∀ g, state ≠ .resident g) : ¬ e.IsResident := by
  rintro ⟨g, hg⟩
  exact hne g (h.symm.trans hg)

theorem Entry.not_isLoading {e : Entry} {state : ResidencyState} (h : e.state = state)
    (hne : ∀ id, state ≠ .loading id) : ¬ e.IsLoading := by
  rintro ⟨id, hid⟩
  exact hne id (h.symm.trans hid)

instance (e : Entry) : Decidable e.IsResident :=
  match h : e.state with
  | .resident g => .isTrue ⟨g, h⟩
  | .absent => .isFalse (Entry.not_isResident h (by simp))
  | .loading _ => .isFalse (Entry.not_isResident h (by simp))
  | .failed _ => .isFalse (Entry.not_isResident h (by simp))

instance (e : Entry) : Decidable e.IsLoading :=
  match h : e.state with
  | .loading id => .isTrue ⟨id, h⟩
  | .absent => .isFalse (Entry.not_isLoading h (by simp))
  | .resident _ => .isFalse (Entry.not_isLoading h (by simp))
  | .failed _ => .isFalse (Entry.not_isLoading h (by simp))

/-- Errors from invalid topology or residency operations. -/
inductive ResidencyError where
  | duplicatePool (pool : MemoryPoolId)
  | duplicateDevice (device : DeviceId)
  | unknownPool (pool : MemoryPoolId)
  | unknownDevice (device : DeviceId)
  | unknownKey
  | unknownLease (lease : LeaseId)
  | staleGeneration
  | sizeMismatch (expected requested : ℕ)
  | budgetExceeded (pool : MemoryPoolId) (requested available : ℕ)
deriving DecidableEq

/-- **A deterministic, single-owner residency manager.** A pool's state is
its counters. -/
structure ResidencyManager where
  pools : Table MemoryPoolId PoolStats
  devices : Table DeviceId (List MemoryPoolId)
  entries : Table ExpertKey Entry
  loads : Table LoadId ExpertKey
  leases : Table LeaseId (ExpertKey × Generation × SessionId)
  nextLoad : ℕ
  /-- The next generation of each key, which outlives the key's entry. -/
  nextGeneration : Table ExpertKey ℕ
  nextLease : ℕ
  clock : ℕ

namespace ResidencyManager

/-- A manager without pools. -/
def new : ResidencyManager where
  pools := ∅
  devices := ∅
  entries := ∅
  loads := ∅
  leases := ∅
  nextLoad := 0
  nextGeneration := ∅
  nextLease := 0
  clock := 0

variable (m : ResidencyManager)

variable (pool : MemoryPoolId)

/-- Register a pool with its budget. -/
def addPool (budgetBytes : ℕ) :
    Except ResidencyError Unit × ResidencyManager :=
  match m.pools.lookup pool with
  | some _ => (.error (.duplicatePool pool), m)
  | none => (.ok (), { m with pools := m.pools.insert pool { budgetBytes := budgetBytes } })

/-- Register a device's explicitly accessible pools. -/
def addDevice (device : DeviceId) (pools : List MemoryPoolId) :
    Except ResidencyError Unit × ResidencyManager :=
  match m.devices.lookup device with
  | some _ => (.error (.duplicateDevice device), m)
  | none =>
    match pools.find? (fun pool => (m.pools.lookup pool).isNone) with
    | some pool => (.error (.unknownPool pool), m)
    | none => (.ok (), { m with devices := m.devices.insert device pools })

/-- The residency state of a key. -/
def state (m : ResidencyManager) (key : ExpertKey) : ResidencyState :=
  ((m.entries.lookup key).map Entry.state).getD .absent

/-- `self.pool_mut(pool)?` followed by an update of its counters. -/
def updateStats (f : PoolStats → PoolStats) :
    Except ResidencyError Unit × ResidencyManager :=
  match m.pools.lookup pool with
  | none => (.error (.unknownPool pool), m)
  | some stats => (.ok (), { m with pools := m.pools.insert pool (f stats) })

/-- Advance the clock. -/
def tick : ℕ × ResidencyManager :=
  let clock := saturatingAdd u64Max m.clock 1
  (clock, { m with clock := clock })

variable (key : ExpertKey)

/-- Renew an entry's time stamp. -/
def touch : ResidencyManager :=
  let (now, m) := m.tick
  { m with entries := m.entries.modify key (fun entry => { entry with lastTouch := now }) }

/-- Take the next load identifier. -/
def allocLoad : LoadId × ResidencyManager :=
  (⟨m.nextLoad⟩, { m with nextLoad := saturatingAdd u64Max m.nextLoad 1 })

/-- Take a key's next generation. -/
def allocGeneration : Generation × ResidencyManager :=
  let next := (m.nextGeneration.lookup key).getD 0
  (⟨next⟩, { m with nextGeneration := m.nextGeneration.insert key (saturatingAdd u64Max next 1) })

/-- Issue a lease on a generation. -/
def newLease (generation : Generation)
    (owner : SessionId) : Lease × ResidencyManager :=
  (⟨⟨m.nextLease⟩, key, generation, owner⟩,
    { m with
      nextLease := saturatingAdd u64Max m.nextLease 1
      leases := m.leases.insert ⟨m.nextLease⟩ (key, generation, owner) })

/-- What an entry adds to a pool's pinned bytes. -/
def pinnedIn (key : ExpertKey) (entry : Entry) : ℕ :=
  if key.pool = pool ∧ 0 < entry.leases ∧ entry.IsResident then entry.bytes else 0

/-- Recompute a pool's pinned bytes. -/
def refreshPinned : ResidencyManager :=
  (m.updateStats pool (fun stats => { stats with pinnedBytes := m.entries.sum (pinnedIn pool) })).2

/-- The entries that `evict` may remove from a pool: resident, without a
lease. -/
def evictable : List (ExpertKey × Entry) :=
  (m.entries.entries.map (fun e => (e.1, e.2))).filter
    (fun (key, entry) => key.pool = pool ∧ entry.leases = 0 ∧ entry.IsResident)

/-- **Evict the least-recently-used unpinned resident entry** in one pool. -/
def evict :
    Except ResidencyError (Option ExpertKey) × ResidencyManager :=
  match m.pools.lookup pool with
  | none => (.error (.unknownPool pool), m)
  | some _ =>
    match (m.evictable pool).argmin (fun (_, entry) => entry.lastTouch) with
    | none => (.ok none, m)
    | some (key, entry) =>
      let m := { m with entries := m.entries.erase key }
      match m.updateStats pool (fun stats => { stats with
          residentBytes := stats.residentBytes - entry.bytes
          evictions := stats.evictions + 1 }) with
      | (.error e, m) => (.error e, m)
      | (.ok (), m) => (.ok (some key), m.refreshPinned pool)

/-- The `loop` of `ensure_space`: evict until the requested bytes fit. An
eviction removes an entry, so the number of entries is fuel enough
(`ensureSpaceLoop_of_enough`); running out of it is answered as a pool
without anything left to evict is. -/
def ensureSpaceLoop (pool : MemoryPoolId) (bytes budget : ℕ) :
    ℕ → ResidencyManager → Except ResidencyError Unit × ResidencyManager
  | 0, m => (.error (.budgetExceeded pool bytes 0), m)
  | fuel + 1, m =>
    match m.pools.lookup pool with
    | none => (.error (.unknownPool pool), m)
    | some stats =>
      let used := saturatingAdd usizeMax stats.residentBytes stats.reservedLoadingBytes
      if saturatingAdd usizeMax used bytes ≤ budget then (.ok (), m)
      else
        match m.evict pool with
        | (.error e, m) => (.error e, m)
        | (.ok none, m) => (.error (.budgetExceeded pool bytes (budget - used)), m)
        | (.ok (some _), m) => ensureSpaceLoop pool bytes budget fuel m

/-- Make room for the requested bytes. -/
def ensureSpace (bytes : ℕ) :
    Except ResidencyError Unit × ResidencyManager :=
  match m.pools.lookup pool with
  | none => (.error (.unknownPool pool), m)
  | some stats =>
    let budget := stats.budgetBytes
    if budget < bytes then (.error (.budgetExceeded pool bytes budget), m)
    else ensureSpaceLoop pool bytes budget (m.entries.entries.length + 1) m

/-- The second half of `begin_load`, for a key that is neither resident nor
being loaded: reserve the bytes and start the load. -/
def startLoad (bytes : ℕ) (waiter : SessionId) :
    Except ResidencyError LoadDisposition × ResidencyManager :=
  match m.ensureSpace key.pool bytes with
  | (.error e, m) => (.error e, m)
  | (.ok (), m) =>
    let (loadId, m) := m.allocLoad
    let (lastTouch, m) := m.tick
    let m := { m with
      entries := m.entries.insert key ⟨.loading loadId, bytes, [waiter], 0, lastTouch⟩
      loads := m.loads.insert loadId key }
    match m.updateStats key.pool (fun stats => { stats with
        misses := stats.misses + 1
        loadsStarted := stats.loadsStarted + 1
        reservedLoadingBytes := stats.reservedLoadingBytes + bytes }) with
    | (.error e, m) => (.error e, m)
    | (.ok (), m) => (.ok (.started loadId), m)

/-- **Reserve bytes and start or join one physical load.** -/
def beginLoad (bytes : ℕ) (waiter : SessionId) :
    Except ResidencyError LoadDisposition × ResidencyManager :=
  match m.entries.lookup key with
  | none => m.startLoad key bytes waiter
  | some entry =>
    match entry.state with
    | .resident generation =>
      match (m.touch key).updateStats key.pool
          (fun stats => { stats with hits := stats.hits + 1 }) with
      | (.error e, m) => (.error e, m)
      | (.ok (), m) => (.ok (.alreadyResident generation), m)
    | .loading loadId =>
      if entry.bytes ≠ bytes then (.error (.sizeMismatch entry.bytes bytes), m)
      else
        let m := { m with entries := m.entries.insert key (entry.join waiter) }
        match m.updateStats key.pool
            (fun stats => { stats with loadsJoined := stats.loadsJoined + 1 }) with
        | (.error e, m) => (.error e, m)
        | (.ok (), m) => (.ok (.joined loadId), m)
    | .failed _ | .absent => m.startLoad key bytes waiter

/-- Issue one lease to each waiter, in order. -/
def newLeases (m : ResidencyManager) (key : ExpertKey) (generation : Generation) :
    List SessionId → List LoadWake × ResidencyManager
  | [] => ([], m)
  | session :: sessions =>
    let (lease, m) := m.newLease key generation session
    let (wakes, m) := newLeases m key generation sessions
    (⟨session, .inl lease⟩ :: wakes, m)

/-- `complete_load` after a success: publish one new generation and hand a
lease on it to every waiter. -/
def publish (bytes : ℕ) (waiters : List SessionId) :
    Except ResidencyError CompletionDisposition × ResidencyManager :=
  let (generation, m) := m.allocGeneration key
  let (lastTouch, m) := m.tick
  let m := { m with
    entries := m.entries.modify key
      (fun entry => { entry with state := .resident generation, lastTouch := lastTouch }) }
  let (wakes, m) := m.newLeases key generation waiters
  let m := { m with
    entries := m.entries.modify key (fun entry => { entry with leases := wakes.length % 2 ^ 32 }) }
  match m.updateStats key.pool
      (fun stats => { stats with residentBytes := stats.residentBytes + bytes }) with
  | (.error e, m) => (.error e, m)
  | (.ok (), m) => (.ok (.published generation wakes), m.refreshPinned key.pool)

/-- `complete_load` after a failure: every waiter gets the message. -/
def failLoad (waiters : List SessionId)
    (message : String) : Except ResidencyError CompletionDisposition × ResidencyManager :=
  let m := { m with
    entries := m.entries.modify key (fun entry => { entry with state := .failed message }) }
  match m.updateStats key.pool
      (fun stats => { stats with failures := stats.failures + 1 }) with
  | (.error e, m) => (.error e, m)
  | (.ok (), m) =>
    (.ok (.failed (waiters.map (fun session => ⟨session, .inr message⟩))), m)

/-- **Complete a physical load**, publishing one new generation on
success. -/
def completeLoad (completion : LoadCompletion) :
    Except ResidencyError CompletionDisposition × ResidencyManager :=
  match m.loads.lookup completion.loadId with
  | none => (.ok .stale, m)
  | some key =>
    let m := { m with loads := m.loads.erase completion.loadId }
    match m.entries.lookup key with
    | none => (.ok .stale, m)
    | some entry =>
      match entry.state with
      | .loading loadId =>
        if loadId ≠ completion.loadId then (.ok .stale, m)
        else
          let m := { m with entries := m.entries.insert key { entry with waiters := [] } }
          match m.updateStats key.pool (fun stats => { stats with
              reservedLoadingBytes := stats.reservedLoadingBytes - entry.bytes }) with
          | (.error e, m) => (.error e, m)
          | (.ok (), m) =>
            match completion.result with
            | .success => m.publish key entry.bytes entry.waiters
            | .failed message | .partially message => m.failLoad key entry.waiters message
            | .cancelled => m.failLoad key entry.waiters "load cancelled"
      | .absent | .resident _ | .failed _ => (.ok .stale, m)

/-- **Remove one waiter** without cancelling an issued load. -/
def cancelWaiter (loadId : LoadId) (session : SessionId) :
    Bool × ResidencyManager :=
  match m.loads.lookup loadId with
  | none => (false, m)
  | some key =>
    match m.entries.lookup key with
    | none => (false, m)
    | some entry =>
      let waiters := entry.waiters.filter (fun candidate => candidate ≠ session)
      (entry.waiters.length != waiters.length,
        { m with entries := m.entries.insert key { entry with waiters := waiters } })

/-- **Acquire a fresh lease** for an already published generation. -/
def acquire (owner : SessionId) :
    Except ResidencyError Lease × ResidencyManager :=
  match m.state key with
  | .resident generation =>
    let (lease, m) := m.newLease key generation owner
    let (lastTouch, m) := m.tick
    let m := { m with
      entries := m.entries.modify key
        (fun entry => { entry with leases := entry.leases + 1, lastTouch := lastTouch }) }
    (.ok lease, m.refreshPinned key.pool)
  | .absent | .loading _ | .failed _ => (.error .unknownKey, m)

/-- **Release exactly one lease.** -/
def release (lease : Lease) :
    Except ResidencyError Unit × ResidencyManager :=
  match m.leases.lookup lease.id with
  | none => (.error (.unknownLease lease.id), m)
  | some (storedKey, storedGeneration, _) =>
    if storedKey ≠ lease.key ∨ storedGeneration ≠ lease.generation then
      (.error .staleGeneration, m)
    else
      match m.entries.lookup storedKey with
      | none => (.error .staleGeneration, m)
      | some entry =>
        if entry.state ≠ .resident storedGeneration then (.error .staleGeneration, m)
        else
          let m := { m with
            entries := m.entries.insert storedKey { entry with leases := entry.leases - 1 }
            leases := m.leases.erase lease.id }
          (.ok (), m.refreshPinned storedKey.pool)

/-- Record backend transfer telemetry. -/
def recordTransfer (m : ResidencyManager) (pool : MemoryPoolId) (bytes exposedWaitNs : ℕ) :
    Except ResidencyError Unit × ResidencyManager :=
  m.updateStats pool (fun stats => { stats with
    transfers := stats.transfers + 1
    transferBytes := stats.transferBytes + bytes
    exposedWaitNs := stats.exposedWaitNs + exposedWaitNs })

end ResidencyManager

/-! ## One operation at a time -/

/-- One operation on the manager: those of the deterministic simulator, and
`record_transfer`, which the simulator leaves out. -/
inductive ResidencyOp where
  | addPool (pool : MemoryPoolId) (budget : ℕ)
  | addDevice (device : DeviceId) (pools : List MemoryPoolId)
  | beginLoad (key : ExpertKey) (bytes : ℕ) (waiter : SessionId)
  | cancelWaiter (loadId : LoadId) (session : SessionId)
  | completeLoad (completion : LoadCompletion)
  | acquire (key : ExpertKey) (owner : SessionId)
  | release (lease : Lease)
  | evict (pool : MemoryPoolId)
  | recordTransfer (pool : MemoryPoolId) (bytes exposedWaitNs : ℕ)
deriving DecidableEq

/-- Result of one operation. -/
inductive ResidencyOutcome where
  | configured (result : Except ResidencyError Unit)
  | load (result : Except ResidencyError LoadDisposition)
  | waiterCancelled (removed : Bool)
  | completion (result : Except ResidencyError CompletionDisposition)
  | lease (result : Except ResidencyError Lease)
  | released (result : Except ResidencyError Unit)
  | evicted (result : Except ResidencyError (Option ExpertKey))

namespace ResidencyManager

/-- `ResidencySimulator::execute`: **apply one operation.** -/
def execute (m : ResidencyManager) : ResidencyOp → ResidencyOutcome × ResidencyManager
  | .addPool pool budget => ((m.addPool pool budget).map .configured id)
  | .addDevice device pools => ((m.addDevice device pools).map .configured id)
  | .beginLoad key bytes waiter => ((m.beginLoad key bytes waiter).map .load id)
  | .cancelWaiter loadId session => ((m.cancelWaiter loadId session).map .waiterCancelled id)
  | .completeLoad completion => ((m.completeLoad completion).map .completion id)
  | .acquire key owner => ((m.acquire key owner).map .lease id)
  | .release lease => ((m.release lease).map .released id)
  | .evict pool => ((m.evict pool).map .evicted id)
  | .recordTransfer pool bytes exposedWaitNs =>
    ((m.recordTransfer pool bytes exposedWaitNs).map .configured id)

/-- **The manager as a machine** reading operations. -/
def machine : Machine ResidencyManager ResidencyOp ResidencyOutcome := ⟨execute⟩

end ResidencyManager

end Logan
