import Logan.Sched.Residency

/-!
# What an operation of the residency manager can do

Each successful operation rewrites one entry, the counters of its pool and
at most a few of the other tables; `begin_load` may evict other entries of
the pool first. The rewrites are defined here as explicit records
(`ResidencyManager.hit` to `ResidencyManager.evicted`), and
`ResidencyManager.Transition` says of every operation which of them it
performs, under which guard and with which answer
(`execute_transition`). Whatever is proved later about runs of the manager
is proved by cases on it, without unfolding an operation again.

The one thing that has to be known of the state for this is that the pool of
every entry is registered (`Placed`). Nothing removes a pool, so it holds of
every run, whatever the counters do.
-/

namespace Logan

open Table Option

/-- The message a load that did not succeed leaves, `None` of a success. -/
def LoadResult.failure : LoadResult → Option String
  | .success => none
  | .failed message | .partially message => some message
  | .cancelled => some "load cancelled"

/-- The answers that come with no effect. -/
def ResidencyOutcome.IsRefusal : ResidencyOutcome → Prop
  | .configured (.error _) | .load (.error _) | .completion (.ok .stale)
  | .completion (.error _) | .lease (.error _) | .released (.error _)
  | .evicted (.ok none) | .evicted (.error _) => True
  | .configured (.ok _) | .load (.ok _) | .waiterCancelled _
  | .completion (.ok (.published _ _)) | .completion (.ok (.failed _)) | .lease (.ok _)
  | .released (.ok _) | .evicted (.ok (some _)) => False

namespace ResidencyManager

variable {m : ResidencyManager} {key : ExpertKey} {entry : Entry} {stats : PoolStats}

/-- **Every entry lies in a registered pool.** -/
def Placed (m : ResidencyManager) : Prop :=
  ∀ key entry, m.entries.lookup key = some entry → ∃ stats, m.pools.lookup key.pool = some stats

/-! ## The rewrites -/

theorem join_state (entry : Entry) (waiter : SessionId) :
    (entry.join waiter).state = entry.state := by
  unfold Entry.join
  split <;> rfl

theorem join_bytes (entry : Entry) (waiter : SessionId) :
    (entry.join waiter).bytes = entry.bytes := by
  unfold Entry.join
  split <;> rfl

theorem join_leases (entry : Entry) (waiter : SessionId) :
    (entry.join waiter).leases = entry.leases := by
  unfold Entry.join
  split <;> rfl

theorem join_lastTouch (entry : Entry) (waiter : SessionId) :
    (entry.join waiter).lastTouch = entry.lastTouch := by
  unfold Entry.join
  split <;> rfl

/-- Replace an entry and the counters of its pool. -/
def put (m : ResidencyManager) (key : ExpertKey) (entry : Entry) (stats : PoolStats) :
    ResidencyManager :=
  { m with entries := m.entries.insert key entry, pools := m.pools.insert key.pool stats }

/-- The pinned bytes of the key's pool once the key's entry is replaced. -/
def pinnedWith (m : ResidencyManager) (key : ExpertKey) (entry : Entry) : ℕ :=
  (m.entries.insert key entry).sum (pinnedIn key.pool)

/-- A resident entry was asked for. -/
def hit (m : ResidencyManager) (key : ExpertKey) (entry : Entry) (stats : PoolStats) :
    ResidencyManager :=
  { m.put key { entry with lastTouch := m.tick.1 } { stats with hits := stats.hits + 1 } with
    clock := m.tick.1 }

/-- A session joined a load. -/
def joined (m : ResidencyManager) (key : ExpertKey) (entry : Entry) (stats : PoolStats)
    (waiter : SessionId) : ResidencyManager :=
  m.put key (entry.join waiter) { stats with loadsJoined := stats.loadsJoined + 1 }

/-- A load was started. -/
def started (m : ResidencyManager) (key : ExpertKey) (bytes : ℕ) (waiter : SessionId)
    (stats : PoolStats) : ResidencyManager :=
  { m.put key ⟨.loading ⟨m.nextLoad⟩, bytes, [waiter], 0, m.tick.1⟩ { stats with
      misses := stats.misses + 1
      loadsStarted := stats.loadsStarted + 1
      reservedLoadingBytes := stats.reservedLoadingBytes + bytes } with
    loads := m.loads.insert ⟨m.nextLoad⟩ key
    nextLoad := saturatingAdd u64Max m.nextLoad 1
    clock := m.tick.1 }

/-- A waiter left a load. -/
def left (m : ResidencyManager) (key : ExpertKey) (entry : Entry) (session : SessionId) :
    ResidencyManager :=
  { m with entries := m.entries.insert key { entry with
      waiters := entry.waiters.filter (fun candidate => candidate ≠ session) } }

/-- The generation a key gets next. -/
def upcoming (m : ResidencyManager) (key : ExpertKey) : Generation :=
  ⟨(m.nextGeneration.lookup key).getD 0⟩

/-- The lease records. -/
abbrev LeaseTable : Type := Table LeaseId (ExpertKey × Generation × SessionId)

/-- One lease to each waiter, in order: the wakes, the next lease identifier
and the lease records afterwards. -/
def grant (key : ExpertKey) (generation : Generation) :
    List SessionId → ℕ → LeaseTable → List LoadWake × ℕ × LeaseTable
  | [], next, leases => ([], next, leases)
  | session :: sessions, next, leases =>
    let granted := grant key generation sessions (saturatingAdd u64Max next 1)
      (leases.insert ⟨next⟩ (key, generation, session))
    (⟨session, .inl ⟨⟨next⟩, key, generation, session⟩⟩ :: granted.1, granted.2)

/-- What the waiters of an entry are granted when its load succeeds. -/
def granted (m : ResidencyManager) (key : ExpertKey) (entry : Entry) :
    List LoadWake × ℕ × LeaseTable :=
  grant key (m.upcoming key) entry.waiters m.nextLease m.leases

/-- An entry at the moment its load succeeds. -/
def publishedEntry (m : ResidencyManager) (key : ExpertKey) (entry : Entry) : Entry :=
  ⟨.resident (m.upcoming key), entry.bytes, [], entry.waiters.length % 2 ^ 32, m.tick.1⟩

/-- A load succeeded. -/
def published (m : ResidencyManager) (loadId : LoadId) (key : ExpertKey) (entry : Entry)
    (stats : PoolStats) : ResidencyManager :=
  { m.put key (m.publishedEntry key entry) { stats with
      reservedLoadingBytes := stats.reservedLoadingBytes - entry.bytes
      residentBytes := stats.residentBytes + entry.bytes
      pinnedBytes := m.pinnedWith key (m.publishedEntry key entry) } with
    loads := m.loads.erase loadId
    leases := (m.granted key entry).2.2
    nextLease := (m.granted key entry).2.1
    nextGeneration :=
      m.nextGeneration.insert key (saturatingAdd u64Max (m.upcoming key).val 1)
    clock := m.tick.1 }

/-- A load failed. -/
def failed (m : ResidencyManager) (loadId : LoadId) (key : ExpertKey) (entry : Entry)
    (stats : PoolStats) (message : String) : ResidencyManager :=
  { m.put key { entry with state := .failed message, waiters := [] } { stats with
      reservedLoadingBytes := stats.reservedLoadingBytes - entry.bytes
      failures := stats.failures + 1 } with
    loads := m.loads.erase loadId }

/-- An entry with one lease more. -/
def leasedEntry (m : ResidencyManager) (entry : Entry) : Entry :=
  { entry with leases := entry.leases + 1, lastTouch := m.tick.1 }

/-- A lease was acquired. -/
def acquired (m : ResidencyManager) (key : ExpertKey) (entry : Entry) (stats : PoolStats)
    (generation : Generation) (owner : SessionId) : ResidencyManager :=
  { m.put key (m.leasedEntry entry)
      { stats with pinnedBytes := m.pinnedWith key (m.leasedEntry entry) } with
    leases := m.leases.insert ⟨m.nextLease⟩ (key, generation, owner)
    nextLease := saturatingAdd u64Max m.nextLease 1
    clock := m.tick.1 }

/-- An entry with one lease less. -/
def returnedEntry (entry : Entry) : Entry :=
  { entry with leases := entry.leases - 1 }

/-- A lease was released. -/
def released (m : ResidencyManager) (leaseId : LeaseId) (key : ExpertKey) (entry : Entry)
    (stats : PoolStats) : ResidencyManager :=
  { m.put key (returnedEntry entry)
      { stats with pinnedBytes := m.pinnedWith key (returnedEntry entry) } with
    leases := m.leases.erase leaseId }

/-- An entry was evicted. -/
def evicted (m : ResidencyManager) (key : ExpertKey) (entry : Entry) (stats : PoolStats) :
    ResidencyManager :=
  { m with
    entries := m.entries.erase key
    pools := m.pools.insert key.pool { stats with
      residentBytes := stats.residentBytes - entry.bytes
      evictions := stats.evictions + 1
      pinnedBytes := (m.entries.erase key).sum (pinnedIn key.pool) } }

/-- **One eviction**: a resident entry without a lease goes. -/
inductive Evicts (m : ResidencyManager) (key : ExpertKey) : ResidencyManager → Prop
  | evicted (entry : Entry) (stats : PoolStats)
    (he : m.entries.lookup key = some entry) (hidle : entry.leases = 0)
    (hres : entry.IsResident) (hs : m.pools.lookup key.pool = some stats) :
    Evicts m key (m.evicted key entry stats)

/-- Any number of evictions. -/
def Evictions : ResidencyManager → ResidencyManager → Prop :=
  Relation.ReflTransGen (fun m d => ∃ key, m.Evicts key d)

/-! ## The transitions -/

/-- **The transitions of the manager**: the operation, its answer, and the
state afterwards. -/
inductive Transition (m : ResidencyManager) :
    ResidencyOp → ResidencyOutcome → ResidencyManager → Prop
  | poolAdded (pool : MemoryPoolId) (budget : ℕ) (hnew : m.pools.lookup pool = none) :
    Transition m (.addPool pool budget) (.configured (.ok ()))
      { m with pools := m.pools.insert pool { budgetBytes := budget } }
  | deviceAdded (device : DeviceId) (pools : List MemoryPoolId) :
    Transition m (.addDevice device pools) (.configured (.ok ()))
      { m with devices := m.devices.insert device pools }
  | hit (key : ExpertKey) (bytes : ℕ) (waiter : SessionId) (entry : Entry) (stats : PoolStats)
    (generation : Generation) (he : m.entries.lookup key = some entry)
    (hstate : entry.state = .resident generation) (hs : m.pools.lookup key.pool = some stats) :
    Transition m (.beginLoad key bytes waiter) (.load (.ok (.alreadyResident generation)))
      (m.hit key entry stats)
  | joined (key : ExpertKey) (waiter : SessionId) (entry : Entry) (stats : PoolStats)
    (loadId : LoadId) (he : m.entries.lookup key = some entry)
    (hstate : entry.state = .loading loadId) (hs : m.pools.lookup key.pool = some stats) :
    Transition m (.beginLoad key entry.bytes waiter) (.load (.ok (.joined loadId)))
      (m.joined key entry stats waiter)
  | started (key : ExpertKey) (bytes : ℕ) (waiter : SessionId) (d : ResidencyManager)
    (stats : PoolStats) (hev : m.Evictions d)
    (hidle : ∀ entry, m.entries.lookup key = some entry → ¬ entry.IsResident ∧ ¬ entry.IsLoading)
    (hs : d.pools.lookup key.pool = some stats)
    (hroom : saturatingAdd usizeMax
      (saturatingAdd usizeMax stats.residentBytes stats.reservedLoadingBytes) bytes
        ≤ stats.budgetBytes) :
    Transition m (.beginLoad key bytes waiter) (.load (.ok (.started ⟨d.nextLoad⟩)))
      (d.started key bytes waiter stats)
  | crowded (key : ExpertKey) (bytes : ℕ) (waiter : SessionId) (d : ResidencyManager)
    (e : ResidencyError) (hev : m.Evictions d) :
    Transition m (.beginLoad key bytes waiter) (.load (.error e)) d
  | left (loadId : LoadId) (session : SessionId) (key : ExpertKey) (entry : Entry) (b : Bool)
    (hl : m.loads.lookup loadId = some key) (he : m.entries.lookup key = some entry) :
    Transition m (.cancelWaiter loadId session) (.waiterCancelled b) (m.left key entry session)
  | published (loadId : LoadId) (key : ExpertKey) (entry : Entry) (stats : PoolStats)
    (hl : m.loads.lookup loadId = some key) (he : m.entries.lookup key = some entry)
    (hstate : entry.state = .loading loadId) (hs : m.pools.lookup key.pool = some stats) :
    Transition m (.completeLoad ⟨loadId, .success⟩)
      (.completion (.ok (.published (m.upcoming key) (m.granted key entry).1)))
      (m.published loadId key entry stats)
  | failed (loadId : LoadId) (result : LoadResult) (message : String) (key : ExpertKey)
    (entry : Entry) (stats : PoolStats) (hresult : result.failure = some message)
    (hl : m.loads.lookup loadId = some key) (he : m.entries.lookup key = some entry)
    (hstate : entry.state = .loading loadId) (hs : m.pools.lookup key.pool = some stats) :
    Transition m (.completeLoad ⟨loadId, result⟩)
      (.completion (.ok (.failed (entry.waiters.map (fun session => ⟨session, .inr message⟩)))))
      (m.failed loadId key entry stats message)
  | dropped (loadId : LoadId) (result : LoadResult) (key : ExpertKey)
    (hl : m.loads.lookup loadId = some key)
    (hgone : ∀ entry, m.entries.lookup key = some entry → entry.state ≠ .loading loadId) :
    Transition m (.completeLoad ⟨loadId, result⟩) (.completion (.ok .stale))
      { m with loads := m.loads.erase loadId }
  | acquired (key : ExpertKey) (owner : SessionId) (entry : Entry) (stats : PoolStats)
    (generation : Generation) (he : m.entries.lookup key = some entry)
    (hstate : entry.state = .resident generation) (hs : m.pools.lookup key.pool = some stats) :
    Transition m (.acquire key owner) (.lease (.ok ⟨⟨m.nextLease⟩, key, generation, owner⟩))
      (m.acquired key entry stats generation owner)
  | released (lease : Lease) (owner : SessionId) (entry : Entry) (stats : PoolStats)
    (hl : m.leases.lookup lease.id = some (lease.key, lease.generation, owner))
    (he : m.entries.lookup lease.key = some entry)
    (hstate : entry.state = .resident lease.generation)
    (hs : m.pools.lookup lease.key.pool = some stats) :
    Transition m (.release lease) (.released (.ok ())) (m.released lease.id lease.key entry stats)
  | evicted (key : ExpertKey) (d : ResidencyManager) (hev : m.Evicts key d) :
    Transition m (.evict key.pool) (.evicted (.ok (some key))) d
  | transferred (pool : MemoryPoolId) (bytes exposedWaitNs : ℕ) (stats : PoolStats)
    (hs : m.pools.lookup pool = some stats) :
    Transition m (.recordTransfer pool bytes exposedWaitNs) (.configured (.ok ()))
      { m with pools := m.pools.insert pool { stats with
          transfers := stats.transfers + 1
          transferBytes := stats.transferBytes + bytes
          exposedWaitNs := stats.exposedWaitNs + exposedWaitNs } }
  | ignored (loadId : LoadId) (session : SessionId)
    (hgone : ∀ key, m.loads.lookup loadId = some key → m.entries.lookup key = none) :
    Transition m (.cancelWaiter loadId session) (.waiterCancelled false) m
  | refused (op : ResidencyOp) (out : ResidencyOutcome) (h : out.IsRefusal)
    (hop : ∀ loadId session, op ≠ .cancelWaiter loadId session) :
    Transition m op out m

/-! ## Helpers of the operations -/

theorem updateStats_of_lookup {pool : MemoryPoolId} (stats : PoolStats)
    (f : PoolStats → PoolStats) (h : m.pools.lookup pool = some stats) :
    m.updateStats pool f = (.ok (), { m with pools := m.pools.insert pool (f stats) }) := by
  rw [updateStats, h]

theorem refreshPinned_of_lookup {pool : MemoryPoolId} (stats : PoolStats)
    (h : m.pools.lookup pool = some stats) : m.refreshPinned pool = { m with
      pools := m.pools.insert pool
        { stats with pinnedBytes := m.entries.sum (pinnedIn pool) } } := by
  rw [refreshPinned, updateStats_of_lookup stats _ h]

theorem touch_of_lookup (he : m.entries.lookup key = some entry) : m.touch key = { m with
      entries := m.entries.insert key { entry with lastTouch := m.tick.1 }
      clock := m.tick.1 } := by
  have h := modify_of_lookup he (fun e => { e with lastTouch := m.tick.1 })
  exact congrArg (fun entries => { m with entries := entries, clock := m.tick.1 }) h

/-- `new_lease` in a loop only takes identifiers and records leases. -/
theorem newLeases_eq (m : ResidencyManager) (key : ExpertKey) (generation : Generation)
    (waiters : List SessionId) : m.newLeases key generation waiters
      = ((grant key generation waiters m.nextLease m.leases).1, { m with
          nextLease := (grant key generation waiters m.nextLease m.leases).2.1
          leases := (grant key generation waiters m.nextLease m.leases).2.2 }) := by
  induction waiters generalizing m with
  | nil => rfl
  | cons session sessions ih =>
    rw [newLeases]
    simp only [ih]
    rfl

theorem length_grant (key : ExpertKey) (generation : Generation) (waiters : List SessionId)
    (next : ℕ) (leases : LeaseTable) :
    (grant key generation waiters next leases).1.length = waiters.length := by
  induction waiters generalizing next leases with
  | nil => rfl
  | cons session sessions ih => exact congrArg Nat.succ (ih _ _)

theorem mem_evictable {pool : MemoryPoolId} (h : (key, entry) ∈ m.evictable pool) :
    m.entries.lookup key = some entry ∧ key.pool = pool ∧ entry.leases = 0 ∧ entry.IsResident := by
  obtain ⟨hmem, hcon⟩ := List.mem_filter.mp h
  obtain ⟨e, he, heq⟩ := List.mem_map.mp hmem
  cases heq
  exact ⟨AList.mem_lookup_iff.mpr he, of_decide_eq_true hcon⟩

/-- **What `evict` does**: it evicts the entry of the pool it finds, or
nothing. -/
theorem evict_cases (m : ResidencyManager) (pool : MemoryPoolId) :
    (∃ key d, m.evict pool = (.ok (some key), d) ∧ key.pool = pool ∧ m.Evicts key d
      ∧ ∃ entry, (key, entry) ∈ (m.evictable pool).argmin (fun e => e.2.lastTouch))
    ∨ (m.evict pool = (.ok none, m) ∧ m.evictable pool = [])
    ∨ ∃ e, m.evict pool = (.error e, m) ∧ m.pools.lookup pool = none := by
  unfold evict
  cases hs : m.pools.lookup pool with
  | none => exact Or.inr (Or.inr ⟨_, rfl, rfl⟩)
  | some stats =>
    cases hmin : (m.evictable pool).argmin (fun e => e.2.lastTouch) with
    | none => exact Or.inr (Or.inl ⟨rfl, List.argmin_eq_none.mp hmin⟩)
    | some victim =>
      obtain ⟨key, entry⟩ := victim
      obtain ⟨he, rfl, hidl, hres⟩ := mem_evictable (List.argmin_mem hmin)
      refine Or.inl ⟨key, m.evicted key entry stats, ?_, rfl,
        .evicted entry stats he hidl hres hs, entry, mem_some_self _⟩
      dsimp only
      rw [updateStats_of_lookup (m := { m with entries := m.entries.erase key }) stats _ hs]
      dsimp only
      rw [refreshPinned_of_lookup _ (lookup_insert_self _ _ _)]
      simp only [insert_insert]
      rfl

variable {d : ResidencyManager}

theorem Evicts.budget (h : m.Evicts key d) (pool : MemoryPoolId) :
    (d.pools.lookup pool).map PoolStats.budgetBytes
      = (m.pools.lookup pool).map PoolStats.budgetBytes := by
  cases h with
  | evicted entry stats he hidl hres hs =>
    show ((m.pools.insert _ _).lookup pool).map _ = _
    rw [lookup_insert]
    by_cases hp : pool = key.pool
    · rw [if_pos hp, hp, hs]
      rfl
    · rw [if_neg hp]

theorem Evicts.length_lt (h : m.Evicts key d) :
    d.entries.entries.length < m.entries.entries.length := by
  cases h with
  | evicted entry stats he =>
    have hsum := sum_erase_add m.entries (fun _ _ => 1) key
    rw [weigh_of_lookup he] at hsum
    have hlen : ∀ t : Table ExpertKey Entry, t.sum (fun _ _ => 1) = t.entries.length := by
      intro t
      simp [sum]
    rw [hlen, hlen] at hsum
    show (m.entries.erase key).entries.length < _
    omega

/-- **What the loop of `ensure_space` does**: it evicts until the bytes fit,
or gives up. -/
theorem ensureSpaceLoop_cases (pool : MemoryPoolId) (bytes budget fuel : ℕ) (m : ResidencyManager)
    (hbud : ∀ stats, m.pools.lookup pool = some stats → stats.budgetBytes = budget) :
    ∃ d, m.Evictions d ∧ ((ensureSpaceLoop pool bytes budget fuel m = (.ok (), d)
        ∧ ∃ stats, d.pools.lookup pool = some stats ∧ saturatingAdd usizeMax
            (saturatingAdd usizeMax stats.residentBytes stats.reservedLoadingBytes) bytes
              ≤ stats.budgetBytes)
      ∨ ∃ e, ensureSpaceLoop pool bytes budget fuel m = (.error e, d)) := by
  induction fuel generalizing m with
  | zero => exact ⟨m, .refl, Or.inr ⟨_, rfl⟩⟩
  | succ fuel ih =>
    cases hs : m.pools.lookup pool with
    | none =>
      refine ⟨m, .refl, Or.inr ⟨.unknownPool pool, ?_⟩⟩
      rw [ensureSpaceLoop, hs]
    | some stats =>
      have hb := hbud stats hs
      by_cases hrm : saturatingAdd usizeMax
          (saturatingAdd usizeMax stats.residentBytes stats.reservedLoadingBytes) bytes ≤ budget
      · refine ⟨m, .refl, Or.inl ⟨?_, stats, hs, hb ▸ hrm⟩⟩
        rw [ensureSpaceLoop, hs]
        exact if_pos hrm
      · rw [ensureSpaceLoop, hs]
        dsimp only
        rw [if_neg hrm]
        rcases evict_cases m pool with ⟨key, d, heq, -, hev, -⟩ | ⟨heq, -⟩ | ⟨e, heq, -⟩
        · have hd : ∀ stats, d.pools.lookup pool = some stats → stats.budgetBytes = budget := by
            intro stats' hs'
            have hkep := hev.budget pool
            rw [hs', hs] at hkep
            exact (some.inj hkep).trans hb
          obtain ⟨d', hevs, hres⟩ := ih d hd
          refine ⟨d', .head ⟨key, hev⟩ hevs, ?_⟩
          rwa [heq]
        · rw [heq]
          exact ⟨m, .refl, Or.inr ⟨_, rfl⟩⟩
        · rw [heq]
          exact ⟨m, .refl, Or.inr ⟨e, rfl⟩⟩

/-- **The fuel of the loop does not matter** once it exceeds the number of
entries. -/
theorem ensureSpaceLoop_of_enough (pool : MemoryPoolId) (bytes budget fuel : ℕ)
    (m : ResidencyManager) (h : m.entries.entries.length < fuel) (extra : ℕ) :
    ensureSpaceLoop pool bytes budget (fuel + extra) m
      = ensureSpaceLoop pool bytes budget fuel m := by
  induction fuel generalizing m with
  | zero => omega
  | succ fuel ih =>
    rw [Nat.succ_add]
    simp only [ensureSpaceLoop]
    rcases evict_cases m pool with ⟨key, d, heq, -, hev, -⟩ | ⟨heq, -⟩ | ⟨e, heq, -⟩
    · have hlt := hev.length_lt
      rw [heq]
      dsimp only
      rw [ih d (by omega)]
    · rw [heq]
    · rw [heq]

/-- **What `ensure_space` does**: it evicts until the bytes fit, or gives
up. -/
theorem ensureSpace_cases (m : ResidencyManager) (pool : MemoryPoolId) (bytes : ℕ) :
    ∃ d, m.Evictions d ∧ ((m.ensureSpace pool bytes = (.ok (), d)
        ∧ ∃ stats, d.pools.lookup pool = some stats ∧ saturatingAdd usizeMax
            (saturatingAdd usizeMax stats.residentBytes stats.reservedLoadingBytes) bytes
              ≤ stats.budgetBytes) ∨ ∃ e, m.ensureSpace pool bytes = (.error e, d)) := by
  unfold ensureSpace
  cases hs : m.pools.lookup pool with
  | none => exact ⟨m, .refl, Or.inr ⟨_, rfl⟩⟩
  | some stats =>
    dsimp only
    by_cases hbig : stats.budgetBytes < bytes
    · rw [if_pos hbig]
      exact ⟨m, .refl, Or.inr ⟨_, rfl⟩⟩
    · rw [if_neg hbig]
      refine ensureSpaceLoop_cases pool bytes stats.budgetBytes _ m (fun stats' hs' => ?_)
      rw [hs] at hs'
      rw [some.inj hs']

theorem Evictions.of_evicts (h : m.Evicts key d) : m.Evictions d :=
  .single ⟨key, h⟩

/-- Evictions touch the entries and the pools alone. -/
theorem Evictions.frame (hev : m.Evictions d) :
    d.loads = m.loads ∧ d.nextLoad = m.nextLoad ∧ d.leases = m.leases
      ∧ d.nextLease = m.nextLease ∧ d.nextGeneration = m.nextGeneration ∧ d.clock = m.clock := by
  induction hev with
  | refl => exact ⟨rfl, rfl, rfl, rfl, rfl, rfl⟩
  | tail _ hevi ih =>
    obtain ⟨key, hevi⟩ := hevi
    cases hevi
    exact ih

/-! ## The operations -/

/-- A load that fits is started at once, without an eviction. -/
theorem startLoad_of_room (bytes : ℕ) (waiter : SessionId)
    (hs : m.pools.lookup key.pool = some stats)
    (hrm : stats.residentBytes + stats.reservedLoadingBytes + bytes ≤ stats.budgetBytes) :
    m.startLoad key bytes waiter
      = (.ok (.started ⟨m.nextLoad⟩), m.started key bytes waiter stats) := by
  have hsp : m.ensureSpace key.pool bytes = (.ok (), m) := by
    rw [ensureSpace, hs]
    dsimp only
    rw [if_neg (by omega), ensureSpaceLoop, hs]
    refine if_pos ?_
    unfold saturatingAdd
    omega
  rw [startLoad, hsp]
  dsimp only [allocLoad, tick]
  rw [updateStats_of_lookup stats]
  · rfl
  · exact hs

/-- Starting a load, for a key that is neither resident nor being loaded. -/
theorem startLoad_transition (key : ExpertKey) (bytes : ℕ) (waiter : SessionId)
    (hidl : ∀ entry, m.entries.lookup key = some entry → ¬ entry.IsResident ∧ ¬ entry.IsLoading) :
    m.Transition (.beginLoad key bytes waiter) (.load (m.startLoad key bytes waiter).1)
      (m.startLoad key bytes waiter).2 := by
  obtain ⟨d, hev, ⟨heq, stats, hs, hrm⟩ | ⟨e, heq⟩⟩ := m.ensureSpace_cases key.pool bytes
  · have hst : m.startLoad key bytes waiter
        = (.ok (.started ⟨d.nextLoad⟩), d.started key bytes waiter stats) := by
      rw [startLoad, heq]
      dsimp only [allocLoad, tick]
      rw [updateStats_of_lookup stats]
      · rfl
      · exact hs
    rw [hst]
    exact .started key bytes waiter d stats hev hidl hs hrm
  · have hst : m.startLoad key bytes waiter = (.error e, d) := by
      rw [startLoad, heq]
    rw [hst]
    exact .crowded key bytes waiter d e hev

/-- A key without an entry is loaded, if it fits. -/
theorem beginLoad_of_vacant (bytes : ℕ) (waiter : SessionId) (he : m.entries.lookup key = none)
    (hs : m.pools.lookup key.pool = some stats)
    (hrm : stats.residentBytes + stats.reservedLoadingBytes + bytes ≤ stats.budgetBytes) :
    m.beginLoad key bytes waiter
      = (.ok (.started ⟨m.nextLoad⟩), m.started key bytes waiter stats) := by
  rw [beginLoad, he]
  exact startLoad_of_room bytes waiter hs hrm

variable {generation : Generation}

/-- A key that is resident is a hit. -/
theorem beginLoad_of_resident (bytes : ℕ) (waiter : SessionId)
    (he : m.entries.lookup key = some entry) (hst : entry.state = .resident generation)
    (hs : m.pools.lookup key.pool = some stats) : m.beginLoad key bytes waiter
      = (.ok (.alreadyResident generation), m.hit key entry stats) := by
  rw [beginLoad, he]
  dsimp only
  rw [hst, touch_of_lookup he]
  rw [updateStats_of_lookup stats]
  · rfl
  · exact hs

variable {loadId : LoadId}

/-- A key that is being loaded is joined. -/
theorem beginLoad_of_loading (waiter : SessionId) (he : m.entries.lookup key = some entry)
    (hst : entry.state = .loading loadId) (hs : m.pools.lookup key.pool = some stats) :
    m.beginLoad key entry.bytes waiter
      = (.ok (.joined loadId), m.joined key entry stats waiter) := by
  rw [beginLoad, he]
  dsimp only
  rw [hst]
  refine (if_neg (not_not_intro rfl)).trans ?_
  rw [updateStats_of_lookup stats]
  · rfl
  · exact hs

theorem beginLoad_transition (h : m.Placed) (key : ExpertKey) (bytes : ℕ) (waiter : SessionId) :
    m.Transition (.beginLoad key bytes waiter) (.load (m.beginLoad key bytes waiter).1)
      (m.beginLoad key bytes waiter).2 := by
  cases he : m.entries.lookup key with
  | none =>
    have heq : m.beginLoad key bytes waiter = m.startLoad key bytes waiter := by
      rw [beginLoad, he]
    rw [heq]
    exact startLoad_transition key bytes waiter (fun e hl => absurd (he.symm.trans hl) (by simp))
  | some entry =>
    obtain ⟨stats, hs⟩ := h key entry he
    have hst (hres : ¬ entry.IsResident) (hld : ¬ entry.IsLoading) :
        m.Transition (.beginLoad key bytes waiter) (.load (m.startLoad key bytes waiter).1)
          (m.startLoad key bytes waiter).2 := by
      refine startLoad_transition key bytes waiter (fun e hl => ?_)
      rw [he] at hl
      rw [← some.inj hl]
      exact ⟨hres, hld⟩
    cases hstt : entry.state with
    | resident generation =>
      rw [beginLoad_of_resident bytes waiter he hstt hs]
      exact .hit key bytes waiter entry stats generation he hstt hs
    | loading loadId =>
      by_cases hbytes : entry.bytes = bytes
      · rw [← hbytes, beginLoad_of_loading waiter he hstt hs]
        exact .joined key waiter entry stats loadId he hstt hs
      · have heq : m.beginLoad key bytes waiter =
          (.error (.sizeMismatch entry.bytes bytes), m) := by
          rw [beginLoad, he]
          dsimp only
          rw [hstt]
          exact if_pos hbytes
        rw [heq]
        exact .refused _ _ trivial (by simp)
    | failed =>
      have heq : m.beginLoad key bytes waiter = m.startLoad key bytes waiter := by
        rw [beginLoad, he]
        dsimp only
        rw [hstt]
      rw [heq]
      exact hst (Entry.not_isResident hstt (by simp)) (Entry.not_isLoading hstt (by simp))
    | absent =>
      have heq : m.beginLoad key bytes waiter = m.startLoad key bytes waiter := by
        rw [beginLoad, he]
        dsimp only
        rw [hstt]
      rw [heq]
      exact hst (Entry.not_isResident hstt (by simp)) (Entry.not_isLoading hstt (by simp))

/-- The state in which `complete_load` turns to the result: the load is
forgotten, its waiters are taken and its bytes are no longer reserved. -/
def unreserved (m : ResidencyManager) (loadId : LoadId) (key : ExpertKey) (entry : Entry)
    (stats : PoolStats) : ResidencyManager :=
  { m.put key { entry with waiters := [] } { stats with
      reservedLoadingBytes := stats.reservedLoadingBytes - entry.bytes } with
    loads := m.loads.erase loadId }

/-- A success publishes the entry and grants the leases. -/
theorem publish_eq (loadId : LoadId) :
    (m.unreserved loadId key entry stats).publish key entry.bytes entry.waiters
      = (.ok (.published (m.upcoming key) (m.granted key entry).1),
        m.published loadId key entry stats) := by
  unfold publish unreserved put
  dsimp only [allocGeneration, tick]
  rw [modify_of_lookup (lookup_insert_self _ _ _), newLeases_eq]
  rw [modify_of_lookup (lookup_insert_self _ _ _),
    updateStats_of_lookup _ _ (lookup_insert_self _ _ _)]
  dsimp only
  rw [refreshPinned_of_lookup _ (lookup_insert_self _ _ _), length_grant]
  simp only [insert_insert]
  rfl

/-- A failure hands its message to every waiter. -/
theorem failLoad_eq (loadId : LoadId) (message : String) :
    (m.unreserved loadId key entry stats).failLoad key entry.waiters message
      = (.ok (.failed (entry.waiters.map (fun session => ⟨session, .inr message⟩))),
        m.failed loadId key entry stats message) := by
  unfold failLoad unreserved put
  dsimp only
  rw [updateStats_of_lookup _ _ (lookup_insert_self _ _ _),
    modify_of_lookup (lookup_insert_self _ _ _)]
  rw [insert_insert, insert_insert]
  rfl

/-- The completion of a load that is still wanted. -/
theorem completeLoad_of_loading (result : LoadResult) (hl : m.loads.lookup loadId = some key)
    (he : m.entries.lookup key = some entry) (hst : entry.state = .loading loadId)
    (hs : m.pools.lookup key.pool = some stats) : m.completeLoad ⟨loadId, result⟩
      = match result.failure with
        | none => (m.unreserved loadId key entry stats).publish key entry.bytes entry.waiters
        | some message =>
          (m.unreserved loadId key entry stats).failLoad key entry.waiters message := by
  obtain ⟨state, bytes, waiters, leases, lastTouch⟩ := entry
  obtain rfl : state = .loading loadId := hst
  rw [completeLoad, hl]
  dsimp only
  rw [he]
  refine (if_neg (not_not_intro rfl)).trans ?_
  rw [updateStats_of_lookup stats]
  · cases result <;> rfl
  · exact hs

/-- **What a success does.** -/
theorem completeLoad_of_success (hl : m.loads.lookup loadId = some key)
    (he : m.entries.lookup key = some entry) (hst : entry.state = .loading loadId)
    (hs : m.pools.lookup key.pool = some stats) : m.completeLoad ⟨loadId, .success⟩
      = (.ok (.published (m.upcoming key) (m.granted key entry).1),
        m.published loadId key entry stats) := by
  rw [completeLoad_of_loading .success hl he hst hs]
  exact publish_eq loadId

/-- **What any other result does.** -/
theorem completeLoad_of_failure {result : LoadResult} {message : String}
    (hres : result.failure = some message) (hl : m.loads.lookup loadId = some key)
    (he : m.entries.lookup key = some entry) (hst : entry.state = .loading loadId)
    (hs : m.pools.lookup key.pool = some stats) : m.completeLoad ⟨loadId, result⟩
      = (.ok (.failed (entry.waiters.map (fun session => ⟨session, .inr message⟩))),
        m.failed loadId key entry stats message) := by
  rw [completeLoad_of_loading result hl he hst hs, hres]
  exact failLoad_eq loadId message

/-- The completion of a load whose entry is gone or under another load. -/
theorem completeLoad_of_gone (result : LoadResult) (hl : m.loads.lookup loadId = some key)
    (hgon : ∀ entry, m.entries.lookup key = some entry → entry.state ≠ .loading loadId) :
    m.completeLoad ⟨loadId, result⟩ = (.ok .stale, { m with loads := m.loads.erase loadId }) := by
  rw [completeLoad, hl]
  dsimp only
  cases he : m.entries.lookup key with
  | none => rfl
  | some entry =>
    dsimp only
    cases hoth : entry.state with
    | loading =>
      refine if_pos (fun hid => hgon entry he ?_)
      rw [hoth, hid]
    | absent | resident | failed => rfl

theorem completeLoad_transition (h : m.Placed) (completion : LoadCompletion) :
    m.Transition (.completeLoad completion) (.completion (m.completeLoad completion).1)
      (m.completeLoad completion).2 := by
  obtain ⟨loadId, result⟩ := completion
  cases hl : m.loads.lookup loadId with
  | none =>
    have heq : m.completeLoad ⟨loadId, result⟩ = (.ok .stale, m) := by
      rw [completeLoad, hl]
    rw [heq]
    exact .refused _ _ trivial (by simp)
  | some key =>
    by_cases hgon : ∀ entry, m.entries.lookup key = some entry → entry.state ≠ .loading loadId
    · rw [completeLoad_of_gone result hl hgon]
      exact .dropped loadId result key hl hgon
    · simp only [not_forall, not_not] at hgon
      obtain ⟨entry, he, hst⟩ := hgon
      obtain ⟨stats, hs⟩ := h key entry he
      cases hres : result.failure with
      | none =>
        obtain rfl : result = .success := by
          cases result with
          | success => rfl
          | failed | partially | cancelled => cases hres
        rw [completeLoad_of_success hl he hst hs]
        exact .published loadId key entry stats hl he hst hs
      | some message =>
        rw [completeLoad_of_failure hres hl he hst hs]
        exact .failed loadId result message key entry stats hres hl he hst hs

theorem cancelWaiter_transition (loadId : LoadId) (session : SessionId) :
    m.Transition (.cancelWaiter loadId session) (.waiterCancelled (m.cancelWaiter loadId session).1)
      (m.cancelWaiter loadId session).2 := by
  unfold cancelWaiter
  cases hl : m.loads.lookup loadId with
  | none => exact .ignored loadId session (fun key hk => absurd (hl.symm.trans hk) (by simp))
  | some key =>
    dsimp only
    cases he : m.entries.lookup key with
    | none =>
      refine .ignored loadId session (fun j hj => ?_)
      rw [← some.inj (hl.symm.trans hj), he]
    | some entry => exact .left loadId session key entry _ hl he

theorem acquire_of_resident (owner : SessionId) (he : m.entries.lookup key = some entry)
    (hst : entry.state = .resident generation) (hs : m.pools.lookup key.pool = some stats) :
    m.acquire key owner = (.ok ⟨⟨m.nextLease⟩, key, generation, owner⟩,
        m.acquired key entry stats generation owner) := by
  have hsam : m.state key = .resident generation := by
    rwa [state, he]
  rw [acquire, hsam]
  dsimp only [newLease, tick]
  rw [modify_of_lookup he, refreshPinned_of_lookup stats]
  · rfl
  · exact hs

theorem acquire_of_other (owner : SessionId) (h : ∀ generation, m.state key ≠ .resident generation) :
    m.acquire key owner = (.error .unknownKey, m) := by
  rw [acquire]
  cases hst : m.state key with
  | resident generation => exact absurd hst (h generation)
  | absent | loading | failed => rfl

theorem acquire_transition (h : m.Placed) (key : ExpertKey) (owner : SessionId) :
    m.Transition (.acquire key owner) (.lease (m.acquire key owner).1) (m.acquire key owner).2 := by
  by_cases hres : ∃ generation, m.state key = .resident generation
  · obtain ⟨generation, hst⟩ := hres
    unfold state at hst
    cases he : m.entries.lookup key with
    | none =>
      rw [he] at hst
      cases hst
    | some entry =>
      rw [he] at hst
      obtain ⟨stats, hs⟩ := h key entry he
      rw [acquire_of_resident owner he hst hs]
      exact .acquired key owner entry stats generation he hst hs
  · rw [acquire_of_other owner (fun generation hst => hres ⟨generation, hst⟩)]
    exact .refused _ _ trivial (by simp)

theorem release_of_unknown {lease : Lease} (hl : m.leases.lookup lease.id = none) :
    m.release lease = (.error (.unknownLease lease.id), m) := by
  rw [release, hl]

theorem release_of_mismatch {lease : Lease} {owner : SessionId}
    (hl : m.leases.lookup lease.id = some (key, generation, owner))
    (hne : key ≠ lease.key ∨ generation ≠ lease.generation) :
    m.release lease = (.error .staleGeneration, m) := by
  rw [release, hl]
  exact if_pos hne

theorem release_of_resident {lease : Lease} {owner : SessionId}
    (hl : m.leases.lookup lease.id = some (lease.key, lease.generation, owner))
    (he : m.entries.lookup lease.key = some entry)
    (hst : entry.state = .resident lease.generation)
    (hs : m.pools.lookup lease.key.pool = some stats) :
    m.release lease = (.ok (), m.released lease.id lease.key entry stats) := by
  rw [release, hl]
  refine (if_neg (fun h => h.elim (fun hk => hk rfl) (fun hg => hg rfl))).trans ?_
  rw [he]
  refine (if_neg (not_not_intro hst)).trans ?_
  dsimp only
  rw [refreshPinned_of_lookup stats]
  · rfl
  · exact hs

theorem release_transition (h : m.Placed) (lease : Lease) :
    m.Transition (.release lease) (.released (m.release lease).1) (m.release lease).2 := by
  have href (e : ResidencyError) (heq : m.release lease = (.error e, m)) :
      m.Transition (.release lease) (.released (m.release lease).1) (m.release lease).2 := by
    rw [heq]
    exact .refused _ _ trivial (by simp)
  cases hl : m.leases.lookup lease.id with
  | none => exact href _ (release_of_unknown hl)
  | some record =>
    obtain ⟨key, generation, owner⟩ := record
    by_cases hmat : key ≠ lease.key ∨ generation ≠ lease.generation
    · exact href _ (release_of_mismatch hl hmat)
    · obtain ⟨rfl, rfl⟩ : key = lease.key ∧ generation = lease.generation := by
        rwa [not_or, not_not, not_not] at hmat
      cases he : m.entries.lookup lease.key with
      | none =>
        refine href .staleGeneration ?_
        rw [release, hl]
        refine (if_neg hmat).trans ?_
        rw [he]
      | some entry =>
        by_cases hst : entry.state = .resident lease.generation
        · obtain ⟨stats, hs⟩ := h lease.key entry he
          rw [release_of_resident hl he hst hs]
          exact .released lease owner entry stats hl he hst hs
        · refine href .staleGeneration ?_
          rw [release, hl]
          refine (if_neg hmat).trans ?_
          rw [he]
          exact if_pos hst

theorem evict_transition (pool : MemoryPoolId) :
    m.Transition (.evict pool) (.evicted (m.evict pool).1) (m.evict pool).2 := by
  rcases m.evict_cases pool with ⟨key, d, heq, rfl, hev, -⟩ | ⟨heq, -⟩ | ⟨e, heq, -⟩
  · rw [heq]
    exact .evicted key d hev
  · rw [heq]
    exact .refused _ _ trivial (by simp)
  · rw [heq]
    exact .refused _ _ trivial (by simp)

/-- **Every operation is a transition.** -/
theorem execute_transition (h : m.Placed) (op : ResidencyOp) :
    m.Transition op (m.execute op).1 (m.execute op).2 := by
  cases op with
  | addPool pool budget =>
    show m.Transition _ (.configured (m.addPool pool budget).1) (m.addPool pool budget).2
    unfold addPool
    cases hp : m.pools.lookup pool with
    | none => exact .poolAdded pool budget hp
    | some => exact .refused _ _ trivial (by simp)
  | addDevice device pools =>
    show m.Transition _ (.configured (m.addDevice device pools).1) (m.addDevice device pools).2
    unfold addDevice
    cases m.devices.lookup device with
    | some => exact .refused _ _ trivial (by simp)
    | none =>
      cases pools.find? (fun pool => (m.pools.lookup pool).isNone) with
      | some => exact .refused _ _ trivial (by simp)
      | none => exact .deviceAdded device pools
  | beginLoad key bytes waiter => exact beginLoad_transition h key bytes waiter
  | cancelWaiter loadId session => exact cancelWaiter_transition loadId session
  | completeLoad completion => exact completeLoad_transition h completion
  | acquire key owner => exact acquire_transition h key owner
  | release lease => exact release_transition h lease
  | evict pool => exact evict_transition pool
  | recordTransfer pool bytes exposedWaitNs =>
    show m.Transition _ (.configured (m.recordTransfer pool bytes exposedWaitNs).1)
      (m.recordTransfer pool bytes exposedWaitNs).2
    unfold recordTransfer
    cases hs : m.pools.lookup pool with
    | none =>
      rw [updateStats, hs]
      exact .refused _ _ trivial (by simp)
    | some stats =>
      rw [updateStats_of_lookup stats _ hs]
      exact .transferred pool bytes exposedWaitNs stats hs

end ResidencyManager

end Logan
