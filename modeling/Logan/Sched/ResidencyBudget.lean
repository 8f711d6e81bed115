import Logan.Sched.ResidencyTransition

/-!
# The byte counters of a pool

A pool caches three sums over its entries: the bytes of the resident ones,
of those being loaded, and of the resident ones with a lease. `Tally` says of
a pool's counters that they are these sums, `Balanced` in addition that the
first two fit the budget; `ResidencyManager.Budgeted` says so of every pool.

An operation moves one entry at a time, so a transition keeps the tally as
soon as the counters of that entry's pool move by as much as the entry's
weight (`Tally.insert`); the other pools do not notice. The budget itself is
checked by `ensure_space` alone, when bytes are reserved: they are moved, not
added, when the load succeeds.
-/

namespace Logan

open Table

/-! ## Limits

The source advances its counters by saturating, truncating or plain
additions, and nothing can be said of them past their limits. Each of the
following says that some of the counters are within theirs. -/

theorem saturatingAdd_of_lt {max a b : ℕ} (h : saturatingAdd max a b < max) :
    saturatingAdd max a b = a + b := by
  unfold saturatingAdd at h ⊢
  omega

namespace ResidencyManager

variable {m d : ResidencyManager} {key : ExpertKey} {entry : Entry} {stats : PoolStats}
variable {op : ResidencyOp} {out : ResidencyOutcome}

/-- The used bytes of every pool are a `usize`. A budget below `usize::MAX`
ensures as much by itself. -/
def ByteLimit (m : ResidencyManager) : Prop :=
  ∀ e ∈ m.pools.entries, e.2.residentBytes + e.2.reservedLoadingBytes ≤ usizeMax

/-- The load counter has not reached `u64::MAX`. -/
def LoadLimit (m : ResidencyManager) : Prop := m.nextLoad < u64Max

/-- How many lease records name a key. -/
def leasesOn (leases : LeaseTable) (key : ExpertKey) : ℕ :=
  leases.sum (fun _ record => if record.1 = key then 1 else 0)

/-- The lease counter has not reached `u64::MAX`. -/
def LeaseIdLimit (m : ResidencyManager) : Prop := m.nextLease < u64Max

/-- The counters of leases are within their limits: the identifiers have not
reached `u64::MAX`, and the leases of an entry are a `u32`. -/
def LeaseLimit (m : ResidencyManager) : Prop :=
  m.LeaseIdLimit ∧ ∀ e ∈ m.entries.entries, leasesOn m.leases e.1 < 2 ^ 32

/-- The generations of every key have not reached `u64::MAX`. -/
def GenerationLimit (m : ResidencyManager) : Prop :=
  ∀ e ∈ m.nextGeneration.entries, e.2 < u64Max

instance (m : ResidencyManager) : Decidable m.ByteLimit :=
  inferInstanceAs (Decidable (∀ e ∈ m.pools.entries, _))

instance (m : ResidencyManager) : Decidable m.LoadLimit :=
  inferInstanceAs (Decidable (m.nextLoad < u64Max))

instance (m : ResidencyManager) : Decidable m.LeaseIdLimit :=
  inferInstanceAs (Decidable (m.nextLease < u64Max))

instance (m : ResidencyManager) : Decidable m.LeaseLimit :=
  inferInstanceAs (Decidable (m.LeaseIdLimit ∧ ∀ e ∈ m.entries.entries, _))

instance (m : ResidencyManager) : Decidable m.GenerationLimit :=
  inferInstanceAs (Decidable (∀ e ∈ m.nextGeneration.entries, _))

/-! ## Pools are never removed -/

/-- What every eviction keeps, any number of evictions keep. -/
theorem Evictions.preserves {P : ResidencyManager → Prop}
    (hP : ∀ {m key d}, Evicts m key d → P m → P d) (h : m.Evictions d) (hm : P m) : P d := by
  induction h with
  | refl => exact hm
  | tail _ hev ih =>
    obtain ⟨key, hev⟩ := hev
    exact hP hev ih

theorem Placed.insert_pool (h : m.Placed) (pool : MemoryPoolId) (stats : PoolStats) :
    { m with pools := m.pools.insert pool stats }.Placed := by
  intro j e he
  show ∃ s, (m.pools.insert pool stats).lookup j.pool = some s
  rw [lookup_insert]
  by_cases hp : j.pool = pool
  · exact ⟨stats, if_pos hp⟩
  · rw [if_neg hp]
    exact h j e he

/-- Adding or rewriting an entry in a registered pool keeps every entry in
one. -/
theorem Placed.insert_entry (h : m.Placed) (entry : Entry)
    (hs : m.pools.lookup key.pool = some stats) :
    { m with entries := m.entries.insert key entry }.Placed := by
  intro j e he
  by_cases hj : j = key
  · exact ⟨stats, hj ▸ hs⟩
  · exact h j e ((lookup_insert_ne _ _ hj).symm.trans he)

theorem Placed.put (h : m.Placed) (key : ExpertKey) (entry : Entry) (stats : PoolStats) :
    (m.put key entry stats).Placed :=
  (h.insert_pool key.pool stats).insert_entry entry (lookup_insert_self _ _ _)

theorem Evicts.placed (hev : m.Evicts key d) (h : m.Placed) : d.Placed := by
  cases hev with
  | evicted =>
    refine Placed.insert_pool (m := { m with entries := m.entries.erase key }) ?_ _ _
    intro j e hj
    have hne : j ≠ key := by
      rintro rfl
      exact absurd ((lookup_erase_self _ _).symm.trans hj) (by simp)
    exact h j e ((lookup_erase_ne _ hne).symm.trans hj)

/-- **A transition keeps every entry in a registered pool.** -/
theorem Transition.placed (ht : m.Transition op out d) (h : m.Placed) : d.Placed := by
  cases ht with
  | poolAdded pool => exact h.insert_pool pool _
  | deviceAdded | dropped | ignored | refused => exact h
  | hit key => exact h.put key _ _
  | joined key => exact h.put key _ _
  | started key bytes waiter d stats hev =>
    exact (hev.preserves Evicts.placed h).put key _ _
  | crowded key bytes waiter _ e hev => exact hev.preserves Evicts.placed h
  | left loadId session key entry b hl he =>
    obtain ⟨stats, hs⟩ := h key entry he
    exact h.insert_entry _ hs
  | published loadId key => exact h.put key _ _
  | failed loadId result message key => exact h.put key _ _
  | acquired key => exact h.put key _ _
  | released lease => exact h.put lease.key _ _
  | evicted key _ hev => exact hev.placed h
  | transferred pool => exact h.insert_pool pool _

theorem placed_new : new.Placed := fun _ _ he => absurd he (by simp [new])

/-- **Every entry of a reachable manager lies in a registered pool.** -/
theorem run_placed (ops : List ResidencyOp) : (machine.run new ops).Placed :=
  Machine.run_of_step (M := machine) (P := Placed)
    (fun _ op h => (execute_transition h op).placed h) placed_new ops

/-- **What the transitions keep holds of every run**, within the limits they
keep it under. -/
theorem run_of_transition {P L : ResidencyManager → Prop}
    (hst : ∀ {m op out d}, Transition m op out d → m.Placed → P m → L d → P d)
    (hnew : P new) {ops : List ResidencyOp} (hlim : machine.Within L new ops) :
    P (machine.run new ops) := by
  have h := Machine.run_of_along (P := fun m => Placed m ∧ P m)
    (fun m op ⟨hpl, h⟩ hnex => by
      have ht := execute_transition hpl op
      exact ⟨ht.placed hpl, hst ht hpl h hnex⟩)
    ⟨placed_new, hnew⟩ hlim
  exact h.2

/-! ## The balance of one pool -/

/-- What an entry adds to a pool's resident bytes. -/
def residentIn (pool : MemoryPoolId) (key : ExpertKey) (entry : Entry) : ℕ :=
  if key.pool = pool ∧ entry.IsResident then entry.bytes else 0

/-- What an entry adds to a pool's reserved bytes. -/
def loadingIn (pool : MemoryPoolId) (key : ExpertKey) (entry : Entry) : ℕ :=
  if key.pool = pool ∧ entry.IsLoading then entry.bytes else 0

/-- **A pool's counters agree with its entries.** -/
structure Tally (entries : Table ExpertKey Entry) (pool : MemoryPoolId)
    (stats : PoolStats) : Prop where
  resident : stats.residentBytes = entries.sum (residentIn pool)
  reserved : stats.reservedLoadingBytes = entries.sum (loadingIn pool)
  pinned : stats.pinnedBytes = entries.sum (pinnedIn pool)

/-- The counters of every pool agree with its entries. -/
def Tallied (m : ResidencyManager) : Prop :=
  ∀ pool stats, m.pools.lookup pool = some stats → Tally m.entries pool stats

/-- **A pool's counters agree with its entries** and fit its budget. -/
structure Balanced (entries : Table ExpertKey Entry) (pool : MemoryPoolId)
    (stats : PoolStats) : Prop where
  resident : stats.residentBytes = entries.sum (residentIn pool)
  reserved : stats.reservedLoadingBytes = entries.sum (loadingIn pool)
  pinned : stats.pinnedBytes = entries.sum (pinnedIn pool)
  within : stats.residentBytes + stats.reservedLoadingBytes ≤ stats.budgetBytes

/-- Every pool is balanced. -/
def Budgeted (m : ResidencyManager) : Prop :=
  ∀ pool stats, m.pools.lookup pool = some stats → Balanced m.entries pool stats

section Balance

variable {entries : Table ExpertKey Entry} {pool : MemoryPoolId} {stats' : PoolStats}
  {entry' : Entry}

/-- **One entry of the pool is rewritten**, and the counters move with its
weight. -/
theorem Tally.insert (h : Tally entries key.pool stats)
    (hres : stats'.residentBytes + entries.weigh (residentIn key.pool) key
      = residentIn key.pool key entry' + stats.residentBytes)
    (hrsr : stats'.reservedLoadingBytes + entries.weigh (loadingIn key.pool) key
      = loadingIn key.pool key entry' + stats.reservedLoadingBytes)
    (hpin : stats'.pinnedBytes = (entries.insert key entry').sum (pinnedIn key.pool)) :
    Tally (entries.insert key entry') key.pool stats' where
  resident := by
    have hsum := entries.sum_insert_add (residentIn key.pool) key entry'
    have hr := h.resident
    omega
  reserved := by
    have hsum := entries.sum_insert_add (loadingIn key.pool) key entry'
    have hr := h.reserved
    omega
  pinned := hpin

/-- **An entry is rewritten without changing its weight**, in this pool or
in another. -/
theorem Tally.insert_of_weigh (h : Tally entries pool stats)
    (hres : residentIn pool key entry' = entries.weigh (residentIn pool) key)
    (hrsr : loadingIn pool key entry' = entries.weigh (loadingIn pool) key)
    (hpin : pinnedIn pool key entry' = entries.weigh (pinnedIn pool) key) :
    Tally (entries.insert key entry') pool stats where
  resident := h.resident.trans (sum_insert_of_weigh hres).symm
  reserved := h.reserved.trans (sum_insert_of_weigh hrsr).symm
  pinned := h.pinned.trans (sum_insert_of_weigh hpin).symm

theorem weights_of_ne (hne : key.pool ≠ pool) (e : Entry) :
    residentIn pool key e = 0 ∧ loadingIn pool key e = 0 ∧ pinnedIn pool key e = 0 :=
  ⟨if_neg (fun h => hne h.1), if_neg (fun h => hne h.1), if_neg (fun h => hne h.1)⟩

/-- No key weighs anything in a pool that is not its own. -/
theorem weigh_of_ne (entries : Table ExpertKey Entry) (hne : key.pool ≠ pool) :
    entries.weigh (residentIn pool) key = 0 ∧ entries.weigh (loadingIn pool) key = 0
      ∧ entries.weigh (pinnedIn pool) key = 0 := by
  cases he : entries.lookup key with
  | none =>
    exact ⟨weigh_of_absent he, weigh_of_absent he, weigh_of_absent he⟩
  | some e =>
    rw [weigh_of_lookup he, weigh_of_lookup he, weigh_of_lookup he]
    exact weights_of_ne hne e

theorem Tally.insert_of_ne (h : Tally entries pool stats) (hne : key.pool ≠ pool)
    (entry' : Entry) : Tally (entries.insert key entry') pool stats := by
  obtain ⟨hr, hl, hp⟩ := weights_of_ne hne entry'
  obtain ⟨hr', hl', hp'⟩ := weigh_of_ne entries hne
  exact h.insert_of_weigh (hr.trans hr'.symm) (hl.trans hl'.symm) (hp.trans hp'.symm)

theorem Tally.erase_of_ne (h : Tally entries pool stats) (hne : key.pool ≠ pool) :
    Tally (entries.erase key) pool stats := by
  obtain ⟨hr, hl, hp⟩ := weigh_of_ne entries hne
  have hsum (f : ExpertKey → Entry → ℕ) (hf : entries.weigh f key = 0) :
      (entries.erase key).sum f = entries.sum f := by
    have hadd := entries.sum_erase_add f key
    omega
  exact ⟨h.resident.trans (hsum _ hr).symm, h.reserved.trans (hsum _ hl).symm,
    h.pinned.trans (hsum _ hp).symm⟩

end Balance

/-! ## The transitions keep the balance -/

/-- The weights of an entry depend on its state, its bytes and its
leases. -/
theorem weights_congr {e e' : Entry} (hst : e'.state = e.state) (hbytes : e'.bytes = e.bytes)
    (hlss : e'.leases = e.leases) (pool : MemoryPoolId) (key : ExpertKey) :
    residentIn pool key e' = residentIn pool key e ∧ loadingIn pool key e' = loadingIn pool key e
      ∧ pinnedIn pool key e' = pinnedIn pool key e := by
  obtain ⟨state, bytes, waiters, leases, lastTouch⟩ := e
  obtain ⟨state', bytes', waiters', leases', lastTouch'⟩ := e'
  obtain rfl : state' = state := hst
  obtain rfl : bytes' = bytes := hbytes
  obtain rfl : leases' = leases := hlss
  exact ⟨rfl, rfl, rfl⟩

theorem weights_of_loading {loadId : LoadId} (h : entry.state = .loading loadId) (key : ExpertKey) :
    residentIn key.pool key entry = 0 ∧ loadingIn key.pool key entry = entry.bytes
      ∧ pinnedIn key.pool key entry = 0 := by
  have hres : ¬ entry.IsResident := Entry.not_isResident h (by simp)
  exact ⟨if_neg (fun hw => hres hw.2), if_pos ⟨rfl, loadId, h⟩, if_neg (fun hw => hres hw.2.2)⟩

theorem weights_of_resident {generation : Generation} (h : entry.state = .resident generation)
    (key : ExpertKey) :
    residentIn key.pool key entry = entry.bytes ∧ loadingIn key.pool key entry = 0 := by
  have hld : ¬ entry.IsLoading := Entry.not_isLoading h (by simp)
  exact ⟨if_pos ⟨rfl, generation, h⟩, if_neg (fun hw => hld hw.2)⟩

theorem weights_of_idle (hres : ¬ entry.IsResident) (hld : ¬ entry.IsLoading)
    (pool : MemoryPoolId) (key : ExpertKey) :
    residentIn pool key entry = 0 ∧ loadingIn pool key entry = 0 ∧ pinnedIn pool key entry = 0 :=
  ⟨if_neg (fun hw => hres hw.2), if_neg (fun hw => hld hw.2), if_neg (fun hw => hres hw.2.2)⟩

theorem Tallied.put {entry' : Entry} {stats' : PoolStats} (h : m.Tallied)
    (hb : Tally (m.entries.insert key entry') key.pool stats') :
    (m.put key entry' stats').Tallied := by
  intro pool s hs
  change (m.pools.insert key.pool stats').lookup pool = some s at hs
  rw [lookup_insert] at hs
  by_cases hp : pool = key.pool
  · rw [if_pos hp] at hs
    rwa [hp, ← Option.some.inj hs]
  · rw [if_neg hp] at hs
    exact (h pool s hs).insert_of_ne (fun hk => hp hk.symm) entry'

theorem Tallied.insert_pool {pool : MemoryPoolId} {stats' : PoolStats} (h : m.Tallied)
    (hb : Tally m.entries pool stats') :
    { m with pools := m.pools.insert pool stats' }.Tallied := by
  intro q s hs
  change (m.pools.insert pool stats').lookup q = some s at hs
  rw [lookup_insert] at hs
  by_cases hq : q = pool
  · rw [if_pos hq] at hs
    rwa [hq, ← Option.some.inj hs]
  · rw [if_neg hq] at hs
    exact h q s hs

theorem Tallied.insert_entry (h : m.Tallied) (entry' : Entry)
    (he : m.entries.lookup key = some entry) (hst : entry'.state = entry.state)
    (hbytes : entry'.bytes = entry.bytes) (hlss : entry'.leases = entry.leases) :
    { m with entries := m.entries.insert key entry' }.Tallied := by
  intro pool s hs
  obtain ⟨hr, hl, hp⟩ := weights_congr hst hbytes hlss pool key
  refine (h pool s hs).insert_of_weigh ?_ ?_ ?_
  · rw [hr, weigh_of_lookup he]
  · rw [hl, weigh_of_lookup he]
  · rw [hp, weigh_of_lookup he]

/-- **An eviction takes the entry's bytes off its pool.** -/
theorem Evicts.tallied (hev : m.Evicts key d) (h : m.Tallied) : d.Tallied := by
  cases hev with
  | evicted entry stats he hidl hres hs =>
    have hb := h key.pool stats hs
    obtain ⟨generation, hst⟩ := hres
    obtain ⟨hr, hl⟩ := weights_of_resident hst key
    have hrsd := m.entries.sum_erase_add (residentIn key.pool) key
    have hrsr := m.entries.sum_erase_add (loadingIn key.pool) key
    rw [weigh_of_lookup he, hr, ← hb.resident] at hrsd
    rw [weigh_of_lookup he, hl, ← hb.reserved] at hrsr
    intro pool s hpl
    change (m.pools.insert key.pool _).lookup pool = some s at hpl
    rw [lookup_insert] at hpl
    by_cases hp : pool = key.pool
    · rw [if_pos hp] at hpl
      rw [hp, ← Option.some.inj hpl]
      refine ⟨?_, hrsr.symm, rfl⟩
      show stats.residentBytes - entry.bytes = (m.entries.erase key).sum _
      omega
    · rw [if_neg hp] at hpl
      exact (h pool s hpl).erase_of_ne (fun hk => hp hk.symm)

theorem Evictions.lookup_eq (hev : m.Evictions d) {j : ExpertKey} {e : Entry}
    (he : d.entries.lookup j = some e) : m.entries.lookup j = some e := by
  refine hev.preserves
    (P := fun c => ∀ j e, c.entries.lookup j = some e → m.entries.lookup j = some e)
    (fun {c key c'} hevi hc j e he => ?_) (fun _ _ he => he) j e he
  cases hevi with
  | evicted entry stats _ _ _ _ =>
    have hne : j ≠ key := by
      rintro rfl
      exact absurd ((lookup_erase_self _ _).symm.trans he) (by simp)
    exact hc j e ((lookup_erase_ne _ hne).symm.trans he)

/-- **Reserving bytes keeps the tally.** -/
theorem Tallied.started {bytes : ℕ} {waiter : SessionId} (h : m.Tallied)
    (hidl : ∀ entry, m.entries.lookup key = some entry → ¬ entry.IsResident ∧ ¬ entry.IsLoading)
    (hs : m.pools.lookup key.pool = some stats) : (m.started key bytes waiter stats).Tallied := by
  have hb := h key.pool stats hs
  have hzer : m.entries.weigh (residentIn key.pool) key = 0
      ∧ m.entries.weigh (loadingIn key.pool) key = 0
      ∧ m.entries.weigh (pinnedIn key.pool) key = 0 := by
    cases he : m.entries.lookup key with
    | none =>
      exact ⟨weigh_of_absent he, weigh_of_absent he, weigh_of_absent he⟩
    | some e =>
      rw [weigh_of_lookup he, weigh_of_lookup he, weigh_of_lookup he]
      exact weights_of_idle (hidl e he).1 (hidl e he).2 key.pool key
  obtain ⟨hr, hl, hp⟩ := hzer
  have hld : (Entry.mk (.loading ⟨m.nextLoad⟩) bytes [waiter] 0 m.tick.1).state
      = .loading ⟨m.nextLoad⟩ := rfl
  obtain ⟨hr', hl', hp'⟩ := weights_of_loading hld key
  refine h.put (hb.insert ?_ ?_ ?_)
  · rw [hr, hr']
    exact Nat.add_comm _ _
  · rw [hl, hl']
    show stats.reservedLoadingBytes + bytes + 0 = bytes + stats.reservedLoadingBytes
    omega
  · rw [sum_insert_of_weigh (hp'.trans hp.symm)]
    exact hb.pinned

/-- **A success moves the entry's bytes** from the reserved to the resident
ones. -/
theorem Tallied.published {loadId : LoadId} (h : m.Tallied)
    (he : m.entries.lookup key = some entry) (hst : entry.state = .loading loadId)
    (hs : m.pools.lookup key.pool = some stats) :
    (m.published loadId key entry stats).Tallied := by
  have hb := h key.pool stats hs
  obtain ⟨hr, hl, hp⟩ := weights_of_loading hst key
  have hpub : (m.publishedEntry key entry).state = .resident (m.upcoming key) := rfl
  obtain ⟨hr', hl'⟩ := weights_of_resident hpub key
  have hle := m.entries.weigh_le_sum (loadingIn key.pool) key
  rw [weigh_of_lookup he, hl, ← hb.reserved] at hle
  refine h.put (hb.insert ?_ ?_ rfl)
  · rw [weigh_of_lookup he, hr, hr']
    show stats.residentBytes + entry.bytes + 0 = entry.bytes + stats.residentBytes
    omega
  · rw [weigh_of_lookup he, hl, hl']
    show stats.reservedLoadingBytes - entry.bytes + entry.bytes = 0 + stats.reservedLoadingBytes
    omega

/-- **A failure gives the reserved bytes back.** -/
theorem Tallied.failed {loadId : LoadId} (h : m.Tallied)
    (he : m.entries.lookup key = some entry) (hst : entry.state = .loading loadId)
    (hs : m.pools.lookup key.pool = some stats) (message : String) :
    (m.failed loadId key entry stats message).Tallied := by
  have hb := h key.pool stats hs
  obtain ⟨hr, hl, hp⟩ := weights_of_loading hst key
  have hfld : ({ entry with state := .failed message, waiters := [] } : Entry).state
      = .failed message := rfl
  obtain ⟨hr', hl', hp'⟩ := weights_of_idle (Entry.not_isResident hfld (by simp))
    (Entry.not_isLoading hfld (by simp)) key.pool key
  have hle := m.entries.weigh_le_sum (loadingIn key.pool) key
  rw [weigh_of_lookup he, hl, ← hb.reserved] at hle
  refine h.put (hb.insert ?_ ?_ ?_)
  · rw [weigh_of_lookup he, hr, hr']
    exact Nat.add_comm _ _
  · rw [weigh_of_lookup he, hl, hl']
    show stats.reservedLoadingBytes - entry.bytes + entry.bytes = 0 + stats.reservedLoadingBytes
    omega
  · rw [sum_insert_of_weigh (by rw [hp', weigh_of_lookup he, hp])]
    exact hb.pinned

/-- The leases of a resident entry change, and the pinned bytes are
recomputed. -/
theorem Tallied.repinned {entry' : Entry} {generation : Generation} (h : m.Tallied)
    (he : m.entries.lookup key = some entry) (hst : entry.state = .resident generation)
    (hs : m.pools.lookup key.pool = some stats) (hst' : entry'.state = entry.state)
    (hbytes : entry'.bytes = entry.bytes) :
    (m.put key entry' { stats with pinnedBytes := m.pinnedWith key entry' }).Tallied := by
  have hb := h key.pool stats hs
  obtain ⟨hr, hl⟩ := weights_of_resident hst key
  obtain ⟨hr', hl'⟩ := weights_of_resident (hst'.trans hst) key
  refine h.put (hb.insert ?_ ?_ rfl)
  · rw [weigh_of_lookup he, hr, hr', hbytes]
    exact Nat.add_comm _ _
  · rw [weigh_of_lookup he, hl, hl']
    exact Nat.add_comm _ _

/-- **A transition keeps the tally of every pool.** -/
theorem Transition.tallied (ht : m.Transition op out d) (hpl : m.Placed) (h : m.Tallied) :
    d.Tallied := by
  cases ht with
  | poolAdded pool budget hnew =>
    have hne : ∀ key e, m.entries.lookup key = some e → key.pool ≠ pool := by
      rintro key e he rfl
      obtain ⟨s, hs⟩ := hpl key e he
      exact absurd (hnew.symm.trans hs) (by simp)
    refine h.insert_pool ⟨?_, ?_, ?_⟩
    · exact (sum_eq_zero (fun k v hk => (weights_of_ne (hne k v hk) v).1)).symm
    · exact (sum_eq_zero (fun k v hk => (weights_of_ne (hne k v hk) v).2.1)).symm
    · exact (sum_eq_zero (fun k v hk => (weights_of_ne (hne k v hk) v).2.2)).symm
  | deviceAdded | dropped | ignored | refused => exact h
  | hit key bytes waiter entry stats generation he hst hs =>
    have hent := h.insert_entry { entry with lastTouch := m.tick.1 } he rfl rfl rfl
    obtain ⟨hr, hl, hp⟩ := hent key.pool stats hs
    exact hent.insert_pool ⟨hr, hl, hp⟩
  | joined key waiter entry stats loadId he hst hs =>
    have hent := h.insert_entry (entry.join waiter) he (join_state _ _) (join_bytes _ _)
      (join_leases _ _)
    obtain ⟨hr, hl, hp⟩ := hent key.pool stats hs
    exact hent.insert_pool ⟨hr, hl, hp⟩
  | started key bytes waiter d stats hev hidl hs =>
    exact (hev.preserves Evicts.tallied h).started (fun e he => hidl e (hev.lookup_eq he)) hs
  | crowded key bytes waiter _ e hev => exact hev.preserves Evicts.tallied h
  | left loadId session key entry b hl he => exact h.insert_entry _ he rfl rfl rfl
  | published loadId key entry stats hl he hst hs => exact h.published he hst hs
  | failed loadId result message key entry stats hres hl he hst hs =>
    exact h.failed he hst hs message
  | acquired key owner entry stats generation he hst hs => exact h.repinned he hst hs rfl rfl
  | released lease owner entry stats hl he hst hs => exact h.repinned he hst hs rfl rfl
  | evicted key _ hev => exact hev.tallied h
  | transferred pool bytes exposedWaitNs stats hs =>
    obtain ⟨hr, hl, hp⟩ := h pool stats hs
    exact h.insert_pool ⟨hr, hl, hp⟩

theorem tallied_new : new.Tallied := fun _ _ hs => absurd hs (by simp [new])

/-- **The counters of a reachable manager agree with its entries.** -/
theorem run_tallied (ops : List ResidencyOp) : (machine.run new ops).Tallied :=
  (Machine.run_of_step (M := machine) (P := fun m => m.Placed ∧ m.Tallied)
    (fun _ op h => ⟨(execute_transition h.1 op).placed h.1,
      (execute_transition h.1 op).tallied h.1 h.2⟩) ⟨placed_new, tallied_new⟩ ops).2

/-! ## The budget -/

/-- The bytes in use of every pool fit its budget. -/
def InBudget (m : ResidencyManager) : Prop :=
  ∀ pool stats, m.pools.lookup pool = some stats →
    stats.residentBytes + stats.reservedLoadingBytes ≤ stats.budgetBytes

/-- The counters of one pool are rewritten, whatever happens to the entries. -/
theorem InBudget.of_insert {pool : MemoryPoolId} {stats' : PoolStats} (h : m.InBudget)
    (hd : d.pools = m.pools.insert pool stats')
    (hwit : stats'.residentBytes + stats'.reservedLoadingBytes ≤ stats'.budgetBytes) :
    d.InBudget := by
  intro q s hs
  rw [hd, lookup_insert] at hs
  split_ifs at hs
  · exact Option.some.inj hs ▸ hwit
  · exact h q s hs

theorem Evicts.inBudget (hev : m.Evicts key d) (h : m.InBudget) : d.InBudget := by
  cases hev with
  | evicted entry stats he hidl hres hs =>
    refine h.of_insert rfl ?_
    have hwit := h key.pool stats hs
    show stats.residentBytes - entry.bytes + stats.reservedLoadingBytes ≤ stats.budgetBytes
    omega

/-- The bytes of a load are reserved. -/
theorem Tallied.bytes_le {loadId : LoadId} (h : m.Tallied)
    (he : m.entries.lookup key = some entry) (hst : entry.state = .loading loadId)
    (hs : m.pools.lookup key.pool = some stats) : entry.bytes ≤ stats.reservedLoadingBytes := by
  have hle := m.entries.weigh_le_sum (loadingIn key.pool) key
  rwa [weigh_of_lookup he, (weights_of_loading hst key).2.1,
    ← (h key.pool stats hs).reserved] at hle

/-- **A transition stays within the budgets**: bytes are reserved if they fit,
and moved when they are there. -/
theorem Transition.inBudget (ht : m.Transition op out d) (htal : m.Tallied)
    (h : m.InBudget) (hlim : d.ByteLimit) : d.InBudget := by
  cases ht with
  | poolAdded => exact h.of_insert rfl (Nat.zero_le _)
  | deviceAdded | left | dropped | ignored | refused => exact h
  | hit key bytes waiter entry stats generation he hst hs =>
    exact h.of_insert rfl (h key.pool stats hs)
  | joined key waiter entry stats loadId he hst hs =>
    exact h.of_insert rfl (h key.pool stats hs)
  | started key bytes waiter d stats hev hidl hs hrm =>
    have hus : stats.residentBytes + (stats.reservedLoadingBytes + bytes) ≤ usizeMax :=
      hlim _ (AList.mem_lookup_iff.mp (lookup_insert_self d.pools key.pool _))
    refine (hev.preserves Evicts.inBudget h).of_insert rfl ?_
    show stats.residentBytes + (stats.reservedLoadingBytes + bytes) ≤ stats.budgetBytes
    unfold saturatingAdd at hrm
    omega
  | crowded key bytes waiter _ e hev => exact hev.preserves Evicts.inBudget h
  | published loadId key entry stats hl he hst hs =>
    have hle := htal.bytes_le he hst hs
    have hwit := h key.pool stats hs
    refine h.of_insert rfl ?_
    show stats.residentBytes + entry.bytes + (stats.reservedLoadingBytes - entry.bytes)
      ≤ stats.budgetBytes
    omega
  | failed loadId result message key entry stats hres hl he hst hs =>
    have hwit := h key.pool stats hs
    refine h.of_insert rfl ?_
    show stats.residentBytes + (stats.reservedLoadingBytes - entry.bytes) ≤ stats.budgetBytes
    omega
  | acquired key owner entry stats generation he hst hs =>
    exact h.of_insert rfl (h key.pool stats hs)
  | released lease owner entry stats hl he hst hs =>
    exact h.of_insert rfl (h lease.key.pool stats hs)
  | evicted key _ hev => exact hev.inBudget h
  | transferred pool bytes exposedWaitNs stats hs => exact h.of_insert rfl (h pool stats hs)

/-- **The pools of a reachable manager are balanced.** -/
theorem run_budgeted {ops : List ResidencyOp} (hlim : machine.Within ByteLimit new ops) :
    (machine.run new ops).Budgeted := by
  have hbud := run_of_transition (P := fun m => m.Tallied ∧ m.InBudget)
    (fun ht hpl h hnex => ⟨ht.tallied hpl h.1, ht.inBudget h.1 h.2 hnex⟩)
    ⟨tallied_new, fun _ _ hs => absurd hs (by simp [new])⟩ hlim
  intro pool stats hs
  obtain ⟨hr, hl, hp⟩ := hbud.1 pool stats hs
  exact ⟨hr, hl, hp, hbud.2 pool stats hs⟩

end ResidencyManager

end Logan
