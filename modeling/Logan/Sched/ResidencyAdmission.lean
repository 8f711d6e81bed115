import Logan.Sched.ResidencyEviction

/-!
# The admission of a load

A load that is not under way is admitted if its bytes, those of the pinned
entries of its pool and those of the loads of its pool fit the budget
together (`ResidencyManager.demand`), whatever else is resident there: the
loop of `ensure_space` evicts one unpinned entry after the other, the least
recently touched first, until the bytes fit or nothing is left to evict
(`ResidencyManager.MakesRoom`). The test of the loop saturates, and so passes
whatever is asked of a pool whose budget is the largest `usize`
(`ResidencyManager.admission_iff`).

A load that cannot be admitted may evict all the same: the loop finds out
only when nothing is left (`ResidencyManager.error_atomic_iff`).
-/

namespace Logan

open Option Table

namespace ResidencyManager

variable {m d : ResidencyManager} {key : ExpertKey} {entry : Entry} {stats : PoolStats}
variable {pool : MemoryPoolId} {bytes budget : ℕ}

/-- The bytes in use of a pool. -/
def usedIn (m : ResidencyManager) (pool : MemoryPoolId) : ℕ :=
  m.entries.sum (residentIn pool) + m.entries.sum (loadingIn pool)

/-- **What a load asks of a pool**, once nothing there is left to evict. -/
def demand (m : ResidencyManager) (pool : MemoryPoolId) (bytes : ℕ) : ℕ :=
  bytes + m.entries.sum (pinnedIn pool) + m.entries.sum (loadingIn pool)

/-- **Making room in a pool**: as long as the bytes do not fit, an unpinned
entry goes that was touched no later than any other. -/
inductive MakesRoom (pool : MemoryPoolId) (bytes budget : ℕ) :
    ResidencyManager → List ExpertKey → ResidencyManager → Prop
  | done (m : ResidencyManager) : MakesRoom pool bytes budget m [] m
  | evict {m d d' : ResidencyManager} {key : ExpertKey} {entry : Entry} {keys : List ExpertKey}
    (hfull : budget < m.usedIn pool + bytes) (hmay : m.MayEvict pool key entry)
    (hleast : ∀ j e, m.MayEvict pool j e → entry.lastTouch ≤ e.lastTouch)
    (hev : m.Evicts key d) (hrest : MakesRoom pool bytes budget d keys d') :
    MakesRoom pool bytes budget m (key :: keys) d'

/-! ## What evictions leave -/

theorem Evicts.lookup_eq (hev : m.Evicts key d) (j : ExpertKey) :
    d.entries.lookup j = if j = key then none else m.entries.lookup j := by
  cases hev with
  | evicted => exact lookup_erase _ _ j

/-- The pinned entries and the loads stay. -/
theorem Evicts.demand_eq (hev : m.Evicts key d) (pool : MemoryPoolId) (bytes : ℕ) :
    d.demand pool bytes = m.demand pool bytes := by
  cases hev with
  | evicted entry stats he hidl hres =>
    obtain ⟨generation, hst⟩ := hres
    have hsum (f : ExpertKey → Entry → ℕ) (hf : f key entry = 0) :
        (m.entries.erase key).sum f = m.entries.sum f := by
      have hadd := m.entries.sum_erase_add f key
      rwa [weigh_of_lookup he, hf, Nat.add_zero] at hadd
    have hld : ¬ entry.IsLoading := Entry.not_isLoading hst (by simp)
    show bytes + (m.entries.erase key).sum _ + (m.entries.erase key).sum _ = _
    rw [hsum (pinnedIn pool) (if_neg fun h => by omega), hsum (loadingIn pool)
      (if_neg fun h => hld h.2)]
    rfl

theorem MakesRoom.demand_eq {keys : List ExpertKey} (h : MakesRoom pool bytes budget m keys d) :
    d.demand pool bytes = m.demand pool bytes := by
  induction h with
  | done => rfl
  | evict hful hmay hlst hev hres ih => exact ih.trans (hev.demand_eq pool bytes)

/-- The entries that have gone, and no others, are those that were evicted. -/
theorem MakesRoom.lookup_eq {keys : List ExpertKey} (h : MakesRoom pool bytes budget m keys d)
    (j : ExpertKey) : d.entries.lookup j = if j ∈ keys then none else m.entries.lookup j := by
  induction h with
  | done => exact (if_neg List.not_mem_nil).symm
  | @evict m d d' key entry keys hful hmay hlst hev hres ih =>
    rw [ih, hev.lookup_eq]
    by_cases hj : j = key <;> simp [hj]

theorem MakesRoom.evictions {keys : List ExpertKey} (h : MakesRoom pool bytes budget m keys d) :
    m.Evictions d := by
  induction h with
  | done => exact .refl
  | evict hful hmay hlst hev hres ih => exact .head ⟨_, hev⟩ ih

/-! ## The loop -/

theorem demand_le (m : ResidencyManager) (pool : MemoryPoolId) (bytes : ℕ) :
    m.demand pool bytes ≤ m.usedIn pool + bytes := by
  have hpin : m.entries.sum (pinnedIn pool) ≤ m.entries.sum (residentIn pool) := by
    refine sum_mono fun key entry => ?_
    unfold pinnedIn residentIn
    by_cases h : key.pool = pool ∧ 0 < entry.leases ∧ entry.IsResident
    · rw [if_pos h, if_pos ⟨h.1, h.2.2⟩]
    · rw [if_neg h]
      exact Nat.zero_le _
  unfold demand usedIn
  omega

/-- If nothing can be evicted, what is resident is pinned. -/
theorem demand_of_no_victim (h : ∀ key entry, ¬ m.MayEvict pool key entry) :
    m.demand pool bytes = m.usedIn pool + bytes := by
  have hpin : m.entries.sum (pinnedIn pool) = m.entries.sum (residentIn pool) := by
    refine sum_congr fun key entry he => ?_
    unfold pinnedIn residentIn
    by_cases hres : key.pool = pool ∧ entry.IsResident
    · have hlsd : 0 < entry.leases :=
        Nat.pos_of_ne_zero fun hidl => h key entry ⟨he, hres.1, hidl, hres.2⟩
      rw [if_pos hres, if_pos ⟨hres.1, hlsd, hres.2⟩]
    · rw [if_neg hres, if_neg fun hp => hres ⟨hp.1, hp.2.2⟩]
  unfold demand usedIn
  omega

/-- The test of the loop, below the largest `usize`. -/
theorem room_iff (h : m.Tallied) (hs : m.pools.lookup pool = some stats)
    (hbud : budget < usizeMax) : saturatingAdd usizeMax
        (saturatingAdd usizeMax stats.residentBytes stats.reservedLoadingBytes) bytes ≤ budget
      ↔ m.usedIn pool + bytes ≤ budget := by
  obtain ⟨hr, hl, -⟩ := h pool stats hs
  rw [usedIn, ← hr, ← hl]
  unfold saturatingAdd
  omega

/-- **The loop makes room**, and then the bytes fit or nothing is left to
evict. -/
theorem ensureSpaceLoop_makesRoom {fuel : ℕ} (h : m.Tallied)
    (hs : m.pools.lookup pool = some stats) (hb : stats.budgetBytes = budget)
    (hbud : budget < usizeMax) (hfuel : m.entries.entries.length < fuel) :
    ∃ keys d, MakesRoom pool bytes budget m keys d
      ∧ ((ensureSpaceLoop pool bytes budget fuel m = (.ok (), d) ∧ d.usedIn pool + bytes ≤ budget)
        ∨ ∃ e, ensureSpaceLoop pool bytes budget fuel m = (.error e, d)
          ∧ budget < d.usedIn pool + bytes ∧ ∀ j e, ¬ d.MayEvict pool j e) := by
  induction fuel generalizing m stats with
  | zero => exact absurd hfuel (Nat.not_lt_zero _)
  | succ fuel ih =>
    have hrm : saturatingAdd usizeMax (saturatingAdd usizeMax stats.residentBytes
        stats.reservedLoadingBytes) bytes ≤ budget ↔ m.usedIn pool + bytes ≤ budget :=
      room_iff h hs hbud
    rw [ensureSpaceLoop, hs]
    dsimp only
    by_cases hfit : m.usedIn pool + bytes ≤ budget
    · rw [if_pos (hrm.mpr hfit)]
      exact ⟨[], m, .done m, Or.inl ⟨rfl, hfit⟩⟩
    · rw [if_neg (hrm.not.mpr hfit)]
      rcases m.evict_cases pool with ⟨key, d, heq, rfl, hev, entry, hmin⟩ | ⟨heq, hnil⟩
        | ⟨e, -, hnon⟩
      · have hmay := mem_evictable_iff.mp (List.argmin_mem hmin)
        have hkep := hev.budget key.pool
        rw [hs, map_some, map_eq_some_iff] at hkep
        obtain ⟨stats', hs', hsam⟩ := hkep
        obtain ⟨keys, d', hres, hrsl⟩ :=
          ih (hev.tallied h) hs' (hsam.trans hb) (by have := hev.length_lt; omega)
        refine ⟨key :: keys, d', .evict (not_le.mp hfit) hmay (fun j e hoth => ?_) hev hres, ?_⟩
        · have hle := List.le_of_mem_argmin (mem_evictable_iff.mpr hoth) hmin
          exact hle
        · rwa [heq]
      · rw [heq]
        refine ⟨[], m, .done m, Or.inr ⟨_, rfl, not_le.mp hfit, fun j e hmay => ?_⟩⟩
        have hmem := mem_evictable_iff.mpr hmay
        rw [hnil] at hmem
        exact List.not_mem_nil hmem
      · rw [hs] at hnon
        cases hnon

/-- A key that is neither resident nor being loaded. -/
def Idle (m : ResidencyManager) (key : ExpertKey) : Prop :=
  (∀ generation, m.state key ≠ .resident generation) ∧ ∀ loadId, m.state key ≠ .loading loadId

theorem idle_of_absent (h : m.state key = .absent) : m.Idle key :=
  ⟨fun generation hst => absurd (h.symm.trans hst) (by simp),
    fun loadId hst => absurd (h.symm.trans hst) (by simp)⟩

theorem beginLoad_of_idle (h : m.Idle key) (bytes : ℕ) (waiter : SessionId) :
    m.beginLoad key bytes waiter = m.startLoad key bytes waiter := by
  unfold beginLoad
  cases he : m.entries.lookup key with
  | none => rfl
  | some entry =>
    have hst := state_of_lookup he
    dsimp only
    cases hent : entry.state with
    | resident generation => exact absurd (hst.trans hent) (h.1 generation)
    | loading loadId => exact absurd (hst.trans hent) (h.2 loadId)
    | failed | absent => rfl

/-- **What a load that is not under way comes to**, in a pool of this budget:
room is made, and the load is started if it is enough. -/
theorem startLoad_makesRoom (h : m.Tallied) (hs : m.pools.lookup key.pool = some stats)
    (hbud : stats.budgetBytes ≤ usizeMax) (bytes : ℕ) (waiter : SessionId) :
    ∃ keys d, MakesRoom key.pool bytes stats.budgetBytes m keys d
      ∧ ((∃ stats', d.pools.lookup key.pool = some stats' ∧ m.startLoad key bytes waiter
            = (.ok (.started ⟨d.nextLoad⟩), d.started key bytes waiter stats')
          ∧ bytes ≤ stats.budgetBytes
          ∧ (stats.budgetBytes = usizeMax ∨ m.demand key.pool bytes ≤ stats.budgetBytes))
        ∨ ∃ e, m.startLoad key bytes waiter = (.error e, d)
          ∧ stats.budgetBytes < m.demand key.pool bytes ∧ ((stats.budgetBytes < bytes ∧ keys = [])
            ∨ bytes ≤ stats.budgetBytes ∧ stats.budgetBytes < usizeMax
              ∧ ∀ j e, ¬ d.MayEvict key.pool j e)) := by
  have hst {d : ResidencyManager} {stats' : PoolStats}
      (heq : m.ensureSpace key.pool bytes = (.ok (), d))
      (hs' : d.pools.lookup key.pool = some stats') : m.startLoad key bytes waiter
        = (.ok (.started ⟨d.nextLoad⟩), d.started key bytes waiter stats') := by
    rw [startLoad, heq]
    dsimp only [allocLoad, tick]
    rw [updateStats_of_lookup stats']
    · rfl
    · exact hs'
  have hstp {d : ResidencyManager} {e : ResidencyError}
      (heq : m.ensureSpace key.pool bytes = (.error e, d)) :
      m.startLoad key bytes waiter = (.error e, d) := by
    rw [startLoad, heq]
  have hsp : m.ensureSpace key.pool bytes = if stats.budgetBytes < bytes then
          (.error (.budgetExceeded key.pool bytes stats.budgetBytes), m)
        else ensureSpaceLoop key.pool bytes stats.budgetBytes (m.entries.entries.length + 1) m := by
    rw [ensureSpace, hs]
  by_cases hlrg : stats.budgetBytes < bytes
  · rw [if_pos hlrg] at hsp
    refine ⟨[], m, .done m, Or.inr ⟨_, hstp hsp, ?_, Or.inl ⟨hlrg, rfl⟩⟩⟩
    unfold demand
    omega
  · rw [if_neg hlrg] at hsp
    rcases Nat.lt_or_eq_of_le hbud with hles | hmax
    · have hlp := @ensureSpaceLoop_makesRoom m stats key.pool bytes _ _ h hs rfl hles
        (Nat.lt_succ_self _)
      obtain ⟨keys, d, hrm, ⟨heq, hfit⟩ | ⟨e, heq, hful, hnon⟩⟩ := hlp
      · obtain ⟨stats', hs'⟩ : ∃ stats', d.pools.lookup key.pool = some stats' := by
          have hkep := hrm.evictions.preserves
            (P := fun c => ((c.pools.lookup key.pool).map PoolStats.budgetBytes).isSome)
            (fun hev hc => by rw [hev.budget]; exact hc) (by rw [hs]; rfl)
          rw [isSome_map] at hkep
          exact isSome_iff_exists.mp hkep
        refine ⟨keys, d, hrm, Or.inl ⟨stats', hs', hst (hsp.trans heq) hs',
          not_lt.mp hlrg, Or.inr ?_⟩⟩
        rw [← hrm.demand_eq]
        exact (d.demand_le key.pool bytes).trans hfit
      · refine ⟨keys, d, hrm, Or.inr ⟨e, hstp (hsp.trans heq), ?_,
          Or.inr ⟨not_lt.mp hlrg, hles, hnon⟩⟩⟩
        rwa [← hrm.demand_eq, demand_of_no_victim hnon]
    · -- the saturated sum is never more than the largest budget
      have heq : ensureSpaceLoop key.pool bytes stats.budgetBytes
          (m.entries.entries.length + 1) m = (.ok (), m) := by
        rw [ensureSpaceLoop, hs]
        exact if_pos (hmax ▸ Nat.min_le_right _ _)
      exact ⟨[], m, .done m, Or.inl ⟨stats, hs, hst (hsp.trans heq) hs,
        not_lt.mp hlrg, Or.inl hmax⟩⟩

/-! ## Admission -/

/-- **A load is admitted as it should be**: it succeeds if its demand fits the
budget, the loop ends, and what it evicts are unpinned entries of the pool,
the least recently touched first, none of them once the bytes fit. -/
structure Admission (m : ResidencyManager) (key : ExpertKey) (bytes : ℕ) (waiter : SessionId)
    (budget : ℕ) : Prop where
  succeeds_iff : (∃ disposition, (m.beginLoad key bytes waiter).1 = .ok disposition)
    ↔ m.demand key.pool bytes ≤ budget
  /-- More rounds of the loop would change nothing. -/
  ends : ∀ extra, ensureSpaceLoop key.pool bytes budget (m.entries.entries.length + 1 + extra) m
    = ensureSpaceLoop key.pool bytes budget (m.entries.entries.length + 1) m
  makesRoom : ∃ keys d, MakesRoom key.pool bytes budget m keys d
    ∧ ∀ j, j ≠ key → (m.beginLoad key bytes waiter).2.entries.lookup j
      = if j ∈ keys then none else m.entries.lookup j

/-- **Which loads are admitted as they should be**, in any state that can be
reached: all of them, but for those that ask more than the largest `usize` of
a pool with that budget. -/
theorem admission_iff (ops : List ResidencyOp) (key : ExpertKey) (bytes : ℕ) (waiter : SessionId)
    (hidle : (machine.run new ops).Idle key)
    (hs : (machine.run new ops).pools.lookup key.pool = some stats)
    (hbudget : stats.budgetBytes ≤ usizeMax) (hbytes : bytes ≤ usizeMax) :
    Admission (machine.run new ops) key bytes waiter stats.budgetBytes
      ↔ stats.budgetBytes < usizeMax ∨ (machine.run new ops).demand key.pool bytes ≤ usizeMax := by
  have htal := run_tallied ops
  generalize machine.run new ops = m at hidle hs htal ⊢
  obtain ⟨keys, d, hrm, hres⟩ := startLoad_makesRoom htal hs hbudget bytes waiter
  rw [← beginLoad_of_idle hidle] at hres
  have hend := fun extra => ensureSpaceLoop_of_enough key.pool bytes stats.budgetBytes
    (m.entries.entries.length + 1) m (Nat.lt_succ_self _) extra
  rcases hres with ⟨stats', hs', heq, hle, hdem⟩ | ⟨e, heq, hful, hwhy⟩
  · have hlkp : ∀ j, j ≠ key → (m.beginLoad key bytes waiter).2.entries.lookup j
        = if j ∈ keys then none else m.entries.lookup j := by
      intro j hj
      rw [heq, ← hrm.lookup_eq]
      exact lookup_insert_ne _ _ hj
    constructor
    · intro h
      refine Or.inr (le_trans (h.succeeds_iff.mp ⟨_, congrArg Prod.fst heq⟩) hbudget)
    · intro h
      refine ⟨iff_of_true ⟨_, congrArg Prod.fst heq⟩ ?_, hend, keys, d, hrm, hlkp⟩
      rcases hdem with hmax | hdem
      · exact (h.resolve_left (not_lt.mpr hmax.ge)).trans_eq hmax.symm
      · exact hdem
  · have hlkp : ∀ j, j ≠ key → (m.beginLoad key bytes waiter).2.entries.lookup j
        = if j ∈ keys then none else m.entries.lookup j := by
      intro j _
      rw [heq, ← hrm.lookup_eq]
    have hfls : ¬ ∃ disposition, (m.beginLoad key bytes waiter).1 = .ok disposition := by
      rintro ⟨disposition, hok⟩
      rw [heq] at hok
      cases hok
    refine iff_of_true ⟨iff_of_false hfls (not_le.mpr hful), hend, keys, d, hrm, hlkp⟩ ?_
    rcases hwhy with ⟨hlrg, -⟩ | ⟨-, hles, -⟩
    · exact Or.inl (hlrg.trans_le hbytes)
    · exact Or.inl hles

/-- A key of the first pool. -/
def poolKey (expert : ℕ) : ExpertKey := ⟨0, 0, 0, expert, ⟨0, 0, 0⟩, ⟨0⟩⟩

/-- A load of 40 bytes succeeds, and its waiter returns the lease. -/
def unpinnedFirst : List ResidencyOp :=
  [.addPool ⟨0⟩ 100, .beginLoad (poolKey 0) 40 ⟨0⟩, .completeLoad ⟨⟨0⟩, .success⟩,
    .release ⟨⟨0⟩, poolKey 0, ⟨0⟩, ⟨0⟩⟩]

/-- An unpinned entry makes room. -/
theorem admission_of_unpinned : Admission (machine.run new unpinnedFirst) (poolKey 1) 70 ⟨0⟩ 100 :=
  (@admission_iff { budgetBytes := 100, residentBytes := 40, misses := 1, loadsStarted := 1 }
    unpinnedFirst (poolKey 1) 70 ⟨0⟩ (idle_of_absent (by decide +kernel)) (by decide +kernel)
    (by decide) (by decide)).mpr (Or.inl (by decide))

/-- A pool with the largest budget, full of a single pinned entry. -/
def fullPool : List ResidencyOp :=
  [.addPool ⟨0⟩ usizeMax, .beginLoad (poolKey 0) usizeMax ⟨0⟩, .completeLoad ⟨⟨0⟩, .success⟩]

/-- **A pool with the largest budget is never full**: one more byte is
admitted although all of the others are pinned. -/
theorem admits_beyond_budget : (machine.run new fullPool).Idle (poolKey 1)
    ∧ ((machine.run new fullPool).pools.lookup ⟨0⟩).map PoolStats.budgetBytes = some usizeMax
    ∧ ((machine.run new fullPool).beginLoad (poolKey 1) 1 ⟨0⟩).1 = .ok (.started ⟨1⟩)
    ∧ ¬ (machine.run new fullPool).demand ⟨0⟩ 1 ≤ usizeMax :=
  ⟨idle_of_absent (by decide +kernel), by decide +kernel, by decide +kernel, by decide +kernel⟩

/-! ## What an error leaves -/

/-- **The records of two states are the same**: the resident entries, the
counters of every pool, the leases and the loads. -/
structure SameRecords (m d : ResidencyManager) : Prop where
  resident : ∀ key entry, entry.IsResident →
    (d.entries.lookup key = some entry ↔ m.entries.lookup key = some entry)
  pools : d.pools = m.pools
  leases : d.leases = m.leases
  loads : d.loads = m.loads

theorem SameRecords.refl (m : ResidencyManager) : SameRecords m m :=
  ⟨fun _ _ _ => Iff.rfl, rfl, rfl, rfl⟩

/-- **A load that destroys**: it is for a key that is not there, its bytes
fit the budget of its pool but not beside what is pinned and being loaded
there, and something there is unpinned. -/
def Destructive (m : ResidencyManager) (key : ExpertKey) (bytes : ℕ) : Prop :=
  m.Idle key ∧ ∃ stats, m.pools.lookup key.pool = some stats
    ∧ bytes ≤ stats.budgetBytes ∧ stats.budgetBytes < usizeMax
    ∧ stats.budgetBytes < m.demand key.pool bytes
    ∧ ∃ j entry, m.MayEvict key.pool j entry

/-- A load of a key that is there fails without effect. -/
theorem beginLoad_error_of_not_idle {e : ResidencyError} {waiter : SessionId}
    (hpl : m.Placed) (h : ¬ m.Idle key) (he : (m.beginLoad key bytes waiter).1 = .error e) :
    (m.beginLoad key bytes waiter).2 = m := by
  cases hfnd : m.entries.lookup key with
  | none => exact absurd (idle_of_absent (state_of_absent hfnd)) h
  | some entry =>
    obtain ⟨stats, hs⟩ := hpl key entry hfnd
    have hoth (hst : m.state key = entry.state) (hres : ¬ entry.IsResident)
        (hld : ¬ entry.IsLoading) : m.Idle key :=
      ⟨fun g hg => hres ⟨g, hst.symm.trans hg⟩, fun id hid => hld ⟨id, hst.symm.trans hid⟩⟩
    cases hst : entry.state with
    | resident =>
      rw [beginLoad_of_resident bytes waiter hfnd hst hs] at he
      cases he
    | loading =>
      by_cases hbytes : entry.bytes = bytes
      · rw [← hbytes, beginLoad_of_loading waiter hfnd hst hs] at he
        cases he
      · have heq : m.beginLoad key bytes waiter
            = (.error (.sizeMismatch entry.bytes bytes), m) := by
          rw [beginLoad, hfnd]
          dsimp only
          rw [hst]
          exact if_pos hbytes
        rw [heq]
    | failed =>
      exact absurd (hoth (state_of_lookup hfnd) (Entry.not_isResident hst (by simp))
        (Entry.not_isLoading hst (by simp))) h
    | absent =>
      exact absurd (hoth (state_of_lookup hfnd) (Entry.not_isResident hst (by simp))
        (Entry.not_isLoading hst (by simp))) h

/-- **Which loads leave everything as it was when they fail**, in any state
that can be reached: all but the destructive ones. -/
theorem error_atomic_iff (ops : List ResidencyOp) (key : ExpertKey) (bytes : ℕ) (waiter : SessionId)
    (hbudget : ∀ stats, (machine.run new ops).pools.lookup key.pool = some stats →
      stats.budgetBytes ≤ usizeMax) :
    ((∃ e, ((machine.run new ops).beginLoad key bytes waiter).1 = .error e) →
        SameRecords (machine.run new ops) ((machine.run new ops).beginLoad key bytes waiter).2)
      ↔ ¬ (machine.run new ops).Destructive key bytes := by
  have htal := run_tallied ops
  have hpl := run_placed ops
  generalize machine.run new ops = m at hbudget htal hpl ⊢
  by_cases hidl : m.Idle key
  · rw [beginLoad_of_idle hidl]
    cases hs : m.pools.lookup key.pool with
    | none =>
      have heq : m.startLoad key bytes waiter = (.error (.unknownPool key.pool), m) := by
        rw [startLoad, ensureSpace, hs]
      rw [heq]
      refine iff_of_true (fun _ => .refl m) ?_
      rintro ⟨-, stats, hst, -⟩
      rw [hs] at hst
      cases hst
    | some stats =>
      obtain ⟨keys, d, hrm, hres⟩ :=
        startLoad_makesRoom htal hs (hbudget stats hs) bytes waiter
      rcases hres with ⟨stats', hs', heq, hle, hdem⟩ | ⟨e, heq, hful, hwhy⟩
      · rw [heq]
        refine iff_of_true ?_ ?_
        · rintro ⟨e, herr⟩
          cases herr
        · rintro ⟨-, stats₁, hs₁, -, hles, hov, -⟩
          obtain rfl := some.inj (hs.symm.trans hs₁)
          omega
      · rw [heq]
        rcases hwhy with ⟨hlrg, rfl⟩ | ⟨hfit, hles, hnon⟩
        · cases hrm
          refine iff_of_true (fun _ => .refl m) ?_
          rintro ⟨-, stats₁, hs₁, hfit, -⟩
          obtain rfl := some.inj (hs.symm.trans hs₁)
          exact absurd hfit (not_le.mpr hlrg)
        · constructor
          · -- an entry that was unpinned before is there no more
            rintro hsam ⟨-, stats₁, hs₁, -, -, -, j, entry, hmay⟩
            have hkep := ((hsam ⟨e, rfl⟩).resident j entry hmay.resident).mpr hmay.found
            exact hnon j entry ⟨hkep, hmay.here, hmay.unleased, hmay.resident⟩
          · intro hhar _
            cases hrm with
            | done m => exact .refl m
            | evict hov hmay =>
              exact absurd ⟨hidl, stats, hs, hfit, hles, hful, _, _, hmay⟩ hhar
  · refine iff_of_true ?_ (fun h => hidl h.1)
    rintro ⟨e, he⟩
    rw [beginLoad_error_of_not_idle hpl hidl he]
    exact .refl m

/-- An unpinned entry of 40 bytes beside a pinned one. -/
def pinnedSecond : List ResidencyOp :=
  unpinnedFirst ++ [.beginLoad (poolKey 1) 40 ⟨0⟩, .completeLoad ⟨⟨1⟩, .success⟩]

/-- **A load of 70 bytes fails, and has evicted** what was unpinned. -/
theorem evicts_and_fails : ((machine.run new pinnedSecond).beginLoad (poolKey 2) 70 ⟨0⟩).1
        = .error (.budgetExceeded ⟨0⟩ 70 60)
    ∧ (machine.run new pinnedSecond).state (poolKey 0) = .resident ⟨0⟩
    ∧ ((machine.run new pinnedSecond).beginLoad (poolKey 2) 70 ⟨0⟩).2.state (poolKey 0) = .absent :=
  ⟨by decide +kernel, by decide +kernel, by decide +kernel⟩

/-- A load that does not fit the budget of its pool at all evicts nothing. -/
theorem error_atomic_of_large : ((machine.run new pinnedSecond).beginLoad (poolKey 2) 170 ⟨0⟩).1
        = .error (.budgetExceeded ⟨0⟩ 170 100) ∧ SameRecords (machine.run new pinnedSecond)
        ((machine.run new pinnedSecond).beginLoad (poolKey 2) 170 ⟨0⟩).2 := by
  have hbud : ∀ stats, (machine.run new pinnedSecond).pools.lookup (poolKey 2).pool
      = some stats → stats.budgetBytes = 100 := by
    intro stats hs
    have hmap : ((machine.run new pinnedSecond).pools.lookup (poolKey 2).pool).map
        PoolStats.budgetBytes = some 100 := by decide +kernel
    rw [hs] at hmap
    exact some.inj hmap
  refine ⟨by decide +kernel, ?_⟩
  refine (error_atomic_iff pinnedSecond (poolKey 2) 170 ⟨0⟩ (fun stats hs => ?_)).mpr ?_
    ⟨.budgetExceeded ⟨0⟩ 170 100, by decide +kernel⟩
  · rw [hbud stats hs]
    decide
  · rintro ⟨-, stats, hs, hfit, -⟩
    rw [hbud stats hs] at hfit
    exact absurd hfit (by decide)

end ResidencyManager

end Logan
