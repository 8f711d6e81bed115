import Logan.Plan.TieredExact

/-!
# When a plan is found if there is one

Both optimizers keep at most a fixed number of partial plans, and trim their
frontiers to this number in the order of what the partial plans cost; the
memory that they need is not what comes first. So a trimming may leave only
partial plans that need too much memory for the groups that come, and then a
request that could be met is refused (`not_paretoPlans_feasible`).

As long as a trimming leaves, for every partial plan, one that needs no more
memory, and no more storage, plans are found if there are any. Dropping
dominated partial plans is then harmless, also in the tiered optimizer: the
minimum working set, on which it may go wrong, never exceeds the resident
target.
-/

namespace Logan

open List Tiered Optimizer Result ResourcePlan ResourceAcc
open List (range)

namespace Optimizer

/-- The pruning leaves, for every partial plan, one that needs no more memory. -/
def KeepsLeast (next : List State) : Prop :=
  ∀ s ∈ next, ∃ t ∈ pruneStates next, t.residentBytes ≤ s.residentBytes

/-- **No sum is out of range, and if a frontier is trimmed**, for every partial
plan one is left that needs no more memory. -/
structure TrimsSafely (input : OptimizerInput) : Prop where
  rounds : (search input).Rounds (fun next => ¬ Untrimmed next → KeepsLeast next)
    [initialState input] input.groups
  contexts : ∀ states, (search input).explore [initialState input] input.groups = .ok states →
    ∀ s ∈ states, ∀ c ∈ allowedContexts input, s.metricsWithContext c ≠ none

theorem least_step {input : OptimizerInput} (a b : State) (o : RepresentationCandidate)
    (i : ℕ) (b' : State) (h : a.residentBytes ≤ b.residentBytes)
    (hb' : step input b o i = some b') :
    ∃ a', step input a o i = some a' ∧ a'.residentBytes ≤ b'.residentBytes := by
  unfold step at hb' ⊢
  split_ifs at hb' with hfit
  cases hb'
  exact ⟨grow input a o i, if_pos ((Nat.add_le_add_right h _).trans hfit), Nat.add_le_add_right h _⟩

/-- **Plans are returned if some plan fits.** -/
theorem exists_paretoPlans {input : OptimizerInput} (hval : validateInput input = .ok ())
    (hsaf : TrimsSafely input) {os : List RepresentationCandidate} {context : ContextCandidate}
    (h : IsPlan input os context) : ∃ plans, paretoPlans input = .ok plans := by
  obtain ⟨is, his⟩ := Search.exists_picks h.chosen
  have hfit := h.fits
  have hpat := path_of_picks his (initialState input) ((Nat.le_add_right _ _).trans hfit)
  have hpr : ∀ next, (¬ Untrimmed next → KeepsLeast next) → ∀ s ∈ next, ∀ b : State,
      s.residentBytes ≤ b.residentBytes →
        ∃ t ∈ (search input).prune next, t.residentBytes ≤ b.residentBytes := by
    intro next hnex s hs b hsb
    by_cases hunt : Untrimmed next
    · obtain ⟨t, ht, hsim⟩ := exists_mem_pruneStates next hunt s hs
      exact ⟨t, ht, (State.cost_le.mp hsim.2).2.2.1.trans hsb⟩
    · obtain ⟨t, ht, hts⟩ := hnex hunt s hs
      exact ⟨t, ht, hts.trans hsb⟩
  have hst : ∃ a ∈ [initialState input], a.residentBytes ≤ (initialState input).residentBytes :=
    ⟨_, mem_singleton_self _, le_rfl⟩
  rcases Search.explore_of_rounds (R := fun _ (a b : State) => a.residentBytes ≤ b.residentBytes)
    extendState_eq_step (fun _ _ _ o _ a b => least_step a b o) (fun _ => hpr) hsaf.rounds
      with ⟨states, hstt, hfnd⟩ | ⟨g, -, -, hnon⟩
  · obtain ⟨a, ha, hle⟩ := hfnd _ _ _ hst hpat
    obtain ⟨m, hm⟩ := Option.ne_none_iff_exists'.mp
      (hsaf.contexts states hstt a ha context h.allowed)
    refine (exists_paretoPlans_iff hval hstt).mpr ⟨(m, a.choices), mem_completePlans.mpr
      ⟨context, h.allowed, a, ha, hm, ?_, rfl⟩⟩
    have hm' := hm
    unfold State.metricsWithContext at hm'
    split_ifs at hm'
    rw [← Option.some.inj hm']
    rw [residentBytes_growAll his] at hle
    exact (Nat.add_le_add_right hle _).trans hfit
  · exact absurd hpat (hnon _ _ _ hst)

/-! ### A frontier that is trimmed too much -/

/-- The options of the first group: the better one is, the more memory it
needs, or, if they are packed, the more bytes of the package. -/
def tradeOff (packed : Bool) (i : ℕ) : RepresentationCandidate where
  id := "o"
  quant := ⟨"exact", none⟩
  layout := 0
  placement := .resident
  residentBytes := if packed then 0 else maxFrontierStates - i
  packageBytes := if packed then maxFrontierStates - i else 0
  storageTrafficBytes := 0
  latencyCost := 0
  qualityLossPpm := i
  dispatchClass := 0
  rationale := ""

/-- A number of options, and then the first one of them, which needs all the memory if
they are not packed. -/
def manyOptions (packed : Bool) (n : ℕ) : OptimizerInput where
  costModel := "c"
  groups := [⟨"g", (range n).map (tradeOff packed)⟩, ⟨"h", [tradeOff packed 0]⟩]
  contextConstraint := ⟨.maximum, 1⟩
  contextCandidates := [⟨1, 0, 0⟩]
  memoryBudgetBytes := maxFrontierStates
  baseResidentBytes := 0
  basePackageBytes := 0
  baseStorageTrafficBytes := 0
  baseLatencyCost := 0
  baseQualityLossPpm := 0
  heterogeneitySwitchPenalty := 0

/-- The partial plan of one of the first options. -/
def tradeOffState (packed : Bool) (i : ℕ) : State :=
  ⟨i, 0, (tradeOff packed i).residentBytes, (tradeOff packed i).packageBytes, 0, 0, [i]⟩

/-- **What is meant is computed**, if no sum is out of range. -/
theorem extendState_of_range {input : OptimizerInput} {s : State} {o : RepresentationCandidate}
    (i : ℕ) (hqlt : s.qualityLossPpm + o.qualityLossPpm ≤ u64Max)
    (hlat : s.latencyCost + o.latencyCost + input.heterogeneitySwitchPenalty ≤ u64Max)
    (hres : s.residentBytes + o.residentBytes ≤ u64Max)
    (hpac : s.packageBytes + o.packageBytes ≤ u64Max)
    (htr : s.storageTrafficBytes + o.storageTrafficBytes ≤ u64Max) :
    extendState input s o i = .ok (step input s o i) := by
  have hok : ∃ latency, extendLatency input s o = .ok latency := by
    unfold extendLatency
    rw [checkedAdd_eq_ok.mpr ⟨rfl, (Nat.le_add_right _ _).trans hlat⟩, ok_bind]
    split_ifs
    · exact ⟨_, checkedAdd_eq_ok.mpr ⟨rfl, hlat⟩⟩
    · exact ⟨_, rfl⟩
  obtain ⟨latency, hok⟩ := hok
  have hret : ∃ r, extendState input s o i = .ok r := by
    unfold extendState
    rw [hok, ok_bind, checkedAdd_eq_ok.mpr ⟨rfl, hres⟩, ok_bind]
    split_ifs
    · exact ⟨_, rfl⟩
    · rw [checkedAdd_eq_ok.mpr ⟨rfl, hqlt⟩, ok_bind, checkedAdd_eq_ok.mpr ⟨rfl, hpac⟩, ok_bind,
        checkedAdd_eq_ok.mpr ⟨rfl, htr⟩, ok_bind]
      exact ⟨_, rfl⟩
    · rw [checkedAdd_eq_ok.mpr ⟨rfl, hqlt⟩, ok_bind, checkedAdd_eq_ok.mpr ⟨rfl, hpac⟩, ok_bind,
        checkedAdd_eq_ok.mpr ⟨rfl, htr⟩, ok_bind]
      exact ⟨_, rfl⟩
  obtain ⟨r, hr⟩ := hret
  rw [hr, extendState_eq_step s o i r hr]

variable {packed : Bool} {n : ℕ}

theorem zipIdx_tradeOff : ((range n).map (tradeOff packed)).zipIdx =
    (range n).map fun i => (tradeOff packed i, i) := by
  refine ext_getElem? fun i => ?_
  rw [List.getElem?_zipIdx, List.getElem?_map, List.getElem?_map]
  by_cases hi : i < n
  · rw [List.getElem?_range hi, zero_add]
    rfl
  · rw [List.getElem?_eq_none (by rw [length_range]; exact Nat.not_lt.mp hi)]
    rfl

theorem tradeOff_le (packed : Bool) (i : ℕ) :
    (tradeOff packed i).residentBytes ≤ maxFrontierStates ∧
      (tradeOff packed i).packageBytes ≤ maxFrontierStates := by
  cases packed
  · exact ⟨Nat.sub_le _ _, Nat.zero_le _⟩
  · exact ⟨Nat.zero_le _, Nat.sub_le _ _⟩

theorem extendState_tradeOff {s : State} {i k : ℕ} (hi : i ≤ maxFrontierStates)
    (hqlt : s.qualityLossPpm ≤ maxFrontierStates) (hres : s.residentBytes ≤ maxFrontierStates)
    (hpac : s.packageBytes ≤ maxFrontierStates) (hlat : s.latencyCost = 0)
    (htr : s.storageTrafficBytes = 0) :
    extendState (manyOptions packed n) s (tradeOff packed i) k =
      .ok (step (manyOptions packed n) s (tradeOff packed i) k) := by
  have hmax : maxFrontierStates + maxFrontierStates ≤ u64Max := by decide
  obtain ⟨hres', hpac'⟩ := tradeOff_le packed i
  refine extendState_of_range k ((Nat.add_le_add hqlt hi).trans hmax) ?_
    ((Nat.add_le_add hres hres').trans hmax) ((Nat.add_le_add hpac hpac').trans hmax) ?_
  · rw [hlat]
    exact Nat.zero_le _
  · rw [htr]
    exact Nat.zero_le _

/-- Each of the first options fits. -/
theorem extendState_first {i : ℕ} (hi : i ≤ maxFrontierStates) :
    extendState (manyOptions packed n) (initialState (manyOptions packed n)) (tradeOff packed i) i =
      .ok (some (tradeOffState packed i)) := by
  obtain ⟨hres, -⟩ := tradeOff_le packed i
  rw [extendState_tradeOff hi (Nat.zero_le _) (Nat.zero_le _) (Nat.zero_le _) rfl rfl]
  refine congrArg Except.ok ((if_pos ((Nat.zero_add _).le.trans hres)).trans (congrArg some ?_))
  unfold grow tradeOffState initialState manyOptions tradeOff
  simp [switchesClass]

/-- The last option comes to what is left of the first ones. -/
theorem extendState_second {i : ℕ} (hi : i < maxFrontierStates) :
    extendState (manyOptions packed n) (tradeOffState packed i) (tradeOff packed 0) 0 =
      .ok (step (manyOptions packed n) (tradeOffState packed i) (tradeOff packed 0) 0) :=
  extendState_tradeOff (Nat.zero_le _) hi.le (tradeOff_le packed i).1 (tradeOff_le packed i).2
    rfl rfl

theorem round_first (hn : n ≤ maxFrontierStates + 1) :
    (search (manyOptions packed n)).round [initialState (manyOptions packed n)]
      ⟨"g", (range n).map (tradeOff packed)⟩ = .ok ((range n).map (tradeOffState packed)) := by
  have hrnd := tryFilterMap_eq_map (g := fun p : State × RepresentationCandidate × ℕ =>
      tradeOffState packed p.2.2) (f := fun p : State × RepresentationCandidate × ℕ =>
      extendState (manyOptions packed n) p.1 p.2.1 p.2.2)
    (l := (range n).map fun i => (initialState (manyOptions packed n), tradeOff packed i, i)) (by
    intro p hp
    obtain ⟨i, hi, rfl⟩ := mem_map.mp hp
    exact extendState_first (Nat.le_of_lt_succ ((mem_range.mp hi).trans_le hn)))
  rw [map_map] at hrnd
  unfold Search.round
  rw [flatMap_singleton]
  show tryFilterMap _ ((((range n).map (tradeOff packed)).zipIdx).map
    fun o => (initialState (manyOptions packed n), o)) = _
  rwa [zipIdx_tradeOff, map_map]

theorem round_second (n : ℕ) :
    (search (manyOptions false n)).round ((range maxFrontierStates).map (tradeOffState false))
      ⟨"h", [tradeOff false 0]⟩ = .ok [] := by
  refine tryFilterMap_eq_nil fun p hp => ?_
  obtain ⟨s, hs, hp⟩ := mem_flatMap.mp hp
  obtain ⟨i, hi, rfl⟩ := mem_map.mp hs
  obtain ⟨o, ho, rfl⟩ := mem_map.mp hp
  obtain rfl := mem_singleton.mp ho
  have hlt := mem_range.mp hi
  refine (extendState_second hlt).trans (congrArg Except.ok (if_neg ?_))
  show ¬ maxFrontierStates - i + (maxFrontierStates - 0) ≤ maxFrontierStates
  omega

theorem keyLe_cons_of_lt {a b : ℕ} (k l : List ℕ) (h : a < b) : keyLe (a :: k) (b :: l) = true :=
  keyLe_iff.mpr (cons_lt_cons_iff.mpr (Or.inl h)).le

theorem keyLe_cons_self {k l : List ℕ} (a : ℕ) (h : keyLe k l = true) :
    keyLe (a :: k) (a :: l) = true := by
  rw [keyLe_iff, ← not_lt] at h ⊢
  intro hlt
  rcases cons_lt_cons_iff.mp hlt with hlt | ⟨-, hlt⟩
  · exact lt_irrefl a hlt
  · exact h hlt

theorem keyLe_sortKey {i j : ℕ} (h : i < j) :
    keyLe (tradeOffState packed i).sortKey (tradeOffState packed j).sortKey = true :=
  keyLe_cons_self 0 (keyLe_cons_of_lt _ _ h)

/-- The first options cost more by one each, and need less memory by at most one. -/
theorem keyLe_trimKey {i j : ℕ} (h : i < j) (hj : j ≤ maxFrontierStates) :
    keyLe (tradeOffState packed i).trimKey (tradeOffState packed j).trimKey = true := by
  have hle : ∀ r r', r ≤ 4096 → r ≤ r' + (j - i) →
      saturatingAdd u64Max (saturatingAdd u64Max (saturatingAdd u64Max i 0) (r / 4096)) (0 / 4096) ≤
        saturatingAdd u64Max (saturatingAdd u64Max (saturatingAdd u64Max j 0) (r' / 4096))
          (0 / 4096) := by
    intro r r' hr hrr
    unfold saturatingAdd
    omega
  have hrr : (tradeOff packed i).residentBytes ≤ (tradeOff packed j).residentBytes + (j - i) := by
    cases packed
    · show maxFrontierStates - i ≤ maxFrontierStates - j + (j - i)
      omega
    · exact Nat.zero_le _
  rcases (hle _ _ (tradeOff_le packed i).1 hrr).lt_or_eq with hlt | heq
  · exact keyLe_cons_of_lt _ _ hlt
  · unfold State.trimKey
    show keyLe (saturatingAdd u64Max (saturatingAdd u64Max (saturatingAdd u64Max i 0)
      ((tradeOff packed i).residentBytes / 4096)) (0 / 4096) :: _) (_ :: _) = true
    rw [heq]
    exact keyLe_cons_self _ (keyLe_cons_of_lt _ _ h)

/-- **The option that needs least is trimmed away.** -/
theorem pruneStates_first (hn : n = maxFrontierStates + 1) :
    pruneStates ((range n).map (tradeOffState packed)) =
      (range maxFrontierStates).map (tradeOffState packed) := by
  have hord : ∀ {R : State → State → Prop},
      (∀ i j, i < j → j ≤ maxFrontierStates → R (tradeOffState packed i) (tradeOffState packed j)) →
      ((range n).map (tradeOffState packed)).Pairwise R := by
    intro R hR
    refine pairwise_map.mpr (pairwise_lt_range.imp_of_mem fun _ hj h => ?_)
    exact hR _ _ h (Nat.le_of_lt_succ ((mem_range.mp hj).trans_eq hn))
  have hsor : sortBy State.sortKey ((range n).map (tradeOffState packed)) =
      (range n).map (tradeOffState packed) :=
    sortBy_of_pairwise (hord fun _ _ h _ => keyLe_sortKey h)
  have hap : Apart replaces ((range n).map (tradeOffState packed)) := by
    refine hord fun i j h hj => ?_
    rw [← Bool.not_eq_true, ← Bool.not_eq_true, replaces_iff, replaces_iff]
    constructor
    · rintro ⟨-, hlt⟩
      obtain ⟨-, -, hres, hpac, -⟩ := State.cost_le.mp hlt.le
      cases packed
      · change maxFrontierStates - i ≤ maxFrontierStates - j at hres
        omega
      · change maxFrontierStates - i ≤ maxFrontierStates - j at hpac
        omega
    · rintro ⟨-, hlt⟩
      exact Nat.not_le.mpr h (State.cost_le.mp hlt.le).1
  have htr : sortBy State.trimKey ((range n).map (tradeOffState packed)) =
      (range n).map (tradeOffState packed) :=
    sortBy_of_pairwise (hord fun _ _ h hj => keyLe_trimKey h hj)
  unfold pruneStates pruneBy
  rw [hsor, undominated_of_apart hap, length_map, length_range,
    if_pos (hn ▸ Nat.lt_succ_self _), htr, ← map_take, take_range,
    Nat.min_eq_left (hn ▸ Nat.le_succ _)]

/-- What is left after the first group. -/
theorem prune_first (hn : n = maxFrontierStates + 1) :
    (search (manyOptions packed n)).prune ((range n).map (tradeOffState packed)) =
      (range maxFrontierStates).map (tradeOffState packed) := pruneStates_first hn

/-- No sum is out of range. -/
structure SumsInRange (input : OptimizerInput) : Prop where
  rounds : (search input).Rounds (fun _ => True) [initialState input] input.groups
  contexts : ∀ states, (search input).explore [initialState input] input.groups = .ok states →
    ∀ s ∈ states, ∀ c ∈ allowedContexts input, s.metricsWithContext c ≠ none

/-- **The request is refused** after the second group. -/
theorem explore_manyOptions (hn : n = maxFrontierStates + 1) :
    (search (manyOptions false n)).explore [initialState (manyOptions false n)]
        (manyOptions false n).groups =
      .error ((search (manyOptions false n)).dead ⟨"h", [tradeOff false 0]⟩) := by
  have hsom : ((range maxFrontierStates).map (tradeOffState false)).isEmpty = false := by
    rw [isEmpty_eq_false_iff, ← length_pos_iff, length_map, length_range]
    decide
  show ((search (manyOptions false n)).round _ _ >>= _) = _
  rw [round_first hn.le, ok_bind, prune_first hn, hsom, if_neg Bool.false_ne_true]
  show ((search (manyOptions false n)).round _ _ >>= _) = _
  rw [round_second, ok_bind]
  rfl

theorem sumsInRange_manyOptions (hn : n = maxFrontierStates + 1) :
    SumsInRange (manyOptions false n) where
  rounds := by
    refine ⟨_, round_first hn.le, trivial, ?_⟩
    rw [prune_first hn]
    exact ⟨_, round_second n, trivial, trivial⟩
  contexts := by
    intro states h
    rw [explore_manyOptions hn] at h
    cases h

theorem isPlan_manyOptions (hn : n = maxFrontierStates + 1) : IsPlan (manyOptions packed n)
    [tradeOff packed maxFrontierStates, tradeOff packed 0] ⟨1, 0, 0⟩ where
  chosen := by
    refine List.Forall₂.cons (mem_map_of_mem (mem_range.mpr ?_))
      (List.Forall₂.cons (mem_singleton_self _) List.Forall₂.nil)
    rw [hn]
    exact Nat.lt_succ_self _
  allowed := mem_singleton_self _
  fits := by
    cases packed
    · show 0 + (maxFrontierStates - maxFrontierStates + (maxFrontierStates - 0 + 0)) + 0 ≤
        maxFrontierStates
      omega
    · exact Nat.zero_le _

theorem validateInput_manyOptions (packed : Bool) (hn : n = maxFrontierStates + 1) :
    validateInput (manyOptions packed n) = .ok () := by
  have hgr : ((manyOptions packed n).groups.any fun g => g.key.isEmpty || g.options.isEmpty) =
      false := by
    show ("g".isEmpty || ((range n).map (tradeOff packed)).isEmpty ||
      ("h".isEmpty || [tradeOff packed 0].isEmpty || false)) = false
    rw [hn, range_succ_eq_map]
    rfl
  have hnam : isBlank (manyOptions packed n).costModel = false := by
    show isBlank "c" = false
    decide
  have hcon : (manyOptions packed n).contextCandidates = [⟨1, 0, 0⟩] := rfl
  unfold validateInput
  rw [hgr, hnam, hcon, if_neg Bool.false_ne_true]
  rfl

/-- **A request that could be met is refused**: of one option more than the
frontier may have, the one that needs no memory costs most, and is trimmed
away before the group for which it would have left room. -/
theorem not_paretoPlans_feasible : ¬ ∀ input, validateInput input = .ok () → SumsInRange input →
      (∃ options context, IsPlan input options context) →
      ∃ plans, paretoPlans input = .ok plans := by
  intro hcl
  obtain ⟨n, hn⟩ : ∃ n, n = maxFrontierStates + 1 := ⟨_, rfl⟩
  obtain ⟨plans, hpl⟩ := hcl _ (validateInput_manyOptions _ hn) (sumsInRange_manyOptions hn)
    ⟨_, _, isPlan_manyOptions hn⟩
  unfold paretoPlans at hpl
  rw [validateInput_manyOptions _ hn, ok_bind, explore_manyOptions hn] at hpl
  cases hpl

end Optimizer

namespace Tiered

/-- **Accounts are lighter than others**: they have no larger resident targets,
and no more bytes stored. -/
structure ResourceAcc.Lighter (a b : ResourceAcc) : Prop where
  target : ∀ pool, (a.memoryOf pool).targetResidentBytes ≤ (b.memoryOf pool).targetResidentBytes
  stored : ∀ id, a.storageOf id ≤ b.storageOf id

/-- The minimum working sets do not exceed the resident targets. -/
def ResourceAcc.Settled (a : ResourceAcc) : Prop :=
  ∀ pool, (a.memoryOf pool).pinnedBytes + (a.memoryOf pool).transientWorkingSetBytes ≤
    (a.memoryOf pool).targetResidentBytes

namespace ResourceAcc

variable {a b c : ResourceAcc} {budget : ResourceBudget} {r : ResourcePlan}

theorem Lighter.trans (hab : Lighter a b) (hbc : Lighter b c) : Lighter a c where
  target pool := (hab.target pool).trans (hbc.target pool)
  stored id := (hab.stored id).trans (hbc.stored id)

theorem Lighter.accumulate (h : Lighter a b) (r : ResourcePlan) :
    Lighter (a.accumulate r) (b.accumulate r) where
  target := by
    intro pool
    rw [memoryOf_accumulate, memoryOf_accumulate]
    split_ifs
    · exact Nat.add_le_add_right (h.target _) _
    · exact h.target pool
  stored := by
    intro id
    rw [storageOf_accumulate, storageOf_accumulate]
    exact Nat.add_le_add_right (h.stored id) _

theorem grown_settled (h : a.Settled) (hval : r.validate = .ok ()) :
    (a.grown r).pinnedBytes + (a.grown r).transientWorkingSetBytes ≤
      (a.grown r).targetResidentBytes := by
  obtain ⟨hpin, hmin, -⟩ := validate_spec hval
  have hpl := h r.residency.memoryPool
  show (a.memoryOf r.residency.memoryPool).pinnedBytes + r.residency.pinnedBytes +
      max (a.memoryOf r.residency.memoryPool).transientWorkingSetBytes r.transientBytes ≤
    (a.memoryOf r.residency.memoryPool).targetResidentBytes + r.residency.targetResidentBytes
  unfold transientBytes
  omega

theorem Settled.accumulate (h : a.Settled) (hval : r.validate = .ok ()) :
    (a.accumulate r).Settled := by
  intro pool
  rw [memoryOf_accumulate]
  split_ifs
  · exact grown_settled h hval
  · exact h pool

/-- **Whoever is lighter has room** for whatever the other one has room for:
what the minimum working set needs, the target of the other one has. -/
theorem Lighter.hasRoom (h : Lighter a b) (ha : a.Settled) (hval : r.validate = .ok ())
    (hb : b.hasRoom budget r = true) : a.hasRoom budget r = true := by
  have htar : (a.grown r).targetResidentBytes ≤ (b.grown r).targetResidentBytes :=
    Nat.add_le_add_right (h.target _) _
  exact hasRoom_mono (Or.inr ((grown_settled ha hval).trans htar)) htar h.stored hb

theorem Lighter.hasRoomAll {rs : List ResourcePlan} (h : Lighter a b) (ha : a.Settled)
    (hval : ∀ r ∈ rs, r.validate = .ok ()) (hb : hasRoomAll budget b rs = true) :
    hasRoomAll budget a rs = true := by
  induction rs generalizing a b with
  | nil => rfl
  | cons r rs ih =>
    have hr := hval r mem_cons_self
    obtain ⟨hfst, hres⟩ := Bool.and_eq_true_iff.mp hb
    exact Bool.and_eq_true_iff.mpr ⟨h.hasRoom ha hr hfst, ih (h.accumulate r)
      (ha.accumulate hr) (fun r' hr' => hval r' (mem_cons_of_mem r hr')) hres⟩

end ResourceAcc

/-- The totals of well-formed resources are settled. -/
theorem settled_of_accounts {acc : ResourceAcc} {rs : List ResourcePlan} (h : Accounts acc rs)
    (hval : ∀ r ∈ rs, r.validate = .ok ()) : acc.Settled := by
  intro pool
  rw [h.memoryOf_eq]
  show pinnedIn rs pool + transientIn rs pool ≤ targetIn rs pool
  clear h
  induction rs with
  | nil => exact le_rfl
  | cons r rs ih =>
    have hres := ih fun r' hr' => hval r' (mem_cons_of_mem r hr')
    by_cases hpl : r.residency.memoryPool = pool
    · obtain ⟨hpin, hmin, -⟩ := validate_spec (hval r mem_cons_self)
      rw [← hpl] at hres ⊢
      rw [pinnedIn_cons_self, transientIn_cons_self, targetIn_cons_self]
      unfold transientBytes
      omega
    · unfold pinnedIn transientIn targetIn at hres ⊢
      rwa [inPool_cons_ne hpl]

/-- The pruning leaves, for every partial plan, a lighter one. -/
def KeepsLightest (next : List State) : Prop :=
  ∀ s ∈ next, ∃ t ∈ pruneStates next, t.resources.Lighter s.resources

/-- **No sum is out of range, and if a frontier is trimmed**, for every partial
plan a lighter one is left. -/
structure TrimsSafely (input : TieredOptimizerInput) : Prop where
  base : ∀ e, baseResources input = .error e → ¬ IsOverflow e
  rounds : ∀ base, baseResources input = .ok base →
    (search input).RoundsIf (fun next => ¬ Untrimmed next → KeepsLightest next) IsOverflow
      [initialState input base] input.groups
  contexts : ∀ base states e, baseResources input = .ok base →
    (search input).explore [initialState input base] input.groups = .ok states →
    completePlans input states = .error e → ¬ IsOverflow e

/-- A partial plan is lighter than another one, and settled. -/
def Replaces (a b : State) : Prop := a.resources.Lighter b.resources ∧ a.resources.Settled

theorem lighter_step {input : TieredOptimizerInput} {o : TieredRepresentationCandidate}
    (hval : o.resource.validate = .ok ()) (a b : State) (i : ℕ) (b' : State) (h : Replaces a b)
    (hb' : step input b o i = some b') : ∃ a', step input a o i = some a' ∧ Replaces a' b' := by
  unfold step at hb' ⊢
  split_ifs at hb' with hrm
  cases hb'
  exact ⟨grow input a o i, if_pos (h.1.hasRoom h.2 hval hrm), h.1.accumulate _, h.2.accumulate hval⟩

/-- **What is dropped is heavier** than something that is left, if it is not
trimmed. -/
theorem keepsLightest_of_untrimmed {next : List State}
    (hbnd : ∀ s ∈ next, s.resources.InBounds) (hnex : Untrimmed next) : KeepsLightest next := by
  intro s hs
  have htr : ∀ a ∈ next, ∀ b ∈ next, ∀ c ∈ next,
      replaces a b = true → replaces b c = true → replaces a c = true :=
    fun a ha b hb c hc => replaces_trans (hbnd a ha) (hbnd b hb) (hbnd c hc)
  obtain ⟨t, ht, h⟩ := exists_mem_pruneBy State.sortKey htr hnex hs
  refine ⟨t, ht, ?_⟩
  rcases h with rfl | h
  · exact ⟨fun _ => le_rfl, fun _ => le_rfl⟩
  · have hmem : t ∈ next := mem_of_mem_pruneBy ht
    have hlt := ((replaces_iff (hbnd t hmem) (hbnd s hs)).mp h).2
    obtain ⟨hpls, hst, -⟩ := use_le.mp (State.cost_le.mp hlt.le).2.2.2
    exact ⟨fun pool => (hpls pool).2, hst⟩

/-- **Plans are returned if some plan fits**, also by the tiered optimizer. -/
theorem exists_tieredParetoPlans {input : TieredOptimizerInput}
    (hval : validateInput input = .ok ()) (hsaf : TrimsSafely input)
    (hkn : PoolsKnown input) {os : List TieredRepresentationCandidate}
    {context : TieredContextCandidate} (h : IsPlan input os context) :
    ∃ plans, tieredParetoPlans input = .ok plans := by
  obtain ⟨base, hbas⟩ := baseResources_of_isPlan h hsaf.base
  obtain ⟨is, his⟩ := Search.exists_picks h.chosen
  obtain ⟨hrm, hrm'⟩ := hasRoomAll_of_isPlan h hbas
  have hpat := path_of_picks his (initialState input base) hrm
  obtain ⟨hacc, haccep⟩ := accepted_of_baseResources hbas
  have hrnds := (hsaf.rounds base hbas).rounds _ fun g hg o ho s i e h =>
    isOverflow_of_extendState ((valid_of_validateInput hval).1 g hg o ho)
      (fun _ => hkn.options g hg o ho) h
  have hpth := Search.Rounds.with_paths extend_eq_extended (fun l s hs => mem_of_mem_pruneBy hs)
    (initialState input base) [] hrnds fun s hs => by
      obtain rfl := mem_singleton.mp hs
      exact ⟨[], rfl⟩
  have hpr : ∀ next, ((¬ Untrimmed next → KeepsLightest next) ∧
      ∃ done rest, [] ++ input.groups = done ++ rest ∧
      ∀ s ∈ next, ∃ os, (search input).Path (extended input) (initialState input base) done os s) →
      ∀ s ∈ next, ∀ b, Replaces s b → ∃ t ∈ (search input).prune next, Replaces t b := by
    rintro next ⟨hnex, done, rest, -, hpat⟩ s hs b hsb
    have hfnd : ∀ s ∈ next, s.resources.InBounds ∧ s.resources.Settled := by
      intro s hs
      obtain ⟨os, hpat⟩ := hpat s hs
      obtain ⟨hacc', haccep'⟩ := accepted_of_path hacc haccep hpat
      exact ⟨inBounds_of_accounts hacc' haccep'.range, settled_of_accounts hacc' haccep'.valid⟩
    have hkps : KeepsLightest next := by
      by_cases hunt : Untrimmed next
      · exact keepsLightest_of_untrimmed (fun s hs => (hfnd s hs).1) hunt
      · exact hnex hunt
    obtain ⟨t, ht, hlig⟩ := hkps s hs
    exact ⟨t, ht, hlig.trans hsb.1, (hfnd t (mem_of_mem_pruneBy ht)).2⟩
  have hst : ∃ a ∈ [initialState input base], Replaces a (initialState input base) :=
    ⟨_, mem_singleton_self _, ⟨fun _ => le_rfl, fun _ => le_rfl⟩,
      settled_of_accounts hacc haccep.valid⟩
  rcases Search.explore_of_rounds (R := fun _ => Replaces) extendState_eq_step
    (fun g hg _ o ho a b i b' => lighter_step
      ((valid_of_validateInput hval).1 g hg o ho) a b i b') (fun _ => hpr) hpth with
    ⟨states, hstt, hfnd⟩ | ⟨g, -, -, hnon⟩
  · obtain ⟨a, ha, hlig, hset⟩ := hfnd _ _ _ hst hpat
    obtain ⟨raw, hraw⟩ := exists_completePlans hval (fun _ _ _ => hkn.contexts)
      fun e => hsaf.contexts base states e hbas hstt
    have hmem : context ∈ input.contextCandidates := mem_of_mem_filter h.allowed
    obtain ⟨p, hp, -⟩ := exists_mem_of_hasRoomAll hraw ha h.allowed
      (hlig.hasRoomAll hset ((valid_of_validateInput hval).2 _ hmem) (by
        rw [(growAll_eq input his (initialState input base)).2.2.2.1]
        exact hrm'))
    exact (exists_tieredParetoPlans_iff hval hbas hstt hraw).mpr ⟨p, hp⟩
  · exact absurd hpat (hnon _ _ _ hst)

end Tiered

/-- **Both optimizers return plans if some plan fits**, as long as a trimming
leaves, for every partial plan, one that needs no more memory and no more
storage. -/
theorem plans_of_feasible : (∀ input : OptimizerInput, validateInput input = .ok () →
      Optimizer.TrimsSafely input → (∃ options context, Optimizer.IsPlan input options context) →
      ∃ plans, paretoPlans input = .ok plans) ∧
    ∀ input : Tiered.TieredOptimizerInput, validateInput input = .ok () →
      Tiered.TrimsSafely input → Tiered.PoolsKnown input →
      (∃ options context, Tiered.IsPlan input options context) →
      ∃ plans, tieredParetoPlans input = .ok plans := by
  constructor
  · rintro input hval hsaf ⟨options, context, h⟩
    exact exists_paretoPlans hval hsaf h
  · rintro input hval hsaf hkn ⟨options, context, h⟩
    exact exists_tieredParetoPlans hval hsaf hkn h

namespace Optimizer

/-- **Packed options trim safely**: none of them needs memory. -/
theorem trimsSafely_manyOptions (hn : n = maxFrontierStates + 1) :
    TrimsSafely (manyOptions true n) := by
  let last (i : ℕ) : State := grow (manyOptions true n) (tradeOffState true i) (tradeOff true 0) 0
  have hsnd : (search (manyOptions true n)).round
      ((range maxFrontierStates).map (tradeOffState true)) ⟨"h", [tradeOff true 0]⟩ =
        .ok ((range maxFrontierStates).map last) := by
    have hlis : (((range maxFrontierStates).map (tradeOffState true)).flatMap fun s =>
        [tradeOff true 0].zipIdx.map fun o => (s, o)) =
          (range maxFrontierStates).map fun i => (tradeOffState true i, tradeOff true 0, 0) := by
      rw [flatMap_map]
      exact map_eq_flatMap.symm
    unfold Search.round
    refine (congrArg (tryFilterMap _) hlis).trans ((tryFilterMap_map _ _ _).trans ?_)
    exact tryFilterMap_eq_map fun i hi => (extendState_second (mem_range.mp hi)).trans
      (congrArg Except.ok (if_pos (Nat.zero_le _)))
  refine ⟨⟨_, round_first hn.le, fun _ s hs => ?_, ?_⟩, fun states hst s hs c hc => ?_⟩
  · refine ⟨tradeOffState true 0, ?_, Nat.zero_le _⟩
    rw [pruneStates_first hn]
    exact mem_map_of_mem (mem_range.mpr (by decide))
  · rw [prune_first hn]
    refine ⟨_, hsnd, fun htr => absurd ?_ htr, trivial⟩
    refine (length_undominated_le _).trans_eq ?_
    rw [sortBy, (perm_insertionSort _ _).length_eq, length_map, length_range]
  · obtain ⟨next, hnex, hst⟩ := bind_eq_ok.mp hst
    obtain rfl := Except.ok.inj ((round_first hn.le).symm.trans hnex)
    rw [prune_first hn] at hst
    split_ifs at hst
    obtain ⟨next, hnex, hst⟩ := bind_eq_ok.mp hst
    obtain rfl := Except.ok.inj (hsnd.symm.trans hnex)
    split_ifs at hst
    obtain rfl := Except.ok.inj hst
    have hsub (l : List State) (h : s ∈ (search (manyOptions true n)).prune l) : s ∈ l :=
      mem_of_mem_pruneBy h
    obtain ⟨i, -, rfl⟩ := mem_map.mp (hsub _ hs)
    obtain rfl := mem_singleton.mp hc
    have hlat : (last i).latencyCost + 0 ≤ u64Max := by
      show 0 + 0 + (if _ then 0 else 0) + 0 ≤ u64Max
      rw [ite_self]
      exact Nat.zero_le _
    unfold State.metricsWithContext
    rw [if_pos hlat, if_pos (show (last i).residentBytes + 0 ≤ u64Max from Nat.zero_le _)]
    exact Option.some_ne_none _

end Optimizer

/-- Both with two groups of options, the first one with a frontier that is trimmed. -/
theorem plans_of_feasible_stages :
    (∃ plans, paretoPlans (manyOptions true (maxFrontierStates + 1)) = .ok plans) ∧
      ∃ plans, tieredParetoPlans (stages largerOption) = .ok plans := by
  have hsaf : Tiered.TrimsSafely (stages largerOption) := by
    have hlim := withinLimits_stages (Or.inl rfl : largerOption = largerOption ∨ _)
    refine ⟨hlim.base, fun base hbas => ?_, hlim.contexts⟩
    refine roundsIf_stages (Or.inl rfl) (fun htr => absurd ?_ htr) (fun htr => absurd ?_ htr)
      base hbas
    · unfold Tiered.Untrimmed
      decide
    · unfold Tiered.Untrimmed
      decide
  have hknown : Tiered.PoolsKnown (stages largerOption) := by
    refine ⟨fun g hg o ho => ?_, fun c hc r hr => ?_⟩
    · have hall : ∀ g ∈ (stages largerOption).groups, ∀ o ∈ g.options,
          o.resource.residency.memoryPool = ⟨"m"⟩ ∧ o.resource.storedIn = none := by
        decide
      obtain ⟨hmem, hst⟩ := hall g hg o ho
      exact ⟨by rw [hmem]; decide, by rw [hst]; rintro _ ⟨⟩⟩
    · obtain rfl := mem_singleton.mp hc
      cases hr
  obtain ⟨n, hn⟩ : ∃ n, n = maxFrontierStates + 1 := ⟨_, rfl⟩
  rw [← hn]
  exact ⟨plans_of_feasible.1 _ (validateInput_manyOptions _ hn) (trimsSafely_manyOptions hn)
      ⟨_, _, isPlan_manyOptions hn⟩,
    plans_of_feasible.2 _ (by decide +kernel) hsaf hknown
      ⟨_, _, isPlan_stages mem_cons_self mem_cons_self⟩⟩

end Logan
