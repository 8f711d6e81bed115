import Logan.Plan.Optimizer
import Mathlib.Order.Lattice

/-!
# The optimizer returns the Pareto front

What a plan costs is defined here from the options themselves: sums over the
groups, and a penalty for every two consecutive options that are dispatched
differently, among those that are dispatched at all. The **front** is made of
the costs that no plan that fits is better than in every respect.

The optimizer extends partial plans and drops dominated ones. A plan that
ends in the same class, and is no worse, stays no worse with every further
option, so that nothing on the front is lost – as long as the number of
partial plans stays within its limit and no sum is out of range.

What is lost are plans with the id of another one: ids are hashes of 64 bits,
and of neighbours with one id only the first is returned.
-/

namespace Logan

open List RepresentationCandidate Result Option

namespace Optimizer

/-! ## What a plan costs -/

/-- The changes between consecutive classes, where zero is no class. -/
def switches (classes : List ℕ) : ℕ :=
  (((classes.filter (· ≠ 0)).zip (classes.filter (· ≠ 0)).tail).filter fun p => p.1 ≠ p.2).length

/-- **What one option for each group costs**, with a context. -/
def metricsOf (input : OptimizerInput) (options : List RepresentationCandidate)
    (context : ContextCandidate) : PlanMetrics where
  qualityLossPpm :=
    input.baseQualityLossPpm + (options.map qualityLossPpm).sum
  contextTokens := context.tokens
  latencyCost :=
    input.baseLatencyCost + (options.map latencyCost).sum + input.heterogeneitySwitchPenalty *
        switches (options.map dispatchClass) + context.latencyCost
  residentBytes :=
    input.baseResidentBytes + (options.map residentBytes).sum + context.residentBytes
  packageBytes := input.basePackageBytes + (options.map packageBytes).sum
  storageTrafficBytes :=
    input.baseStorageTrafficBytes + (options.map storageTrafficBytes).sum

/-- **A plan that fits**: one option for each group, and an admissible
context. -/
structure IsPlan (input : OptimizerInput) (options : List RepresentationCandidate)
    (context : ContextCandidate) : Prop where
  chosen : List.Forall₂ (fun g o => o ∈ g.options) input.groups options
  allowed : context ∈ allowedContexts input
  fits : (metricsOf input options context).residentBytes ≤ input.memoryBudgetBytes

/-- **The Pareto front**: what some plan costs, and no plan dominates. -/
def OnFront (input : OptimizerInput) (m : PlanMetrics) : Prop :=
  (∃ options context, IsPlan input options context ∧ metricsOf input options context = m) ∧
  ∀ options context, IsPlan input options context →
    dominates (metricsOf input options context) m = false

/-- A returned plan tells the options it is made of, and what they cost. -/
structure Describes (input : OptimizerInput) (plan : ParetoPlan)
    (options : List RepresentationCandidate) (context : ContextCandidate) : Prop where
  metrics : plan.metrics = metricsOf input options context
  chosen : plan.decisions.map PlanDecision.chosen = options
  groups : plan.decisions.map PlanDecision.group = input.groups.map CandidateGroup.key
  id : plan.id = stablePlanId input.costModel plan.metrics plan.decisions

/-- The number of partial plans, before it would be trimmed, is within the
limit. -/
def Untrimmed (next : List State) : Prop :=
  (undominated replaces (sortBy State.sortKey next)).length ≤ maxFrontierStates

/-- **No partial plan is trimmed, and no sum is out of range.** -/
structure WithinLimits (input : OptimizerInput) : Prop where
  rounds : (search input).Rounds Untrimmed [initialState input] input.groups
  contexts : ∀ states, (search input).explore [initialState input] input.groups = .ok states →
    ∀ s ∈ states, ∀ c ∈ allowedContexts input, s.metricsWithContext c ≠ none

/-! ## Orders -/

/-- The costs, with the tokens the other way around. -/
def metricsCost (m : PlanMetrics) : ℕ × ℕᵒᵈ × ℕ × ℕ × ℕ × ℕ :=
  (m.qualityLossPpm, OrderDual.toDual m.contextTokens, m.latencyCost, m.residentBytes,
    m.packageBytes, m.storageTrafficBytes)

/-- What a partial plan costs. -/
def State.cost (s : State) : ℕ × ℕ × ℕ × ℕ × ℕ :=
  (s.qualityLossPpm, s.latencyCost, s.residentBytes, s.packageBytes, s.storageTrafficBytes)

theorem metricsCost_le {l r : PlanMetrics} : metricsCost l ≤ metricsCost r ↔
    l.qualityLossPpm ≤ r.qualityLossPpm ∧ r.contextTokens ≤ l.contextTokens ∧
    l.latencyCost ≤ r.latencyCost ∧ l.residentBytes ≤ r.residentBytes ∧
    l.packageBytes ≤ r.packageBytes ∧ l.storageTrafficBytes ≤ r.storageTrafficBytes := Iff.rfl

theorem State.cost_le {l r : State} : l.cost ≤ r.cost ↔
    l.qualityLossPpm ≤ r.qualityLossPpm ∧ l.latencyCost ≤ r.latencyCost ∧
    l.residentBytes ≤ r.residentBytes ∧ l.packageBytes ≤ r.packageBytes ∧
    l.storageTrafficBytes ≤ r.storageTrafficBytes := Iff.rfl

/-- **To dominate is to be less.** -/
theorem dominates_iff {l r : PlanMetrics} :
    dominates l r = true ↔ metricsCost l < metricsCost r := by
  rw [lt_iff_le_not_ge, metricsCost_le, metricsCost_le]
  unfold dominates
  simp only [Bool.and_eq_true, Bool.or_eq_true, decide_eq_true_eq]
  omega

theorem stateDominates_iff {l r : State} : stateDominates l r = true ↔ l.cost < r.cost := by
  rw [lt_iff_le_not_ge, State.cost_le, State.cost_le]
  unfold stateDominates
  simp only [Bool.and_eq_true, Bool.or_eq_true, decide_eq_true_eq]
  omega

theorem replaces_iff {l r : State} : replaces l r = true ↔
    l.lastDispatchClass = r.lastDispatchClass ∧ l.cost < r.cost := by
  unfold replaces
  rw [Bool.and_eq_true, decide_eq_true_eq, stateDominates_iff]

theorem dominates_irrefl (m : PlanMetrics) : dominates m m = false := by
  rw [← Bool.not_eq_true, dominates_iff]
  exact lt_irrefl _

theorem dominates_trans (a b c : PlanMetrics) (hab : dominates a b = true)
    (hbc : dominates b c = true) : dominates a c = true :=
  dominates_iff.mpr ((dominates_iff.mp hab).trans (dominates_iff.mp hbc))

theorem replaces_trans (a b c : State) (hab : replaces a b = true) (hbc : replaces b c = true) :
    replaces a c = true := by
  obtain ⟨hcl, hlt⟩ := replaces_iff.mp hab
  obtain ⟨hcl', hlt'⟩ := replaces_iff.mp hbc
  exact replaces_iff.mpr ⟨hcl.trans hcl', hlt.trans hlt'⟩

theorem metricsCost_injective : Function.Injective metricsCost := by
  intro l r h
  unfold metricsCost at h
  simp only [Prod.mk.injEq, EmbeddingLike.apply_eq_iff_eq] at h
  obtain ⟨h₁, h₂, h₃, h₄, h₅, h₆⟩ := h
  exact PlanMetrics.ext h₁ h₂ h₃ h₄ h₅ h₆

theorem eq_or_dominates {l r : PlanMetrics} (h : metricsCost l ≤ metricsCost r) :
    l = r ∨ dominates l r = true := by
  rcases h.eq_or_lt with heq | hlt
  · exact Or.inl (metricsCost_injective heq)
  · exact Or.inr (dominates_iff.mpr hlt)

/-! ## Growing partial plans -/

/-- A partial plan with one more option, whether or not it fits. -/
def grow (input : OptimizerInput) (s : State) (o : RepresentationCandidate) (i : ℕ) : State where
  qualityLossPpm := s.qualityLossPpm + o.qualityLossPpm
  latencyCost := s.latencyCost + o.latencyCost +
    if switchesClass s.lastDispatchClass o then input.heterogeneitySwitchPenalty else 0
  residentBytes := s.residentBytes + o.residentBytes
  packageBytes := s.packageBytes + o.packageBytes
  storageTrafficBytes := s.storageTrafficBytes + o.storageTrafficBytes
  lastDispatchClass := if o.dispatchClass = 0 then s.lastDispatchClass else o.dispatchClass
  choices := s.choices ++ [i]

/-- One more option, if it fits into the memory. -/
def step (input : OptimizerInput) (s : State) (o : RepresentationCandidate) (i : ℕ) :
    Option State :=
  if s.residentBytes + o.residentBytes ≤ input.memoryBudgetBytes then some (grow input s o i)
  else none

theorem extendLatency_eq_ok {input : OptimizerInput} {s : State} {o : RepresentationCandidate}
    {latency : ℕ} (h : extendLatency input s o = .ok latency) :
    latency = s.latencyCost + o.latencyCost +
      if switchesClass s.lastDispatchClass o then input.heterogeneitySwitchPenalty else 0 := by
  obtain ⟨sum, hsum, h⟩ := bind_eq_ok.mp h
  obtain rfl := (checkedAdd_eq_ok.mp hsum).1
  split_ifs at h ⊢
  · exact (checkedAdd_eq_ok.mp h).1.symm
  · exact (Except.ok.inj h).symm

/-- **What is computed is what is meant**, if no sum is out of range. -/
theorem extendState_eq_step {input : OptimizerInput} (s : State) (o : RepresentationCandidate)
    (i : ℕ) (r : Option State) (h : extendState input s o i = .ok r) : step input s o i = r := by
  obtain ⟨latency, hlat, h⟩ := bind_eq_ok.mp h
  obtain ⟨resident, hres, h⟩ := bind_eq_ok.mp h
  obtain rfl := (checkedAdd_eq_ok.mp hres).1
  unfold step
  by_cases hfit : input.memoryBudgetBytes < s.residentBytes + o.residentBytes
  · rw [if_pos hfit] at h
    rw [if_neg (Nat.not_le.mpr hfit)]
    exact Except.ok.inj h
  · rw [if_neg hfit] at h
    rw [if_pos (Nat.not_lt.mp hfit)]
    obtain ⟨quality, hqlt, h⟩ := bind_eq_ok.mp h
    obtain ⟨package, hpac, h⟩ := bind_eq_ok.mp h
    obtain ⟨traffic, htr, h⟩ := bind_eq_ok.mp h
    obtain rfl := (checkedAdd_eq_ok.mp hqlt).1
    obtain rfl := (checkedAdd_eq_ok.mp hpac).1
    obtain rfl := (checkedAdd_eq_ok.mp htr).1
    rw [← Except.ok.inj h, extendLatency_eq_ok hlat]
    rfl

/-- **A partial plan simulates another one** if it ends in the same class and
costs no more. -/
def Simulates (a b : State) : Prop :=
  a.lastDispatchClass = b.lastDispatchClass ∧ a.cost ≤ b.cost

theorem simulates_trans (a b c : State) (hab : Simulates a b) (hbc : Simulates b c) :
    Simulates a c :=
  ⟨hab.1.trans hbc.1, hab.2.trans hbc.2⟩

/-- **Dominance is preserved by every extension**: what simulates a partial
plan can take each of its options, and simulates it afterwards. -/
theorem simulates_step {input : OptimizerInput} (a b : State) (o : RepresentationCandidate)
    (i : ℕ) (b' : State) (h : Simulates a b) (hb' : step input b o i = some b') :
    ∃ a', step input a o i = some a' ∧ Simulates a' b' := by
  obtain ⟨hcl, hcos⟩ := h
  obtain ⟨hqlt, hlat, hres, hpac, htr⟩ := State.cost_le.mp hcos
  unfold step at hb' ⊢
  split_ifs at hb' with hfit
  cases hb'
  refine ⟨grow input a o i, if_pos ((Nat.add_le_add_right hres _).trans hfit), ?_, ?_⟩
  · unfold grow
    rw [hcl]
  · unfold grow
    rw [State.cost_le, hcl]
    exact ⟨Nat.add_le_add_right hqlt _, Nat.add_le_add_right (Nat.add_le_add_right hlat _) _,
      Nat.add_le_add_right hres _, Nat.add_le_add_right hpac _,
      Nat.add_le_add_right htr _⟩

theorem exists_mem_pruneStates (next : List State) (hnex : Untrimmed next) (s : State)
    (hs : s ∈ next) : ∃ t ∈ pruneStates next, Simulates t s := by
  obtain ⟨t, ht, h⟩ := exists_mem_pruneBy State.trimKey
    (fun a _ b _ c _ => replaces_trans a b c) hnex hs
  refine ⟨t, ht, ?_⟩
  rcases h with rfl | h
  · exact ⟨rfl, le_rfl⟩
  · exact ⟨(replaces_iff.mp h).1, (replaces_iff.mp h).2.le⟩

/-! ## Paths and plans -/

/-- The options of the given indices, one for each group. -/
abbrev Picks : List CandidateGroup → List ℕ → List RepresentationCandidate → Prop :=
  Search.Picks CandidateGroup.options

/-- A partial plan with more options. -/
abbrev growAll (input : OptimizerInput) :
    State → List RepresentationCandidate → List ℕ → State := Search.growAll (grow input)

/-- The changes of class behind a class. -/
def switchesFrom : ℕ → List ℕ → ℕ
  | _, [] => 0
  | last, c :: cs =>
    (if c ≠ 0 ∧ last ≠ 0 ∧ c ≠ last then 1 else 0) + switchesFrom (if c = 0 then last else c) cs

theorem switches_cons_zero (cs : List ℕ) : switches (0 :: cs) = switches cs := rfl

theorem switches_cons_cons_zero (c : ℕ) (cs : List ℕ) :
    switches (c :: 0 :: cs) = switches (c :: cs) := by
  unfold switches
  by_cases hc : c ≠ 0
  · rw [filter_cons_of_pos (by simpa using hc), filter_cons_of_neg (by simp),
      filter_cons_of_pos (by simpa using hc)]
  · rw [filter_cons_of_neg (by simpa using hc), filter_cons_of_neg (by simp),
      filter_cons_of_neg (by simpa using hc)]

theorem switches_cons_cons {c d : ℕ} (hc : c ≠ 0) (hd : d ≠ 0) (cs : List ℕ) :
    switches (c :: d :: cs) = (if d ≠ c then 1 else 0) + switches (d :: cs) := by
  unfold switches
  rw [filter_cons_of_pos (by simpa using hc), filter_cons_of_pos (by simpa using hd),
    tail_cons, tail_cons, zip_cons_cons, filter_cons]
  by_cases h : d = c
  · rw [if_neg (by simpa using h.symm), if_neg (by simpa using h), zero_add]
  · rw [if_pos (by simpa using fun hcd : c = d => h hcd.symm), if_pos (by simpa using h),
      length_cons, add_comm]

/-- **The changes are counted one by one**, with the last class at hand. -/
theorem switchesFrom_eq (last : ℕ) (cs : List ℕ) :
    switchesFrom last cs = switches (last :: cs) := by
  induction cs generalizing last with
  | nil =>
    by_cases h : last = 0
    · rw [h]
      rfl
    · unfold switches
      rw [filter_cons_of_pos (by simpa using h)]
      rfl
  | cons c cs ih =>
    rw [switchesFrom, ih]
    by_cases hc : c = 0
    · rw [if_neg (fun h => h.1 hc), if_pos hc, hc, switches_cons_cons_zero, zero_add]
    · rw [if_neg hc]
      by_cases hlas : last = 0
      · rw [if_neg (fun h => h.2.1 hlas), hlas, switches_cons_zero, zero_add]
      · rw [switches_cons_cons hlas hc]
        simp only [ne_eq, hc, hlas, not_false_eq_true, true_and]

variable {gs : List CandidateGroup} {os : List RepresentationCandidate}

variable {is : List ℕ}

/-- **What the options add up to.** -/
theorem growAll_eq (input : OptimizerInput) (h : Picks gs is os) (s : State) :
    (growAll input s os is).cost = (s.qualityLossPpm + (os.map qualityLossPpm).sum,
          s.latencyCost + (os.map latencyCost).sum +
            input.heterogeneitySwitchPenalty * switchesFrom s.lastDispatchClass
              (os.map dispatchClass), s.residentBytes + (os.map residentBytes).sum,
          s.packageBytes + (os.map packageBytes).sum, s.storageTrafficBytes +
            (os.map storageTrafficBytes).sum) ∧
      (growAll input s os is).choices = s.choices ++ is := by
  induction h generalizing s with
  | nil => exact ⟨rfl, (List.append_nil _).symm⟩
  | @cons g i o gs is os ho hres ih =>
    obtain ⟨hcos, hch⟩ := ih (grow input s o i)
    rw [growAll, Search.growAll]
    refine ⟨hcos.trans ?_, hch.trans ?_⟩
    · simp only [grow, map_cons, sum_cons, switchesFrom, Prod.mk.injEq, add_assoc,
        true_and, and_true]
      unfold switchesClass
      by_cases hsw : o.dispatchClass ≠ 0 ∧ s.lastDispatchClass ≠ 0 ∧
          o.dispatchClass ≠ s.lastDispatchClass
      · rw [if_pos hsw, if_pos (by simpa [and_assoc] using hsw)]
        ring
      · rw [if_neg hsw, if_neg (by simpa [and_assoc] using hsw)]
        ring
    · simp only [grow, append_assoc, singleton_append]

theorem residentBytes_growAll {input : OptimizerInput} (h : Picks gs is os)
    (s : State) : (growAll input s os is).residentBytes =
      s.residentBytes + (os.map residentBytes).sum :=
  congrArg (fun c => c.2.2.1) (growAll_eq input h s).1

/-- **Whatever fits is at the end of a path.** -/
theorem path_of_picks {input : OptimizerInput} (h : Picks gs is os) (s : State)
    (hfit : s.residentBytes + (os.map residentBytes).sum ≤ input.memoryBudgetBytes) :
    (search input).Path (step input) s gs os (growAll input s os is) := by
  induction h generalizing s with
  | nil => rfl
  | @cons g i o gs is os ho hres ih =>
    rw [map_cons, sum_cons, ← add_assoc] at hfit
    exact ⟨i, grow input s o i, ho, if_pos ((Nat.le_add_right _ _).trans hfit),
      ih (grow input s o i) hfit⟩

theorem planDecision_eq_some (g : CandidateGroup) (i : ℕ) (o : RepresentationCandidate)
    (ho : g.options[i]? = some o) :
    ∃ d, planDecision g i = some d ∧ d.chosen = o ∧ d.group = g.key := by
  unfold planDecision
  rw [ho]
  exact ⟨_, rfl, rfl, rfl⟩

theorem grow_of_step (input : OptimizerInput) (s : State) (o : RepresentationCandidate) (i : ℕ)
    (s' : State) (h : step input s o i = some s') : grow input s o i = s' := by
  unfold step at h
  split_ifs at h
  exact Option.some.inj h

/-! ## The front -/

variable {context : ContextCandidate}

/-- What a complete plan costs, with a context, is what its options cost. -/
theorem metricsWithContext_growAll {input : OptimizerInput}
    (h : Picks input.groups is os) {m : PlanMetrics}
    (hm : (growAll input (initialState input) os is).metricsWithContext context = some m) :
    m = metricsOf input os context := by
  have hcos := (growAll_eq input h (initialState input)).1
  unfold State.cost at hcos
  rw [switchesFrom_eq] at hcos
  simp only [Prod.mk.injEq] at hcos
  obtain ⟨hqlt, hlat, hres, hpac, htr⟩ := hcos
  unfold State.metricsWithContext at hm
  split_ifs at hm
  rw [← some.inj hm, hqlt, hlat, hres, hpac, htr]
  rfl

variable {p : PlanMetrics × List ℕ}

/-- A state, with a context with which it fits. -/
theorem mem_completePlans {input : OptimizerInput}
    {states : List State} : p ∈ completePlans input states ↔
      ∃ context ∈ allowedContexts input, ∃ s ∈ states, s.metricsWithContext context = some p.1 ∧
        p.1.residentBytes ≤ input.memoryBudgetBytes ∧ s.choices = p.2 := by
  unfold completePlans
  simp only [mem_flatMap, mem_filterMap]
  refine exists_congr fun context => and_congr_right fun _ =>
    exists_congr fun s => and_congr_right fun _ => ?_
  unfold completeState
  cases s.metricsWithContext context with
  | none => exact iff_of_false nofun (by rintro ⟨⟨⟩, -⟩)
  | some m =>
    dsimp only
    by_cases hfit : m.residentBytes ≤ input.memoryBudgetBytes
    · rw [if_pos hfit]
      constructor
      · intro h
        cases h
        exact ⟨rfl, hfit, rfl⟩
      · rintro ⟨hm, -, hch⟩
        rw [some.inj hm, hch]
    · rw [if_neg hfit]
      refine iff_of_false nofun ?_
      rintro ⟨hm, hfit', -⟩
      exact hfit (some.inj hm ▸ hfit')

/-- **What is completed is a plan that fits.** -/
theorem isPlan_of_mem {input : OptimizerInput} {states : List State} (hst : ∀ t ∈ states, ∃ os,
      (search input).Path (step input) (initialState input) input.groups os t)
    (hp : p ∈ completePlans input states) :
    ∃ os context, IsPlan input os context ∧ p.1 = metricsOf input os context ∧
      Picks input.groups p.2 os := by
  obtain ⟨context, hcon, t, ht, hm, hfit, hch⟩ := mem_completePlans.mp hp
  obtain ⟨os, hpat⟩ := hst t ht
  obtain ⟨is, his, rfl⟩ := Search.picks_of_path (grow_of_step input) hpat
  have hmet := metricsWithContext_growAll his hm
  refine ⟨os, context, ⟨Search.forall₂_of_picks his, hcon, hmet ▸ hfit⟩, hmet, ?_⟩
  rwa [← hch, (growAll_eq input his (initialState input)).2]

/-- **Every plan that fits is matched** by one that is completed. -/
theorem exists_mem_completePlans {input : OptimizerInput} {states : List State}
    (hfnd : ∀ os t, (search input).Path (step input) (initialState input) input.groups os t →
      ∃ a ∈ states, Simulates a t)
    (hsms : ∀ s ∈ states, ∀ c ∈ allowedContexts input, s.metricsWithContext c ≠ none)
    (h : IsPlan input os context) :
    ∃ p ∈ completePlans input states,
      p.1 = metricsOf input os context ∨ dominates p.1 (metricsOf input os context) = true := by
  obtain ⟨is, his⟩ := Search.exists_picks h.chosen
  have hfit := h.fits
  obtain ⟨a, ha, hcl, hcos⟩ := hfnd os _ (path_of_picks his (initialState input)
    ((Nat.le_add_right _ _).trans hfit))
  have hsum := hsms a ha context h.allowed
  obtain ⟨m, hm⟩ := ne_none_iff_exists'.mp hsum
  have hle : metricsCost m ≤ metricsCost (metricsOf input os context) := by
    have hgr := (growAll_eq input his (initialState input)).1
    rw [hgr, switchesFrom_eq] at hcos
    obtain ⟨hqlt, hlat, hres, hpac, htr⟩ := hcos
    unfold State.metricsWithContext at hm
    split_ifs at hm
    rw [← some.inj hm, metricsCost_le]
    exact ⟨hqlt, le_rfl, Nat.add_le_add_right hlat _, Nat.add_le_add_right hres _, hpac, htr⟩
  refine ⟨(m, a.choices), mem_completePlans.mpr
    ⟨context, h.allowed, a, ha, hm, (metricsCost_le.mp hle).2.2.2.1.trans hfit, rfl⟩, ?_⟩
  exact eq_or_dominates hle

variable {raw : List (PlanMetrics × List ℕ)}

theorem mem_selectPlans {input : OptimizerInput} {plan : ParetoPlan}
    (h : plan ∈ selectPlans input raw) :
    ∃ p ∈ nondominated dominates raw, plan = buildPlan input p.1 p.2 := by
  obtain ⟨p, hp, rfl⟩ := mem_map.mp (mem_sortBy.mp (mem_of_mem_dedupBy h))
  exact ⟨p, hp, rfl⟩

theorem exists_mem_selectPlans (input : OptimizerInput) (h : p ∈ nondominated dominates raw) :
    ∃ plan ∈ selectPlans input raw, plan.id = (buildPlan input p.1 p.2).id :=
  exists_mem_dedupBy (mem_sortBy.mpr (mem_map.mpr ⟨p, h, rfl⟩))

theorem describes_buildPlan {input : OptimizerInput} {m : PlanMetrics}
    (hm : m = metricsOf input os context)
    (his : Picks input.groups is os) : Describes input (buildPlan input m is) os context where
  metrics := hm
  chosen := (Search.decisions_of_picks planDecision_eq_some his).1
  groups := (Search.decisions_of_picks planDecision_eq_some his).2
  id := rfl

/-- Plans on the front with one id cost the same. -/
def IdsSeparate (input : OptimizerInput) : Prop :=
  ∀ plan twin options context options' context', IsPlan input options context →
    Describes input plan options context → OnFront input plan.metrics →
    IsPlan input options' context' → Describes input twin options' context' →
    OnFront input twin.metrics → plan.id = twin.id → plan.metrics = twin.metrics

/-- The search finds something that simulates every path, or nothing, and
then there is no path. -/
theorem explore_cases {input : OptimizerInput} (hlim : WithinLimits input) :
    (∃ states, (search input).explore [initialState input] input.groups = .ok states ∧
      ∀ os t, (search input).Path (step input) (initialState input) input.groups os t →
        ∃ a ∈ states, Simulates a t) ∨
    ∃ e, (search input).explore [initialState input] input.groups = .error e ∧
      ∀ os t, ¬ (search input).Path (step input) (initialState input) input.groups os t := by
  have hst : ∃ a ∈ [initialState input], Simulates a (initialState input) :=
    ⟨_, mem_singleton_self _, rfl, le_rfl⟩
  have hpr : ∀ next, Untrimmed next → ∀ s ∈ next, ∀ b, Simulates s b →
      ∃ t ∈ (search input).prune next, Simulates t b := by
    intro next hnex s hs b hsb
    obtain ⟨t, ht, hts⟩ := exists_mem_pruneStates next hnex s hs
    exact ⟨t, ht, simulates_trans t s b hts hsb⟩
  rcases Search.explore_of_rounds (R := fun _ => Simulates) extendState_eq_step
    (fun _ _ _ o _ a b => simulates_step a b o) (fun _ => hpr) hlim.rounds with
    ⟨states, hstt, hfnd⟩ | ⟨g, -, hdd, hnon⟩
  · exact Or.inl ⟨states, hstt, fun os t => hfnd _ os t hst⟩
  · exact Or.inr ⟨_, hdd, fun os t => hnon _ os t hst⟩

/-- **What is completed stands for all plans that fit.** -/
theorem exists_nondominated_iff_onFront {input : OptimizerInput} {states : List State}
    (hpat : ∀ t ∈ states, ∃ os,
      (search input).Path (step input) (initialState input) input.groups os t)
    (hfnd : ∀ os t, (search input).Path (step input) (initialState input) input.groups os t →
      ∃ a ∈ states, Simulates a t)
    (hsum : ∀ s ∈ states, ∀ c ∈ allowedContexts input, s.metricsWithContext c ≠ none)
    (m : PlanMetrics) :
    (∃ p ∈ nondominated dominates (completePlans input states), p.1 = m) ↔ OnFront input m := by
  rw [exists_nondominated_iff (fun m => ∃ os context, IsPlan input os context ∧
    metricsOf input os context = m) (fun a _ => dominates_irrefl a)
    fun a b c _ _ _ => dominates_trans a b c]
  · unfold OnFront
    refine and_congr_right fun _ => ⟨fun h os context hpl => h _ ⟨os, context, hpl, rfl⟩, ?_⟩
    rintro h _ ⟨os, context, hpl, rfl⟩
    exact h os context hpl
  · intro p hp
    obtain ⟨os, context, hpl, hm, -⟩ := isPlan_of_mem hpat hp
    exact ⟨os, context, hpl, hm.symm⟩
  · rintro _ ⟨os, context, hpl, rfl⟩
    exact exists_mem_completePlans hfnd hsum hpl

/-- **What is selected is the front**, but for plans with the id of another
one. -/
theorem selectPlans_exact {input : OptimizerInput}
    (hraw : ∀ p ∈ raw, ∃ os context, IsPlan input os context ∧
      p.1 = metricsOf input os context ∧ Picks input.groups p.2 os)
    (hfr : ∀ m, (∃ p ∈ nondominated dominates raw, p.1 = m) ↔ OnFront input m) :
    (∀ plan ∈ selectPlans input raw, OnFront input plan.metrics ∧
      ∃ options context, IsPlan input options context ∧ Describes input plan options context) ∧
    ∀ m, OnFront input m → ∃ plan ∈ selectPlans input raw, ∃ twin options context,
      IsPlan input options context ∧ Describes input twin options context ∧
        twin.metrics = m ∧ plan.id = twin.id := by
  have hdes : ∀ p ∈ nondominated dominates raw, ∃ os context, IsPlan input os context ∧
      Describes input (buildPlan input p.1 p.2) os context := by
    intro p hp
    obtain ⟨os, context, hpl, hm, his⟩ := hraw p (mem_of_mem_nondominated hp)
    exact ⟨os, context, hpl, describes_buildPlan hm his⟩
  constructor
  · intro plan hpl
    obtain ⟨p, hp, rfl⟩ := mem_selectPlans hpl
    exact ⟨(hfr p.1).mp ⟨p, hp, rfl⟩, hdes p hp⟩
  · intro m hm
    obtain ⟨p, hp, rfl⟩ := (hfr m).mpr hm
    obtain ⟨plan, hpl, hid⟩ := exists_mem_selectPlans input hp
    obtain ⟨os, context, hisP, hdsc⟩ := hdes p hp
    exact ⟨plan, hpl, _, os, context, hisP, hdsc, rfl, hid⟩

section Returned

variable {input : OptimizerInput} {states : List State}

theorem paretoPlans_eq (hval : validateInput input = .ok ())
    (hst : (search input).explore [initialState input] input.groups = .ok states) :
    paretoPlans input = if (completePlans input states).isEmpty then
      .error (.infeasible "no optimizer plan satisfies the context and memory constraints")
      else .ok (selectPlans input (completePlans input states)) := by
  unfold paretoPlans
  rw [hval, ok_bind, hst, ok_bind]
  rfl

/-- **Plans are returned** if some plan has been completed. -/
theorem exists_paretoPlans_iff (hval : validateInput input = .ok ())
    (hst : (search input).explore [initialState input] input.groups = .ok states) :
    (∃ plans, paretoPlans input = .ok plans) ↔ ∃ p, p ∈ completePlans input states := by
  rw [paretoPlans_eq hval hst]
  constructor
  · rintro ⟨plans, h⟩
    split_ifs at h with hemp
    exact exists_mem_of_ne_nil _ fun hnil => hemp (List.isEmpty_iff.mpr hnil)
  · rintro ⟨p, hp⟩
    refine ⟨_, if_neg fun hemp => ?_⟩
    rw [List.isEmpty_iff.mp hemp] at hp
    cases hp

theorem path_of_explore
    (hst : (search input).explore [initialState input] input.groups = .ok states) :
    ∀ t ∈ states, ∃ os,
      (search input).Path (step input) (initialState input) input.groups os t := by
  intro t ht
  obtain ⟨s, hs, os, hpat⟩ := Search.exists_path_of_explore extendState_eq_step
    (fun l s hs => mem_of_mem_pruneBy hs) hst ht
  obtain rfl := mem_singleton.mp hs
  exact ⟨os, hpat⟩

end Returned

/-- **The optimizer returns the Pareto front**, within its limits. It returns
plans if and only if some plan fits. Every returned plan is one that fits and
describes itself, and what it costs is on the front. For everything on the
front there is a plan that costs it, and a returned plan with the id of this
one; so that if ids separate the plans on the front, all that is on the front
is returned, and nothing else. -/
theorem paretoPlans_exact {input : OptimizerInput} (hvalid : validateInput input = .ok ())
    (hlimits : WithinLimits input) : ((∃ plans, paretoPlans input = .ok plans) ↔
      ∃ options context, IsPlan input options context) ∧ ∀ plans, paretoPlans input = .ok plans →
      (∀ plan ∈ plans, OnFront input plan.metrics ∧
        ∃ options context, IsPlan input options context ∧ Describes input plan options context) ∧
      (∀ m, OnFront input m → ∃ plan ∈ plans, ∃ twin options context,
        IsPlan input options context ∧ Describes input twin options context ∧
          twin.metrics = m ∧ plan.id = twin.id) ∧
      (IdsSeparate input → ∀ m, (∃ plan ∈ plans, plan.metrics = m) ↔ OnFront input m) := by
  rcases explore_cases hlimits with ⟨states, hst, hfnd⟩ | ⟨e, he, hnon⟩
  · have hpat := path_of_explore hst
    have hsum := hlimits.contexts states hst
    obtain ⟨hsel, hkep⟩ := selectPlans_exact (fun p hp => isPlan_of_mem hpat hp)
      (exists_nondominated_iff_onFront hpat hfnd hsum)
    constructor
    · rw [exists_paretoPlans_iff hvalid hst]
      constructor
      · rintro ⟨p, hp⟩
        obtain ⟨os, context, hpl, -⟩ := isPlan_of_mem hpat hp
        exact ⟨os, context, hpl⟩
      · rintro ⟨os, context, hpl⟩
        obtain ⟨p, hp, -⟩ := exists_mem_completePlans hfnd hsum hpl
        exact ⟨p, hp⟩
    · intro plans h
      rw [paretoPlans_eq hvalid hst] at h
      split_ifs at h
      cases h
      refine ⟨hsel, hkep, fun hids m => ⟨?_, fun hm => ?_⟩⟩
      · rintro ⟨plan, hpl, rfl⟩
        exact (hsel plan hpl).1
      · obtain ⟨plan, hpl, twin, os, context, hisP, hdes, rfl, hid⟩ := hkep m hm
        obtain ⟨hpln, os', context', his', hdes'⟩ := hsel plan hpl
        exact ⟨plan, hpl, hids plan twin os' context' os context his' hdes' hpln hisP hdes hm hid⟩
  · -- nothing fits, and nothing is returned
    have hres : paretoPlans input = .error e := by
      unfold paretoPlans
      rw [hvalid, ok_bind, he]
      rfl
    rw [hres]
    refine ⟨iff_of_false (by rintro ⟨_, ⟨⟩⟩) ?_, by rintro _ ⟨⟩⟩
    rintro ⟨os, context, hpl⟩
    obtain ⟨is, his⟩ := Search.exists_picks hpl.chosen
    exact hnon os _ (path_of_picks his (initialState input) ((Nat.le_add_right _ _).trans hpl.fits))

/-! ### Plans with one id -/

/-- An option that costs nothing but latency and quality. -/
def plainCandidate (id : String) (quality latency : ℕ) : RepresentationCandidate where
  id := id
  quant := ⟨"exact", none⟩
  layout := 0
  placement := .resident
  residentBytes := 0
  packageBytes := 0
  storageTrafficBytes := 0
  latencyCost := latency
  qualityLossPpm := quality
  dispatchClass := 0
  rationale := ""

/-- One group of two options, of which none is better than the other. -/
def twoOptions (id id' : String) : OptimizerInput where
  costModel := "c"
  groups := [⟨"g", [plainCandidate id 0 1, plainCandidate id' 1 0]⟩]
  contextConstraint := ⟨.maximum, 1⟩
  contextCandidates := [⟨1, 0, 0⟩]
  memoryBudgetBytes := 1
  baseResidentBytes := 0
  basePackageBytes := 0
  baseStorageTrafficBytes := 0
  baseLatencyCost := 0
  baseQualityLossPpm := 0
  heterogeneitySwitchPenalty := 0

/-- The partial plans with the one option and the other. -/
def twoStates : List State := [⟨0, 1, 0, 0, 0, 0, [0]⟩, ⟨1, 0, 0, 0, 0, 0, [1]⟩]

theorem explore_twoOptions (id id' : String) :
    (search (twoOptions id id')).explore [initialState (twoOptions id id')]
      (twoOptions id id').groups = .ok twoStates := rfl

theorem withinLimits_twoOptions (id id' : String) : WithinLimits (twoOptions id id') where
  rounds := by
    refine ⟨twoStates, rfl, ?_, trivial⟩
    unfold Untrimmed
    decide
  contexts := by
    intro states h
    obtain rfl := Except.ok.inj ((explore_twoOptions id id').symm.trans h)
    show ∀ s ∈ twoStates, ∀ c ∈ [ContextCandidate.mk 1 0 0], s.metricsWithContext c ≠ none
    decide

theorem metricsOf_twoOptions {id id' : String}
    (h : IsPlan (twoOptions id id') os context) :
    metricsOf (twoOptions id id') os context = ⟨0, 1, 1, 0, 0, 0⟩ ∨
      metricsOf (twoOptions id id') os context = ⟨1, 1, 0, 0, 0, 0⟩ := by
  obtain rfl : context = ⟨1, 0, 0⟩ := mem_singleton.mp h.allowed
  have hch := h.chosen
  cases hch with
  | cons ho hres =>
    cases hres
    rcases mem_cons.mp ho with rfl | ho
    · exact Or.inl rfl
    · obtain rfl := mem_singleton.mp ho
      exact Or.inr rfl

/-- Both options are on the front. -/
theorem onFront_twoOptions (id id' : String) : OnFront (twoOptions id id') ⟨0, 1, 1, 0, 0, 0⟩ ∧
    OnFront (twoOptions id id') ⟨1, 1, 0, 0, 0, 0⟩ := by
  have hpl : ∀ o ∈ [plainCandidate id 0 1, plainCandidate id' 1 0],
      IsPlan (twoOptions id id') [o] ⟨1, 0, 0⟩ := by
    intro o ho
    refine ⟨List.Forall₂.cons ho List.Forall₂.nil, mem_singleton_self _, ?_⟩
    rcases mem_cons.mp ho with rfl | ho
    · exact Nat.zero_le 1
    · obtain rfl := mem_singleton.mp ho
      exact Nat.zero_le 1
  refine ⟨⟨⟨_, _, hpl _ mem_cons_self, rfl⟩, fun os context h => ?_⟩,
    ⟨⟨_, _, hpl _ (mem_cons_of_mem _ mem_cons_self), rfl⟩, fun os context h => ?_⟩⟩
  · rcases metricsOf_twoOptions h with heq | heq
    · rw [heq]
      decide
    · rw [heq]
      decide
  · rcases metricsOf_twoOptions h with heq | heq
    · rw [heq]
      decide
    · rw [heq]
      decide

/-- A second group of options, of which one is better than the other. -/
def twoGroups : OptimizerInput :=
  { twoOptions "a" "b" with
    groups := (twoOptions "a" "b").groups ++
      [⟨"h", [plainCandidate "c" 0 0, plainCandidate "d" 1 1]⟩] }

/-- Either option of the first group makes a plan with the better one of the second. -/
theorem paretoPlans_exact_twoGroups : ∃ plans, paretoPlans twoGroups = .ok plans ∧
    plans.length = 2 ∧ ∀ plan ∈ plans, OnFront twoGroups plan.metrics := by
  have hexp : (search twoGroups).explore [initialState twoGroups] twoGroups.groups =
      .ok [⟨0, 1, 0, 0, 0, 0, [0, 0]⟩, ⟨1, 0, 0, 0, 0, 0, [1, 0]⟩] := by decide +kernel
  have hlim : WithinLimits twoGroups := by
    refine ⟨⟨twoStates, rfl, ?_, _, rfl, ?_, trivial⟩, fun states h => ?_⟩
    · unfold Untrimmed
      decide
    · unfold Untrimmed
      decide +kernel
    · obtain rfl := Except.ok.inj (hexp.symm.trans h)
      decide
  have hlen : (paretoPlans twoGroups).map List.length = .ok 2 := by decide +kernel
  cases hpl : paretoPlans twoGroups with
  | error =>
    rw [hpl] at hlen
    cases hlen
  | ok plans =>
    rw [hpl] at hlen
    exact ⟨plans, rfl, Except.ok.inj hlen,
      fun plan h => (((paretoPlans_exact (by decide) hlim).2 plans hpl).1 plan h).1⟩

/-- **Of two plans on the front with one id, only one is returned**: the ids
are hashes, and these two options make the same one. -/
theorem not_paretoPlans_all : ¬ ∀ input plans, validateInput input = .ok () → WithinLimits input →
      paretoPlans input = .ok plans →
      ∀ m, (∃ plan ∈ plans, plan.metrics = m) ↔ OnFront input m := by
  intro hcl
  have hret : (paretoPlans (twoOptions "O1ePTPVLAO05Fd" "W5xBqGM3GO2fHf")).map
      (List.map ParetoPlan.metrics) = .ok [⟨0, 1, 1, 0, 0, 0⟩] := by decide +kernel
  cases hpl : paretoPlans (twoOptions "O1ePTPVLAO05Fd" "W5xBqGM3GO2fHf") with
  | error =>
    rw [hpl] at hret
    cases hret
  | ok plans =>
    rw [hpl] at hret
    have hmet : plans.map ParetoPlan.metrics = [⟨0, 1, 1, 0, 0, 0⟩] :=
      Except.ok.inj hret
    obtain ⟨plan, hpln, hm⟩ := (hcl _ plans (by decide) (withinLimits_twoOptions _ _) hpl
      ⟨1, 1, 0, 0, 0, 0⟩).mpr (onFront_twoOptions _ _).2
    have hmem := mem_map_of_mem (f := ParetoPlan.metrics) hpln
    rw [hmet, hm] at hmem
    exact absurd hmem (by decide)

end Optimizer

end Logan
