import Logan.Plan.Accounts
import Logan.Plan.OptimizerExact

/-!
# The tiered optimizer stays within the envelope

What a tiered plan costs is defined from its options and its context: sums, a
penalty for every change of the dispatch class, and the usage by the list of
all resources, those of the base and of the context with them. Every plan
that the optimizer returns costs this, and its resources fit into the budget
(`tieredParetoPlans_envelope`). Since the totals do not depend on the order,
the accounts of the optimizer come to the same result for the resources in
any order.
-/

namespace Logan

open List Result
open Tiered.TieredRepresentationCandidate (dispatchClass latencyCost packageBytes qualityLossPpm
  resource)

namespace Tiered

open Optimizer (switches switchesFrom switchesFrom_eq)

/-! ## What a plan costs -/

/-- All resources of a plan. -/
def resourcesOf (input : TieredOptimizerInput) (options : List TieredRepresentationCandidate)
    (context : TieredContextCandidate) : List ResourcePlan :=
  input.baseResources ++ options.map resource ++ context.resources

/-- **What one option for each group costs**, with a context. -/
def metricsOf (input : TieredOptimizerInput) (options : List TieredRepresentationCandidate)
    (context : TieredContextCandidate) : TieredPlanMetrics where
  qualityLossPpm :=
    input.baseQualityLossPpm + (options.map qualityLossPpm).sum
  contextTokens := context.tokens
  latencyCost :=
    input.baseLatencyCost + (options.map latencyCost).sum +
      input.heterogeneitySwitchPenalty *
        switches (options.map dispatchClass) + context.latencyCost
  resourceUsage := usageOf (resourcesOf input options context)
  packageBytes :=
    input.basePackageBytes + (options.map packageBytes).sum

/-- **A plan that fits**: one option for each group, and an admissible
context, the resources of which are well-formed and fit into the budget. -/
structure IsPlan (input : TieredOptimizerInput) (options : List TieredRepresentationCandidate)
    (context : TieredContextCandidate) : Prop where
  chosen : List.Forall₂ (fun g o => o ∈ g.options) input.groups options
  allowed : context ∈ allowedContexts input
  valid : ∀ r ∈ resourcesOf input options context, r.validate = .ok ()
  fits : Fits (resourcesOf input options context) input.resourceBudget

/-- A returned plan tells the options it is made of, and what they cost. -/
structure Describes (input : TieredOptimizerInput) (plan : TieredParetoPlan)
    (options : List TieredRepresentationCandidate) (context : TieredContextCandidate) : Prop where
  metrics : plan.metrics = metricsOf input options context
  chosen : plan.decisions.map TieredPlanDecision.chosen = options
  groups : plan.decisions.map TieredPlanDecision.group = input.groups.map TieredCandidateGroup.key
  id : plan.id = stablePlanId input.costModel plan.metrics plan.decisions

/-! ## Growing partial plans -/

/-- The options of the given indices, one for each group. -/
abbrev Picks : List TieredCandidateGroup → List ℕ → List TieredRepresentationCandidate → Prop :=
  Search.Picks TieredCandidateGroup.options

/-- A partial plan with one more option, whether or not it fits. -/
def grow (input : TieredOptimizerInput) (s : State) (o : TieredRepresentationCandidate)
    (i : ℕ) : State where
  qualityLossPpm := s.qualityLossPpm + o.qualityLossPpm
  latencyCost := s.latencyCost + o.latencyCost +
    if switchesClass s.lastDispatchClass o then input.heterogeneitySwitchPenalty else 0
  packageBytes := s.packageBytes + o.packageBytes
  resources := s.resources.accumulate o.resource
  lastDispatchClass := if o.dispatchClass = 0 then s.lastDispatchClass else o.dispatchClass
  choices := s.choices ++ [i]

/-- A partial plan with more options. -/
abbrev growAll (input : TieredOptimizerInput) :
    State → List TieredRepresentationCandidate → List ℕ → State := Search.growAll (grow input)

/-- One more option, if there is room for its resource. -/
def step (input : TieredOptimizerInput) (s : State) (o : TieredRepresentationCandidate)
    (i : ℕ) : Option State :=
  if s.resources.hasRoom input.resourceBudget o.resource then some (grow input s o i) else none

variable {o : TieredRepresentationCandidate}

theorem extendLatency_eq_ok {input : TieredOptimizerInput} {s : State} {latency : ℕ}
    (h : extendLatency input s o = .ok latency) : latency = s.latencyCost + o.latencyCost +
      if switchesClass s.lastDispatchClass o then input.heterogeneitySwitchPenalty else 0 := by
  obtain ⟨sum, hsum, h⟩ := bind_eq_ok.mp h
  obtain rfl := (checkedAdd_eq_ok.mp hsum).1
  split_ifs at h ⊢
  · exact (checkedAdd_eq_ok.mp h).1.symm
  · exact (Except.ok.inj h).symm

/-- **What is computed is what is meant**, if no sum is out of range. -/
theorem extendState_eq_step {input : TieredOptimizerInput} (s : State)
    (o : TieredRepresentationCandidate) (i : ℕ) (r : Option State)
    (h : extendState input s o i = .ok r) : step input s o i = r := by
  obtain ⟨⟨fits, acc⟩, hadd, h⟩ := bind_eq_ok.mp h
  obtain ⟨hrm, hth⟩ := ResourceAcc.addResource_eq_ok hadd
  unfold step
  cases fits with
  | false =>
    rw [← hrm, if_neg Bool.false_ne_true]
    exact Except.ok.inj h
  | true =>
    obtain ⟨-, rfl, -⟩ := hth rfl
    rw [← hrm, if_pos rfl]
    obtain ⟨latency, hlat, h⟩ := bind_eq_ok.mp h
    obtain ⟨quality, hqlt, h⟩ := bind_eq_ok.mp h
    obtain ⟨package, hpac, h⟩ := bind_eq_ok.mp h
    obtain rfl := (checkedAdd_eq_ok.mp hqlt).1
    obtain rfl := (checkedAdd_eq_ok.mp hpac).1
    rw [← Except.ok.inj h, extendLatency_eq_ok hlat]
    rfl

variable {rs : List ResourcePlan}

/-- A partial plan of which the resources are accepted; the resource of a
further option is then accepted with them. -/
theorem accepted_of_extendState {input : TieredOptimizerInput} {s s' : State} {i : ℕ}
    (hacc : Accounts s.resources rs)
    (hrs : Accepted input.resourceBudget rs) (h : extendState input s o i = .ok (some s')) :
    Accounts s'.resources (o.resource :: rs) ∧
      Accepted input.resourceBudget (o.resource :: rs) := by
  obtain ⟨⟨fits, acc⟩, hadd, hres⟩ := bind_eq_ok.mp h
  cases fits with
  | false => cases hres
  | true =>
    obtain ⟨haccep, rfl⟩ := (addResource_eq_ok_true hacc hrs).mp hadd
    have hst := extendState_eq_step s o i _ h
    unfold step at hst
    split_ifs at hst
    rw [← Option.some.inj hst]
    exact ⟨hacc.accumulate _, haccep⟩

section Growth

variable {input : TieredOptimizerInput} {gs : List TieredCandidateGroup} {is : List ℕ}
  {os : List TieredRepresentationCandidate}

/-- **What the options add up to.** -/
theorem growAll_eq (input : TieredOptimizerInput) (h : Picks gs is os) (s : State) :
    (growAll input s os is).qualityLossPpm =
        s.qualityLossPpm + (os.map qualityLossPpm).sum ∧
    (growAll input s os is).latencyCost =
        s.latencyCost + (os.map latencyCost).sum +
          input.heterogeneitySwitchPenalty * switchesFrom s.lastDispatchClass
            (os.map dispatchClass) ∧
    (growAll input s os is).packageBytes =
        s.packageBytes + (os.map packageBytes).sum ∧
    (growAll input s os is).resources =
        (os.map resource).foldl ResourceAcc.accumulate s.resources ∧
    (growAll input s os is).choices = s.choices ++ is := by
  induction h generalizing s with
  | nil => exact ⟨rfl, rfl, rfl, rfl, (List.append_nil _).symm⟩
  | @cons g i o gs is os ho hres ih =>
    obtain ⟨hqlt, hlat, hpac, hrsr, hch⟩ := ih (grow input s o i)
    rw [growAll, Search.growAll]
    refine ⟨hqlt.trans ?_, hlat.trans ?_, hpac.trans ?_, hrsr, hch.trans ?_⟩
    · rw [map_cons, sum_cons, ← add_assoc]
      rfl
    · simp only [grow, map_cons, sum_cons, switchesFrom]
      unfold switchesClass
      by_cases hsw : o.dispatchClass ≠ 0 ∧ s.lastDispatchClass ≠ 0 ∧
          o.dispatchClass ≠ s.lastDispatchClass
      · rw [if_pos hsw, if_pos (by simpa [and_assoc] using hsw)]
        ring
      · rw [if_neg hsw, if_neg (by simpa [and_assoc] using hsw)]
        ring
    · rw [map_cons, sum_cons, ← add_assoc]
      rfl
    · simp only [grow, append_assoc, singleton_append]

theorem planDecision_eq_some (g : TieredCandidateGroup) (i : ℕ) (o : TieredRepresentationCandidate)
    (ho : g.options[i]? = some o) :
    ∃ d, planDecision g i = some d ∧ d.chosen = o ∧ d.group = g.key := by
  unfold planDecision
  rw [ho]
  exact ⟨_, rfl, rfl, rfl⟩

theorem grow_of_step (input : TieredOptimizerInput) (s : State)
    (o : TieredRepresentationCandidate) (i : ℕ) (s' : State) (h : step input s o i = some s') :
    grow input s o i = s' := by
  unfold step at h
  split_ifs at h
  exact Option.some.inj h

end Growth

/-! ## What is found fits -/

/-- What an extension of a partial plan is, if it is one. -/
def extended (input : TieredOptimizerInput) (s : State) (o : TieredRepresentationCandidate)
    (i : ℕ) : Option State :=
  (extendState input s o i).toOption.join

theorem extendState_of_extended {input : TieredOptimizerInput} {s s' : State} {i : ℕ}
    (h : extended input s o i = some s') : extendState input s o i = .ok (some s') := by
  unfold extended at h
  cases hext : extendState input s o i with
  | error =>
    rw [hext] at h
    cases h
  | ok r =>
    rw [hext] at h
    obtain rfl : r = some s' := h
    rfl

theorem extend_eq_extended {input : TieredOptimizerInput} (s : State)
    (o : TieredRepresentationCandidate) (i : ℕ) (r : Option State)
    (h : (search input).extend s o i = .ok r) : extended input s o i = r := by
  unfold extended
  rw [show extendState input s o i = .ok r from h]
  rfl

/-- The resources of what is found are accepted, all together. -/
theorem accepted_of_path {input : TieredOptimizerInput} {gs : List TieredCandidateGroup}
    {os : List TieredRepresentationCandidate} {s t : State}
    (hacc : Accounts s.resources rs) (hrs : Accepted input.resourceBudget rs)
    (h : (search input).Path (extended input) s gs os t) :
    Accounts t.resources ((os.map resource).reverse ++ rs) ∧
      Accepted input.resourceBudget
        ((os.map resource).reverse ++ rs) := by
  induction gs generalizing os s rs with
  | nil =>
    cases os with
    | nil =>
      obtain rfl := h
      exact ⟨hacc, hrs⟩
    | cons => cases h
  | cons g gs ih =>
    cases os with
    | nil => cases h
    | cons =>
      obtain ⟨i, s', -, hs', hpat⟩ := h
      obtain ⟨hacc', hrs'⟩ :=
        accepted_of_extendState hacc hrs (extendState_of_extended hs')
      rw [map_cons, reverse_cons, append_assoc]
      exact ih hacc' hrs' hpat

variable {base : ResourceAcc}

/-- **What the base needs is accepted.** -/
theorem accepted_of_baseResources {input : TieredOptimizerInput}
    (h : baseResources input = .ok base) : Accounts base input.baseResources.reverse ∧
      Accepted input.resourceBudget input.baseResources.reverse := by
  obtain ⟨⟨fits, acc⟩, hadd, h⟩ := bind_eq_ok.mp h
  cases fits with
  | false => cases h
  | true =>
    cases h
    obtain ⟨hacc, rfl⟩ := (addResources_eq_ok_true Accounts.nil Accepted.nil).mp hadd
    rw [List.append_nil] at hacc
    refine ⟨?_, hacc⟩
    have haccoun := Accounts.nil.foldl (l := input.baseResources)
    rwa [List.append_nil] at haccoun

/-- **What is found is one option for each group**, which are accepted. -/
theorem found_of_explore {input : TieredOptimizerInput} {states : List State}
    (hbas : baseResources input = .ok base)
    (h : (search input).explore [initialState input base] input.groups = .ok states) {t : State}
    (ht : t ∈ states) : ∃ os is, Picks input.groups is os ∧
      t = growAll input (initialState input base) os is ∧
      (search input).Path (step input) (initialState input base) input.groups os t ∧
      Accounts t.resources ((os.map resource).reverse ++
        input.baseResources.reverse) ∧ Accepted input.resourceBudget
        ((os.map resource).reverse ++
          input.baseResources.reverse) := by
  obtain ⟨s, hs, os, hpat⟩ := Search.exists_path_of_explore extend_eq_extended
    (fun l s hs => mem_of_mem_pruneBy hs) h ht
  obtain rfl := mem_singleton.mp hs
  obtain ⟨hacc, haccep⟩ := accepted_of_baseResources hbas
  have hst : (search input).Path (step input) (initialState input base) input.groups os t :=
    hpat.mono fun s o i s' hs' =>
      extendState_eq_step s o i _ (extendState_of_extended hs')
  obtain ⟨is, his, heq⟩ := Search.picks_of_path (grow_of_step input) hst
  exact ⟨os, is, his, heq, hst, accepted_of_path hacc haccep hpat⟩

/-- The resources of a plan, in the order in which they are accounted for, the
last one first. -/
theorem resourcesOf_perm (input : TieredOptimizerInput)
    (os : List TieredRepresentationCandidate) (context : TieredContextCandidate) :
    (context.resources.reverse ++ ((os.map resource).reverse ++
      input.baseResources.reverse)).Perm (resourcesOf input os context) := by
  rw [← reverse_append, ← reverse_append]
  exact reverse_perm _

variable {context : TieredContextCandidate}

/-- What is completed has the resources of the context, which are accepted with
those before. -/
theorem completeState_eq_ok {input : TieredOptimizerInput} {t : State}
    (hacc : Accounts t.resources rs) (hrs : Accepted input.resourceBudget rs)
    {p : TieredPlanMetrics × List ℕ} (h : completeState input context t = .ok (some p)) :
    Accepted input.resourceBudget (context.resources.reverse ++ rs) ∧
      p = (⟨t.qualityLossPpm, context.tokens, t.latencyCost + context.latencyCost,
        usageOf (context.resources.reverse ++ rs), t.packageBytes⟩, t.choices) := by
  obtain ⟨⟨fits, acc⟩, hadd, h⟩ := bind_eq_ok.mp h
  cases fits with
  | false => cases h
  | true =>
    obtain ⟨haccep, rfl⟩ := (addResources_eq_ok_true hacc hrs).mp hadd
    obtain ⟨latency, hlat, h⟩ := bind_eq_ok.mp h
    obtain ⟨usage, hus, h⟩ := bind_eq_ok.mp h
    obtain rfl := (checkedAdd_eq_ok.mp hlat).1
    obtain rfl := Except.ok.inj (hus.symm.trans (hacc.foldl.usage_eq haccep.range))
    exact ⟨haccep, (Option.some.inj (Except.ok.inj h)).symm⟩

/-- **What is completed is a plan that fits**, and it costs what it is said to
cost. -/
theorem isPlan_of_completeState {input : TieredOptimizerInput}
    {states : List State} (hbas : baseResources input = .ok base)
    (hst : (search input).explore [initialState input base] input.groups = .ok states)
    {t : State} (ht : t ∈ states) (hcon : context ∈ allowedContexts input)
    {p : TieredPlanMetrics × List ℕ} (h : completeState input context t = .ok (some p)) :
    ∃ os, IsPlan input os context ∧ Accepted input.resourceBudget (resourcesOf input os context) ∧
      p.1 = metricsOf input os context ∧ Picks input.groups p.2 os := by
  obtain ⟨os, is, his, heq, -, hacc, haccep⟩ := found_of_explore hbas hst ht
  obtain ⟨hqlt, hlat, hpac, -, hch⟩ :=
    growAll_eq input his (initialState input base)
  rw [← heq] at hqlt hlat hpac hch
  obtain ⟨hacc', rfl⟩ := completeState_eq_ok hacc haccep h
  have hper := resourcesOf_perm input os context
  have hall := hacc'.of_subperm hper.symm.subperm
  refine ⟨os, ⟨Search.forall₂_of_picks his, hcon, hall.valid, hall.fits⟩, hall, ?_, ?_⟩
  · unfold metricsOf
    rw [hqlt, hlat, hpac, usageOf_perm hper, switchesFrom_eq]
    rfl
  · show Picks input.groups t.choices os
    rwa [hch]

theorem mem_selectPlans {input : TieredOptimizerInput} {raw : List (TieredPlanMetrics × List ℕ)}
    {plan : TieredParetoPlan} (h : plan ∈ selectPlans input raw) :
    ∃ p ∈ nondominated metricsDominate raw, plan = buildPlan input p.1 p.2 := by
  obtain ⟨p, hp, rfl⟩ := mem_map.mp (mem_sortBy.mp (mem_of_mem_dedupBy h))
  exact ⟨p, hp, rfl⟩

theorem describes_buildPlan {input : TieredOptimizerInput} {m : TieredPlanMetrics} {is : List ℕ}
    {os : List TieredRepresentationCandidate} (hm : m = metricsOf input os context)
    (his : Picks input.groups is os) : Describes input (buildPlan input m is) os context where
  metrics := hm
  chosen := (Search.decisions_of_picks planDecision_eq_some his).1
  groups := (Search.decisions_of_picks planDecision_eq_some his).2
  id := rfl

/-- **Every returned plan stays within the envelope.** It is made of one option
for each group and an admissible context, and says so; all resources together
fit into the budget; it costs what its options add up to. If the resources are
accounted for in any order, they are accepted, and the same usage is
reported: of each memory pool the sum of the pinned bytes plus the largest
transient working set, and of each storage pool the bytes stored in it. -/
theorem tieredParetoPlans_envelope {input : TieredOptimizerInput} {plans : List TieredParetoPlan}
    (h : tieredParetoPlans input = .ok plans) {plan : TieredParetoPlan} (hplan : plan ∈ plans) :
    ∃ options context, IsPlan input options context ∧ Describes input plan options context ∧
      (∀ rs, rs.Perm (resourcesOf input options context) →
        ∃ acc, ResourceAcc.empty.addResources input.resourceBudget rs = .ok (true, acc) ∧
          acc.usage = .ok plan.metrics.resourceUsage) ∧
      (∀ pool, memoryUse plan.metrics.resourceUsage pool =
        (pinnedIn (resourcesOf input options context) pool +
            transientIn (resourcesOf input options context) pool,
          targetIn (resourcesOf input options context) pool)) ∧
      ∀ id, storageUse plan.metrics.resourceUsage id =
        storedBytesIn (resourcesOf input options context) id := by
  obtain ⟨-, -, h⟩ := bind_eq_ok.mp h
  obtain ⟨base, hbas, h⟩ := bind_eq_ok.mp h
  obtain ⟨states, hst, h⟩ := bind_eq_ok.mp h
  obtain ⟨raw, hraw, h⟩ := bind_eq_ok.mp h
  split_ifs at h
  cases h
  obtain ⟨p, hp, rfl⟩ := mem_selectPlans hplan
  obtain ⟨q, hq, hcpl⟩ := (mem_of_tryFilterMap hraw).mp (mem_of_mem_nondominated hp)
  obtain ⟨context, hcon, hq⟩ := mem_flatMap.mp hq
  obtain ⟨t, ht, rfl⟩ := mem_map.mp hq
  obtain ⟨os, hisP, hacc, hmet, his⟩ :=
    isPlan_of_completeState hbas hst ht hcon hcpl
  have hus : (buildPlan input p.1 p.2).metrics.resourceUsage =
      usageOf (resourcesOf input os context) := congrArg TieredPlanMetrics.resourceUsage hmet
  refine ⟨os, context, hisP, describes_buildPlan hmet his, fun rs hrs => ?_, ?_, ?_⟩
  · have hacc' : Accepted input.resourceBudget (rs.reverse ++ []) := by
      rw [List.append_nil]
      exact hacc.of_subperm ((reverse_perm rs).trans hrs).subperm
    refine ⟨_, (addResources_eq_ok_true Accounts.nil Accepted.nil).mpr ⟨hacc', rfl⟩, ?_⟩
    rw [Accounts.nil.foldl.usage_eq hacc'.range, hus, List.append_nil]
    exact congrArg Except.ok (usageOf_perm ((reverse_perm rs).trans hrs))
  · intro pool
    rw [hus, memoryUse_usageOf]
  · intro id
    rw [hus, storageUse_usageOf]

/-! ### A small input -/

/-- A resource that stays in memory, in the only pool. -/
def residentResource (pinned minimum target : ℕ) : ResourcePlan where
  mutability := .immutable
  backing := ⟨.residentOnly, none, 0, 1, 1⟩
  residency := ⟨⟨"m"⟩, minimum, target, pinned, 0⟩
  access := ⟨.directShared, 0, 0, 0⟩

/-- An option that costs nothing but memory. -/
def memoryOption (id : String) (pinned minimum target : ℕ) : TieredRepresentationCandidate where
  id := id
  quant := ⟨"exact", none⟩
  layout := 0
  legacyPlacement := .resident
  resource := residentResource pinned minimum target
  packageBytes := 0
  latencyCost := 0
  qualityLossPpm := 0
  dispatchClass := 0
  rationale := ""

/-- Groups of options, and one pool of memory. -/
def memoryInput (groups : List TieredCandidateGroup) (capacity : ℕ) : TieredOptimizerInput where
  costModel := "c"
  groups := groups
  contextConstraint := ⟨.maximum, 1⟩
  contextCandidates := [⟨1, [], 0⟩]
  resourceBudget := ⟨[⟨⟨"m"⟩, capacity⟩], []⟩
  baseResources := []
  basePackageBytes := 0
  baseLatencyCost := 0
  baseQualityLossPpm := 0
  heterogeneitySwitchPenalty := 0

/-- Two groups: an option with pinned bytes and another one, and then one with
transient bytes. -/
def stages (other : TieredRepresentationCandidate) : TieredOptimizerInput :=
  memoryInput [⟨"g", [memoryOption "a" 10 10 11, other]⟩, ⟨"h", [memoryOption "c" 0 11 11]⟩] 100

/-- This one needs more of everything than the first option. -/
def largerOption : TieredRepresentationCandidate := memoryOption "b" 11 11 12

/-- The first option is within the envelope, with that of the second group. -/
theorem tieredParetoPlans_envelope_stages :
    ∃ plans, tieredParetoPlans (stages largerOption) = .ok plans ∧
      plans ≠ [] ∧ ∀ plan ∈ plans, ∃ options context, IsPlan (stages largerOption) options context ∧
        Describes (stages largerOption) plan options context := by
  have hret : (tieredParetoPlans (stages largerOption)).map (List.map TieredParetoPlan.metrics) =
      .ok [⟨0, 1, 0, ⟨[⟨⟨"m"⟩, 21, 22⟩], [], 0, 0, 0⟩, 0⟩] := by
    decide +kernel
  cases hpl : tieredParetoPlans (stages largerOption) with
  | error =>
    rw [hpl] at hret
    cases hret
  | ok plans =>
    rw [hpl] at hret
    refine ⟨plans, rfl, ?_, fun plan hpln => ?_⟩
    · rintro rfl
      cases hret
    · obtain ⟨options, context, his, hdes, -⟩ := tieredParetoPlans_envelope hpl hpln
      exact ⟨options, context, his, hdes⟩

end Tiered

end Logan
