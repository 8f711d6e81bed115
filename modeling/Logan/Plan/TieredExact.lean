import Logan.Plan.TieredGrowth

/-!
# When the tiered optimizer returns the Pareto front

The **front** is made of the costs that no plan that fits is better than in
every respect. The tiered optimizer drops a partial plan if another one
dominates it; but to dominate it the other one only has to have no larger
minimum working set, which is the sum of the pinned bytes and of the largest
transient working set. With more pinned bytes and fewer transient ones it may
still end up with more, since further pinned bytes are added and further
transient ones may not count (`not_tieredParetoPlans_exact`).

Nothing on the front is lost as long as this branch does not go wrong: if
whenever a partial plan is dropped, one that is kept replaces it and covers it,
with neither more pinned bytes nor more transient ones
(`tieredParetoPlans_exact`). But plans with the id of another one are.
-/

namespace Logan

open List Result Option
open Tiered.ResourceAcc (accumulate hasRoomAll use)
open Tiered.TieredRepresentationCandidate (resource)

namespace Tiered

open Optimizer (switches switchesFrom switchesFrom_eq)

/-- **The Pareto front**: what some plan costs, and no plan dominates. -/
def OnFront (input : TieredOptimizerInput) (m : TieredPlanMetrics) : Prop :=
  (∃ options context, IsPlan input options context ∧ metricsOf input options context = m) ∧
  ∀ options context, IsPlan input options context →
    metricsDominate (metricsOf input options context) m = false

/-- The number of partial plans, before it would be trimmed, is within the
limit. -/
def Untrimmed (next : List State) : Prop :=
  (undominated replaces (sortBy State.sortKey next)).length ≤ maxFrontierStates

/-- **No partial plan is trimmed, and no sum is out of range.** -/
structure WithinLimits (input : TieredOptimizerInput) : Prop where
  base : ∀ e, baseResources input = .error e → ¬ IsOverflow e
  rounds : ∀ base, baseResources input = .ok base →
    (search input).RoundsIf Untrimmed IsOverflow [initialState input base] input.groups
  contexts : ∀ base states e, baseResources input = .ok base →
    (search input).explore [initialState input base] input.groups = .ok states →
    completePlans input states = .error e → ¬ IsOverflow e

/-- Options and contexts refer to pools of the budget. -/
structure PoolsKnown (input : TieredOptimizerInput) : Prop where
  options : ∀ g ∈ input.groups, ∀ o ∈ g.options, Known input.resourceBudget o.resource
  contexts : ∀ c ∈ input.contextCandidates, ∀ r ∈ c.resources, Known input.resourceBudget r

/-- The pools that accounts list. -/
def ResourceAcc.pools (acc : ResourceAcc) : List MemoryPoolId × List StoragePoolId :=
  (acc.memoryEntries.map Prod.fst, acc.storageEntries.map Prod.fst)

/-- A partial plan with more resources. -/
def State.add (s : State) (rs : List ResourcePlan) : State :=
  { s with resources := rs.foldl accumulate s.resources }

/-- The resources by which a partial plan can be completed: those of one option
for each of the groups that are left, and of an admissible context. -/
def Completing (input : TieredOptimizerInput) (rest : List TieredCandidateGroup)
    (rs : List ResourcePlan) : Prop :=
  ∃ os context, List.Forall₂ (fun g o => o ∈ g.options) rest os ∧
    context ∈ allowedContexts input ∧
    rs = os.map resource ++ context.resources

/-- A partial plan lists the same pools as another one, whenever both are completed
in one way, for which the other one has room, and then cost the same. -/
def ListsAlike (input : TieredOptimizerInput) (rest : List TieredCandidateGroup)
    (s t : State) : Prop :=
  ∀ rs, Completing input rest rs → t.resources.hasRoomAll input.resourceBudget rs = true →
    (s.add rs).cost = (t.add rs).cost → (s.add rs).resources.pools = (t.add rs).resources.pools

/-- **A partial plan covers another one**: it has no more pinned bytes and no more
transient ones, in each memory pool, and lists the same pools where this counts. -/
structure Covers (input : TieredOptimizerInput) (s t : State) : Prop where
  memory : ∀ pool,
    (s.resources.memoryOf pool).pinnedBytes ≤ (t.resources.memoryOf pool).pinnedBytes ∧
      (s.resources.memoryOf pool).transientWorkingSetBytes ≤
        (t.resources.memoryOf pool).transientWorkingSetBytes
  pools : ListsAlike input (input.groups.drop t.choices.length) s t

/-- **Whatever is dropped is covered** by something that is kept and replaces it. -/
def Covered (input : TieredOptimizerInput) (next : List State) : Prop :=
  ∀ t ∈ next, ∃ s ∈ pruneStates next, s = t ∨ replaces s t = true ∧ Covers input s t

/-- **No pruning goes wrong**, and nothing that is added refers to a pool that the
budget does not have. -/
structure PrunesSafely (input : TieredOptimizerInput) : Prop where
  rounds : ∀ base, baseResources input = .ok base →
    (search input).RoundsIf (Covered input) IsInvalid [initialState input base] input.groups
  contexts : ∀ base states e, baseResources input = .ok base →
    (search input).explore [initialState input base] input.groups = .ok states →
    completePlans input states = .error e → ¬ IsInvalid e

/-- Plans on the front with one id cost the same. -/
def IdsSeparate (input : TieredOptimizerInput) : Prop :=
  ∀ plan twin options context options' context', IsPlan input options context →
    Describes input plan options context → OnFront input plan.metrics →
    IsPlan input options' context' → Describes input twin options' context' →
    OnFront input twin.metrics → plan.id = twin.id → plan.metrics = twin.metrics

/-! ## What is left out -/

/-- **A partial plan simulates another one** if it ends in the same class,
costs no more, and holds no more of anything. -/
structure Simulates (a b : State) : Prop where
  lastClass : a.lastDispatchClass = b.lastDispatchClass
  quality : a.qualityLossPpm ≤ b.qualityLossPpm
  latency : a.latencyCost ≤ b.latencyCost
  package : a.packageBytes ≤ b.packageBytes
  resources : a.resources.NoMore b.resources

theorem Simulates.refl (a : State) : Simulates a a where
  lastClass := rfl
  quality := le_rfl
  latency := le_rfl
  package := le_rfl
  resources := ResourceAcc.NoMore.refl _

theorem simulates_trans (a b c : State) (hab : Simulates a b) (hbc : Simulates b c) :
    Simulates a c where
  lastClass := hab.lastClass.trans hbc.lastClass
  quality := hab.quality.trans hbc.quality
  latency := hab.latency.trans hbc.latency
  package := hab.package.trans hbc.package
  resources := hab.resources.trans hbc.resources

/-- **What simulates a partial plan can take each of its options**, and
simulates it afterwards. -/
theorem simulates_step {input : TieredOptimizerInput} (a b : State)
    (o : TieredRepresentationCandidate) (i : ℕ) (b' : State) (h : Simulates a b)
    (hb' : step input b o i = some b') : ∃ a', step input a o i = some a' ∧ Simulates a' b' := by
  unfold step at hb' ⊢
  split_ifs at hb' with hrm
  cases hb'
  refine ⟨grow input a o i, if_pos (h.resources.hasRoom hrm), ?_⟩
  refine ⟨?_, Nat.add_le_add_right h.quality _, ?_, Nat.add_le_add_right h.package _,
    h.resources.accumulate _⟩
  · unfold grow
    rw [h.lastClass]
  · unfold grow
    rw [h.lastClass]
    exact Nat.add_le_add_right (Nat.add_le_add_right h.latency _) _

theorem inBounds_of_accounts {acc : ResourceAcc} {rs : List ResourcePlan} (h : Accounts acc rs)
    (hrng : InRange rs) : acc.InBounds := by
  intro pool
  rw [h.memoryOf_eq]
  exact hrng.minimum pool

theorem Simulates.add {a b : State} (h : Simulates a b) (rs : List ResourcePlan) :
    (a.add rs).cost ≤ (b.add rs).cost :=
  State.cost_le.mpr ⟨h.quality, h.latency, h.package, (h.resources.foldl rs).use_le⟩

/-- **A partial plan stands for another one**, for the groups that are left: it
simulates it, and lists the same pools where this counts. -/
structure StandsFor (input : TieredOptimizerInput) (rest : List TieredCandidateGroup)
    (a b : State) : Prop where
  simulates : Simulates a b
  left : input.groups.drop a.choices.length = rest
  pools : ListsAlike input rest a b

/-- **It still does so with one more option.** -/
theorem standsFor_step {input : TieredOptimizerInput} {g : TieredCandidateGroup}
    {rest : List TieredCandidateGroup} {o : TieredRepresentationCandidate} (ho : o ∈ g.options)
    (a b : State) (i : ℕ) (b' : State) (h : StandsFor input (g :: rest) a b)
    (hb' : step input b o i = some b') :
    ∃ a', step input a o i = some a' ∧ StandsFor input rest a' b' := by
  obtain ⟨a', ha', hsim⟩ := simulates_step a b o i b' h.simulates hb'
  obtain rfl := grow_of_step input a o i a' ha'
  refine ⟨_, ha', hsim, ?_, ?_⟩
  · show input.groups.drop (a.choices ++ [i]).length = rest
    rw [length_append, length_singleton, ← drop_drop, h.left]
    rfl
  · rintro _ ⟨os, context, hos, hcon, rfl⟩ hrm hcos
    obtain rfl := grow_of_step input b o i b' hb'
    have hrmb : b.resources.hasRoom input.resourceBudget o.resource = true := by
      unfold step at hb'
      split_ifs at hb' with hrm
      exact hrm
    refine h.pools (o.resource :: (os.map _ ++ context.resources))
      ⟨o :: os, context, List.Forall₂.cons ho hos, hcon, rfl⟩
      (Bool.and_eq_true_iff.mpr ⟨hrmb, hrm⟩) ?_
    -- the option costs both of them the same
    unfold State.cost at hcos ⊢
    simp only [Prod.mk.injEq] at hcos ⊢
    obtain ⟨hqlt, hlat, hpac, huse⟩ := hcos
    refine ⟨Nat.add_right_cancel hqlt, ?_, Nat.add_right_cancel hpac, huse⟩
    have hlst := h.simulates.lastClass
    change a.latencyCost + o.latencyCost + (if switchesClass a.lastDispatchClass o then _ else 0) =
      b.latencyCost + o.latencyCost + _ at hlat
    rw [hlst] at hlat
    exact Nat.add_right_cancel (Nat.add_right_cancel hlat)

/-- **What is dropped has somebody that stands for it.** -/
theorem exists_standsFor {input : TieredOptimizerInput} {rest : List TieredCandidateGroup}
    {next : List State} (hbnd : ∀ s ∈ next, s.resources.InBounds)
    (hlen : ∀ s ∈ next, ∀ t ∈ next, s.choices.length = t.choices.length)
    (hcov : Covered input next) {s : State} (hs : s ∈ next) {b : State}
    (h : StandsFor input rest s b) : ∃ t ∈ pruneStates next, StandsFor input rest t b := by
  obtain ⟨t, ht, rfl | ⟨hrep, hcvr⟩⟩ := hcov s hs
  · exact ⟨t, ht, h⟩
  have hmem : t ∈ next := mem_of_mem_pruneBy ht
  obtain ⟨hcl, hlt⟩ := (replaces_iff (hbnd t hmem) (hbnd s hs)).mp hrep
  obtain ⟨hqlt, hlat, hpac, huse⟩ := State.cost_le.mp hlt.le
  obtain ⟨hpls, hst, hpck, hrd, hwr⟩ := ResourceAcc.use_le.mp huse
  have hsim : Simulates t s := ⟨hcl, hqlt, hlat, hpac, fun pool => (hcvr.memory pool).1,
    fun pool => (hcvr.memory pool).2, fun pool => (hpls pool).2, hst, hpck, hrd, hwr⟩
  refine ⟨t, ht, simulates_trans t s b hsim h.simulates, ?_, fun rs hrs hrm hcos => ?_⟩
  · rw [hlen t hmem s hs, h.left]
  · -- between equal costs there is only one
    have hmid : (s.add rs).cost = (b.add rs).cost :=
      le_antisymm (h.simulates.add rs) (hcos.symm.trans_le (hsim.add rs))
    have hrms := h.simulates.resources.hasRoomAll hrm
    rw [← h.left] at hrs
    exact (hcvr.pools rs hrs hrms (hcos.trans hmid.symm)).trans (h.pools rs (h.left ▸ hrs) hrm hmid)

/-! ## Every plan is matched -/

/-- What validation has seen is well-formed. -/
theorem valid_of_validateInput {input : TieredOptimizerInput} (h : validateInput input = .ok ()) :
    (∀ g ∈ input.groups, ∀ o ∈ g.options, o.resource.validate = .ok ()) ∧
    ∀ c ∈ input.contextCandidates, ∀ r ∈ c.resources, r.validate = .ok () := by
  have hres : ∀ rs : List ResourcePlan, validateResources rs = .ok () →
      ∀ r ∈ rs, r.validate = .ok () := by
    intro rs
    induction rs with
    | nil => exact fun _ => by rintro _ ⟨⟩
    | cons r rs ih =>
      intro h
      obtain ⟨⟨⟩, hr, h⟩ := bind_eq_ok.mp h
      exact forall_mem_cons.mpr ⟨hr, ih h⟩
  have hgr : ∀ gs : List TieredCandidateGroup, validateGroups gs = .ok () →
      ∀ g ∈ gs, ∀ o ∈ g.options, o.resource.validate = .ok () := by
    intro gs
    induction gs with
    | nil => exact fun _ => by rintro _ ⟨⟩
    | cons g gs ih =>
      intro h
      unfold validateGroups at h
      split_ifs at h
      obtain ⟨⟨⟩, hg, h⟩ := bind_eq_ok.mp h
      refine forall_mem_cons.mpr ⟨fun o ho => ?_, ih h⟩
      exact hres _ hg o.resource (mem_map_of_mem ho)
  unfold validateInput at h
  split_ifs at h with hbl hemp hallow
  · obtain ⟨-, -, h⟩ := bind_eq_ok.mp h
    cases h
  · obtain ⟨-, -, h⟩ := bind_eq_ok.mp h
    cases h
  obtain ⟨-, -, h⟩ := bind_eq_ok.mp h
  obtain ⟨⟨⟩, hall, h⟩ := bind_eq_ok.mp h
  refine ⟨hgr _ hall, fun c hc r hr => ?_⟩
  exact hres _ h r (mem_flatMap.mpr ⟨c, hc, hr⟩)

/-- The pools of what fits are known. -/
theorem known_of_fits {budget : ResourceBudget} {rs : List ResourcePlan}
    (hval : ∀ r ∈ rs, r.validate = .ok ()) (hfit : Fits rs budget) :
    ∀ r ∈ rs, Known budget r := by
  intro r hr
  refine ⟨?_, fun id hid => ?_⟩
  · obtain ⟨capacity, hcap, -⟩ := hfit.memory r hr
    rw [hcap]
    exact some_ne_none capacity
  · obtain ⟨-, -, hst, huns⟩ := ResourcePlan.validate_spec (hval r hr)
    cases hkin : r.stored with
    | false =>
      rw [huns hkin] at hid
      cases hid
    | true =>
      obtain ⟨id', hid', hstr⟩ := hst hkin
      obtain ⟨id'', pool, hid'', hpl, -⟩ := hfit.storage r hr hkin
      obtain rfl := some.inj (hid'.symm.trans hid'')
      obtain rfl := some.inj (hid.symm.trans hstr)
      rw [hpl]
      exact some_ne_none pool

section Plans

variable {input : TieredOptimizerInput} {os : List TieredRepresentationCandidate}
  {context : TieredContextCandidate} {base : ResourceAcc}

theorem baseResources_sublist (input : TieredOptimizerInput)
    (os : List TieredRepresentationCandidate) (context : TieredContextCandidate) :
    input.baseResources.Sublist (resourcesOf input os context) := by
  unfold resourcesOf
  rw [append_assoc]
  exact sublist_append_left _ _

/-- **If some plan fits, the base does.** -/
theorem baseResources_of_isPlan (h : IsPlan input os context)
    (hlim : ∀ e, baseResources input = .error e → ¬ IsOverflow e) :
    ∃ base, baseResources input = .ok base := by
  have hsub := baseResources_sublist input os context
  have hval : ∀ r ∈ input.baseResources, r.validate = .ok () := fun r hr =>
    h.valid r (hsub.subset hr)
  have hfit : Fits input.baseResources input.resourceBudget :=
    h.fits.of_subperm hsub.subperm
  cases hadd : ResourceAcc.empty.addResources input.resourceBudget input.baseResources with
  | error e =>
    have hov := isOverflow_of_addResources hval (fun _ => known_of_fits hval hfit) hadd
    have herr : baseResources input = .error e := by
      unfold baseResources
      rw [hadd]
      rfl
    exact absurd hov (hlim e herr)
  | ok p =>
    have hrm : hasRoomAll input.resourceBudget .empty input.baseResources = true := by
      refine hasRoomAll_of_fits Accounts.nil hval ?_
      rw [List.append_nil]
      exact hfit.of_subperm (reverse_perm _).subperm
    refine ⟨p.2, ?_⟩
    unfold baseResources
    rw [hadd, ok_bind, (ResourceAcc.addResources_eq_ok hadd).1, hrm]
    rfl

/-- **If a plan fits, there is room** for its options, and then for its
context. -/
theorem hasRoomAll_of_isPlan (h : IsPlan input os context)
    (hbas : baseResources input = .ok base) : hasRoomAll input.resourceBudget base
        (os.map resource) = true ∧
      hasRoomAll input.resourceBudget
        ((os.map resource).foldl accumulate base)
        context.resources = true := by
  obtain ⟨hacc, -⟩ := accepted_of_baseResources hbas
  rw [← Bool.and_eq_true, ← hasRoomAll_append]
  refine hasRoomAll_of_fits hacc (fun r hr => h.valid r ?_) ?_
  · unfold resourcesOf
    rw [append_assoc]
    exact mem_append_right _ hr
  · rw [← reverse_append, ← append_assoc]
    exact h.fits.of_subperm (reverse_perm _).subperm

theorem metricsCost_inj {l r : TieredPlanMetrics} (h : metricsCost l = metricsCost r)
    (huse : l.resourceUsage = r.resourceUsage) : l = r := by
  cases l
  cases r
  unfold metricsCost at h
  simp only [Prod.mk.injEq, EmbeddingLike.apply_eq_iff_eq] at h
  obtain ⟨rfl, rfl, rfl, rfl, -⟩ := h
  obtain rfl := huse
  rfl

theorem Accounts.use_eq {acc : ResourceAcc} {rs : List ResourcePlan} (h : Accounts acc rs) :
    acc.use = (usageOf rs).use := by
  have hmem : memoryUse (usageOf rs) = fun pool =>
      ((acc.memoryOf pool).pinnedBytes + (acc.memoryOf pool).transientWorkingSetBytes,
        (acc.memoryOf pool).targetResidentBytes) := by
    funext pool
    rw [memoryUse_usageOf, h.memoryOf_eq]
    rfl
  have hstorage : storageUse (usageOf rs) = acc.storageOf := by
    funext id
    rw [storageUse_usageOf, h.storageOf_eq]
  unfold TieredResourceUsage.use use
  rw [hmem, hstorage, h.packaged, h.reads, h.writes]
  rfl

/-- **Accounts with the same use, that list the same pools**, report the same. -/
theorem Accounts.usageOf_eq {a b : ResourceAcc} {rs rs' : List ResourcePlan}
    (h : Accounts a rs) (h' : Accounts b rs') (hpls : a.pools = b.pools) (huse : a.use = b.use) :
    usageOf rs = usageOf rs' := by
  rw [h.use_eq, h'.use_eq] at huse
  unfold ResourceAcc.pools at hpls
  rw [h.memoryEntries_eq, h'.memoryEntries_eq, h.storageEntries_eq, h'.storageEntries_eq] at hpls
  simp only [List.map_map, Prod.mk.injEq] at hpls
  obtain ⟨hmem, hstorage⟩ := hpls
  obtain ⟨hmus, hsus, hpac, hrd, hwr⟩ : _ ∧ _ ∧ _ ∧ _ ∧ _ := by
    simpa only [TieredResourceUsage.use, Prod.mk.injEq] using huse
  change (sortBy _ _).map (fun pool => pool) = (sortBy _ _).map (fun pool => pool) at hmem
  change (sortBy _ _).map (fun id => id) = (sortBy _ _).map (fun id => id) at hstorage
  rw [List.map_id', List.map_id'] at hmem hstorage
  have hmap : ∀ pool, MemoryPoolUsage.mk pool (pinnedIn rs pool + transientIn rs pool)
      (targetIn rs pool) = ⟨pool, pinnedIn rs' pool + transientIn rs' pool, targetIn rs' pool⟩ := by
    intro pool
    have hpl := congrFun hmus pool
    rw [memoryUse_usageOf, memoryUse_usageOf, Prod.mk.injEq] at hpl
    rw [hpl.1, hpl.2]
  have hmap' : ∀ id, storedBytesIn rs id = storedBytesIn rs' id := fun id => by
    rw [← storageUse_usageOf, ← storageUse_usageOf, hsus]
  unfold usageOf
  rw [hmem, hstorage, funext hmap, funext hmap', show packagedBytes rs = _ from hpac,
    show readBytes rs = _ from hrd, show writtenBytes rs = _ from hwr]
  rfl

/-- **What a plan costs** is what the search adds up to. -/
theorem metricsCost_metricsOf {is : List ℕ} (his : Picks input.groups is os)
    (hbas : baseResources input = .ok base) : metricsCost (metricsOf input os context) =
      ((growAll input (initialState input base) os is).qualityLossPpm,
        OrderDual.toDual context.tokens,
        (growAll input (initialState input base) os is).latencyCost + context.latencyCost,
        (growAll input (initialState input base) os is).packageBytes,
        (context.resources.foldl accumulate
          (growAll input (initialState input base) os is).resources).use) := by
  obtain ⟨hqlt, hlat, hpac, hres, -⟩ :=
    growAll_eq input his (initialState input base)
  have hacc : Accounts (context.resources.foldl accumulate
      (growAll input (initialState input base) os is).resources)
      (context.resources.reverse ++ ((os.map resource).reverse ++
        input.baseResources.reverse)) := by
    rw [hres]
    exact (accepted_of_baseResources hbas).1.foldl.foldl
  rw [hqlt, hlat, hpac, hacc.use_eq, usageOf_perm (resourcesOf_perm _ _ _), switchesFrom_eq]
  rfl

end Plans

variable {context : TieredContextCandidate} {raw : List (TieredPlanMetrics × List ℕ)}

section Search

variable {input : TieredOptimizerInput} {base : ResourceAcc}

/-- The search finds something that stands for every path, or nothing, and
then there is no path. -/
theorem explore_cases (hval : validateInput input = .ok ()) (hlim : WithinLimits input)
    (hsaf : PrunesSafely input) (hbas : baseResources input = .ok base) :
    (∃ states, (search input).explore [initialState input base] input.groups = .ok states ∧
      ∀ os t, (search input).Path (step input) (initialState input base) input.groups os t →
        ∃ a ∈ states, StandsFor input [] a t) ∨
    ∃ e, (search input).explore [initialState input base] input.groups = .error e ∧
      ∀ os t, ¬ (search input).Path (step input) (initialState input base) input.groups os t := by
  have hrnds := ((hlim.rounds base hbas).and _ (hsaf.rounds base hbas)).rounds _
    fun g hg o ho s i e h => or_iff_not_imp_right.mpr fun hinv =>
      isOverflow_of_extendState ((valid_of_validateInput hval).1 g hg o ho)
        (fun h => absurd h hinv) h
  have hpat := Search.Rounds.with_paths extend_eq_extended (fun l s hs => mem_of_mem_pruneBy hs)
    (initialState input base) [] hrnds fun s hs => by
      obtain rfl := mem_singleton.mp hs
      exact ⟨[], rfl⟩
  obtain ⟨hacc, haccep⟩ := accepted_of_baseResources hbas
  have hst : ∃ a ∈ [initialState input base], StandsFor input input.groups a
      (initialState input base) :=
    ⟨_, mem_singleton_self _, Simulates.refl _, rfl, fun _ _ _ _ => rfl⟩
  have hpr : ∀ rest next, ((Untrimmed next ∧ Covered input next) ∧ ∃ done rest,
      [] ++ input.groups = done ++ rest ∧ ∀ s ∈ next, ∃ os,
        (search input).Path (extended input) (initialState input base) done os s) →
      ∀ s ∈ next, ∀ b, StandsFor input rest s b →
        ∃ t ∈ (search input).prune next, StandsFor input rest t b := by
    rintro rest next ⟨⟨-, hcov⟩, done, -, -, hpth⟩ s hs b hsb
    refine exists_standsFor (fun s hs => ?_) (fun s hs t ht => ?_) hcov hs hsb
    · obtain ⟨os, hpth⟩ := hpth s hs
      obtain ⟨hacc', haccep'⟩ := accepted_of_path hacc haccep hpth
      exact inBounds_of_accounts hacc' haccep'.range
    · have hdon : ∀ s ∈ next, s.choices.length = done.length := by
        intro s hs
        obtain ⟨os, hpth⟩ := hpth s hs
        obtain ⟨is, his, rfl⟩ := Search.picks_of_path (grow_of_step input) (hpth.mono
          fun s o i s' h => extendState_eq_step s o i _ (extendState_of_extended h))
        rw [(growAll_eq input his _).2.2.2.2]
        exact Search.length_of_picks his
      rw [hdon s hs, hdon t ht]
  rcases Search.explore_of_rounds (R := StandsFor input) extendState_eq_step
    (fun g _ _ o ho a b => @standsFor_step input g _ o ho a b) hpr hpat with
    ⟨states, hstt, hfnd⟩ | ⟨g, -, hdd, hnon⟩
  · exact Or.inl ⟨states, hstt, fun os t => hfnd _ os t hst⟩
  · exact Or.inr ⟨_, hdd, fun os t => hnon _ os t hst⟩

variable {states : List State}

/-- What a completed plan costs is what the partial plan does, and its context. -/
theorem metricsCost_of_completeState (hbas : baseResources input = .ok base)
    (hst : (search input).explore [initialState input base] input.groups = .ok states)
    {t : State} (ht : t ∈ states) {p : TieredPlanMetrics × List ℕ}
    (h : completeState input context t = .ok (some p)) :
    metricsCost p.1 = (t.qualityLossPpm, OrderDual.toDual context.tokens,
      t.latencyCost + context.latencyCost, t.packageBytes,
      (context.resources.foldl accumulate t.resources).use) := by
  obtain ⟨os, is, -, -, -, hacc, haccep⟩ := found_of_explore hbas hst ht
  obtain ⟨-, rfl⟩ := completeState_eq_ok hacc haccep h
  rw [hacc.foldl.use_eq]
  rfl

/-- **A partial plan is completed** with every context for which there is room. -/
theorem exists_mem_of_hasRoomAll (hraw : completePlans input states = .ok raw) {a : State}
    (ha : a ∈ states) (hall : context ∈ allowedContexts input)
    (hrm : hasRoomAll input.resourceBudget a.resources context.resources = true) :
    ∃ p ∈ raw, completeState input context a = .ok (some p) := by
  have hmem : (context, a) ∈ (allowedContexts input).flatMap fun context =>
      states.map fun state => (context, state) :=
    mem_flatMap.mpr ⟨context, hall, mem_map_of_mem ha⟩
  obtain ⟨r, hr⟩ := ok_of_tryFilterMap hraw hmem
  have hsom : ∃ p, r = some p := by
    obtain ⟨q, hq, hres⟩ := bind_eq_ok.mp hr
    rw [(ResourceAcc.addResources_eq_ok hq).1, hrm, if_neg (by decide)] at hres
    obtain ⟨latency, -, hres⟩ := bind_eq_ok.mp hres
    obtain ⟨usage, -, hres⟩ := bind_eq_ok.mp hres
    exact ⟨_, (Except.ok.inj hres).symm⟩
  obtain ⟨p, rfl⟩ := hsom
  exact ⟨p, (mem_of_tryFilterMap hraw).mpr ⟨_, hmem, hr⟩, hr⟩

/-- **Every plan that fits is matched** by one that is completed, which costs the
same or dominates it. -/
theorem exists_mem_completePlans (hbas : baseResources input = .ok base)
    (hst : (search input).explore [initialState input base] input.groups = .ok states)
    (hfnd : ∀ os t, (search input).Path (step input) (initialState input base) input.groups os t →
      ∃ a ∈ states, StandsFor input [] a t) (hraw : completePlans input states = .ok raw)
    {os : List TieredRepresentationCandidate} (h : IsPlan input os context) :
    ∃ p ∈ raw, p.1 = metricsOf input os context ∨
      metricsDominate p.1 (metricsOf input os context) = true := by
  obtain ⟨is, his⟩ := Search.exists_picks h.chosen
  obtain ⟨hrm, hrm'⟩ := hasRoomAll_of_isPlan h hbas
  have hgr := (growAll_eq input his (initialState input base)).2.2.2.1
  obtain ⟨a, ha, hsta⟩ := hfnd os _ (path_of_picks his (initialState input base) hrm)
  have hsim := hsta.simulates
  rw [← show _ = (os.map resource).foldl _ base from hgr] at hrm'
  -- the context fits with what stands for the plan
  obtain ⟨p, hp, hcpl⟩ := exists_mem_of_hasRoomAll hraw ha h.allowed
    (hsim.resources.hasRoomAll hrm')
  obtain ⟨os', is', -, -, -, hacc, haccep⟩ := found_of_explore hbas hst ha
  obtain ⟨-, hpeq⟩ := completeState_eq_ok hacc haccep hcpl
  have hmet := metricsCost_of_completeState hbas hst ha hcpl
  have hmet' : metricsCost (metricsOf input os context) = _ := metricsCost_metricsOf his hbas
  have hle : metricsCost p.1 ≤ metricsCost (metricsOf input os context) := by
    rw [hmet, hmet']
    exact ⟨hsim.quality, le_rfl, Nat.add_le_add_right hsim.latency _,
      hsim.package, (hsim.resources.foldl _).use_le⟩
  refine ⟨p, hp, ?_⟩
  rcases hle.eq_or_lt with heq | hlt
  · refine Or.inl (metricsCost_inj heq ?_)
    rw [hmet, hmet'] at heq
    simp only [Prod.mk.injEq] at heq
    obtain ⟨hqlt, -, hlat, hpac, huse⟩ := heq
    have hpls := hsta.pools context.resources ⟨[], context, .nil, h.allowed, rfl⟩ hrm'
      (Prod.ext hqlt (Prod.ext (Nat.add_right_cancel hlat) (Prod.ext hpac huse)))
    have hacc' := (accepted_of_baseResources hbas).1.foldl
      (l := os.map resource)
    rw [← show _ = (os.map resource).foldl _ base from hgr] at hacc'
    rw [hpeq]
    exact (hacc.foldl.usageOf_eq hacc'.foldl hpls huse).trans
      (usageOf_perm (resourcesOf_perm input os context))
  · refine Or.inr ((metricsDominate_iff ?_ (listed_usageOf _)).mpr hlt)
    rw [hpeq]
    exact listed_usageOf _

/-- **What is completed stands for all plans that fit.** -/
theorem exists_nondominated_iff_onFront (hsnd : ∀ p ∈ raw, ∃ os context,
      IsPlan input os context ∧ p.1 = metricsOf input os context)
    (hmat : ∀ os context, IsPlan input os context → ∃ p ∈ raw,
      p.1 = metricsOf input os context ∨ metricsDominate p.1 (metricsOf input os context) = true)
    (m : TieredPlanMetrics) :
    (∃ p ∈ nondominated metricsDominate raw, p.1 = m) ↔ OnFront input m := by
  have hdom : ∀ os context os' context',
      metricsDominate (metricsOf input os context) (metricsOf input os' context') = true ↔
        metricsCost (metricsOf input os context) < metricsCost (metricsOf input os' context') :=
    fun _ _ _ _ => metricsDominate_iff (listed_usageOf _) (listed_usageOf _)
  rw [exists_nondominated_iff (fun m => ∃ os context, IsPlan input os context ∧
    metricsOf input os context = m)]
  · unfold OnFront
    refine and_congr_right fun _ => ⟨fun h os context hpl => h _ ⟨os, context, hpl, rfl⟩, ?_⟩
    rintro h _ ⟨os, context, hpl, rfl⟩
    exact h os context hpl
  · rintro _ ⟨os, context, -, rfl⟩
    rw [← Bool.not_eq_true, hdom]
    exact lt_irrefl _
  · rintro _ _ _ ⟨os, context, -, rfl⟩ ⟨os', context', -, rfl⟩ ⟨os'', context'', -, rfl⟩
    rw [hdom, hdom, hdom]
    exact lt_trans
  · intro p hp
    obtain ⟨os, context, hpl, hm⟩ := hsnd p hp
    exact ⟨os, context, hpl, hm.symm⟩
  · rintro _ ⟨os, context, hpl, rfl⟩
    exact hmat os context hpl

/-- **The completion returns**, if no sum is out of range. -/
theorem exists_completePlans (hval : validateInput input = .ok ())
    (hkn : ∀ e, completePlans input states = .error e → IsInvalid e →
      ∀ c ∈ input.contextCandidates, ∀ r ∈ c.resources, Known input.resourceBudget r)
    (hlim : ∀ e, completePlans input states = .error e → ¬ IsOverflow e) :
    ∃ raw, completePlans input states = .ok raw := by
  cases hraw : completePlans input states with
  | ok raw => exact ⟨raw, rfl⟩
  | error e =>
    obtain ⟨q, hq, herr⟩ := error_of_tryFilterMap hraw
    obtain ⟨context, hcon, hq⟩ := mem_flatMap.mp hq
    obtain ⟨t, -, rfl⟩ := mem_map.mp hq
    have hmem : context ∈ input.contextCandidates := mem_of_mem_filter hcon
    exact absurd (isOverflow_of_completeState ((valid_of_validateInput hval).2 _ hmem)
      (fun hinv => hkn e hraw hinv _ hmem) herr) (hlim e hraw)

/-- What has been completed are plans that fit. -/
theorem isPlan_of_mem (hbas : baseResources input = .ok base)
    (hst : (search input).explore [initialState input base] input.groups = .ok states)
    (hraw : completePlans input states = .ok raw) {p : TieredPlanMetrics × List ℕ}
    (hp : p ∈ raw) : ∃ os context, IsPlan input os context ∧
      p.1 = metricsOf input os context ∧ Picks input.groups p.2 os := by
  obtain ⟨q, hq, hcpl⟩ := (mem_of_tryFilterMap hraw).mp hp
  obtain ⟨context, hcon, hq⟩ := mem_flatMap.mp hq
  obtain ⟨t, ht, rfl⟩ := mem_map.mp hq
  obtain ⟨os, hpl, -, hm, his⟩ := isPlan_of_completeState hbas hst ht hcon hcpl
  exact ⟨os, context, hpl, hm, his⟩

theorem tieredParetoPlans_eq (hval : validateInput input = .ok ())
    (hbas : baseResources input = .ok base)
    (hst : (search input).explore [initialState input base] input.groups = .ok states)
    (hraw : completePlans input states = .ok raw) : tieredParetoPlans input = if raw.isEmpty then
      .error (.infeasible "no optimizer plan satisfies the context and tiered resource constraints")
      else .ok (selectPlans input raw) := by
  unfold tieredParetoPlans
  rw [hval, ok_bind, hbas, ok_bind, hst, ok_bind, hraw, ok_bind]
  rfl

/-- **Plans are returned** if some plan has been completed. -/
theorem exists_tieredParetoPlans_iff (hval : validateInput input = .ok ())
    (hbas : baseResources input = .ok base)
    (hst : (search input).explore [initialState input base] input.groups = .ok states)
    (hraw : completePlans input states = .ok raw) :
    (∃ plans, tieredParetoPlans input = .ok plans) ↔ ∃ p, p ∈ raw := by
  rw [tieredParetoPlans_eq hval hbas hst hraw]
  constructor
  · rintro ⟨plans, h⟩
    split_ifs at h with hemp
    exact exists_mem_of_ne_nil _ fun hnil => hemp (List.isEmpty_iff.mpr hnil)
  · rintro ⟨p, hp⟩
    refine ⟨_, if_neg fun hemp => ?_⟩
    rw [List.isEmpty_iff.mp hemp] at hp
    cases hp

end Search

/-- **What is selected is the front**, if ids separate the plans on it. -/
theorem selectPlans_exact {input : TieredOptimizerInput} (hids : IdsSeparate input)
    (hraw : ∀ p ∈ raw, ∃ os context, IsPlan input os context ∧
      p.1 = metricsOf input os context ∧ Picks input.groups p.2 os)
    (hfr : ∀ m, (∃ p ∈ nondominated metricsDominate raw, p.1 = m) ↔ OnFront input m)
    (m : TieredPlanMetrics) :
    (∃ plan ∈ selectPlans input raw, plan.metrics = m) ↔ OnFront input m := by
  have hdes : ∀ p ∈ nondominated metricsDominate raw, OnFront input p.1 ∧
      ∃ os context, IsPlan input os context ∧
        Describes input (buildPlan input p.1 p.2) os context := by
    intro p hp
    obtain ⟨os, context, hpl, hm, his⟩ := hraw p (mem_of_mem_nondominated hp)
    exact ⟨(hfr p.1).mp ⟨p, hp, rfl⟩, os, context, hpl, describes_buildPlan hm his⟩
  constructor
  · rintro ⟨plan, hpl, rfl⟩
    obtain ⟨p, hp, rfl⟩ := mem_selectPlans hpl
    exact (hdes p hp).1
  · intro hm
    obtain ⟨p, hp, rfl⟩ := (hfr m).mpr hm
    obtain ⟨plan, hpl, hid⟩ : ∃ plan ∈ selectPlans input raw,
        plan.id = (buildPlan input p.1 p.2).id :=
      exists_mem_dedupBy (mem_sortBy.mpr (mem_map.mpr ⟨p, hp, rfl⟩))
    obtain ⟨q, hq, rfl⟩ := mem_selectPlans hpl
    obtain ⟨-, os, context, hisP, hdsc⟩ := hdes p hp
    obtain ⟨hqFr, os', context', his', hdes'⟩ := hdes q hq
    exact ⟨_, hpl, hids _ _ os' context' os context his' hdes' hqFr hisP hdsc hm hid⟩

/-- One more transient byte than the first option has, but none that is pinned. -/
def transientOption : TieredRepresentationCandidate := memoryOption "b" 0 11 11

section Stages

variable {other : TieredRepresentationCandidate}

/-- The partial plans of the first option, of the other one, and of the first one with
that of the second group. -/
def firstState (other : TieredRepresentationCandidate) : State :=
  grow (stages other) (initialState (stages other) .empty) (memoryOption "a" 10 10 11) 0

def otherState (other : TieredRepresentationCandidate) : State :=
  grow (stages other) (initialState (stages other) .empty) other 1

def lastState (other : TieredRepresentationCandidate) : State :=
  grow (stages other) (firstState other) (memoryOption "c" 0 11 11) 0

/-- The first option replaces the other one. -/
theorem pruneStates_stages (h : other = largerOption ∨ other = transientOption) :
    pruneStates [firstState other, otherState other] = [firstState other] := by
  rcases h with rfl | rfl
  · rfl
  · rfl

theorem roundsIf_stages (h : other = largerOption ∨ other = transientOption)
    {P : List State → Prop} {bad : PlannerError → Prop}
    (hfst : P [firstState other, otherState other]) (hlst : P [lastState other])
    (base : ResourceAcc) (hbas : baseResources (stages other) = .ok base) :
    (search (stages other)).RoundsIf P bad [initialState (stages other) base]
      (stages other).groups := by
  obtain rfl : ResourceAcc.empty = base := Except.ok.inj hbas
  have hrnd : (search (stages other)).round [initialState (stages other) .empty]
      ⟨"g", [memoryOption "a" 10 10 11, other]⟩ = .ok [firstState other, otherState other] := by
    rcases h with rfl | rfl <;> rfl
  have hrnd' : (search (stages other)).round [firstState other]
      ⟨"h", [memoryOption "c" 0 11 11]⟩ = .ok [lastState other] := by
    rcases h with rfl | rfl <;> rfl
  refine ⟨fun e he => (nomatch hrnd.symm.trans he), fun next hnex => ?_⟩
  obtain rfl := Except.ok.inj (hrnd.symm.trans hnex)
  refine ⟨hfst, ?_⟩
  rw [show (search (stages other)).prune _ = _ from pruneStates_stages h]
  refine ⟨fun e he => (nomatch hrnd'.symm.trans he), fun next hnex => ?_⟩
  obtain rfl := Except.ok.inj (hrnd'.symm.trans hnex)
  exact ⟨hlst, trivial⟩

/-- No completion ends in an error. -/
theorem completePlans_stages (h : other = largerOption ∨ other = transientOption)
    {base : ResourceAcc} {states : List State} {e : PlannerError}
    (hbas : baseResources (stages other) = .ok base)
    (hst : (search (stages other)).explore [initialState (stages other) base]
      (stages other).groups = .ok states) :
    completePlans (stages other) states ≠ .error e := by
  obtain rfl : ResourceAcc.empty = base := Except.ok.inj hbas
  have hexp : (search (stages other)).explore [initialState (stages other) .empty]
      (stages other).groups = .ok [lastState other] := by
    rcases h with rfl | rfl <;> rfl
  obtain rfl := Except.ok.inj (hexp.symm.trans hst)
  rcases h with rfl | rfl <;> exact nofun

theorem withinLimits_stages (h : other = largerOption ∨ other = transientOption) :
    WithinLimits (stages other) where
  base := fun e he => nomatch he
  rounds := by
    refine roundsIf_stages h ?_ ?_
    · unfold Untrimmed
      rcases h with rfl | rfl <;> decide
    · unfold Untrimmed
      rcases h with rfl | rfl <;> decide
  contexts := fun base states e hbas hst he => absurd he (completePlans_stages h hbas hst)

/-- Whatever is chosen in the first group makes a plan with the second one. -/
theorem isPlan_stages {o : TieredRepresentationCandidate}
    (ho : o ∈ [memoryOption "a" 10 10 11, largerOption, transientOption])
    (hmem : o ∈ [memoryOption "a" 10 10 11, other]) :
    IsPlan (stages other) [o, memoryOption "c" 0 11 11] ⟨1, [], 0⟩ where
  chosen := List.Forall₂.cons hmem (List.Forall₂.cons mem_cons_self List.Forall₂.nil)
  allowed := mem_singleton_self _
  valid := (by decide : ∀ o ∈ [memoryOption "a" 10 10 11, largerOption, transientOption],
    ∀ r ∈ [o.resource, (memoryOption "c" 0 11 11).resource], r.validate = .ok ()) o ho
  fits := by
    have hall : ∀ o ∈ [memoryOption "a" 10 10 11, largerOption, transientOption],
        ∀ r ∈ [o.resource, (memoryOption "c" 0 11 11).resource], r.stored = false ∧
        r.residency.memoryPool = ⟨"m"⟩ ∧
        pinnedIn [o.resource, (memoryOption "c" 0 11 11).resource] ⟨"m"⟩ +
          transientIn [o.resource, (memoryOption "c" 0 11 11).resource] ⟨"m"⟩ ≤ 100 ∧
        targetIn [o.resource, (memoryOption "c" 0 11 11).resource] ⟨"m"⟩ ≤ 100 := by
      decide
    refine ⟨fun r hr => ⟨100, ?_⟩, fun r hr hst => ?_⟩
    · obtain ⟨-, hpl, hmin, htar⟩ := hall o ho r hr
      rw [hpl]
      exact ⟨rfl, hmin, htar⟩
    · rw [(hall o ho r hr).1] at hst
      cases hst

end Stages

end Tiered

end Logan
