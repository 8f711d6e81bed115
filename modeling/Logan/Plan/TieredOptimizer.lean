import Logan.Plan.Resource

/-!
# The tiered plan optimizer

This optimizer chooses, like the other one, a representation for each group
and a context; but these need resources, in several pools of memory and of
storage. What the resources of a plan add up to is accounted for pool by
pool: pinned bytes and resident targets are added, and of the transient
working sets the largest one counts, since they are needed one after the
other.
-/

namespace Logan

namespace Tiered

/-! ## Inputs and plans -/

structure TieredRepresentationCandidate where
  id : String
  quant : QuantSpec
  layout : ℕ
  legacyPlacement : Placement
  resource : ResourcePlan
  packageBytes : ℕ
  latencyCost : ℕ
  qualityLossPpm : ℕ
  dispatchClass : ℕ
  rationale : String
deriving DecidableEq

structure TieredCandidateGroup where
  key : String
  options : List TieredRepresentationCandidate
deriving DecidableEq

structure TieredContextCandidate where
  tokens : ℕ
  resources : List ResourcePlan
  latencyCost : ℕ
deriving DecidableEq

structure TieredOptimizerInput where
  costModel : String
  groups : List TieredCandidateGroup
  contextConstraint : ContextConstraint
  contextCandidates : List TieredContextCandidate
  resourceBudget : ResourceBudget
  baseResources : List ResourcePlan
  basePackageBytes : ℕ
  baseLatencyCost : ℕ
  baseQualityLossPpm : ℕ
  heterogeneitySwitchPenalty : ℕ
deriving DecidableEq

structure MemoryPoolUsage where
  pool : MemoryPoolId
  /-- Pinned bytes plus the largest transient requirement in this pool. -/
  minimumWorkingSetBytes : ℕ
  targetResidentBytes : ℕ
deriving DecidableEq

structure StoragePoolUsage where
  pool : StoragePoolId
  mutableBackingBytes : ℕ
deriving DecidableEq

structure TieredResourceUsage where
  memoryPools : List MemoryPoolUsage
  storagePools : List StoragePoolUsage
  immutablePackageBackingBytes : ℕ
  storageReadBytesPerStep : ℕ
  storageWriteBytesPerStep : ℕ
deriving DecidableEq

namespace TieredResourceUsage

variable (u : TieredResourceUsage)

/-- A sum over the memory pools, that stays within its type. -/
def minimumWorkingSetBytes : ℕ :=
  u.memoryPools.foldl (fun total p => saturatingAdd u64Max total p.minimumWorkingSetBytes) 0

def targetResidentBytes : ℕ :=
  u.memoryPools.foldl (fun total p => saturatingAdd u64Max total p.targetResidentBytes) 0

def mutableBackingBytes : ℕ :=
  u.storagePools.foldl (fun total p => saturatingAdd u64Max total p.mutableBackingBytes) 0

def storageTrafficBytesPerStep : ℕ :=
  saturatingAdd u64Max u.storageReadBytesPerStep u.storageWriteBytesPerStep

end TieredResourceUsage

structure TieredPlanMetrics where
  qualityLossPpm : ℕ
  contextTokens : ℕ
  latencyCost : ℕ
  resourceUsage : TieredResourceUsage
  packageBytes : ℕ
deriving DecidableEq

structure TieredPlanDecision where
  group : String
  chosen : TieredRepresentationCandidate
  rejected : List RejectedCandidate
deriving DecidableEq

structure TieredParetoPlan where
  id : String
  labels : List String
  costModel : String
  metrics : TieredPlanMetrics
  decisions : List TieredPlanDecision
deriving DecidableEq

/-! ## Accounts -/

/-- **The account of a memory pool.** -/
structure MemoryAcc where
  pinnedBytes : ℕ := 0
  transientWorkingSetBytes : ℕ := 0
  targetResidentBytes : ℕ := 0
deriving DecidableEq

/-- `minimum_working_set_bytes`, which may be out of range. -/
def MemoryAcc.minimumWorkingSetBytes (m : MemoryAcc) : Option ℕ :=
  if m.pinnedBytes + m.transientWorkingSetBytes ≤ u64Max then
    some (m.pinnedBytes + m.transientWorkingSetBytes)
  else none

/-- **The accounts of all resources** of a plan. -/
structure ResourceAcc where
  memory : Table MemoryPoolId MemoryAcc
  storage : Table StoragePoolId ℕ
  immutablePackageBackingBytes : ℕ
  storageReadBytesPerStep : ℕ
  storageWriteBytesPerStep : ℕ
deriving DecidableEq

namespace ResourceAcc

def empty : ResourceAcc where
  memory := ∅
  storage := ∅
  immutablePackageBackingBytes := 0
  storageReadBytesPerStep := 0
  storageWriteBytesPerStep := 0

variable (acc : ResourceAcc)

/-- The account of a pool, which is empty if there is none. -/
def memoryOf (pool : MemoryPoolId) : MemoryAcc :=
  (acc.memory.lookup pool).getD {}

def storageOf (pool : StoragePoolId) : ℕ := (acc.storage.lookup pool).getD 0

/-- The last part of `add_resource`: the traffic. -/
def addAccess (resource : ResourcePlan) :
    Except PlannerError (Bool × ResourceAcc) := do
  let reads ← checkedAdd acc.storageReadBytesPerStep resource.access.expectedReadBytesPerStep
    "storage read accounting overflow"
  let writes ← checkedAdd acc.storageWriteBytesPerStep resource.access.expectedWriteBytesPerStep
    "storage write accounting overflow"
  pure (true, { acc with storageReadBytesPerStep := reads, storageWriteBytesPerStep := writes })

/-- The backing of a resource, in the given storage pool. -/
def addStored (pool : StoragePoolBudget) (resource : ResourcePlan) :
    Except PlannerError (Bool × ResourceAcc) :=
  if !pool.writable then .ok (false, acc)
  else do
    let stored ← checkedAdd (acc.storageOf pool.id) resource.backing.bytes
      "mutable backing accounting overflow"
    if pool.availableBytes < stored then
      pure (false, { acc with storage := acc.storage.insert pool.id stored })
    else addAccess { acc with storage := acc.storage.insert pool.id stored } resource

/-- The backing of a resource, in the storage pool that it names. -/
def addToPool (budget : ResourceBudget) (resource : ResourcePlan) :
    Except PlannerError (Bool × ResourceAcc) :=
  match resource.backing.storagePool with
  | none => .error (.invalid "runtime/device backing is missing a storage pool after validation")
  | some id =>
    match budget.storagePool id with
    | none => .error (.invalid s!"resource references unknown storage pool `{id.name}`")
    | some pool => acc.addStored pool resource

/-- The part of `add_resource` that is about the backing. -/
def addBacking (budget : ResourceBudget) (resource : ResourcePlan) :
    Except PlannerError (Bool × ResourceAcc) :=
  match resource.backing.kind with
  | .runtimeStateFile | .devicePersistent => acc.addToPool budget resource
  | .packageRecord => do
    let bytes ← checkedAdd acc.immutablePackageBackingBytes resource.backing.bytes
      "package backing accounting overflow"
    addAccess { acc with immutablePackageBackingBytes := bytes } resource
  | .residentOnly => acc.addAccess resource

/-- The part of `add_resource` that is about the memory: the new account of
the pool. -/
def addMemory (entry : MemoryAcc) (resource : ResourcePlan) : Except PlannerError MemoryAcc := do
  let pinned ← checkedAdd entry.pinnedBytes resource.residency.pinnedBytes
    "pinned memory accounting overflow"
  if resource.residency.minimumWorkingSetBytes < resource.residency.pinnedBytes then
    .error (.invalid "resource pinned bytes exceed local working set")
  else do
    let target ← checkedAdd entry.targetResidentBytes resource.residency.targetResidentBytes
      "resident target accounting overflow"
    let _ ← checkedAdd pinned (max entry.transientWorkingSetBytes resource.transientBytes)
      "minimum working-set accounting overflow"
    pure
      { pinnedBytes := pinned
        transientWorkingSetBytes := max entry.transientWorkingSetBytes resource.transientBytes
        targetResidentBytes := target }

/-- **`add_resource`**: whether the resource fits, and the accounts, which are
left half-way if it does not. -/
def addResource (budget : ResourceBudget) (resource : ResourcePlan) :
    Except PlannerError (Bool × ResourceAcc) := do
  resource.validate
  match budget.memoryCapacity resource.residency.memoryPool with
  | none => .error (.invalid
      s!"resource references unknown memory pool `{resource.residency.memoryPool.name}`")
  | some capacity => do
    let entry ← addMemory (acc.memoryOf resource.residency.memoryPool) resource
    let acc := { acc with memory := acc.memory.insert resource.residency.memoryPool entry }
    if capacity < entry.pinnedBytes + entry.transientWorkingSetBytes ||
        capacity < entry.targetResidentBytes then pure (false, acc)
    else acc.addBacking budget resource

/-- **`add_resources`**, up to the first resource that does not fit. -/
def addResources (acc : ResourceAcc) (budget : ResourceBudget) :
    List ResourcePlan → Except PlannerError (Bool × ResourceAcc)
  | [] => .ok (true, acc)
  | resource :: resources => do
    let p ← acc.addResource budget resource
    if p.1 then p.2.addResources budget resources else pure (false, p.2)

/-- The order of the pools is that of the bytes of their names. -/
def memoryEntries : List (MemoryPoolId × MemoryAcc) :=
  sortBy (fun e => (utf8 e.1.name).map UInt8.toNat) (acc.memory.entries.map fun e => (e.1, e.2))

def storageEntries : List (StoragePoolId × ℕ) :=
  sortBy (fun e => (utf8 e.1.name).map UInt8.toNat) (acc.storage.entries.map fun e => (e.1, e.2))

/-- What a memory pool is used for. -/
def memoryUsage (entry : MemoryPoolId × MemoryAcc) : Except PlannerError (Option MemoryPoolUsage) :=
  match entry.2.minimumWorkingSetBytes with
  | some minimum => .ok (some
      { pool := entry.1
        minimumWorkingSetBytes := minimum
        targetResidentBytes := entry.2.targetResidentBytes })
  | none => .error (.overflow "minimum working-set accounting overflow")

/-- **`usage`** -/
def usage : Except PlannerError TieredResourceUsage := do
  let memoryPools ← tryFilterMap memoryUsage acc.memoryEntries
  pure
    { memoryPools := memoryPools
      storagePools := acc.storageEntries.map fun e =>
        { pool := e.1, mutableBackingBytes := e.2 }
      immutablePackageBackingBytes := acc.immutablePackageBackingBytes
      storageReadBytesPerStep := acc.storageReadBytesPerStep
      storageWriteBytesPerStep := acc.storageWriteBytesPerStep }

/-- Whether a pool is used no more than by other accounts. -/
def poolNoWorse (left right : MemoryAcc) : Bool :=
  match left.minimumWorkingSetBytes, right.minimumWorkingSetBytes with
  | some leftMin, some rightMin =>
    leftMin ≤ rightMin && left.targetResidentBytes ≤ right.targetResidentBytes
  | _, _ => false

/-- **`no_worse_than`**, pool by pool. -/
def noWorseThan (acc other : ResourceAcc) : Bool :=
  (acc.memory.entries.all fun e => poolNoWorse e.2 (other.memoryOf e.1)) &&
  (acc.storage.entries.all fun e => e.2 ≤ other.storageOf e.1) &&
  acc.immutablePackageBackingBytes ≤ other.immutablePackageBackingBytes &&
  acc.storageReadBytesPerStep ≤ other.storageReadBytesPerStep &&
  acc.storageWriteBytesPerStep ≤ other.storageWriteBytesPerStep

/-- `<` of options, where none is less than all others. -/
def optionLt : Option ℕ → Option ℕ → Bool
  | none, some _ => true
  | some a, some b => a < b
  | _, none => false

/-- `strictly_better_than` -/
def strictlyBetterThan (acc other : ResourceAcc) : Bool :=
  acc.noWorseThan other &&
  (acc.immutablePackageBackingBytes < other.immutablePackageBackingBytes ||
    acc.storageReadBytesPerStep < other.storageReadBytesPerStep ||
    acc.storageWriteBytesPerStep < other.storageWriteBytesPerStep ||
    (other.memory.entries.any fun e =>
      optionLt (acc.memoryOf e.1).minimumWorkingSetBytes e.2.minimumWorkingSetBytes ||
        (acc.memoryOf e.1).targetResidentBytes < e.2.targetResidentBytes) ||
    other.storage.entries.any fun e => acc.storageOf e.1 < e.2)

end ResourceAcc

/-! ## Names of plans -/

/-- **`stable_plan_id`** -/
def stablePlanId (costModel : String) (metrics : TieredPlanMetrics)
    (decisions : List TieredPlanDecision) : String :=
  "tp-" ++ hexHash (feed 0xcbf29ce484222325 (utf8 costModel ++
    ([metrics.qualityLossPpm, metrics.contextTokens, metrics.latencyCost,
      metrics.resourceUsage.minimumWorkingSetBytes, metrics.resourceUsage.targetResidentBytes,
      metrics.resourceUsage.mutableBackingBytes,
      metrics.resourceUsage.immutablePackageBackingBytes,
      metrics.resourceUsage.storageReadBytesPerStep,
      metrics.resourceUsage.storageWriteBytesPerStep, metrics.packageBytes].flatMap numberBytes ++
      ((metrics.resourceUsage.memoryPools.flatMap fun p => utf8 p.pool.name ++
          (numberBytes p.minimumWorkingSetBytes ++ numberBytes p.targetResidentBytes)) ++
        ((metrics.resourceUsage.storagePools.flatMap fun p => utf8 p.pool.name ++
            numberBytes p.mutableBackingBytes) ++
          decisions.flatMap fun d => utf8 d.group ++ utf8 d.chosen.id)))))

/-- Why an option has not been taken. -/
def rejectedCandidate (option : TieredRepresentationCandidate) : RejectedCandidate where
  id := option.id
  reason := s!"candidate q={option.qualityLossPpm}ppm latency={option.latencyCost} " ++
    s!"resident_target={option.resource.residency.targetResidentBytes} " ++
    s!"min_working={option.resource.residency.minimumWorkingSetBytes} " ++
    s!"backing={option.resource.mutableBackingBytes} " ++
    s!"read/step={option.resource.access.expectedReadBytesPerStep} " ++
    s!"write/step={option.resource.access.expectedWriteBytesPerStep}: {option.rationale}"

/-- The decision for one group, if the index is that of an option. -/
def planDecision (group : TieredCandidateGroup) (choice : ℕ) : Option TieredPlanDecision :=
  group.options[choice]?.map fun chosen =>
    { group := group.key
      chosen := chosen
      rejected := (group.options.zipIdx.filter fun o => o.2 != choice).map
        fun o => rejectedCandidate o.1 }

variable (input : TieredOptimizerInput)

/-- **`build_plan`**. The choices are indices of options, for every state that
the optimizer makes. -/
def buildPlan (metrics : TieredPlanMetrics) (choices : List ℕ) :
    TieredParetoPlan :=
  let decisions := (input.groups.zip choices).filterMap fun g => planDecision g.1 g.2
  { id := stablePlanId input.costModel metrics decisions
    labels := []
    costModel := input.costModel
    metrics := metrics
    decisions := decisions }

/-! ## Partial plans -/

/-- **A partial plan**: one option for each of the first groups. -/
structure State where
  qualityLossPpm : ℕ
  latencyCost : ℕ
  packageBytes : ℕ
  resources : ResourceAcc
  lastDispatchClass : ℕ
  choices : List ℕ
deriving DecidableEq

/-- `map_or(u64::MAX, ..)` over `usage().ok()`. -/
def usageKey (f : TieredResourceUsage → ℕ) (acc : ResourceAcc) : ℕ :=
  match acc.usage with
  | .ok usage => f usage
  | .error _ => u64Max

/-- `state_sort_key` -/
def State.sortKey (s : State) : List ℕ :=
  [s.qualityLossPpm, s.latencyCost, usageKey TieredResourceUsage.minimumWorkingSetBytes s.resources,
    usageKey TieredResourceUsage.targetResidentBytes s.resources,
    usageKey TieredResourceUsage.mutableBackingBytes s.resources,
    usageKey TieredResourceUsage.storageTrafficBytesPerStep s.resources, s.packageBytes,
    s.lastDispatchClass] ++ s.choices

/-- `state_dominates` -/
def stateDominates (left right : State) : Bool :=
  (left.qualityLossPpm ≤ right.qualityLossPpm && left.latencyCost ≤ right.latencyCost &&
    left.packageBytes ≤ right.packageBytes && left.resources.noWorseThan right.resources) &&
  (left.qualityLossPpm < right.qualityLossPpm || left.latencyCost < right.latencyCost ||
    left.packageBytes < right.packageBytes || left.resources.strictlyBetterThan right.resources)

/-- Whether a partial plan is dropped for another one: they must end in the
same dispatch class. -/
def replaces (left right : State) : Bool :=
  left.lastDispatchClass = right.lastDispatchClass && stateDominates left right

/-- **`prune_states`**, which trims by the key by which it sorts. -/
def pruneStates (states : List State) : List State :=
  pruneBy replaces State.sortKey State.sortKey maxFrontierStates states

/-- What some usage has of a memory pool. -/
def memoryUse (u : TieredResourceUsage) (pool : MemoryPoolId) : ℕ × ℕ :=
  ((u.memoryPools.find? fun p => p.pool = pool).map
    fun p => (p.minimumWorkingSetBytes, p.targetResidentBytes)).getD (0, 0)

/-- What some usage has of a storage pool. -/
def storageUse (u : TieredResourceUsage) (pool : StoragePoolId) : ℕ :=
  ((u.storagePools.find? fun p => p.pool = pool).map StoragePoolUsage.mutableBackingBytes).getD 0

/-- **`usage_no_worse`**, pool by pool. -/
def usageNoWorse (left right : TieredResourceUsage) : Bool :=
  (left.memoryPools.all fun p => p.minimumWorkingSetBytes ≤ (memoryUse right p.pool).1 &&
    p.targetResidentBytes ≤ (memoryUse right p.pool).2) &&
  (left.storagePools.all fun p => p.mutableBackingBytes ≤ storageUse right p.pool) &&
  left.immutablePackageBackingBytes ≤ right.immutablePackageBackingBytes &&
  left.storageReadBytesPerStep ≤ right.storageReadBytesPerStep &&
  left.storageWriteBytesPerStep ≤ right.storageWriteBytesPerStep

/-- `usage_strictly_better` -/
def usageStrictlyBetter (left right : TieredResourceUsage) : Bool :=
  usageNoWorse left right &&
  (left.immutablePackageBackingBytes < right.immutablePackageBackingBytes ||
    left.storageReadBytesPerStep < right.storageReadBytesPerStep ||
    left.storageWriteBytesPerStep < right.storageWriteBytesPerStep ||
    (right.memoryPools.any fun p => (memoryUse left p.pool).1 < p.minimumWorkingSetBytes ||
      (memoryUse left p.pool).2 < p.targetResidentBytes) ||
    right.storagePools.any fun p => storageUse left p.pool < p.mutableBackingBytes)

/-- `metrics_dominate` -/
def metricsDominate (left right : TieredPlanMetrics) : Bool :=
  (left.qualityLossPpm ≤ right.qualityLossPpm && right.contextTokens ≤ left.contextTokens &&
    left.latencyCost ≤ right.latencyCost && left.packageBytes ≤ right.packageBytes &&
    usageNoWorse left.resourceUsage right.resourceUsage) &&
  (left.qualityLossPpm < right.qualityLossPpm || right.contextTokens < left.contextTokens ||
    left.latencyCost < right.latencyCost || left.packageBytes < right.packageBytes ||
    usageStrictlyBetter left.resourceUsage right.resourceUsage)

/-- `plan_sort_key` -/
def planSortKey (plan : TieredParetoPlan) : List ℕ :=
  [plan.metrics.qualityLossPpm, u64Max - plan.metrics.contextTokens, plan.metrics.latencyCost,
    plan.metrics.resourceUsage.targetResidentBytes, plan.metrics.resourceUsage.mutableBackingBytes,
    plan.metrics.resourceUsage.storageTrafficBytesPerStep] ++
    (utf8 plan.id).map UInt8.toNat

/-! ## The optimizer -/

/-- Whether an option is dispatched differently from what is before it. -/
def switchesClass (last : ℕ) (option : TieredRepresentationCandidate) : Bool :=
  option.dispatchClass != 0 && last != 0 && option.dispatchClass != last

/-- The latency with one more option. -/
def extendLatency (state : State)
    (option : TieredRepresentationCandidate) : Except PlannerError ℕ := do
  let latencyCost ←
    checkedAdd state.latencyCost option.latencyCost "optimizer latency cost overflow"
  if switchesClass state.lastDispatchClass option then
    checkedAdd latencyCost input.heterogeneitySwitchPenalty "optimizer heterogeneity cost overflow"
  else pure latencyCost

/-- A partial plan with one more option, the resource of which must fit. -/
def extendState (state : State)
    (option : TieredRepresentationCandidate) (optionIndex : ℕ) :
    Except PlannerError (Option State) := do
  let p ← state.resources.addResource input.resourceBudget option.resource
  if !p.1 then pure none
  else do
    let latencyCost ← extendLatency input state option
    let qualityLossPpm ←
      checkedAdd state.qualityLossPpm option.qualityLossPpm "optimizer quality cost overflow"
    let packageBytes ←
      checkedAdd state.packageBytes option.packageBytes "optimizer package bytes overflow"
    pure (some
      { qualityLossPpm := qualityLossPpm
        latencyCost := latencyCost
        packageBytes := packageBytes
        resources := p.2
        lastDispatchClass :=
          if option.dispatchClass = 0 then state.lastDispatchClass else option.dispatchClass
        choices := state.choices ++ [optionIndex] })

/-- The loop over the groups. -/
def search :
    Search State TieredRepresentationCandidate TieredCandidateGroup PlannerError where
  options := TieredCandidateGroup.options
  extend := extendState input
  prune := pruneStates
  dead := fun group => .infeasible
    (s!"no feasible physical representation remains after group `{group.key}` " ++
      "within the memory/storage resource envelope")

/-- The resources that are always there. -/
def baseResources : Except PlannerError ResourceAcc := do
  let p ← ResourceAcc.empty.addResources input.resourceBudget input.baseResources
  if p.1 then pure p.2
  else .error (.infeasible ("base resources exceed a hard memory working-set/resident target or " ++
    "backing-store capacity"))

/-- The plan of no group. -/
def initialState (base : ResourceAcc) : State where
  qualityLossPpm := input.baseQualityLossPpm
  latencyCost := input.baseLatencyCost
  packageBytes := input.basePackageBytes
  resources := base
  lastDispatchClass := 0
  choices := []

/-- The resources of some list, all of them. -/
def validateResources : List ResourcePlan → Except PlannerError Unit
  | [] => .ok ()
  | resource :: resources => do
    resource.validate
    validateResources resources

/-- The loop over the groups that looks for errors. -/
def validateGroups : List TieredCandidateGroup → Except PlannerError Unit
  | [] => .ok ()
  | g :: gs =>
    if g.key.isEmpty || g.options.isEmpty then
      .error (.invalid "optimizer groups require a non-empty key and at least one option")
    else do
      validateResources (g.options.map TieredRepresentationCandidate.resource)
      validateGroups gs

/-- `validate_input` -/
def validateInput : Except PlannerError Unit :=
  if isBlank input.costModel then .error (.invalid "optimizer cost model id cannot be empty")
  else do
    input.resourceBudget.validate
    if input.contextCandidates.isEmpty then
      .error (.invalid "optimizer requires at least one context candidate")
    else if !input.contextCandidates.any fun c => input.contextConstraint.allows c.tokens then
      .error (.invalid "no context candidate satisfies the requested context constraint")
    else do
      validateGroups input.groups
      validateResources (input.contextCandidates.flatMap TieredContextCandidate.resources)

/-- The contexts that are admissible. -/
def allowedContexts : List TieredContextCandidate :=
  input.contextCandidates.filter fun c => input.contextConstraint.allows c.tokens

/-- What a plan costs with a context, if the resources of the context fit. -/
def completeState (context : TieredContextCandidate)
    (state : State) : Except PlannerError (Option (TieredPlanMetrics × List ℕ)) := do
  let p ← state.resources.addResources input.resourceBudget context.resources
  if !p.1 then pure none
  else do
    let latencyCost ←
      checkedAdd state.latencyCost context.latencyCost "optimizer context latency overflow"
    let usage ← p.2.usage
    pure (some
      ({ qualityLossPpm := state.qualityLossPpm
         contextTokens := context.tokens
         latencyCost := latencyCost
         resourceUsage := usage
         packageBytes := state.packageBytes }, state.choices))

/-- All plans that are left, with every context. -/
def completePlans (states : List State) :
    Except PlannerError (List (TieredPlanMetrics × List ℕ)) :=
  tryFilterMap (fun p => completeState input p.1 p.2)
    ((allowedContexts input).flatMap fun context => states.map fun state => (context, state))

/-- The plans that are returned: those that no other one dominates, in order,
and no two neighbours with one id. -/
def selectPlans (raw : List (TieredPlanMetrics × List ℕ)) :
    List TieredParetoPlan :=
  dedupBy TieredParetoPlan.id (sortBy planSortKey
    ((nondominated metricsDominate raw).map fun p => buildPlan input p.1 p.2))

/-- **`tiered_pareto_plans`** -/
def tieredParetoPlans :
    Except PlannerError (List TieredParetoPlan) := do
  validateInput input
  let base ← baseResources input
  let states ← (search input).explore [initialState input base] input.groups
  let raw ← completePlans input states
  if raw.isEmpty then
    .error (.infeasible "no optimizer plan satisfies the context and tiered resource constraints")
  else pure (selectPlans input raw)

end Tiered

end Logan
