import Logan.Util.Search
import Logan.Util.Memory
import Logan.Util.Bytes

/-!
# The plan optimizer

A compiler has several representations for every group of weights, and
several lengths of context. The optimizer returns the plans – one
representation for each group, and a context – that fit into the memory and
that no other plan is better than in every respect.

It takes the groups one after the other, and drops a partial plan if another
one that ends in the same dispatch class is better. If too many are left, the
cheapest ones are kept.

Unsigned integers are natural numbers, and every addition that the code
checks is checked here. The fields of a plan that the compiler fills in later
are left out.
-/

namespace Logan

/-! ## Inputs -/

inductive ContextConstraintKind where
  | maximum
  | required
deriving DecidableEq

/-- **User intent for the context**: a bound, or a number of tokens that every
plan must have. -/
structure ContextConstraint where
  kind : ContextConstraintKind
  tokens : ℕ
deriving DecidableEq

/-- Whether a context is admissible. -/
def ContextConstraint.allows (c : ContextConstraint) (compiledMaxTokens : ℕ) : Bool :=
  if compiledMaxTokens = 0 then false
  else match c.kind with
    | .maximum => compiledMaxTokens ≤ c.tokens
    | .required => c.tokens ≤ compiledMaxTokens

inductive Placement where
  | resident
  | streamed
  | gpu
deriving DecidableEq

structure QuantSpec where
  kind : String
  scale : Option String
deriving DecidableEq

structure RepresentationCandidate where
  id : String
  quant : QuantSpec
  layout : ℕ
  placement : Placement
  residentBytes : ℕ
  packageBytes : ℕ
  storageTrafficBytes : ℕ
  latencyCost : ℕ
  qualityLossPpm : ℕ
  /-- Zero exempts the candidate from heterogeneity accounting. -/
  dispatchClass : ℕ
  rationale : String
deriving DecidableEq

structure CandidateGroup where
  key : String
  options : List RepresentationCandidate
deriving DecidableEq

structure ContextCandidate where
  tokens : ℕ
  residentBytes : ℕ
  latencyCost : ℕ
deriving DecidableEq

structure OptimizerInput where
  costModel : String
  groups : List CandidateGroup
  contextConstraint : ContextConstraint
  contextCandidates : List ContextCandidate
  memoryBudgetBytes : ℕ
  baseResidentBytes : ℕ
  basePackageBytes : ℕ
  baseStorageTrafficBytes : ℕ
  baseLatencyCost : ℕ
  baseQualityLossPpm : ℕ
  heterogeneitySwitchPenalty : ℕ
deriving DecidableEq

/-! ## Plans -/

@[ext]
structure PlanMetrics where
  qualityLossPpm : ℕ
  contextTokens : ℕ
  latencyCost : ℕ
  residentBytes : ℕ
  packageBytes : ℕ
  storageTrafficBytes : ℕ
deriving DecidableEq

structure RejectedCandidate where
  id : String
  reason : String
deriving DecidableEq

structure PlanDecision where
  group : String
  chosen : RepresentationCandidate
  rejected : List RejectedCandidate
deriving DecidableEq

structure ParetoPlan where
  id : String
  labels : List String
  costModel : String
  metrics : PlanMetrics
  decisions : List PlanDecision
deriving DecidableEq

/-- **Why there is no plan**: the input is not valid, a sum is out of range,
or nothing fits. -/
inductive PlannerError where
  | invalid (message : String)
  | overflow (message : String)
  | infeasible (message : String)
deriving DecidableEq

/-- `checked_add`, with the text for a sum that is out of range. -/
def checkedAdd (a b : ℕ) (message : String) : Except PlannerError ℕ :=
  if a + b ≤ u64Max then .ok (a + b) else .error (.overflow message)

theorem checkedAdd_eq_ok {a b c : ℕ} {message : String} :
    checkedAdd a b message = .ok c ↔ a + b = c ∧ a + b ≤ u64Max := by
  unfold checkedAdd
  split_ifs with h
  · rw [Except.ok.injEq, and_iff_left h]
  · exact iff_of_false nofun (fun hc => h hc.2)

/-- A character of the Unicode property `White_Space`. -/
def isWhiteSpace (c : Char) : Bool :=
  (9 ≤ c.toNat && c.toNat ≤ 13) || (0x2000 ≤ c.toNat && c.toNat ≤ 0x200A) ||
    [0x20, 0x85, 0xA0, 0x1680, 0x2028, 0x2029, 0x202F, 0x205F, 0x3000].contains c.toNat

/-- `trim().is_empty()` -/
def isBlank (s : String) : Bool := s.toList.all isWhiteSpace

/-- `MAX_FRONTIER_STATES` -/
def maxFrontierStates : ℕ := 4096

/-! ## Names of plans -/

/-- The bytes of a text or a number go into a hash, one after the other. -/
def feed (hash : UInt64) (bytes : List UInt8) : UInt64 :=
  bytes.foldl (fun hash byte => (hash ^^^ byte.toUInt64) * 0x100000001b3) hash

/-- `to_le_bytes` of a `u64`. -/
def numberBytes (n : ℕ) : List UInt8 := u64Bytes (UInt64.ofNat n)

/-- `{hash:016x}` -/
def hexHash (hash : UInt64) : String := hexEncode (u64Bytes hash).reverse

namespace Optimizer

/-- **`stable_plan_id`** -/
def stablePlanId (costModel : String) (metrics : PlanMetrics) (decisions : List PlanDecision) :
    String :=
  "p-" ++ hexHash (feed 0xcbf29ce484222325 (utf8 costModel ++
    ([metrics.qualityLossPpm, metrics.contextTokens, metrics.latencyCost, metrics.residentBytes,
      metrics.packageBytes, metrics.storageTrafficBytes].flatMap numberBytes ++
      decisions.flatMap fun d => utf8 d.group ++ utf8 d.chosen.id)))

/-- Why an option has not been taken. -/
def rejectedCandidate (option : RepresentationCandidate) : RejectedCandidate where
  id := option.id
  reason := s!"candidate q={option.qualityLossPpm}ppm latency={option.latencyCost} " ++
    s!"resident={option.residentBytes} package={option.packageBytes} " ++
    s!"traffic={option.storageTrafficBytes}: {option.rationale}"

/-- The decision for one group, if the index is that of an option. -/
def planDecision (group : CandidateGroup) (choice : ℕ) : Option PlanDecision :=
  group.options[choice]?.map fun chosen =>
    { group := group.key
      chosen := chosen
      rejected := (group.options.zipIdx.filter fun o => o.2 != choice).map
        fun o => rejectedCandidate o.1 }

variable (input : OptimizerInput)

/-- **`build_plan`**. The choices are indices of options, for every state that
the optimizer makes. -/
def buildPlan (metrics : PlanMetrics) (choices : List ℕ) : ParetoPlan :=
  let decisions := (input.groups.zip choices).filterMap fun g => planDecision g.1 g.2
  { id := stablePlanId input.costModel metrics decisions
    labels := []
    costModel := input.costModel
    metrics := metrics
    decisions := decisions }

/-! ## Partial plans -/

/-- **A partial plan**: one option for each of the first groups. -/
structure State where
  qualityLossPpm : ℕ
  latencyCost : ℕ
  residentBytes : ℕ
  packageBytes : ℕ
  storageTrafficBytes : ℕ
  lastDispatchClass : ℕ
  choices : List ℕ
deriving DecidableEq

namespace State

/-- `metrics_with_context` -/
def metricsWithContext (s : State) (context : ContextCandidate) : Option PlanMetrics :=
  if s.latencyCost + context.latencyCost ≤ u64Max then
    if s.residentBytes + context.residentBytes ≤ u64Max then
      some
        { qualityLossPpm := s.qualityLossPpm
          contextTokens := context.tokens
          latencyCost := s.latencyCost + context.latencyCost
          residentBytes := s.residentBytes + context.residentBytes
          packageBytes := s.packageBytes
          storageTrafficBytes := s.storageTrafficBytes }
    else none
  else none

/-- `state_sort_key` -/
def sortKey (s : State) : List ℕ :=
  [s.lastDispatchClass, s.qualityLossPpm, s.latencyCost, s.residentBytes, s.packageBytes,
    s.storageTrafficBytes] ++ s.choices

/-- `state_trim_key` -/
def trimKey (s : State) : List ℕ :=
  [saturatingAdd u64Max (saturatingAdd u64Max (saturatingAdd u64Max s.qualityLossPpm
      s.latencyCost) (s.residentBytes / 4096)) (s.storageTrafficBytes / 4096),
    s.qualityLossPpm, s.latencyCost, s.residentBytes, s.packageBytes, s.lastDispatchClass] ++
    s.choices

end State

/-- `state_dominates` -/
def stateDominates (left right : State) : Bool :=
  (left.qualityLossPpm ≤ right.qualityLossPpm && left.latencyCost ≤ right.latencyCost &&
    left.residentBytes ≤ right.residentBytes && left.packageBytes ≤ right.packageBytes &&
    left.storageTrafficBytes ≤ right.storageTrafficBytes) &&
  (left.qualityLossPpm < right.qualityLossPpm || left.latencyCost < right.latencyCost ||
    left.residentBytes < right.residentBytes || left.packageBytes < right.packageBytes ||
    left.storageTrafficBytes < right.storageTrafficBytes)

/-- Whether a partial plan is dropped for another one: they must end in the
same dispatch class. -/
def replaces (left right : State) : Bool :=
  left.lastDispatchClass = right.lastDispatchClass && stateDominates left right

/-- **`prune_states`** -/
def pruneStates (states : List State) : List State :=
  pruneBy replaces State.sortKey State.trimKey maxFrontierStates states

/-- `dominates` -/
def dominates (left right : PlanMetrics) : Bool :=
  (left.qualityLossPpm ≤ right.qualityLossPpm && right.contextTokens ≤ left.contextTokens &&
    left.latencyCost ≤ right.latencyCost && left.residentBytes ≤ right.residentBytes &&
    left.packageBytes ≤ right.packageBytes &&
    left.storageTrafficBytes ≤ right.storageTrafficBytes) &&
  (left.qualityLossPpm < right.qualityLossPpm || right.contextTokens < left.contextTokens ||
    left.latencyCost < right.latencyCost || left.residentBytes < right.residentBytes ||
    left.packageBytes < right.packageBytes ||
    left.storageTrafficBytes < right.storageTrafficBytes)

/-- `plan_sort_key` -/
def planSortKey (plan : ParetoPlan) : List ℕ :=
  [plan.metrics.qualityLossPpm, u64Max - plan.metrics.contextTokens, plan.metrics.latencyCost,
    plan.metrics.residentBytes, plan.metrics.packageBytes, plan.metrics.storageTrafficBytes] ++
    (utf8 plan.id).map UInt8.toNat

/-! ## The optimizer -/

/-- Whether an option is dispatched differently from what is before it. -/
def switchesClass (last : ℕ) (option : RepresentationCandidate) : Bool :=
  option.dispatchClass != 0 && last != 0 && option.dispatchClass != last

/-- The latency with one more option. -/
def extendLatency (state : State) (option : RepresentationCandidate) :
    Except PlannerError ℕ := do
  let latencyCost ←
    checkedAdd state.latencyCost option.latencyCost "optimizer latency cost overflow"
  if switchesClass state.lastDispatchClass option then
    checkedAdd latencyCost input.heterogeneitySwitchPenalty "optimizer heterogeneity cost overflow"
  else pure latencyCost

/-- A partial plan with one more option, which must fit into the memory. -/
def extendState (state : State) (option : RepresentationCandidate)
    (optionIndex : ℕ) : Except PlannerError (Option State) := do
  let latencyCost ← extendLatency input state option
  let residentBytes ←
    checkedAdd state.residentBytes option.residentBytes "optimizer resident bytes overflow"
  if input.memoryBudgetBytes < residentBytes then pure none
  else do
    let qualityLossPpm ←
      checkedAdd state.qualityLossPpm option.qualityLossPpm "optimizer quality cost overflow"
    let packageBytes ←
      checkedAdd state.packageBytes option.packageBytes "optimizer package bytes overflow"
    let storageTrafficBytes ←
      checkedAdd state.storageTrafficBytes option.storageTrafficBytes
        "optimizer storage traffic overflow"
    pure (some
      { qualityLossPpm := qualityLossPpm
        latencyCost := latencyCost
        residentBytes := residentBytes
        packageBytes := packageBytes
        storageTrafficBytes := storageTrafficBytes
        lastDispatchClass :=
          if option.dispatchClass = 0 then state.lastDispatchClass else option.dispatchClass
        choices := state.choices ++ [optionIndex] })

/-- The loop over the groups. -/
def search :
    Search State RepresentationCandidate CandidateGroup PlannerError where
  options := CandidateGroup.options
  extend := extendState input
  prune := pruneStates
  dead := fun group => .infeasible
    (s!"no feasible physical representation remains after group `{group.key}` " ++
      s!"within {input.memoryBudgetBytes} bytes")

/-- The plan of no group. -/
def initialState : State where
  qualityLossPpm := input.baseQualityLossPpm
  latencyCost := input.baseLatencyCost
  residentBytes := input.baseResidentBytes
  packageBytes := input.basePackageBytes
  storageTrafficBytes := input.baseStorageTrafficBytes
  lastDispatchClass := 0
  choices := []

/-- `validate_input` -/
def validateInput : Except PlannerError Unit :=
  if isBlank input.costModel then .error (.invalid "optimizer cost model id cannot be empty")
  else if input.memoryBudgetBytes = 0 then
    .error (.invalid "optimizer memory budget must be non-zero")
  else if input.memoryBudgetBytes < input.baseResidentBytes then
    .error (.infeasible (s!"fixed resident state needs {input.baseResidentBytes} bytes but the " ++
      s!"optimizer memory budget is {input.memoryBudgetBytes} bytes"))
  else if input.contextCandidates.isEmpty then
    .error (.invalid "optimizer requires at least one context candidate")
  else if !input.contextCandidates.any fun c => input.contextConstraint.allows c.tokens then
    .error (.invalid "no context candidate satisfies the requested context constraint")
  else if input.groups.any fun g => g.key.isEmpty || g.options.isEmpty then
    .error (.invalid "optimizer groups require a non-empty key and at least one option")
  else .ok ()

/-- The contexts that are admissible. -/
def allowedContexts : List ContextCandidate :=
  input.contextCandidates.filter fun c => input.contextConstraint.allows c.tokens

/-- What a plan costs with a context, if it fits into the memory. -/
def completeState (context : ContextCandidate) (state : State) :
    Option (PlanMetrics × List ℕ) :=
  match state.metricsWithContext context with
  | some metrics =>
    if metrics.residentBytes ≤ input.memoryBudgetBytes then some (metrics, state.choices)
    else none
  | none => none

/-- All plans that are left, with every context. -/
def completePlans (states : List State) :
    List (PlanMetrics × List ℕ) :=
  (allowedContexts input).flatMap fun context => states.filterMap (completeState input context)

/-- The plans that are returned: those that no other one dominates, in order,
and no two neighbours with one id. -/
def selectPlans (raw : List (PlanMetrics × List ℕ)) : List ParetoPlan :=
  dedupBy ParetoPlan.id (sortBy planSortKey
    ((nondominated dominates raw).map fun p => buildPlan input p.1 p.2))

/-- **`pareto_plans`** -/
def paretoPlans : Except PlannerError (List ParetoPlan) := do
  validateInput input
  let states ← (search input).explore [initialState input] input.groups
  if (completePlans input states).isEmpty then
    .error (.infeasible "no optimizer plan satisfies the context and memory constraints")
  else pure (selectPlans input (completePlans input states))

end Optimizer

end Logan
