import Logan.Plan.Optimizer
import Logan.Util.Table

/-!
# Resources of a plan

A resource has a backing, a residency in one memory pool, and an access path.
Its pinned bytes stay in memory; the rest of its working set is needed only
while the resource is in use. A budget lists the memory pools and the storage
pools, with what they hold.
-/

namespace Logan

namespace Tiered

/-- Identifier of one memory-capacity domain. -/
structure MemoryPoolId where
  name : String
deriving DecidableEq

/-- Identifier of one backing-storage domain. -/
structure StoragePoolId where
  name : String
deriving DecidableEq

structure MemoryPoolBudget where
  id : MemoryPoolId
  capacityBytes : ℕ
deriving DecidableEq

structure StoragePoolBudget where
  id : StoragePoolId
  availableBytes : ℕ
  writable : Bool
deriving DecidableEq

/-- **The resource envelope** of the optimizer. -/
structure ResourceBudget where
  memoryPools : List MemoryPoolBudget
  storagePools : List StoragePoolBudget
deriving DecidableEq

namespace ResourceBudget

/-- The loop over the memory pools, with the identifiers before it. -/
def validateMemory : List MemoryPoolId → List MemoryPoolBudget → Except PlannerError Unit
  | _, [] => .ok ()
  | ids, pool :: pools =>
    if isBlank pool.id.name then .error (.invalid "memory pool id cannot be empty")
    else if pool.capacityBytes = 0 then
      .error (.invalid s!"memory pool `{pool.id.name}` has zero capacity")
    else if ids.contains pool.id then
      .error (.invalid s!"duplicate memory pool `{pool.id.name}`")
    else validateMemory (pool.id :: ids) pools

/-- The loop over the storage pools, with the identifiers before it. -/
def validateStorage : List StoragePoolId → List StoragePoolBudget → Except PlannerError Unit
  | _, [] => .ok ()
  | ids, pool :: pools =>
    if isBlank pool.id.name then .error (.invalid "storage pool id cannot be empty")
    else if ids.contains pool.id then
      .error (.invalid s!"duplicate storage pool `{pool.id.name}`")
    else validateStorage (pool.id :: ids) pools

def validate (budget : ResourceBudget) : Except PlannerError Unit :=
  if budget.memoryPools.isEmpty then
    .error (.invalid "resource budget requires at least one memory pool")
  else do
    validateMemory [] budget.memoryPools
    validateStorage [] budget.storagePools

def memoryCapacity (budget : ResourceBudget) (id : MemoryPoolId) : Option ℕ :=
  (budget.memoryPools.find? fun pool => pool.id = id).map MemoryPoolBudget.capacityBytes

def storagePool (budget : ResourceBudget) (id : StoragePoolId) : Option StoragePoolBudget :=
  budget.storagePools.find? fun pool => pool.id = id

end ResourceBudget

inductive DataMutability where
  | immutable
  | mutable
deriving DecidableEq

/-- Where the authoritative bytes live. -/
inductive BackingKind where
  | packageRecord
  | runtimeStateFile
  | residentOnly
  | devicePersistent
deriving DecidableEq

structure BackingPlan where
  kind : BackingKind
  storagePool : Option StoragePoolId
  bytes : ℕ
  alignment : ℕ
  pageOrBlockBytes : ℕ
deriving DecidableEq

structure ResidencyPlan where
  memoryPool : MemoryPoolId
  minimumWorkingSetBytes : ℕ
  targetResidentBytes : ℕ
  /-- The part of the working set that is never given up. -/
  pinnedBytes : ℕ
  evictionPriority : ℕ
deriving DecidableEq

inductive AccessKind where
  | directShared
  | mapped
  | asyncStream
  | staged
deriving DecidableEq

structure AccessPlan where
  kind : AccessKind
  prefetchDepth : ℕ
  expectedReadBytesPerStep : ℕ
  expectedWriteBytesPerStep : ℕ
deriving DecidableEq

/-- **A physical resource.** -/
structure ResourcePlan where
  mutability : DataMutability
  backing : BackingPlan
  residency : ResidencyPlan
  access : AccessPlan
deriving DecidableEq

namespace ResourcePlan

variable (resource : ResourcePlan)

/-- Whether the backing is in a storage pool, which the plan then names. -/
def stored : Bool :=
  resource.backing.kind = .runtimeStateFile || resource.backing.kind = .devicePersistent

def validate : Except PlannerError Unit :=
  if resource.residency.minimumWorkingSetBytes < resource.residency.pinnedBytes then
    .error (.invalid "pinned bytes exceed minimum working set")
  else if resource.residency.targetResidentBytes <
      resource.residency.minimumWorkingSetBytes then
    .error (.invalid "minimum working set exceeds target resident bytes")
  else if resource.backing.alignment = 0 then
    .error (.invalid "backing alignment must be non-zero")
  else if resource.backing.pageOrBlockBytes = 0 then
    .error (.invalid "backing page/block size must be non-zero")
  else if resource.mutability = .mutable && resource.backing.kind = .packageRecord then
    .error (.invalid "mutable state cannot use immutable package-record backing")
  else if resource.mutability = .immutable && resource.backing.kind = .runtimeStateFile then
    .error (.invalid "immutable package data should not require mutable state-file backing")
  else if !resource.stored && resource.backing.storagePool.isSome then
    .error (.invalid "package/resident-only backing must not bind a runtime storage pool")
  else if resource.stored && resource.backing.storagePool.isNone then
    .error (.invalid "runtime/device backing requires a storage-pool id")
  else .ok ()

def mutableBackingBytes : ℕ :=
  if resource.backing.kind = .runtimeStateFile then resource.backing.bytes else 0

/-- What the resource needs only while it is in use. -/
def transientBytes : ℕ :=
  resource.residency.minimumWorkingSetBytes - resource.residency.pinnedBytes

end ResourcePlan

end Tiered

end Logan
