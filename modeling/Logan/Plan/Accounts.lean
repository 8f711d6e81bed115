import Logan.Plan.TieredOptimizer

/-!
# What resources add up to

The accounts of a plan are made resource by resource, with a check after each
one, and they are left half-way when a check fails. Here they are compared
with **totals**, which are defined from the list of all resources: sums, and
for the transient working sets of a pool a maximum. The totals do not depend
on the order.

Whether the next resource is accepted can be said of the totals alone
(`addResource_eq_ok_true`), and so a list of resources is accepted
in every order or in none (`addResources_eq_ok_true`).
-/

namespace Logan

open List Result Table

namespace Tiered

/-! ## Totals -/

namespace ResourcePlan

/-- The storage pool of the backing, if it is in one. -/
def storedIn (r : ResourcePlan) : Option StoragePoolId :=
  if r.stored then r.backing.storagePool else none

end ResourcePlan

section Totals

variable (rs : List ResourcePlan)

/-- The resources of a memory pool. -/
def inPool (pool : MemoryPoolId) : List ResourcePlan :=
  rs.filter fun r => r.residency.memoryPool = pool

/-- The pinned bytes of a memory pool are added. -/
def pinnedIn (pool : MemoryPoolId) : ℕ :=
  ((inPool rs pool).map fun r => r.residency.pinnedBytes).sum

/-- Of the transient bytes of a memory pool, the largest count. -/
def transientIn (pool : MemoryPoolId) : ℕ :=
  ((inPool rs pool).map ResourcePlan.transientBytes).foldr max 0

/-- The targets of a memory pool are added. -/
def targetIn (pool : MemoryPoolId) : ℕ :=
  ((inPool rs pool).map fun r => r.residency.targetResidentBytes).sum

/-- The bytes that are backed in a storage pool. -/
def storedBytesIn (id : StoragePoolId) : ℕ :=
  ((rs.filter fun r => r.storedIn = some id).map fun r => r.backing.bytes).sum

/-- The bytes that are in the package already. -/
def packagedBytes : ℕ :=
  ((rs.filter fun r => r.backing.kind = .packageRecord).map fun r => r.backing.bytes).sum

def readBytes : ℕ := (rs.map fun r => r.access.expectedReadBytesPerStep).sum

def writtenBytes : ℕ := (rs.map fun r => r.access.expectedWriteBytesPerStep).sum

/-- **The resources are within the envelope**: in each memory pool in use the
pinned bytes and the largest transient working set fit, and so does the
target; each storage pool in use is writable, and has room. -/
structure Fits (budget : ResourceBudget) : Prop where
  memory : ∀ r ∈ rs, ∃ capacity, budget.memoryCapacity r.residency.memoryPool = some capacity ∧
    pinnedIn rs r.residency.memoryPool + transientIn rs r.residency.memoryPool ≤ capacity ∧
    targetIn rs r.residency.memoryPool ≤ capacity
  storage : ∀ r ∈ rs, r.stored = true → ∃ id pool, r.backing.storagePool = some id ∧
    budget.storagePool id = some pool ∧ pool.writable = true ∧
    storedBytesIn rs id ≤ pool.availableBytes

/-- **No total is out of range.** -/
structure InRange : Prop where
  minimum : ∀ pool, pinnedIn rs pool + transientIn rs pool ≤ u64Max
  target : ∀ pool, targetIn rs pool ≤ u64Max
  stored : ∀ id, storedBytesIn rs id ≤ u64Max
  packaged : packagedBytes rs ≤ u64Max
  reads : readBytes rs ≤ u64Max
  writes : writtenBytes rs ≤ u64Max

end Totals

section Lists

variable {rs rs' : List ResourcePlan} {r : ResourcePlan}

theorem inPool_cons_self : inPool (r :: rs) r.residency.memoryPool =
    r :: inPool rs r.residency.memoryPool :=
  filter_cons_of_pos (decide_eq_true rfl)

theorem inPool_cons_ne {pool : MemoryPoolId} (h : r.residency.memoryPool ≠ pool) :
    inPool (r :: rs) pool = inPool rs pool :=
  filter_cons_of_neg (by simpa using h)

theorem pinnedIn_cons_self : pinnedIn (r :: rs) r.residency.memoryPool =
    r.residency.pinnedBytes + pinnedIn rs r.residency.memoryPool := by
  unfold pinnedIn
  rw [inPool_cons_self, map_cons, sum_cons]

theorem transientIn_cons_self : transientIn (r :: rs) r.residency.memoryPool =
    max r.transientBytes (transientIn rs r.residency.memoryPool) := by
  unfold transientIn
  rw [inPool_cons_self, map_cons, foldr_cons]

theorem targetIn_cons_self : targetIn (r :: rs) r.residency.memoryPool =
    r.residency.targetResidentBytes + targetIn rs r.residency.memoryPool := by
  unfold targetIn
  rw [inPool_cons_self, map_cons, sum_cons]

theorem storedBytesIn_cons_self {id : StoragePoolId} (h : r.storedIn = some id) :
    storedBytesIn (r :: rs) id = r.backing.bytes + storedBytesIn rs id := by
  unfold storedBytesIn
  rw [filter_cons_of_pos (by simpa using h), map_cons, sum_cons]

theorem storedBytesIn_cons_ne {id : StoragePoolId} (h : r.storedIn ≠ some id) :
    storedBytesIn (r :: rs) id = storedBytesIn rs id := by
  unfold storedBytesIn
  rw [filter_cons_of_neg (by simpa using h)]

/-- **More resources need no less** of anything, in any order. -/
theorem totals_mono (h : rs.Subperm rs') :
    (∀ pool, pinnedIn rs pool ≤ pinnedIn rs' pool ∧ transientIn rs pool ≤ transientIn rs' pool ∧
      targetIn rs pool ≤ targetIn rs' pool) ∧ (∀ id, storedBytesIn rs id ≤ storedBytesIn rs' id) ∧
    packagedBytes rs ≤ packagedBytes rs' ∧ readBytes rs ≤ readBytes rs' ∧
    writtenBytes rs ≤ writtenBytes rs' := by
  have hsum : ∀ (f : ResourcePlan → ℕ) {l l' : List ResourcePlan}, l.Subperm l' →
      (l.map f).sum ≤ (l'.map f).sum := by
    rintro f l l' ⟨m, hper, hsub⟩
    rw [← (hper.map f).sum_eq]
    exact (hsub.map f).sum_le_sum fun _ _ => Nat.zero_le _
  have hmax : ∀ (f : ResourcePlan → ℕ) {l l' : List ResourcePlan}, l.Subperm l' →
      (l.map f).foldr max 0 ≤ (l'.map f).foldr max 0 := fun f l l' hl =>
    max_le_of_forall_le _ _ fun _ hx => le_max_of_le (map_subset f hl.subset hx) le_rfl
  exact ⟨fun pool => ⟨hsum _ (h.filter _), hmax _ (h.filter _), hsum _ (h.filter _)⟩,
    fun id => hsum _ (h.filter _), hsum _ (h.filter _), hsum _ h, hsum _ h⟩

/-- **The order does not matter.** -/
theorem totals_perm (h : rs.Perm rs') :
    (∀ pool, pinnedIn rs pool = pinnedIn rs' pool ∧ transientIn rs pool = transientIn rs' pool ∧
      targetIn rs pool = targetIn rs' pool) ∧ (∀ id, storedBytesIn rs id = storedBytesIn rs' id) ∧
    packagedBytes rs = packagedBytes rs' ∧ readBytes rs = readBytes rs' ∧
    writtenBytes rs = writtenBytes rs' := by
  have hsum : ∀ (f : ResourcePlan → ℕ) {l l' : List ResourcePlan}, l.Perm l' →
      (l.map f).sum = (l'.map f).sum := fun f l l' hl => (hl.map f).sum_eq
  exact ⟨fun pool => ⟨hsum _ (h.filter _), ((h.filter _).map _).foldr_eq 0, hsum _ (h.filter _)⟩,
    fun id => hsum _ (h.filter _), hsum _ (h.filter _), hsum _ h, hsum _ h⟩

theorem Fits.of_subperm {budget : ResourceBudget} (h : Fits rs' budget) (hsub : rs.Subperm rs') :
    Fits rs budget where
  memory := by
    intro r hr
    obtain ⟨capacity, hcap, hmin, htar⟩ := h.memory r (hsub.subset hr)
    obtain ⟨hpin, htr, htar'⟩ := (totals_mono hsub).1 r.residency.memoryPool
    exact ⟨capacity, hcap, (Nat.add_le_add hpin htr).trans hmin, htar'.trans htar⟩
  storage := by
    intro r hr hst
    obtain ⟨id, pool, hid, hpl, hwr, hrm⟩ := h.storage r (hsub.subset hr) hst
    exact ⟨id, pool, hid, hpl, hwr, ((totals_mono hsub).2.1 id).trans hrm⟩

theorem InRange.of_subperm (h : InRange rs') (hsub : rs.Subperm rs') : InRange rs := by
  obtain ⟨hpls, hst, hpac, hrd, hwr⟩ := totals_mono hsub
  exact
    { minimum := fun pool =>
        (Nat.add_le_add (hpls pool).1 (hpls pool).2.1).trans (h.minimum pool)
      target := fun pool => (hpls pool).2.2.trans (h.target pool)
      stored := fun id => (hst id).trans (h.stored id)
      packaged := hpac.trans h.packaged
      reads := hrd.trans h.reads
      writes := hwr.trans h.writes }

end Lists

/-! ## Accounts, without the checks -/

namespace ResourceAcc

/-- The account of a memory pool, with one more resource. -/
def grownMemory (entry : MemoryAcc) (r : ResourcePlan) : MemoryAcc where
  pinnedBytes := entry.pinnedBytes + r.residency.pinnedBytes
  transientWorkingSetBytes := max entry.transientWorkingSetBytes r.transientBytes
  targetResidentBytes := entry.targetResidentBytes + r.residency.targetResidentBytes

/-- The account of the memory pool of a resource, with the resource. -/
def grown (acc : ResourceAcc) (r : ResourcePlan) : MemoryAcc :=
  grownMemory (acc.memoryOf r.residency.memoryPool) r

/-- The storage accounts, with one more resource. -/
def grownStorage (acc : ResourceAcc) (r : ResourcePlan) : Table StoragePoolId ℕ :=
  match r.storedIn with
  | some id => acc.storage.insert id (acc.storageOf id + r.backing.bytes)
  | none => acc.storage

/-- **The accounts with one more resource**, whether or not it fits. -/
def accumulate (acc : ResourceAcc) (r : ResourcePlan) : ResourceAcc where
  memory := acc.memory.insert r.residency.memoryPool (acc.grown r)
  storage := acc.grownStorage r
  immutablePackageBackingBytes := acc.immutablePackageBackingBytes +
    if r.backing.kind = .packageRecord then r.backing.bytes else 0
  storageReadBytesPerStep := acc.storageReadBytesPerStep + r.access.expectedReadBytesPerStep
  storageWriteBytesPerStep := acc.storageWriteBytesPerStep + r.access.expectedWriteBytesPerStep

/-- Whether the memory pool of a resource, and its storage pool if it has
one, have room for it. -/
def hasMemory (budget : ResourceBudget) (acc : ResourceAcc) (r : ResourcePlan) : Bool :=
  match budget.memoryCapacity r.residency.memoryPool with
  | none => false
  | some capacity =>
    (acc.grown r).pinnedBytes + (acc.grown r).transientWorkingSetBytes ≤ capacity &&
      (acc.grown r).targetResidentBytes ≤ capacity

def hasStorage (budget : ResourceBudget) (acc : ResourceAcc) (r : ResourcePlan) : Bool :=
  match r.storedIn with
  | none => !r.stored
  | some id =>
    match budget.storagePool id with
    | none => false
    | some pool => pool.writable && acc.storageOf id + r.backing.bytes ≤ pool.availableBytes

/-- **Whether there is room for a resource.** -/
def hasRoom (budget : ResourceBudget) (acc : ResourceAcc) (r : ResourcePlan) : Bool :=
  acc.hasMemory budget r && acc.hasStorage budget r

/-- The values that are new with a resource are in range. -/
structure Admissible (acc : ResourceAcc) (r : ResourcePlan) : Prop where
  minimum : (acc.grown r).pinnedBytes + (acc.grown r).transientWorkingSetBytes ≤ u64Max
  target : (acc.grown r).targetResidentBytes ≤ u64Max
  stored : ∀ id, r.storedIn = some id → acc.storageOf id + r.backing.bytes ≤ u64Max
  packaged : r.backing.kind = .packageRecord →
    acc.immutablePackageBackingBytes + r.backing.bytes ≤ u64Max
  reads : acc.storageReadBytesPerStep + r.access.expectedReadBytesPerStep ≤ u64Max
  writes : acc.storageWriteBytesPerStep + r.access.expectedWriteBytesPerStep ≤ u64Max

theorem addAccess_eq_ok {acc : ResourceAcc} {r : ResourcePlan} {p : Bool × ResourceAcc} :
    acc.addAccess r = .ok p ↔
      (acc.storageReadBytesPerStep + r.access.expectedReadBytesPerStep ≤ u64Max ∧
        acc.storageWriteBytesPerStep + r.access.expectedWriteBytesPerStep ≤ u64Max) ∧
      p = (true, { acc with
        storageReadBytesPerStep :=
          acc.storageReadBytesPerStep + r.access.expectedReadBytesPerStep
        storageWriteBytesPerStep :=
          acc.storageWriteBytesPerStep + r.access.expectedWriteBytesPerStep }) := by
  unfold addAccess
  rw [bind_eq_ok]
  constructor
  · rintro ⟨reads, hrd, h⟩
    obtain ⟨writes, hwr, h⟩ := bind_eq_ok.mp h
    obtain ⟨rfl, hrd'⟩ := checkedAdd_eq_ok.mp hrd
    obtain ⟨rfl, hwr'⟩ := checkedAdd_eq_ok.mp hwr
    exact ⟨⟨hrd', hwr'⟩, (Except.ok.inj h).symm⟩
  · rintro ⟨⟨hrd, hwr⟩, rfl⟩
    exact ⟨_, checkedAdd_eq_ok.mpr ⟨rfl, hrd⟩,
      bind_eq_ok.mpr ⟨_, checkedAdd_eq_ok.mpr ⟨rfl, hwr⟩, rfl⟩⟩

theorem addMemory_eq_ok {acc : ResourceAcc} {entry : MemoryAcc} {r : ResourcePlan}
    (hval : r.residency.pinnedBytes ≤ r.residency.minimumWorkingSetBytes) :
    addMemory (acc.memoryOf r.residency.memoryPool) r = .ok entry ↔
      ((acc.grown r).pinnedBytes + (acc.grown r).transientWorkingSetBytes ≤ u64Max ∧
        (acc.grown r).targetResidentBytes ≤ u64Max) ∧ entry = acc.grown r := by
  unfold addMemory grown
  rw [bind_eq_ok]
  constructor
  · rintro ⟨pinned, hpin, h⟩
    rw [if_neg (Nat.not_lt.mpr hval)] at h
    obtain ⟨target, htar, h⟩ := bind_eq_ok.mp h
    obtain ⟨minimum, hmin, h⟩ := bind_eq_ok.mp h
    obtain ⟨rfl, -⟩ := checkedAdd_eq_ok.mp hpin
    obtain ⟨rfl, htar'⟩ := checkedAdd_eq_ok.mp htar
    exact ⟨⟨(checkedAdd_eq_ok.mp hmin).2, htar'⟩, (Except.ok.inj h).symm⟩
  · rintro ⟨⟨hmin, htar⟩, rfl⟩
    have hpin : (acc.memoryOf r.residency.memoryPool).pinnedBytes +
        r.residency.pinnedBytes ≤ u64Max :=
      (Nat.le_add_right _ _).trans hmin
    refine ⟨_, checkedAdd_eq_ok.mpr ⟨rfl, hpin⟩, ?_⟩
    rw [if_neg (Nat.not_lt.mpr hval)]
    exact bind_eq_ok.mpr ⟨_, checkedAdd_eq_ok.mpr ⟨rfl, htar⟩,
      bind_eq_ok.mpr ⟨_, checkedAdd_eq_ok.mpr ⟨rfl, hmin⟩, rfl⟩⟩

end ResourceAcc

/-- What a valid resource is sure of. -/
theorem ResourcePlan.validate_spec {r : ResourcePlan} (h : r.validate = .ok ()) :
    r.residency.pinnedBytes ≤ r.residency.minimumWorkingSetBytes ∧
    r.residency.minimumWorkingSetBytes ≤ r.residency.targetResidentBytes ∧
    (r.stored = true → ∃ id, r.backing.storagePool = some id ∧ r.storedIn = some id) ∧
    (r.stored = false → r.storedIn = none) := by
  unfold ResourcePlan.validate at h
  split_ifs at h with h₁ h₂ h₃ h₄ h₅ h₆ h₇ h₈
  refine ⟨Nat.not_lt.mp h₁, Nat.not_lt.mp h₂, fun hst => ?_, fun hst => ?_⟩
  · unfold ResourcePlan.storedIn
    rw [if_pos hst]
    rw [hst, Bool.true_and, Bool.not_eq_true, Option.isNone_eq_false_iff,
      Option.isSome_iff_exists] at h₈
    obtain ⟨id, hid⟩ := h₈
    exact ⟨id, hid, hid⟩
  · unfold ResourcePlan.storedIn
    rw [hst]
    rfl

theorem ResourceBudget.storagePool_id {budget : ResourceBudget} {id : StoragePoolId}
    {pool : StoragePoolBudget} (h : budget.storagePool id = some pool) : pool.id = id := by
  have hfnd := List.find?_some h
  exact of_decide_eq_true hfnd

namespace ResourceAcc

variable {acc : ResourceAcc} {budget : ResourceBudget} {r : ResourcePlan}
  {pool : StoragePoolBudget} {p : Bool × ResourceAcc}

/-- The accounts with the bytes of a resource in a storage pool. -/
def withStorage (acc : ResourceAcc) (id : StoragePoolId) (r : ResourcePlan) : ResourceAcc :=
  { acc with storage := acc.storage.insert id (acc.storageOf id + r.backing.bytes) }

/-- **What is stored in a pool** is accepted if the pool can be written to and
has room. -/
theorem addStored_eq_ok (h : acc.addStored pool r = .ok p) :
    p.1 = (pool.writable && acc.storageOf pool.id + r.backing.bytes ≤ pool.availableBytes) ∧
    (p.1 = true → (acc.withStorage pool.id r).addAccess r = .ok p ∧
      acc.storageOf pool.id + r.backing.bytes ≤ u64Max) := by
  unfold addStored at h
  by_cases hwr : pool.writable = true
  · rw [if_neg (by rw [hwr]; exact Bool.false_ne_true)] at h
    obtain ⟨stored, hst, h⟩ := bind_eq_ok.mp h
    obtain ⟨rfl, hrng⟩ := checkedAdd_eq_ok.mp hst
    rw [hwr, Bool.true_and]
    by_cases hrm : pool.availableBytes < acc.storageOf pool.id + r.backing.bytes
    · rw [if_pos hrm] at h
      obtain rfl := Except.ok.inj h
      exact ⟨(decide_eq_false (Nat.not_le.mpr hrm)).symm, by rintro ⟨⟩⟩
    · rw [if_neg hrm] at h
      have hfst := (addAccess_eq_ok.mp h).2
      rw [decide_eq_true (Nat.not_lt.mp hrm)]
      exact ⟨congrArg Prod.fst hfst, fun _ => ⟨h, hrng⟩⟩
  · rw [Bool.not_eq_true] at hwr
    rw [if_pos (by rw [hwr]; rfl)] at h
    cases h
    rw [hwr]
    exact ⟨rfl, by rintro ⟨⟩⟩

theorem addStored_of_room (hwr : pool.writable = true)
    (hrm : acc.storageOf pool.id + r.backing.bytes ≤ pool.availableBytes)
    (hrng : acc.storageOf pool.id + r.backing.bytes ≤ u64Max) :
    acc.addStored pool r = (acc.withStorage pool.id r).addAccess r := by
  unfold addStored
  rw [if_neg (by rw [hwr]; exact Bool.false_ne_true),
    checkedAdd_eq_ok.mpr ⟨rfl, hrng⟩, ok_bind, if_neg (Nat.not_lt.mpr hrm)]
  rfl

/-- The accounts with the backing of a resource, and not yet its traffic. -/
def withBacking (acc : ResourceAcc) (r : ResourcePlan) : ResourceAcc :=
  { acc with
    storage := acc.grownStorage r
    immutablePackageBackingBytes := acc.immutablePackageBackingBytes +
      if r.backing.kind = .packageRecord then r.backing.bytes else 0 }

theorem kind_of_stored (h : r.stored = true) : r.backing.kind ≠ .packageRecord := by
  intro hkin
  unfold ResourcePlan.stored at h
  rw [hkin] at h
  cases h

theorem withBacking_of_stored {id : StoragePoolId} (hst : r.stored = true)
    (hid : r.storedIn = some id) : acc.withBacking r = acc.withStorage id r := by
  unfold withBacking withStorage grownStorage
  rw [hid, if_neg (kind_of_stored hst), add_zero]

theorem addBacking_of_stored (h : r.stored = true) :
    acc.addBacking budget r = acc.addToPool budget r := by
  unfold ResourcePlan.stored at h
  unfold addBacking
  cases hkin : r.backing.kind with
  | packageRecord | residentOnly => rw [hkin] at h; cases h
  | runtimeStateFile | devicePersistent => rfl

/-- What is not stored only has to be counted. -/
theorem addBacking_of_not_stored (h : r.stored = false) (hst : r.storedIn = none) :
    acc.addBacking budget r = .ok p ↔ (acc.withBacking r).addAccess r = .ok p ∧
      (r.backing.kind = .packageRecord →
        acc.immutablePackageBackingBytes + r.backing.bytes ≤ u64Max) := by
  unfold ResourcePlan.stored at h
  unfold addBacking withBacking grownStorage
  rw [hst]
  cases hkin : r.backing.kind with
  | runtimeStateFile | devicePersistent => rw [hkin] at h; cases h
  | residentOnly => exact (and_iff_left nofun).symm
  | packageRecord =>
    rw [if_pos rfl, bind_eq_ok]
    constructor
    · rintro ⟨bytes, hbytes, h⟩
      obtain ⟨rfl, hrng⟩ := checkedAdd_eq_ok.mp hbytes
      exact ⟨h, fun _ => hrng⟩
    · rintro ⟨h, hrng⟩
      exact ⟨_, checkedAdd_eq_ok.mpr ⟨rfl, hrng rfl⟩, h⟩

theorem addToPool_eq {id : StoragePoolId} (hid : r.backing.storagePool = some id) :
    acc.addToPool budget r = match budget.storagePool id with
      | none => .error (.invalid s!"resource references unknown storage pool `{id.name}`")
      | some pool => acc.addStored pool r := by
  unfold addToPool
  exact hid ▸ rfl

/-- **The backing of a resource** is accepted if its storage pool has room. -/
theorem addBacking_eq_ok (hval : r.validate = .ok ()) (h : acc.addBacking budget r = .ok p) :
    p.1 = acc.hasStorage budget r ∧ (p.1 = true → (acc.withBacking r).addAccess r = .ok p ∧
      (∀ id, r.storedIn = some id → acc.storageOf id + r.backing.bytes ≤ u64Max) ∧
      (r.backing.kind = .packageRecord →
        acc.immutablePackageBackingBytes + r.backing.bytes ≤ u64Max)) := by
  obtain ⟨-, -, hst, huns⟩ := ResourcePlan.validate_spec hval
  unfold hasStorage
  cases hkin : r.stored with
  | true =>
    obtain ⟨id, hid, hstr⟩ := hst hkin
    rw [addBacking_of_stored hkin, addToPool_eq hid] at h
    rw [hstr]
    dsimp only
    cases hpl : budget.storagePool id with
    | none => rw [hpl] at h; cases h
    | some =>
      rw [hpl] at h
      obtain rfl := ResourceBudget.storagePool_id hpl
      obtain ⟨hrm, hok⟩ := addStored_eq_ok h
      refine ⟨hrm, fun htr => ?_⟩
      obtain ⟨hacc, hrng⟩ := hok htr
      rw [withBacking_of_stored hkin hstr]
      refine ⟨hacc, fun id' hid' => ?_, fun hpac => ?_⟩
      · rwa [← Option.some.inj hid']
      · exact absurd hpac (kind_of_stored hkin)
  | false =>
    have hnon := huns hkin
    obtain ⟨hacc, hrng⟩ := (addBacking_of_not_stored hkin hnon).mp h
    rw [hnon]
    have hfst := (addAccess_eq_ok.mp hacc).2
    exact ⟨congrArg Prod.fst hfst, fun _ => ⟨hacc, by rintro _ ⟨⟩, hrng⟩⟩

/-- **A backing with room is accepted.** -/
theorem addBacking_of_room (hval : r.validate = .ok ()) (hrm : acc.hasStorage budget r = true)
    (hrng : ∀ id, r.storedIn = some id → acc.storageOf id + r.backing.bytes ≤ u64Max)
    (hpac : r.backing.kind = .packageRecord →
      acc.immutablePackageBackingBytes + r.backing.bytes ≤ u64Max)
    (hacc : (acc.withBacking r).addAccess r = .ok p) : acc.addBacking budget r = .ok p := by
  obtain ⟨-, -, hst, huns⟩ := ResourcePlan.validate_spec hval
  unfold hasStorage at hrm
  cases hkin : r.stored with
  | true =>
    obtain ⟨id, hid, hstr⟩ := hst hkin
    rw [addBacking_of_stored hkin, addToPool_eq hid]
    rw [hstr] at hrm
    dsimp only at hrm
    cases hpl : budget.storagePool id with
    | none => rw [hpl] at hrm; cases hrm
    | some =>
      rw [hpl] at hrm
      obtain rfl := ResourceBudget.storagePool_id hpl
      obtain ⟨hwr, hrm⟩ := Bool.and_eq_true_iff.mp hrm
      dsimp only
      rw [addStored_of_room hwr (of_decide_eq_true hrm) (hrng _ hstr),
        ← withBacking_of_stored hkin hstr]
      exact hacc
  | false =>
    exact (addBacking_of_not_stored hkin (huns hkin)).mpr ⟨hacc, hpac⟩

/-- What is done for a valid resource of a memory pool that the budget has. -/
theorem addResource_eq {capacity : ℕ} (hval : r.validate = .ok ())
    (hcap : budget.memoryCapacity r.residency.memoryPool = some capacity) :
    acc.addResource budget r = (addMemory (acc.memoryOf r.residency.memoryPool) r >>= fun entry =>
        if capacity < entry.pinnedBytes + entry.transientWorkingSetBytes ||
            capacity < entry.targetResidentBytes then
          pure (false, { acc with memory := acc.memory.insert r.residency.memoryPool entry })
        else addBacking { acc with memory := acc.memory.insert r.residency.memoryPool entry }
          budget r) := by
  unfold addResource
  rw [hval, ok_bind, hcap]

theorem hasMemory_eq {capacity : ℕ}
    (hcap : budget.memoryCapacity r.residency.memoryPool = some capacity) :
    acc.hasMemory budget r = !(capacity < (acc.grown r).pinnedBytes +
        (acc.grown r).transientWorkingSetBytes ||
      capacity < (acc.grown r).targetResidentBytes) := by
  unfold hasMemory
  rw [hcap]
  rw [Bool.not_or, ← decide_not, ← decide_not]
  simp only [Nat.not_lt]

/-- **What is computed is what is meant**: a resource is accepted if there is
room, and if it is accepted, the accounts have it. -/
theorem addResource_eq_ok (h : acc.addResource budget r = .ok p) : p.1 = acc.hasRoom budget r ∧
    (p.1 = true → r.validate = .ok () ∧ p.2 = acc.accumulate r ∧ acc.Admissible r) := by
  obtain ⟨⟨⟩, hval, -⟩ := bind_eq_ok.mp h
  cases hcap : budget.memoryCapacity r.residency.memoryPool with
  | none =>
    unfold addResource at h
    rw [hval, ok_bind, hcap] at h
    cases h
  | some capacity =>
    rw [addResource_eq hval hcap] at h
    obtain ⟨entry, hent, h⟩ := bind_eq_ok.mp h
    obtain ⟨⟨hmin, htar⟩, rfl⟩ :=
      (addMemory_eq_ok (ResourcePlan.validate_spec hval).1).mp hent
    unfold hasRoom
    rw [hasMemory_eq hcap]
    cases hov : (decide (capacity < (acc.grown r).pinnedBytes +
        (acc.grown r).transientWorkingSetBytes) ||
      decide (capacity < (acc.grown r).targetResidentBytes)) with
    | true =>
      rw [if_pos hov] at h
      obtain rfl := Except.ok.inj h
      exact ⟨rfl, by rintro ⟨⟩⟩
    | false =>
      rw [if_neg (by rw [hov]; exact Bool.false_ne_true)] at h
      obtain ⟨hrm, hok⟩ := addBacking_eq_ok hval h
      refine ⟨hrm, fun htr => ?_⟩
      obtain ⟨hacc, hst, hpac⟩ := hok htr
      obtain ⟨⟨hrd, hwr⟩, rfl⟩ := addAccess_eq_ok.mp hacc
      exact ⟨hval, rfl, hmin, htar, hst, hpac, hrd, hwr⟩

/-- **A resource with room is accepted.** -/
theorem addResource_of_room (hval : r.validate = .ok ()) (hrm : acc.hasRoom budget r = true)
    (hrng : acc.Admissible r) : acc.addResource budget r = .ok (true, acc.accumulate r) := by
  obtain ⟨hmem, hstorage⟩ := Bool.and_eq_true_iff.mp hrm
  cases hcap : budget.memoryCapacity r.residency.memoryPool with
  | none =>
    unfold hasMemory at hmem
    rw [hcap] at hmem
    cases hmem
  | some =>
    rw [hasMemory_eq hcap, Bool.not_eq_true'] at hmem
    rw [addResource_eq hval hcap, (addMemory_eq_ok (ResourcePlan.validate_spec hval).1).mpr
        ⟨⟨hrng.minimum, hrng.target⟩, rfl⟩, ok_bind]
    rw [if_neg (by rw [hmem]; exact Bool.false_ne_true)]
    exact addBacking_of_room hval hstorage hrng.stored hrng.packaged
      (addAccess_eq_ok.mpr ⟨⟨hrng.reads, hrng.writes⟩, rfl⟩)

end ResourceAcc

/-! ## The accounts of a list -/

/-- What a memory pool is used for by all resources. -/
def memoryTotal (rs : List ResourcePlan) (pool : MemoryPoolId) : MemoryAcc where
  pinnedBytes := pinnedIn rs pool
  transientWorkingSetBytes := transientIn rs pool
  targetResidentBytes := targetIn rs pool

/-- The memory pools that are used. -/
def poolsOf (rs : List ResourcePlan) : List MemoryPoolId :=
  (rs.map fun r => r.residency.memoryPool).dedup

/-- The storage pools that are used. -/
def storesOf (rs : List ResourcePlan) : List StoragePoolId :=
  (rs.filterMap ResourcePlan.storedIn).dedup

/-- **The accounts hold the totals** of a list of resources, of every pool
that is used. -/
structure Accounts (acc : ResourceAcc) (rs : List ResourcePlan) : Prop where
  memory : ∀ pool, acc.memory.lookup pool =
    if pool ∈ poolsOf rs then some (memoryTotal rs pool) else none
  storage : ∀ id, acc.storage.lookup id =
    if id ∈ storesOf rs then some (storedBytesIn rs id) else none
  packaged : acc.immutablePackageBackingBytes = packagedBytes rs
  reads : acc.storageReadBytesPerStep = readBytes rs
  writes : acc.storageWriteBytesPerStep = writtenBytes rs

section Accounts

variable {acc acc' : ResourceAcc} {rs rs' : List ResourcePlan} {r : ResourcePlan}
  {budget : ResourceBudget}

theorem mem_poolsOf {pool : MemoryPoolId} :
    pool ∈ poolsOf rs ↔ ∃ r ∈ rs, r.residency.memoryPool = pool := by
  unfold poolsOf
  rw [mem_dedup, mem_map]

theorem mem_storesOf {id : StoragePoolId} : id ∈ storesOf rs ↔ ∃ r ∈ rs, r.storedIn = some id := by
  unfold storesOf
  rw [mem_dedup, mem_filterMap]

theorem memoryTotal_of_not_mem {pool : MemoryPoolId} (h : pool ∉ poolsOf rs) :
    memoryTotal rs pool = {} := by
  have hnon : inPool rs pool = [] :=
    filter_eq_nil_iff.mpr fun r hr hpl =>
      h (mem_poolsOf.mpr ⟨r, hr, of_decide_eq_true hpl⟩)
  unfold memoryTotal pinnedIn transientIn targetIn
  rw [hnon]
  rfl

theorem storedBytesIn_of_not_mem {id : StoragePoolId} (h : id ∉ storesOf rs) :
    storedBytesIn rs id = 0 := by
  have hnon : (rs.filter fun r => r.storedIn = some id) = [] :=
    filter_eq_nil_iff.mpr fun r hr hid =>
      h (mem_storesOf.mpr ⟨r, hr, of_decide_eq_true hid⟩)
  unfold storedBytesIn
  rw [hnon]
  rfl

theorem memoryTotal_cons_self : memoryTotal (r :: rs) r.residency.memoryPool =
    ResourceAcc.grownMemory (memoryTotal rs r.residency.memoryPool) r := by
  unfold memoryTotal ResourceAcc.grownMemory
  rw [pinnedIn_cons_self, transientIn_cons_self, targetIn_cons_self, add_comm, max_comm,
    add_comm (targetIn rs _)]

theorem memoryTotal_cons_ne {pool : MemoryPoolId} (h : r.residency.memoryPool ≠ pool) :
    memoryTotal (r :: rs) pool = memoryTotal rs pool := by
  unfold memoryTotal pinnedIn transientIn targetIn
  rw [inPool_cons_ne h]

namespace Accounts

theorem nil : Accounts .empty [] where
  memory _ := rfl
  storage _ := rfl
  packaged := rfl
  reads := rfl
  writes := rfl

section

variable (h : Accounts acc rs)

include h

theorem memoryOf_eq (pool : MemoryPoolId) : acc.memoryOf pool = memoryTotal rs pool := by
  unfold ResourceAcc.memoryOf
  rw [h.memory]
  by_cases hmem : pool ∈ poolsOf rs
  · rw [if_pos hmem, Option.getD_some]
  · rw [if_neg hmem, Option.getD_none, memoryTotal_of_not_mem hmem]

theorem storageOf_eq (id : StoragePoolId) : acc.storageOf id = storedBytesIn rs id := by
  unfold ResourceAcc.storageOf
  rw [h.storage]
  by_cases hmem : id ∈ storesOf rs
  · rw [if_pos hmem, Option.getD_some]
  · rw [if_neg hmem, Option.getD_none, storedBytesIn_of_not_mem hmem]

theorem grown_eq : acc.grown r = memoryTotal (r :: rs) r.residency.memoryPool := by
  unfold ResourceAcc.grown
  rw [h.memoryOf_eq, memoryTotal_cons_self]

/-- The storage accounts, with one more resource. -/
theorem grownStorage_lookup (id : StoragePoolId) : (acc.grownStorage r).lookup id =
      if id ∈ storesOf (r :: rs) then some (storedBytesIn (r :: rs) id) else none := by
  have hmem : id ∈ storesOf (r :: rs) ↔ r.storedIn = some id ∨ id ∈ storesOf rs := by
    rw [mem_storesOf, mem_storesOf, exists_mem_cons_iff]
  unfold ResourceAcc.grownStorage
  by_cases hid : r.storedIn = some id
  · rw [if_pos (hmem.mpr (Or.inl hid)), storedBytesIn_cons_self hid, hid]
    rw [lookup_insert_self, h.storageOf_eq, add_comm]
  · simp only [hmem, hid, false_or]
    rw [storedBytesIn_cons_ne hid, ← h.storage id]
    cases hst : r.storedIn with
    | none => rfl
    | some =>
      refine lookup_insert_ne _ _ fun heq => hid ?_
      rw [hst, heq]

/-- **One more resource** makes the accounts of one more resource. -/
theorem accumulate (r : ResourcePlan) : Accounts (acc.accumulate r) (r :: rs) where
  memory := by
    intro pool
    have hmem : pool ∈ poolsOf (r :: rs) ↔ r.residency.memoryPool = pool ∨ pool ∈ poolsOf rs := by
      rw [mem_poolsOf, mem_poolsOf, exists_mem_cons_iff]
    show (acc.memory.insert r.residency.memoryPool (acc.grown r)).lookup pool = _
    by_cases hpl : r.residency.memoryPool = pool
    · rw [if_pos (hmem.mpr (Or.inl hpl)), ← hpl, lookup_insert_self, h.grown_eq]
    · simp only [hmem, hpl, false_or]
      rw [lookup_insert_ne _ _ (Ne.symm hpl), h.memory, memoryTotal_cons_ne hpl]
  storage := h.grownStorage_lookup
  packaged := by
    show acc.immutablePackageBackingBytes + _ = packagedBytes (r :: rs)
    unfold packagedBytes
    rw [h.packaged, filter_cons]
    by_cases hkin : r.backing.kind = .packageRecord
    · rw [if_pos hkin, if_pos (decide_eq_true hkin), map_cons, sum_cons, add_comm]
      rfl
    · rw [if_neg hkin, if_neg (by simpa using hkin), add_zero]
      rfl
  reads := by
    show acc.storageReadBytesPerStep + _ = readBytes (r :: rs)
    unfold readBytes
    rw [h.reads, map_cons, sum_cons, add_comm]
    rfl
  writes := by
    show acc.storageWriteBytesPerStep + _ = writtenBytes (r :: rs)
    unfold writtenBytes
    rw [h.writes, map_cons, sum_cons, add_comm]
    rfl

/-- There is memory for a resource if the totals with it fit into its pool. -/
theorem hasMemory_iff : acc.hasMemory budget r = true ↔
    ∃ capacity, budget.memoryCapacity r.residency.memoryPool = some capacity ∧
      pinnedIn (r :: rs) r.residency.memoryPool + transientIn (r :: rs) r.residency.memoryPool ≤
        capacity ∧ targetIn (r :: rs) r.residency.memoryPool ≤ capacity := by
  cases hcap : budget.memoryCapacity r.residency.memoryPool with
  | none =>
    unfold ResourceAcc.hasMemory
    rw [hcap]
    exact iff_of_false Bool.false_ne_true (by rintro ⟨_, ⟨⟩, -⟩)
  | some capacity =>
    rw [ResourceAcc.hasMemory_eq hcap, h.grown_eq, Bool.not_eq_true', Bool.or_eq_false_iff,
      decide_eq_false_iff_not, decide_eq_false_iff_not, Nat.not_lt, Nat.not_lt]
    constructor
    · intro hrm
      exact ⟨capacity, rfl, hrm⟩
    · rintro ⟨_, heq, hrm⟩
      cases heq
      exact hrm

/-- There is storage for a resource if it needs none, or its storage pool is
writable and has room for the total. -/
theorem hasStorage_iff (hval : r.validate = .ok ()) :
    acc.hasStorage budget r = true ↔ (r.stored = true → ∃ id pool,
      r.backing.storagePool = some id ∧ budget.storagePool id = some pool ∧
      pool.writable = true ∧ storedBytesIn (r :: rs) id ≤ pool.availableBytes) := by
  obtain ⟨-, -, hst, huns⟩ := ResourcePlan.validate_spec hval
  unfold ResourceAcc.hasStorage
  cases hkin : r.stored with
  | false =>
    rw [huns hkin]
    exact iff_of_true rfl nofun
  | true =>
    obtain ⟨id, hid, hstr⟩ := hst hkin
    rw [hstr, hid]
    dsimp only
    rw [h.storageOf_eq, add_comm, ← storedBytesIn_cons_self hstr]
    cases hpl : budget.storagePool id with
    | none =>
      refine iff_of_false Bool.false_ne_true fun hrm => ?_
      obtain ⟨id', pool, hid', hpl', -⟩ := hrm rfl
      rw [← Option.some.inj hid', hpl] at hpl'
      cases hpl'
    | some pool =>
      rw [Bool.and_eq_true, decide_eq_true_eq]
      constructor
      · intro hrm _
        exact ⟨id, pool, rfl, hpl, hrm⟩
      · intro hrm
        obtain ⟨id', pool', hid', hpl', hrm⟩ := hrm rfl
        cases hid'
        obtain rfl := Option.some.inj (hpl.symm.trans hpl')
        exact hrm

/-- **There is room for a resource** if everything fits with it. -/
theorem hasRoom_iff (hval : r.validate = .ok ())
    (hfit : Fits rs budget) : acc.hasRoom budget r = true ↔ Fits (r :: rs) budget := by
  unfold ResourceAcc.hasRoom
  rw [Bool.and_eq_true, h.hasMemory_iff, h.hasStorage_iff hval]
  constructor
  · rintro ⟨hmmr, hstorage⟩
    refine ⟨fun r' hr' => ?_, fun r' hr' hst => ?_⟩
    · by_cases hpl : r.residency.memoryPool = r'.residency.memoryPool
      · rwa [← hpl]
      · have hmem : r' ∈ rs := (mem_cons.mp hr').resolve_left fun heq => hpl (heq ▸ rfl)
        obtain ⟨capacity, hcap, hrm⟩ := hfit.memory r' hmem
        unfold pinnedIn transientIn targetIn at hrm ⊢
        rw [inPool_cons_ne hpl]
        exact ⟨capacity, hcap, hrm⟩
    · rcases mem_cons.mp hr' with rfl | hmem
      · exact hstorage hst
      · obtain ⟨id, pool, hid, hpl, hwr, hrm⟩ := hfit.storage r' hmem hst
        by_cases hsel : r.storedIn = some id
        · -- the two are in the same storage pool
          have hkin : r.stored = true := by
            cases hkin : r.stored with
            | true => rfl
            | false =>
              rw [(ResourcePlan.validate_spec hval).2.2.2 hkin] at hsel
              cases hsel
          obtain ⟨id', pool', hid', hrm'⟩ := hstorage hkin
          obtain ⟨id'', hid'', hstr⟩ := (ResourcePlan.validate_spec hval).2.2.1 hkin
          obtain rfl := Option.some.inj (hid'.symm.trans hid'')
          obtain rfl := Option.some.inj (hsel.symm.trans hstr)
          exact ⟨id, pool', hid, hrm'⟩
        · refine ⟨id, pool, hid, hpl, hwr, ?_⟩
          rwa [storedBytesIn_cons_ne hsel]
  · intro hnew
    exact ⟨hnew.memory r mem_cons_self, hnew.storage r mem_cons_self⟩

/-- **The new values are in range** if all totals are. -/
theorem admissible_iff (hrng : InRange rs) : acc.Admissible r ↔ InRange (r :: rs) := by
  constructor
  · intro hadm
    refine ⟨fun pool => ?_, fun pool => ?_, fun id => ?_, ?_, ?_, ?_⟩
    · by_cases hpl : r.residency.memoryPool = pool
      · rw [← hpl]
        have hmin := hadm.minimum
        rwa [h.grown_eq] at hmin
      · unfold pinnedIn transientIn
        rw [inPool_cons_ne hpl]
        exact hrng.minimum pool
    · by_cases hpl : r.residency.memoryPool = pool
      · rw [← hpl]
        have htar := hadm.target
        rwa [h.grown_eq] at htar
      · unfold targetIn
        rw [inPool_cons_ne hpl]
        exact hrng.target pool
    · by_cases hid : r.storedIn = some id
      · rw [storedBytesIn_cons_self hid, add_comm, ← h.storageOf_eq]
        exact hadm.stored id hid
      · rw [storedBytesIn_cons_ne hid]
        exact hrng.stored id
    · rw [← (h.accumulate r).packaged]
      show acc.immutablePackageBackingBytes + _ ≤ u64Max
      by_cases hkin : r.backing.kind = .packageRecord
      · rw [if_pos hkin]
        exact hadm.packaged hkin
      · rw [if_neg hkin, add_zero, h.packaged]
        exact hrng.packaged
    · rw [← (h.accumulate r).reads]
      exact hadm.reads
    · rw [← (h.accumulate r).writes]
      exact hadm.writes
  · intro hnew
    refine ⟨?_, ?_, fun id hid => ?_, fun hkin => ?_, ?_, ?_⟩
    · rw [h.grown_eq]
      exact hnew.minimum _
    · rw [h.grown_eq]
      exact hnew.target _
    · rw [h.storageOf_eq, add_comm, ← storedBytesIn_cons_self hid]
      exact hnew.stored id
    · have hpac := hnew.packaged
      rw [← (h.accumulate r).packaged] at hpac
      change acc.immutablePackageBackingBytes + _ ≤ u64Max at hpac
      rwa [if_pos hkin] at hpac
    · have hrd := hnew.reads
      rwa [← (h.accumulate r).reads] at hrd
    · have hwr := hnew.writes
      rwa [← (h.accumulate r).writes] at hwr

end

end Accounts

/-- **Valid resources that fit**, in the range of the accounts. -/
structure Accepted (budget : ResourceBudget) (rs : List ResourcePlan) : Prop where
  valid : ∀ r ∈ rs, r.validate = .ok ()
  fits : Fits rs budget
  range : InRange rs

theorem Accepted.nil : Accepted budget [] where
  valid := by rintro _ ⟨⟩
  fits := ⟨by rintro _ ⟨⟩, by rintro _ ⟨⟩⟩
  range := by
    refine ⟨fun _ => ?_, fun _ => ?_, fun _ => ?_, ?_, ?_, ?_⟩
    all_goals exact Nat.zero_le _

theorem Accepted.of_subperm (h : Accepted budget rs') (hsub : rs.Subperm rs') :
    Accepted budget rs where
  valid r hr := h.valid r (hsub.subset hr)
  fits := h.fits.of_subperm hsub
  range := h.range.of_subperm hsub

/-- **One more resource is accepted** if it is accepted together with those
before it. -/
theorem addResource_eq_ok_true (h : Accounts acc rs) (hrs : Accepted budget rs) :
    acc.addResource budget r = .ok (true, acc') ↔
      Accepted budget (r :: rs) ∧ acc' = acc.accumulate r := by
  constructor
  · intro hok
    obtain ⟨hrm, hth⟩ := ResourceAcc.addResource_eq_ok hok
    obtain ⟨hval, rfl, hadm⟩ := hth rfl
    refine ⟨⟨?_, (h.hasRoom_iff hval hrs.fits).mp hrm.symm,
      (h.admissible_iff hrs.range).mp hadm⟩, rfl⟩
    exact forall_mem_cons.mpr ⟨hval, hrs.valid⟩
  · rintro ⟨hnew, rfl⟩
    have hval := hnew.valid r mem_cons_self
    exact ResourceAcc.addResource_of_room hval ((h.hasRoom_iff hval hrs.fits).mpr hnew.fits)
      ((h.admissible_iff hrs.range).mpr hnew.range)

/-- **A list of resources is accepted** if all of them are together, with
those before; so the order does not matter. -/
theorem addResources_eq_ok_true {l : List ResourcePlan} (h : Accounts acc rs)
    (hrs : Accepted budget rs) : acc.addResources budget l = .ok (true, acc') ↔
      Accepted budget (l.reverse ++ rs) ∧ acc' = l.foldl ResourceAcc.accumulate acc := by
  induction l generalizing acc rs with
  | nil =>
    rw [ResourceAcc.addResources, Except.ok.injEq, Prod.mk.injEq, foldl_nil]
    exact ⟨fun heq => ⟨hrs, heq.2.symm⟩, fun heq => ⟨rfl, heq.2.symm⟩⟩
  | cons r l ih =>
    rw [ResourceAcc.addResources, bind_eq_ok, reverse_cons, append_assoc,
      singleton_append, foldl_cons]
    constructor
    · rintro ⟨⟨fits, acc₁⟩, hfst, hres⟩
      cases fits with
      | false => cases hres
      | true =>
        obtain ⟨hnew, rfl⟩ := (addResource_eq_ok_true h hrs).mp hfst
        exact (ih (h.accumulate r) hnew).mp hres
    · rintro ⟨hnew, hacc⟩
      have hfst : Accepted budget (r :: rs) :=
        hnew.of_subperm (sublist_append_right _ _).subperm
      exact ⟨(true, acc.accumulate r), (addResource_eq_ok_true h hrs).mpr ⟨hfst, rfl⟩,
        (ih (h.accumulate r) hfst).mpr ⟨hnew, hacc⟩⟩

theorem Accounts.foldl {l : List ResourcePlan} (h : Accounts acc rs) :
    Accounts (l.foldl ResourceAcc.accumulate acc) (l.reverse ++ rs) := by
  induction l generalizing acc rs with
  | nil => exact h
  | cons r l ih =>
    rw [foldl_cons, reverse_cons, append_assoc, singleton_append]
    exact ih (h.accumulate r)

/-! ## What is reported -/

/-- The order of pools, by the bytes of their names. -/
def nameKey (name : String) : List ℕ := (utf8 name).map UInt8.toNat

theorem nameKey_injective : Function.Injective nameKey := fun _ _ h =>
  utf8_injective (map_injective_iff.mpr (fun _ _ => UInt8.toNat_inj.mp) h)

/-- **The usage by a list of resources**: its totals, for the pools in use, in
the order of their names. -/
def usageOf (rs : List ResourcePlan) : TieredResourceUsage where
  memoryPools := (sortBy (fun pool => nameKey pool.name) (poolsOf rs)).map fun pool =>
    { pool := pool
      minimumWorkingSetBytes := pinnedIn rs pool + transientIn rs pool
      targetResidentBytes := targetIn rs pool }
  storagePools := (sortBy (fun id => nameKey id.name) (storesOf rs)).map fun id =>
    { pool := id
      mutableBackingBytes := storedBytesIn rs id }
  immutablePackageBackingBytes := packagedBytes rs
  storageReadBytesPerStep := readBytes rs
  storageWriteBytesPerStep := writtenBytes rs

theorem poolKey_injective : Function.Injective fun pool : MemoryPoolId => nameKey pool.name := by
  rintro ⟨name⟩ ⟨name'⟩ h
  have hnam : name = name' := nameKey_injective h
  rw [hnam]

theorem storeKey_injective : Function.Injective fun id : StoragePoolId => nameKey id.name := by
  rintro ⟨name⟩ ⟨name'⟩ h
  have hnam : name = name' := nameKey_injective h
  rw [hnam]

/-- **The usage does not depend on the order.** -/
theorem usageOf_perm (h : rs.Perm rs') : usageOf rs = usageOf rs' := by
  obtain ⟨hpls, hst, hpac, hrd, hwr⟩ := totals_perm h
  have hmem : sortBy (fun pool => nameKey pool.name) (poolsOf rs) =
      sortBy (fun pool => nameKey pool.name) (poolsOf rs') :=
    sortBy_perm (fun _ _ _ _ heq => poolKey_injective heq) (h.map _).dedup
  have hstorage : sortBy (fun id => nameKey id.name) (storesOf rs) =
      sortBy (fun id => nameKey id.name) (storesOf rs') :=
    sortBy_perm (fun _ _ _ _ heq => storeKey_injective heq) (h.filterMap _).dedup
  unfold usageOf
  rw [hmem, hstorage, hpac, hrd, hwr]
  congr 1
  · refine map_congr_left fun pool _ => ?_
    rw [(hpls pool).1, (hpls pool).2.1, (hpls pool).2.2]
  · refine map_congr_left fun id _ => ?_
    rw [hst]

/-- The entries of a table, in the order of their keys. -/
theorem sortBy_entries {K V : Type} [DecidableEq K] {t : Table K V} {ks : List K} {f : K → V}
    (hks : ks.Nodup) (ht : ∀ k, t.lookup k = if k ∈ ks then some (f k) else none)
    {key : K → List ℕ} (hkey : Function.Injective key) :
    sortBy (fun e : K × V => key e.1) (t.entries.map fun e => (e.1, e.2)) =
      (sortBy key ks).map fun k => (k, f k) := by
  have hper : (t.entries.map fun e => (e.1, e.2)).Perm (ks.map fun k => (k, f k)) := by
    have h := (entries_perm hks ht).map fun e => (e.1, e.2)
    rwa [map_map] at h
  have hsam : ∀ a ∈ t.entries.map (fun e => (e.1, e.2)),
      ∀ b ∈ t.entries.map (fun e => (e.1, e.2)), key a.1 = key b.1 → a = b := by
    intro a ha b hb heq
    obtain ⟨k, -, rfl⟩ := mem_map.mp (hper.mem_iff.mp ha)
    obtain ⟨k', -, rfl⟩ := mem_map.mp (hper.mem_iff.mp hb)
    obtain rfl : k = k' := hkey heq
    rfl
  rw [sortBy_perm hsam hper, sortBy_map]
  rfl

theorem Accounts.memoryEntries_eq (h : Accounts acc rs) : acc.memoryEntries =
    (sortBy (fun pool => nameKey pool.name) (poolsOf rs)).map
      fun pool => (pool, memoryTotal rs pool) :=
  sortBy_entries (nodup_dedup _) h.memory poolKey_injective

theorem Accounts.storageEntries_eq (h : Accounts acc rs) : acc.storageEntries =
    (sortBy (fun id => nameKey id.name) (storesOf rs)).map fun id => (id, storedBytesIn rs id) :=
  sortBy_entries (nodup_dedup _) h.storage storeKey_injective

/-- **What is reported is the usage by the list**, whatever its order. -/
theorem Accounts.usage_eq (h : Accounts acc rs) (hrng : InRange rs) :
    acc.usage = .ok (usageOf rs) := by
  have hpls : tryFilterMap ResourceAcc.memoryUsage acc.memoryEntries =
      .ok (usageOf rs).memoryPools := by
    rw [h.memoryEntries_eq, tryFilterMap_eq_map (g := fun e : MemoryPoolId × MemoryAcc =>
      MemoryPoolUsage.mk e.1 (e.2.pinnedBytes + e.2.transientWorkingSetBytes)
        e.2.targetResidentBytes), map_map]
    · rfl
    · intro e he
      obtain ⟨pool, -, rfl⟩ := mem_map.mp he
      have hmin := hrng.minimum pool
      unfold ResourceAcc.memoryUsage MemoryAcc.minimumWorkingSetBytes memoryTotal
      rw [if_pos hmin]
  unfold ResourceAcc.usage
  rw [hpls, ok_bind, h.storageEntries_eq, map_map, h.packaged, h.reads, h.writes]
  rfl

/-- What is listed under a key, if every key of a list is made into an item
under it. -/
theorem find?_map_of_key {K B : Type} [DecidableEq K] {f : K → B} {key : B → K}
    (hkey : ∀ k, key (f k) = k) (l : List K) (k : K) :
    ((l.map f).find? fun b => key b = k) = if k ∈ l then some (f k) else none := by
  cases hfnd : (l.map f).find? fun b => key b = k with
  | none =>
    rw [if_neg]
    intro hk
    exact List.find?_eq_none.mp hfnd (f k) (mem_map_of_mem hk) (decide_eq_true (hkey k))
  | some =>
    obtain ⟨k', hk', rfl⟩ := mem_map.mp (List.mem_of_find?_eq_some hfnd)
    have hfou := List.find?_some hfnd
    have heq : k' = k := (hkey k').symm.trans (of_decide_eq_true hfou)
    rw [← heq, if_pos hk']

theorem memoryUse_usageOf (rs : List ResourcePlan) (pool : MemoryPoolId) :
    memoryUse (usageOf rs) pool = (pinnedIn rs pool + transientIn rs pool, targetIn rs pool) := by
  unfold memoryUse usageOf
  rw [find?_map_of_key (fun _ => rfl)]
  by_cases hmem : pool ∈ poolsOf rs
  · rw [if_pos (mem_sortBy.mpr hmem)]
    rfl
  · have hnon := memoryTotal_of_not_mem hmem
    rw [if_neg (mt mem_sortBy.mp hmem), (MemoryAcc.mk.inj hnon).1, (MemoryAcc.mk.inj hnon).2.1,
      (MemoryAcc.mk.inj hnon).2.2]
    rfl

theorem storageUse_usageOf (rs : List ResourcePlan) (id : StoragePoolId) :
    storageUse (usageOf rs) id = storedBytesIn rs id := by
  unfold storageUse usageOf
  rw [find?_map_of_key (fun _ => rfl)]
  by_cases hmem : id ∈ storesOf rs
  · rw [if_pos (mem_sortBy.mpr hmem)]
    rfl
  · rw [if_neg (mt mem_sortBy.mp hmem), storedBytesIn_of_not_mem hmem]
    rfl

end Accounts

end Tiered

end Logan
