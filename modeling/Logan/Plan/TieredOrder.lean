import Logan.Plan.TieredEnvelope

/-!
# Dominance of tiered plans

The tests by which the tiered optimizer drops partial plans and plans compare
usages pool by pool, and a pool that is not listed is not used. They are
shown here to be the order of **uses**, which are functions of the pools:
to dominate is to be less.
-/

namespace Logan

open List AList
open Bool (and_eq_true or_eq_false_iff or_eq_true)
open Nat (not_lt zero_le)

namespace Tiered

/-- **What is used**: of each memory pool the minimum working set and the
resident target, of each storage pool the bytes stored, and what is not of a
pool. -/
abbrev Use : Type := (MemoryPoolId → ℕ × ℕ) × (StoragePoolId → ℕ) × ℕ × ℕ × ℕ

def ResourceAcc.use (acc : ResourceAcc) : Use :=
  (fun pool => ((acc.memoryOf pool).pinnedBytes + (acc.memoryOf pool).transientWorkingSetBytes,
      (acc.memoryOf pool).targetResidentBytes),
    acc.storageOf, acc.immutablePackageBackingBytes, acc.storageReadBytesPerStep,
    acc.storageWriteBytesPerStep)

def TieredResourceUsage.use (u : TieredResourceUsage) : Use :=
  (memoryUse u, storageUse u, u.immutablePackageBackingBytes, u.storageReadBytesPerStep,
    u.storageWriteBytesPerStep)

/-! ## Accounts -/

namespace ResourceAcc

variable {a b c : ResourceAcc}

theorem use_le : a.use ≤ b.use ↔
    (∀ pool, (a.memoryOf pool).pinnedBytes + (a.memoryOf pool).transientWorkingSetBytes ≤
        (b.memoryOf pool).pinnedBytes + (b.memoryOf pool).transientWorkingSetBytes ∧
      (a.memoryOf pool).targetResidentBytes ≤ (b.memoryOf pool).targetResidentBytes) ∧
    (∀ id, a.storageOf id ≤ b.storageOf id) ∧
    a.immutablePackageBackingBytes ≤ b.immutablePackageBackingBytes ∧
    a.storageReadBytesPerStep ≤ b.storageReadBytesPerStep ∧
    a.storageWriteBytesPerStep ≤ b.storageWriteBytesPerStep := Iff.rfl

/-- The minimum working sets are in range. -/
def InBounds (acc : ResourceAcc) : Prop :=
  ∀ pool, (acc.memoryOf pool).pinnedBytes + (acc.memoryOf pool).transientWorkingSetBytes ≤ u64Max

theorem minimumWorkingSetBytes_eq (h : a.InBounds) (pool : MemoryPoolId) :
    (a.memoryOf pool).minimumWorkingSetBytes = some ((a.memoryOf pool).pinnedBytes +
      (a.memoryOf pool).transientWorkingSetBytes) := by
  unfold MemoryAcc.minimumWorkingSetBytes
  rw [if_pos (h pool)]

theorem memoryOf_of_mem {e : Sigma fun _ : MemoryPoolId => MemoryAcc} (h : e ∈ a.memory.entries) :
    a.memoryOf e.1 = e.2 := by
  unfold memoryOf
  rw [mem_lookup_iff.mpr h, Option.getD_some]

theorem storageOf_of_mem {e : Sigma fun _ : StoragePoolId => ℕ} (h : e ∈ a.storage.entries) :
    a.storageOf e.1 = e.2 := by
  unfold storageOf
  rw [mem_lookup_iff.mpr h, Option.getD_some]

/-- What holds of each memory pool that has an entry, and of a pool that is
not used, holds of every pool. -/
theorem forall_memoryOf {P : MemoryPoolId → MemoryAcc → Prop} (hnon : ∀ pool, P pool {}) :
    (∀ e ∈ a.memory.entries, P e.1 e.2) ↔ ∀ pool, P pool (a.memoryOf pool) := by
  constructor
  · intro h pool
    unfold memoryOf
    cases hlkp : a.memory.lookup pool with
    | none => exact hnon pool
    | some entry => exact h ⟨pool, entry⟩ (mem_lookup_iff.mp hlkp)
  · intro h e he
    rw [← memoryOf_of_mem he]
    exact h e.1

theorem forall_storageOf {P : StoragePoolId → ℕ → Prop} (hnon : ∀ id, P id 0) :
    (∀ e ∈ a.storage.entries, P e.1 e.2) ↔ ∀ id, P id (a.storageOf id) := by
  constructor
  · intro h id
    unfold storageOf
    cases hlkp : a.storage.lookup id with
    | none => exact hnon id
    | some bytes => exact h ⟨id, bytes⟩ (mem_lookup_iff.mp hlkp)
  · intro h e he
    rw [← storageOf_of_mem he]
    exact h e.1

theorem poolNoWorse_iff (ha : a.InBounds) (hb : b.InBounds) (pool : MemoryPoolId) :
    poolNoWorse (a.memoryOf pool) (b.memoryOf pool) = true ↔
      (a.memoryOf pool).pinnedBytes + (a.memoryOf pool).transientWorkingSetBytes ≤
          (b.memoryOf pool).pinnedBytes + (b.memoryOf pool).transientWorkingSetBytes ∧
        (a.memoryOf pool).targetResidentBytes ≤ (b.memoryOf pool).targetResidentBytes := by
  unfold poolNoWorse
  rw [minimumWorkingSetBytes_eq ha, minimumWorkingSetBytes_eq hb]
  rw [and_eq_true, decide_eq_true_eq, decide_eq_true_eq]

/-- **To be no worse is to use no more** of anything. -/
theorem noWorseThan_iff (ha : a.InBounds) (hb : b.InBounds) :
    a.noWorseThan b = true ↔ a.use ≤ b.use := by
  have hmem : (a.memory.entries.all fun e => poolNoWorse e.2 (b.memoryOf e.1)) = true ↔
      ∀ pool, (a.memoryOf pool).pinnedBytes + (a.memoryOf pool).transientWorkingSetBytes ≤
          (b.memoryOf pool).pinnedBytes + (b.memoryOf pool).transientWorkingSetBytes ∧
        (a.memoryOf pool).targetResidentBytes ≤ (b.memoryOf pool).targetResidentBytes := by
    rw [all_eq_true, forall_memoryOf (P := fun pool entry =>
      poolNoWorse entry (b.memoryOf pool) = true)]
    · exact forall_congr' (poolNoWorse_iff ha hb)
    · intro pool
      unfold poolNoWorse
      rw [minimumWorkingSetBytes_eq hb]
      exact Bool.and_eq_true_iff.mpr ⟨decide_eq_true (zero_le _), decide_eq_true (zero_le _)⟩
  have hstorage : (a.storage.entries.all fun e => decide (e.2 ≤ b.storageOf e.1)) = true ↔
      ∀ id, a.storageOf id ≤ b.storageOf id := by
    simp only [all_eq_true, decide_eq_true_eq]
    exact forall_storageOf (P := fun id bytes => bytes ≤ b.storageOf id) fun _ => zero_le _
  unfold noWorseThan
  rw [use_le, and_eq_true, and_eq_true, and_eq_true, and_eq_true, hmem,
    hstorage, decide_eq_true_eq, decide_eq_true_eq, decide_eq_true_eq, and_assoc, and_assoc,
    and_assoc]

/-- **To be strictly better is to use less.** -/
theorem strictlyBetterThan_iff (ha : a.InBounds) (hb : b.InBounds) :
    a.strictlyBetterThan b = true ↔ a.use < b.use := by
  have hmem : (b.memory.entries.any fun e =>
      optionLt (a.memoryOf e.1).minimumWorkingSetBytes e.2.minimumWorkingSetBytes ||
        decide ((a.memoryOf e.1).targetResidentBytes < e.2.targetResidentBytes)) = false ↔
      ∀ pool, (b.memoryOf pool).pinnedBytes + (b.memoryOf pool).transientWorkingSetBytes ≤
          (a.memoryOf pool).pinnedBytes + (a.memoryOf pool).transientWorkingSetBytes ∧
        (b.memoryOf pool).targetResidentBytes ≤ (a.memoryOf pool).targetResidentBytes := by
    rw [any_eq_false, forall_memoryOf (P := fun pool entry =>
      ¬ (optionLt (a.memoryOf pool).minimumWorkingSetBytes entry.minimumWorkingSetBytes ||
        decide ((a.memoryOf pool).targetResidentBytes < entry.targetResidentBytes)) = true)]
    · refine forall_congr' fun pool => ?_
      rw [minimumWorkingSetBytes_eq ha, minimumWorkingSetBytes_eq hb]
      unfold optionLt
      rw [or_eq_true, decide_eq_true_eq, decide_eq_true_eq, not_or, not_lt, not_lt]
    · intro pool
      rw [minimumWorkingSetBytes_eq ha]
      simp [optionLt, MemoryAcc.minimumWorkingSetBytes]
  have hstorage : (b.storage.entries.any fun e => decide (a.storageOf e.1 < e.2)) = false ↔
      ∀ id, b.storageOf id ≤ a.storageOf id := by
    simp only [any_eq_false, decide_eq_true_eq, not_lt]
    exact forall_storageOf (P := fun id bytes => bytes ≤ a.storageOf id) fun _ => zero_le _
  unfold strictlyBetterThan
  rw [lt_iff_le_not_ge (a := a.use), and_eq_true, noWorseThan_iff ha hb]
  refine and_congr_right fun _ => ?_
  rw [← Bool.not_eq_false, not_iff_not, use_le, or_eq_false_iff, or_eq_false_iff,
    or_eq_false_iff, or_eq_false_iff, hmem, hstorage, decide_eq_false_iff_not,
    decide_eq_false_iff_not, decide_eq_false_iff_not, not_lt, not_lt, not_lt]
  tauto

end ResourceAcc

/-! ## Partial plans -/

/-- What a partial plan costs. -/
def State.cost (s : State) : ℕ × ℕ × ℕ × Use :=
  (s.qualityLossPpm, s.latencyCost, s.packageBytes, s.resources.use)

theorem State.cost_le {l r : State} : l.cost ≤ r.cost ↔
    l.qualityLossPpm ≤ r.qualityLossPpm ∧ l.latencyCost ≤ r.latencyCost ∧
    l.packageBytes ≤ r.packageBytes ∧ l.resources.use ≤ r.resources.use := Iff.rfl

theorem lt_or_iff {a b : ℕ} {P Q : Prop} (h : P ↔ ¬ Q) : a < b ∨ P ↔ ¬ (b ≤ a ∧ Q) := by
  rw [not_and_or, Nat.not_le, h]

theorem lt_iff_of_le {X : Type} [Preorder X] {x y : X} (h : x ≤ y) : x < y ↔ ¬ y ≤ x := by
  rw [lt_iff_le_not_ge, and_iff_right h]

theorem stateDominates_iff {l r : State} (hl : l.resources.InBounds) (hr : r.resources.InBounds) :
    stateDominates l r = true ↔ l.cost < r.cost := by
  unfold stateDominates
  rw [lt_iff_le_not_ge (a := l.cost), State.cost_le, State.cost_le]
  simp only [and_eq_true, or_eq_true, decide_eq_true_eq,
    ResourceAcc.noWorseThan_iff hl hr, ResourceAcc.strictlyBetterThan_iff hl hr, or_assoc,
    and_assoc]
  refine and_congr_right fun _ => and_congr_right fun _ => and_congr_right fun _ =>
    and_congr_right fun huse => ?_
  exact lt_or_iff (lt_or_iff (lt_or_iff (lt_iff_of_le huse)))

theorem replaces_iff {l r : State} (hl : l.resources.InBounds) (hr : r.resources.InBounds) :
    replaces l r = true ↔ l.lastDispatchClass = r.lastDispatchClass ∧ l.cost < r.cost := by
  unfold replaces
  rw [and_eq_true, decide_eq_true_eq, stateDominates_iff hl hr]

theorem replaces_trans {a b c : State} (ha : a.resources.InBounds) (hb : b.resources.InBounds)
    (hc : c.resources.InBounds) (hab : replaces a b = true) (hbc : replaces b c = true) :
    replaces a c = true := by
  obtain ⟨hcl, hlt⟩ := (replaces_iff ha hb).mp hab
  obtain ⟨hcl', hlt'⟩ := (replaces_iff hb hc).mp hbc
  exact (replaces_iff ha hc).mpr ⟨hcl.trans hcl', hlt.trans hlt'⟩

/-! ## Plans -/

/-- The usage lists each pool once. -/
structure TieredResourceUsage.Listed (u : TieredResourceUsage) : Prop where
  memory : ∀ p ∈ u.memoryPools,
    memoryUse u p.pool = (p.minimumWorkingSetBytes, p.targetResidentBytes)
  storage : ∀ p ∈ u.storagePools, storageUse u p.pool = p.mutableBackingBytes

theorem listed_usageOf (rs : List ResourcePlan) : (usageOf rs).Listed where
  memory := by
    intro p hp
    rw [memoryUse_usageOf]
    obtain ⟨pool, -, rfl⟩ := mem_map.mp hp
    rfl
  storage := by
    intro p hp
    rw [storageUse_usageOf]
    obtain ⟨id, -, rfl⟩ := mem_map.mp hp
    rfl

section Usage

variable {u v : TieredResourceUsage}

theorem TieredResourceUsage.use_le : u.use ≤ v.use ↔
    (∀ pool, (memoryUse u pool).1 ≤ (memoryUse v pool).1 ∧
      (memoryUse u pool).2 ≤ (memoryUse v pool).2) ∧ (∀ id, storageUse u id ≤ storageUse v id) ∧
    u.immutablePackageBackingBytes ≤ v.immutablePackageBackingBytes ∧
    u.storageReadBytesPerStep ≤ v.storageReadBytesPerStep ∧
    u.storageWriteBytesPerStep ≤ v.storageWriteBytesPerStep := Iff.rfl

/-- What holds of each memory pool that is listed, and of a pool that is not
used, holds of every pool. -/
theorem forall_memoryUse (h : u.Listed) {P : MemoryPoolId → ℕ → ℕ → Prop}
    (hnon : ∀ pool, P pool 0 0) :
    (∀ p ∈ u.memoryPools, P p.pool p.minimumWorkingSetBytes p.targetResidentBytes) ↔
      ∀ pool, P pool (memoryUse u pool).1 (memoryUse u pool).2 := by
  constructor
  · intro hlis pool
    unfold memoryUse
    cases hfnd : u.memoryPools.find? fun p => p.pool = pool with
    | none => exact hnon pool
    | some p =>
      have hpl := List.find?_some hfnd
      rw [decide_eq_true_eq] at hpl
      rw [← hpl]
      exact hlis p (List.mem_of_find?_eq_some hfnd)
  · intro hall p hp
    have hpl := hall p.pool
    rwa [h.memory p hp] at hpl

theorem forall_storageUse (h : u.Listed) {P : StoragePoolId → ℕ → Prop} (hnon : ∀ id, P id 0) :
    (∀ p ∈ u.storagePools, P p.pool p.mutableBackingBytes) ↔ ∀ id, P id (storageUse u id) := by
  constructor
  · intro hlis id
    unfold storageUse
    cases hfnd : u.storagePools.find? fun p => p.pool = id with
    | none => exact hnon id
    | some p =>
      have hpl := List.find?_some hfnd
      rw [decide_eq_true_eq] at hpl
      rw [← hpl]
      exact hlis p (List.mem_of_find?_eq_some hfnd)
  · intro hall p hp
    have hpl := hall p.pool
    rwa [h.storage p hp] at hpl

theorem usageNoWorse_iff (hu : u.Listed) : usageNoWorse u v = true ↔ u.use ≤ v.use := by
  unfold usageNoWorse
  simp only [and_eq_true, all_eq_true, decide_eq_true_eq, and_assoc]
  rw [TieredResourceUsage.use_le, forall_memoryUse hu (P := fun pool minimum target =>
    minimum ≤ (memoryUse v pool).1 ∧ target ≤ (memoryUse v pool).2), forall_storageUse hu
    (P := fun id bytes => bytes ≤ storageUse v id)]
  · exact fun _ => zero_le _
  · exact fun _ => ⟨zero_le _, zero_le _⟩

theorem usageStrictlyBetter_iff (hu : u.Listed) (hv : v.Listed) :
    usageStrictlyBetter u v = true ↔ u.use < v.use := by
  have hmem : (v.memoryPools.any fun p =>
      decide ((memoryUse u p.pool).1 < p.minimumWorkingSetBytes) ||
        decide ((memoryUse u p.pool).2 < p.targetResidentBytes)) = false ↔
      ∀ pool, (memoryUse v pool).1 ≤ (memoryUse u pool).1 ∧
        (memoryUse v pool).2 ≤ (memoryUse u pool).2 := by
    simp only [any_eq_false, or_eq_true, decide_eq_true_eq, not_or, not_lt]
    exact forall_memoryUse hv (P := fun pool minimum target =>
      minimum ≤ (memoryUse u pool).1 ∧ target ≤ (memoryUse u pool).2)
      fun _ => ⟨zero_le _, zero_le _⟩
  have hstorage : (v.storagePools.any fun p =>
      decide (storageUse u p.pool < p.mutableBackingBytes)) = false ↔
      ∀ id, storageUse v id ≤ storageUse u id := by
    simp only [any_eq_false, decide_eq_true_eq, not_lt]
    exact forall_storageUse hv (P := fun id bytes => bytes ≤ storageUse u id)
      fun _ => zero_le _
  unfold usageStrictlyBetter
  rw [lt_iff_le_not_ge (a := u.use), and_eq_true, usageNoWorse_iff hu]
  refine and_congr_right fun _ => ?_
  rw [← Bool.not_eq_false, not_iff_not, TieredResourceUsage.use_le, or_eq_false_iff,
    or_eq_false_iff, or_eq_false_iff, or_eq_false_iff, hmem, hstorage,
    decide_eq_false_iff_not, decide_eq_false_iff_not, decide_eq_false_iff_not, not_lt,
    not_lt, not_lt]
  tauto

end Usage

/-- The costs of a plan, with the tokens the other way around. -/
def metricsCost (m : TieredPlanMetrics) : ℕ × ℕᵒᵈ × ℕ × ℕ × Use :=
  (m.qualityLossPpm, OrderDual.toDual m.contextTokens, m.latencyCost, m.packageBytes,
    m.resourceUsage.use)

theorem metricsCost_le {l r : TieredPlanMetrics} : metricsCost l ≤ metricsCost r ↔
    l.qualityLossPpm ≤ r.qualityLossPpm ∧ r.contextTokens ≤ l.contextTokens ∧
    l.latencyCost ≤ r.latencyCost ∧ l.packageBytes ≤ r.packageBytes ∧
    l.resourceUsage.use ≤ r.resourceUsage.use := Iff.rfl

/-- **To dominate is to be less.** -/
theorem metricsDominate_iff {l r : TieredPlanMetrics} (hl : l.resourceUsage.Listed)
    (hr : r.resourceUsage.Listed) : metricsDominate l r = true ↔ metricsCost l < metricsCost r := by
  unfold metricsDominate
  rw [lt_iff_le_not_ge (a := metricsCost l), metricsCost_le, metricsCost_le]
  simp only [and_eq_true, or_eq_true, decide_eq_true_eq, usageNoWorse_iff hl,
    usageStrictlyBetter_iff hl hr, or_assoc, and_assoc]
  refine and_congr_right fun _ => and_congr_right fun _ => and_congr_right fun _ =>
    and_congr_right fun _ => and_congr_right fun huse => ?_
  exact lt_or_iff (lt_or_iff (lt_or_iff (lt_or_iff (lt_iff_of_le huse))))

end Tiered

end Logan
