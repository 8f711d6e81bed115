import Logan.Plan.TieredOrder

/-!
# Growing accounts

What happens to accounts when resources are added does not depend on how they
came about, only on what they hold; so accounts that hold no more, item by
item, have room for whatever others have room for. For this the pinned bytes
and the transient ones have to be compared separately, since the former are
added and the latter are not.

The only errors are sums out of range, and resources that refer to pools which
the budget does not have.
-/

namespace Logan

open List

namespace Tiered

namespace ResourceAcc

variable {a b acc : ResourceAcc} {budget : ResourceBudget} {r : ResourcePlan}

theorem memoryOf_accumulate (pool : MemoryPoolId) : (acc.accumulate r).memoryOf pool =
    if pool = r.residency.memoryPool then acc.grown r else acc.memoryOf pool := by
  show ((acc.memory.insert r.residency.memoryPool (acc.grown r)).lookup pool).getD {} = _
  rw [Table.lookup_insert]
  split_ifs
  · rfl
  · rfl

theorem storageOf_accumulate (id : StoragePoolId) : (acc.accumulate r).storageOf id =
    acc.storageOf id + if r.storedIn = some id then r.backing.bytes else 0 := by
  show ((acc.grownStorage r).lookup id).getD 0 = _
  unfold grownStorage
  cases hst : r.storedIn with
  | none => rfl
  | some id' =>
    rw [Table.lookup_insert]
    by_cases hid : id = id'
    · rw [if_pos hid, if_pos (congrArg some hid.symm), hid]
      rfl
    · rw [if_neg hid, if_neg (fun h => hid (Option.some.inj h).symm)]
      rfl

/-- **Accounts hold no more than others**, item by item. -/
structure NoMore (a b : ResourceAcc) : Prop where
  pinned : ∀ pool, (a.memoryOf pool).pinnedBytes ≤ (b.memoryOf pool).pinnedBytes
  transient : ∀ pool,
    (a.memoryOf pool).transientWorkingSetBytes ≤ (b.memoryOf pool).transientWorkingSetBytes
  target : ∀ pool, (a.memoryOf pool).targetResidentBytes ≤ (b.memoryOf pool).targetResidentBytes
  stored : ∀ id, a.storageOf id ≤ b.storageOf id
  packaged : a.immutablePackageBackingBytes ≤ b.immutablePackageBackingBytes
  reads : a.storageReadBytesPerStep ≤ b.storageReadBytesPerStep
  writes : a.storageWriteBytesPerStep ≤ b.storageWriteBytesPerStep

namespace NoMore

theorem refl (a : ResourceAcc) : NoMore a a where
  pinned _ := le_rfl
  transient _ := le_rfl
  target _ := le_rfl
  stored _ := le_rfl
  packaged := le_rfl
  reads := le_rfl
  writes := le_rfl

theorem trans {c : ResourceAcc} (hab : NoMore a b) (hbc : NoMore b c) : NoMore a c where
  pinned pool := (hab.pinned pool).trans (hbc.pinned pool)
  transient pool := (hab.transient pool).trans (hbc.transient pool)
  target pool := (hab.target pool).trans (hbc.target pool)
  stored id := (hab.stored id).trans (hbc.stored id)
  packaged := hab.packaged.trans hbc.packaged
  reads := hab.reads.trans hbc.reads
  writes := hab.writes.trans hbc.writes

theorem use_le (h : NoMore a b) : a.use ≤ b.use :=
  ResourceAcc.use_le.mpr ⟨fun pool => ⟨Nat.add_le_add (h.pinned pool) (h.transient pool),
    h.target pool⟩, h.stored, h.packaged, h.reads, h.writes⟩

/-- **One more resource** leaves the accounts no more than the others. -/
theorem accumulate (h : NoMore a b) (r : ResourcePlan) :
    NoMore (a.accumulate r) (b.accumulate r) := by
  refine ⟨fun pool => ?_, fun pool => ?_, fun pool => ?_, fun id => ?_, ?_, ?_, ?_⟩
  · rw [memoryOf_accumulate, memoryOf_accumulate]
    split_ifs
    · exact Nat.add_le_add_right (h.pinned _) _
    · exact h.pinned pool
  · rw [memoryOf_accumulate, memoryOf_accumulate]
    split_ifs
    · exact max_le_max (h.transient _) le_rfl
    · exact h.transient pool
  · rw [memoryOf_accumulate, memoryOf_accumulate]
    split_ifs
    · exact Nat.add_le_add_right (h.target _) _
    · exact h.target pool
  · rw [storageOf_accumulate, storageOf_accumulate]
    exact Nat.add_le_add_right (h.stored id) _
  · exact Nat.add_le_add_right h.packaged _
  · exact Nat.add_le_add_right h.reads _
  · exact Nat.add_le_add_right h.writes _

theorem foldl (h : NoMore a b) (rs : List ResourcePlan) :
    NoMore (rs.foldl ResourceAcc.accumulate a) (rs.foldl ResourceAcc.accumulate b) := by
  induction rs generalizing a b with
  | nil => exact h
  | cons r rs ih => exact ih (h.accumulate r)

end NoMore

/-- Whether there is room depends on the new totals of the memory pool and of
the storage pool only. -/
theorem hasRoom_mono (hmem : (a.grown r).pinnedBytes + (a.grown r).transientWorkingSetBytes ≤
      (b.grown r).pinnedBytes + (b.grown r).transientWorkingSetBytes ∨
      (a.grown r).pinnedBytes + (a.grown r).transientWorkingSetBytes ≤
        (b.grown r).targetResidentBytes)
    (htar : (a.grown r).targetResidentBytes ≤ (b.grown r).targetResidentBytes)
    (hst : ∀ id, a.storageOf id ≤ b.storageOf id) (h : b.hasRoom budget r = true) :
    a.hasRoom budget r = true := by
  obtain ⟨hb, hbs⟩ := Bool.and_eq_true_iff.mp h
  refine Bool.and_eq_true_iff.mpr ⟨?_, ?_⟩
  · cases hcap : budget.memoryCapacity r.residency.memoryPool with
    | none =>
      unfold hasMemory at hb
      rw [hcap] at hb
      cases hb
    | some =>
      rw [hasMemory_eq hcap, Bool.not_eq_true', Bool.or_eq_false_iff,
        decide_eq_false_iff_not, decide_eq_false_iff_not, Nat.not_lt, Nat.not_lt] at hb ⊢
      refine ⟨?_, htar.trans hb.2⟩
      rcases hmem with hmem | hmem
      · exact hmem.trans hb.1
      · exact hmem.trans hb.2
  · unfold hasStorage at hbs ⊢
    cases hid : r.storedIn with
    | none =>
      rwa [hid] at hbs
    | some id =>
      rw [hid] at hbs
      dsimp only at hbs ⊢
      cases hpl : budget.storagePool id with
      | none =>
        rw [hpl] at hbs
        cases hbs
      | some =>
        rw [hpl] at hbs
        dsimp only at hbs ⊢
        rw [Bool.and_eq_true, decide_eq_true_eq] at hbs ⊢
        exact ⟨hbs.1, (Nat.add_le_add_right (hst id) _).trans hbs.2⟩

/-- **Whoever holds no more has room** for whatever the other one has room
for. -/
theorem NoMore.hasRoom (h : NoMore a b) (hb : b.hasRoom budget r = true) :
    a.hasRoom budget r = true := by
  refine hasRoom_mono (Or.inl (Nat.add_le_add ?_ ?_)) ?_ h.stored hb
  · exact Nat.add_le_add_right (h.pinned _) _
  · exact max_le_max (h.transient _) le_rfl
  · exact Nat.add_le_add_right (h.target _) _

/-- Whether there is room for all resources of a list. -/
def hasRoomAll (budget : ResourceBudget) : ResourceAcc → List ResourcePlan → Bool
  | _, [] => true
  | acc, r :: rs => acc.hasRoom budget r && hasRoomAll budget (acc.accumulate r) rs

/-- **What is computed is what is meant**, for a list of resources. -/
theorem addResources_eq_ok {rs : List ResourcePlan} {p : Bool × ResourceAcc}
    (h : acc.addResources budget rs = .ok p) :
    p.1 = hasRoomAll budget acc rs ∧ (p.1 = true → p.2 = rs.foldl accumulate acc) := by
  induction rs generalizing acc with
  | nil =>
    obtain rfl := Except.ok.inj h
    exact ⟨rfl, fun _ => rfl⟩
  | cons r rs ih =>
    obtain ⟨q, hq, h⟩ := Result.bind_eq_ok.mp h
    obtain ⟨hrm, hth⟩ := addResource_eq_ok hq
    rw [hasRoomAll, ← hrm]
    cases hfst : q.1 with
    | false =>
      rw [hfst] at h
      obtain rfl := Except.ok.inj h
      exact ⟨rfl, by rintro ⟨⟩⟩
    | true =>
      rw [hfst, if_pos rfl, (hth hfst).2.1] at h
      rw [Bool.true_and]
      exact ih h

theorem NoMore.hasRoomAll {rs : List ResourcePlan} (h : NoMore a b)
    (hb : ResourceAcc.hasRoomAll budget b rs = true) :
    ResourceAcc.hasRoomAll budget a rs = true := by
  induction rs generalizing a b with
  | nil => rfl
  | cons r rs ih =>
    obtain ⟨hfst, hres⟩ := Bool.and_eq_true_iff.mp hb
    exact Bool.and_eq_true_iff.mpr ⟨h.hasRoom hfst, ih (h.accumulate r) hres⟩

end ResourceAcc

variable {input : TieredOptimizerInput}

section Room

variable {acc : ResourceAcc} {budget : ResourceBudget} {rs : List ResourcePlan}

/-- **There is room for a list** if all of it fits. -/
theorem hasRoomAll_of_fits (h : Accounts acc rs) {l : List ResourcePlan}
    (hval : ∀ r ∈ l, r.validate = .ok ()) (hfit : Fits (l.reverse ++ rs) budget) :
    ResourceAcc.hasRoomAll budget acc l = true := by
  induction l generalizing acc rs with
  | nil => rfl
  | cons r l ih =>
    rw [reverse_cons, append_assoc, singleton_append] at hfit
    have hfst : Fits (r :: rs) budget :=
      hfit.of_subperm (sublist_append_right _ _).subperm
    refine Bool.and_eq_true_iff.mpr ⟨?_, ih (h.accumulate r)
      (fun r' hr' => hval r' (mem_cons_of_mem r hr')) hfit⟩
    exact (h.hasRoom_iff (hval r mem_cons_self)
      (hfst.of_subperm (sublist_cons_self r rs).subperm)).mpr hfst

/-- **Whatever fits is at the end of a path.** -/
theorem path_of_picks {gs : List TieredCandidateGroup} {is : List ℕ}
    {os : List TieredRepresentationCandidate} (his : Picks gs is os) (s : State)
    (hrm : ResourceAcc.hasRoomAll input.resourceBudget s.resources
      (os.map TieredRepresentationCandidate.resource) = true) :
    (search input).Path (step input) s gs os (growAll input s os is) := by
  induction his generalizing s with
  | nil => rfl
  | @cons g i o gs is os ho hres ih =>
    obtain ⟨hfst, hrm⟩ := Bool.and_eq_true_iff.mp hrm
    exact ⟨i, grow input s o i, ho, if_pos hfst, ih (grow input s o i) hrm⟩

theorem hasRoomAll_append {l l' : List ResourcePlan} :
    ResourceAcc.hasRoomAll budget acc (l ++ l') = (ResourceAcc.hasRoomAll budget acc l &&
        ResourceAcc.hasRoomAll budget (l.foldl ResourceAcc.accumulate acc) l') := by
  induction l generalizing acc with
  | nil => rfl
  | cons r l ih =>
    rw [cons_append, ResourceAcc.hasRoomAll, ResourceAcc.hasRoomAll, ih, Bool.and_assoc]
    rfl

end Room

/-! ## Errors -/

/-- The error is that a sum is out of range. -/
def IsOverflow (e : PlannerError) : Prop := ∃ message, e = .overflow message

/-- The error is that something is not well-formed. -/
def IsInvalid (e : PlannerError) : Prop := ∃ message, e = .invalid message

/-- The budget has the pools of a resource. -/
structure Known (budget : ResourceBudget) (r : ResourcePlan) : Prop where
  memory : budget.memoryCapacity r.residency.memoryPool ≠ none
  storage : ∀ id, r.storedIn = some id → budget.storagePool id ≠ none

section Errors

variable {acc : ResourceAcc} {budget : ResourceBudget} {r : ResourcePlan} {e : PlannerError}

theorem isOverflow_of_checkedAdd {x y : ℕ} {message : String}
    (h : checkedAdd x y message = .error e) : IsOverflow e := by
  unfold checkedAdd at h
  split_ifs at h
  exact ⟨message, (Except.error.inj h).symm⟩

/-- A chain only ends in a sum out of range if none of its parts ends in
another error. -/
theorem isOverflow_of_bind {A B : Type} {x : Except PlannerError A}
    {f : A → Except PlannerError B} (h : (x >>= f) = .error e)
    (hx : x = .error e → IsOverflow e)
    (hf : ∀ a, x = .ok a → f a = .error e → IsOverflow e) : IsOverflow e := by
  rcases Result.bind_eq_error.mp h with h | ⟨a, ha, h⟩
  · exact hx h
  · exact hf a ha h

theorem isOverflow_of_addAccess (h : acc.addAccess r = .error e) : IsOverflow e := by
  refine isOverflow_of_bind h isOverflow_of_checkedAdd fun _ _ h => ?_
  refine isOverflow_of_bind h isOverflow_of_checkedAdd fun _ _ h => ?_
  cases h

theorem isOverflow_of_addMemory {entry : MemoryAcc} (hval : r.validate = .ok ())
    (h : ResourceAcc.addMemory entry r = .error e) : IsOverflow e := by
  refine isOverflow_of_bind h isOverflow_of_checkedAdd fun _ _ h => ?_
  rw [if_neg (Nat.not_lt.mpr (ResourcePlan.validate_spec hval).1)] at h
  refine isOverflow_of_bind h isOverflow_of_checkedAdd fun _ _ h => ?_
  refine isOverflow_of_bind h isOverflow_of_checkedAdd fun _ _ h => ?_
  cases h

theorem isOverflow_of_addStored {pool : StoragePoolBudget}
    (h : acc.addStored pool r = .error e) : IsOverflow e := by
  unfold ResourceAcc.addStored at h
  split_ifs at h
  refine isOverflow_of_bind h isOverflow_of_checkedAdd fun stored _ h => ?_
  by_cases hful : pool.availableBytes < stored
  · rw [if_pos hful] at h
    cases h
  · rw [if_neg hful] at h
    exact isOverflow_of_addAccess h

theorem isOverflow_of_addBacking (hval : r.validate = .ok ()) (hkn : IsInvalid e → Known budget r)
    (h : acc.addBacking budget r = .error e) : IsOverflow e := by
  obtain ⟨-, -, hst, -⟩ := ResourcePlan.validate_spec hval
  cases hkin : r.stored with
  | true =>
    obtain ⟨id, hid, hstr⟩ := hst hkin
    rw [ResourceAcc.addBacking_of_stored hkin, ResourceAcc.addToPool_eq hid] at h
    cases hpl : budget.storagePool id with
    | none =>
      rw [hpl] at h
      exact absurd hpl ((hkn ⟨_, (Except.error.inj h).symm⟩).storage id hstr)
    | some =>
      rw [hpl] at h
      exact isOverflow_of_addStored h
  | false =>
    unfold ResourceAcc.addBacking at h
    unfold ResourcePlan.stored at hkin
    cases hbac : r.backing.kind with
    | runtimeStateFile | devicePersistent => rw [hbac] at hkin; cases hkin
    | residentOnly =>
      rw [hbac] at h
      exact isOverflow_of_addAccess h
    | packageRecord =>
      rw [hbac] at h
      exact isOverflow_of_bind h isOverflow_of_checkedAdd fun _ _ h => isOverflow_of_addAccess h

/-- **A well-formed resource** makes no other error, if its pools are known. -/
theorem isOverflow_of_addResource (hval : r.validate = .ok ()) (hkn : IsInvalid e → Known budget r)
    (h : acc.addResource budget r = .error e) : IsOverflow e := by
  cases hcap : budget.memoryCapacity r.residency.memoryPool with
  | none =>
    unfold ResourceAcc.addResource at h
    rw [hval, Result.ok_bind, hcap] at h
    exact absurd hcap (hkn ⟨_, (Except.error.inj h).symm⟩).memory
  | some =>
    rw [ResourceAcc.addResource_eq hval hcap] at h
    refine isOverflow_of_bind h (isOverflow_of_addMemory hval) fun _ _ h => ?_
    split_ifs at h
    · cases h
    · exact isOverflow_of_addBacking hval hkn h

theorem isOverflow_of_addResources {rs : List ResourcePlan}
    (hval : ∀ r ∈ rs, r.validate = .ok ()) (hkn : IsInvalid e → ∀ r ∈ rs, Known budget r)
    (h : acc.addResources budget rs = .error e) : IsOverflow e := by
  induction rs generalizing acc with
  | nil => cases h
  | cons r rs ih =>
    refine isOverflow_of_bind h (isOverflow_of_addResource (hval r mem_cons_self)
      fun he => hkn he r mem_cons_self) fun p _ h => ?_
    split_ifs at h
    · exact ih (fun r' hr' => hval r' (mem_cons_of_mem r hr'))
        (fun he r' hr' => hkn he r' (mem_cons_of_mem r hr')) h
    · cases h

theorem isOverflow_of_extendState {s : State} {o : TieredRepresentationCandidate} {i : ℕ}
    (hval : o.resource.validate = .ok ())
    (hkn : IsInvalid e → Known input.resourceBudget o.resource)
    (h : extendState input s o i = .error e) : IsOverflow e := by
  refine isOverflow_of_bind h (isOverflow_of_addResource hval hkn) fun p _ h => ?_
  by_cases hfit : (!p.1) = true
  · rw [if_pos hfit] at h
    cases h
  rw [if_neg hfit] at h
  refine isOverflow_of_bind h (fun h => ?_) fun _ _ h => ?_
  · refine isOverflow_of_bind h isOverflow_of_checkedAdd fun _ _ h => ?_
    split_ifs at h
    · exact isOverflow_of_checkedAdd h
    · cases h
  · refine isOverflow_of_bind h isOverflow_of_checkedAdd fun _ _ h => ?_
    refine isOverflow_of_bind h isOverflow_of_checkedAdd fun _ _ h => ?_
    cases h

theorem isOverflow_of_usage (h : acc.usage = .error e) : IsOverflow e := by
  refine isOverflow_of_bind h (fun h => ?_) fun _ _ h => ?_
  · obtain ⟨entry, -, h⟩ := error_of_tryFilterMap h
    unfold ResourceAcc.memoryUsage at h
    split at h
    · cases h
    · exact ⟨_, (Except.error.inj h).symm⟩
  · cases h

theorem isOverflow_of_completeState {context : TieredContextCandidate} {s : State}
    (hval : ∀ r ∈ context.resources, r.validate = .ok ())
    (hkn : IsInvalid e → ∀ r ∈ context.resources, Known input.resourceBudget r)
    (h : completeState input context s = .error e) : IsOverflow e := by
  refine isOverflow_of_bind h (isOverflow_of_addResources hval hkn) fun _ _ h => ?_
  split_ifs at h
  · cases h
  refine isOverflow_of_bind h isOverflow_of_checkedAdd fun _ _ h => ?_
  refine isOverflow_of_bind h isOverflow_of_usage fun _ _ h => ?_
  cases h

end Errors

end Tiered

end Logan
