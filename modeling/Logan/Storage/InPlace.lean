import Logan.Format.RegionSafety
import Logan.Storage.PlanRecords

/-!
# Rewriting a package in place

A package that is recompiled without a second directory keeps its shards and the
offsets of its records. `plan_in_place` gives each record the **slot** from its
offset to the next larger offset of the shard, or to the end of the shard, and
refuses the plan where a new payload is too long for its slot.

Slots of different offsets are apart. The reader of packages has checked each
record on its own, though: it accepts two records at the same offset, and records
at offset zero, where the header of the shard is. `RangesApart` then fails for
payloads that are not empty, and only then.
-/

namespace Logan

open List
open Result (bind_eq_ok)

namespace Storage

open Format Rans256 Result

/-- What `plan_in_place` reads of an `Action`. -/
structure Action where
  source : RecordInfo
  lowered : LoweredRecord

/-- The larger offsets of the shard of a record. -/
def laterOffsets (records : List RecordInfo) (source : RecordInfo) : List ℕ :=
  (records.filter fun other => other.shardId = source.shardId ∧ source.offset < other.offset).map
    (·.offset.toNat)

/-- The first of them, or the size of the shard. -/
def slotEnd (records : List RecordInfo) (source : RecordInfo) (shardSize : ℕ) : ℕ :=
  (laterOffsets records source).min?.getD shardSize

/-- One action: its record must fit in its slot. -/
def placeInPlace (records : List RecordInfo) (sizes : List ℕ) (name : String) (alignment : ℕ)
    (s : List PlannedRecord × ℕ) (action : Action) :
    Except ColicError (List PlannedRecord × ℕ) := do
  let source := action.source
  let offset := source.offset.toNat
  let shardSize ← okOr (sizes[source.shardId.toNat]?)
    (.usage "record refers to an invalid source shard")
  refuse (offset % alignment ≠ 0) (.usage s!"record {source.id} offset {offset} is not aligned for target {name} ({alignment} bytes); low-space --in-place cannot relocate records")
  let stop := slotEnd records source shardSize
  refuse (stop < offset) (.usage s!"record {source.id} has an invalid physical slot")
  let capacity := stop - offset
  let stored := action.lowered.storedBytes
  refuse (stored > capacity) (.usage s!"record {source.id} (layer={source.layer.toInt32} expert={source.expert.toInt32}) needs {stored} bytes but its in-place slot holds {capacity} ({stored - capacity} bytes short); use a separate output path or choose a non-growing transform")
  let total ← okOr (checkedSum s.2 stored) (.usage "in-place stored-byte total overflows u64")
  pure (s.1 ++ [⟨action.lowered, source.shardId.toNat, offset⟩], total)

/-- **`plan_in_place`**, for the name and the alignment of a target. -/
def planInPlace (p : Package) (actions : List Action) (name : String) (alignment : ℕ) :
    Except ColicError (StoragePlan × List ℕ) := do
  let shards ← Rans256.u32At p.manifest 40
  refuse (shards = 0) (.usage "COLI package has no data shards")
  let sizes ← (range shards.toNat).mapM fun shardId =>
    okOr (p.shardFiles[shardId]?.map length) (.usage "source shard id is invalid")
  refuse (actions.length ≠ p.records.length)
    (.usage "in-place action count does not match package records")
  let (planned, stored) ← actions.foldlM (placeInPlace p.records sizes name alignment) ([], 0)
  pure (⟨alignment, sizes.max?.getD 0, shards.toNat, planned, stored, 0⟩, sizes)

/-- **The ranges of the records are apart**, from one another and from the headers, and inside
the shards. -/
structure RangesApart (p : Package) (plan : StoragePlan) : Prop where
  apart : plan.records.Pairwise fun a b => a.shardId = b.shardId → a.record.storedBytes ≠ 0 →
    b.record.storedBytes ≠ 0 → a.stop ≤ b.payloadOffset ∨ b.stop ≤ a.payloadOffset
  header : ∀ a ∈ plan.records, a.record.storedBytes ≠ 0 → dataShardHeaderBytes ≤ a.payloadOffset
  inside : ∀ a ∈ plan.records, ∃ file, p.shardFiles[a.shardId]? = some file ∧ a.stop ≤ file.length

/-- Writing the payload of a record leaves some bytes of its shard as they are. -/
def Spares (p : Package) (a : PlannedRecord) (offset n : ℕ) : Prop :=
  ∀ file, p.shardFiles[a.shardId]? = some file → ∀ payload : List UInt8,
    payload.length = a.record.storedBytes →
      slice (put file a.payloadOffset payload) offset n = slice file offset n

/-- **Rewriting a record** changes no other record, and no header. -/
structure RewritesApart (p : Package) (plan : StoragePlan) : Prop where
  records : plan.records.Pairwise fun a b => a.shardId = b.shardId →
    Spares p a b.payloadOffset b.record.storedBytes
      ∧ Spares p b a.payloadOffset a.record.storedBytes
  header : ∀ a ∈ plan.records, Spares p a 0 dataShardHeaderBytes

variable {p : Package} {actions : List Action} {name : String} {alignment : ℕ}

/-- **Ranges that are apart are rewritten apart.** -/
theorem RangesApart.rewrites {plan : StoragePlan} (h : RangesApart p plan) :
    RewritesApart p plan := by
  have hsp (a : PlannedRecord) (ha : a ∈ plan.records) (offset n : ℕ)
      (hap : a.record.storedBytes ≠ 0 → n ≠ 0 →
        a.stop ≤ offset ∨ offset + n ≤ a.payloadOffset) : Spares p a offset n := by
    intro file hfil payload hpay
    obtain ⟨_, hfil', hst⟩ := h.inside a ha
    obtain rfl := Option.some.inj (hfil.symm.trans hfil')
    rw [PlannedRecord.stop, ← hpay] at hst hap
    by_cases hp : payload = []
    · rw [hp, put, append_nil, length_nil, Nat.add_zero, take_append_drop]
    · by_cases hn : n = 0
      · rw [hn, slice_zero, slice_zero]
      · exact slice_put_of_apart hst (hap (mt length_eq_zero_iff.mp hp) hn)
  refine ⟨h.apart.imp_of_mem fun ha hb hab hsh => ⟨hsp _ ha _ _ (hab hsh),
      hsp _ hb _ _ fun hb' ha' => (hab hsh ha' hb').symm⟩, fun a ha => ?_⟩
  exact hsp a ha _ _ fun hne _ => Or.inr ((Nat.zero_add _).le.trans (h.header a ha hne))

/-- What is planned for an action. -/
def Action.planned (action : Action) : PlannedRecord :=
  ⟨action.lowered, action.source.shardId.toNat, action.source.offset.toNat⟩

/-- An action fits in its slot. -/
def Action.Fits (records : List RecordInfo) (sizes : List ℕ) (action : Action) : Prop :=
  ∃ size, sizes[action.source.shardId.toNat]? = some size ∧
    action.planned.stop ≤ slotEnd records action.source size

/-- **What the loop does.** -/
theorem planned_of_foldlM {records : List RecordInfo} {sizes : List ℕ}
    {s t : List PlannedRecord × ℕ}
    (h : actions.foldlM (placeInPlace records sizes name alignment) s = .ok t) :
    t.1 = s.1 ++ actions.map Action.planned ∧ ∀ a ∈ actions, a.Fits records sizes := by
  induction actions generalizing s with
  | nil =>
    cases h
    exact ⟨(append_nil _).symm, nofun⟩
  | cons action actions ih =>
    rw [foldlM_cons] at h
    obtain ⟨u, hpl, h⟩ := bind_eq_ok.mp h
    obtain ⟨hrec, hfit⟩ := ih h
    obtain ⟨size, hsiz, hpl⟩ := bind_eq_ok.mp hpl
    obtain ⟨_, -, hpl⟩ := bind_eq_ok.mp hpl
    obtain ⟨_, hst, hpl⟩ := bind_eq_ok.mp hpl
    obtain ⟨_, hrm, hpl⟩ := bind_eq_ok.mp hpl
    obtain ⟨_, -, hpl⟩ := bind_eq_ok.mp hpl
    cases hpl
    rw [refuse_eq_ok] at hst hrm
    refine ⟨by rw [hrec, map_cons, append_assoc]; rfl, forall_mem_cons.mpr ⟨?_, hfit⟩⟩
    refine ⟨size, okOr_eq_ok.mp hsiz, ?_⟩
    simp only [PlannedRecord.stop, Action.planned]
    omega

section
variable {records : List RecordInfo} {source : RecordInfo} {size : ℕ}

/-- A slot ends at the next offset, at the latest. -/
theorem slotEnd_le {other : RecordInfo} (hoth : other ∈ records)
    (hsh : other.shardId = source.shardId) (hlt : source.offset < other.offset) :
    slotEnd records source size ≤ other.offset.toNat := by
  have hmem : other.offset.toNat ∈ laterOffsets records source :=
    mem_map_of_mem (mem_filter.mpr ⟨hoth, decide_eq_true ⟨hsh, hlt⟩⟩)
  obtain ⟨a, ha⟩ := Option.isSome_iff_exists.mp (isSome_min?_of_mem hmem)
  rw [slotEnd, ha]
  exact (min?_eq_some_iff.mp ha).2 _ hmem

theorem slotEnd_le_size
    (h : ∀ other ∈ records, other.shardId = source.shardId → other.offset.toNat ≤ size) :
    slotEnd records source size ≤ size := by
  rw [slotEnd]
  cases hmin : (laterOffsets records source).min? with
  | none => exact le_rfl
  | some a =>
    obtain ⟨other, hoth, rfl⟩ := mem_map.mp (min?_eq_some_iff.mp hmin).1
    obtain ⟨hoth, hcon⟩ := mem_filter.mp hoth
    exact h other hoth (of_decide_eq_true hcon).1

end

/-- **A plan that is accepted** has a slot for each action, in the files of the package. -/
theorem fits_of_planInPlace {plan : StoragePlan} {sizes : List ℕ}
    (hpl : planInPlace p actions name alignment = .ok (plan, sizes)) :
    plan.records = actions.map Action.planned ∧ (∀ a ∈ actions, a.Fits p.records sizes)
      ∧ ∀ (i size : ℕ), sizes[i]? = some size → p.shardFiles[i]?.map length = some size := by
  obtain ⟨shards, -, hpl⟩ := bind_eq_ok.mp hpl
  obtain ⟨_, -, hpl⟩ := bind_eq_ok.mp hpl
  obtain ⟨_, hsiz, hpl⟩ := bind_eq_ok.mp hpl
  obtain ⟨_, -, hpl⟩ := bind_eq_ok.mp hpl
  obtain ⟨⟨planned, _⟩, hlp, hpl⟩ := bind_eq_ok.mp hpl
  cases hpl
  obtain ⟨hrec, hfit⟩ := planned_of_foldlM hlp
  refine ⟨hrec, hfit, fun i size hi => ?_⟩
  obtain ⟨hlt, rfl⟩ := List.getElem?_eq_some_iff.mp hi
  exact okOr_eq_ok.mp ((mapM_range_eq_ok.mp hsiz).2 i hlt)

/-- **The ranges of a plan are apart exactly where the package lets them be**: no two records
at the same offset of a shard become non-empty, and no record at offset zero does. -/
theorem rangesApart_iff {crc32c : List UInt8 → UInt32} {d : Directory} {plan : StoragePlan}
    {sizes : List ℕ} (hopen : openPackage crc32c d = .ok p)
    (hsource : actions.map Action.source = p.records)
    (hplan : planInPlace p actions name alignment = .ok (plan, sizes)) :
    RangesApart p plan ∧ RewritesApart p plan ↔
      actions.Pairwise (fun a b => a.source.shardId = b.source.shardId →
        a.source.offset = b.source.offset → a.lowered.storedBytes = 0 ∨ b.lowered.storedBytes = 0)
      ∧ ∀ a ∈ actions, a.source.offset = 0 → a.lowered.storedBytes = 0 := by
  obtain ⟨h, ho⟩ := openPackage_eq_ok.mp hopen
  obtain ⟨hrec, hfit, hsiz⟩ := fits_of_planInPlace hplan
  have hmem (a : Action) (ha : a ∈ actions) : a.source ∈ p.records :=
    hsource ▸ mem_map_of_mem ha
  have hsl (a b : Action) (ha : a ∈ actions) (hb : b ∈ actions)
      (hsh : b.source.shardId = a.source.shardId) (hlt : a.source.offset < b.source.offset) :
      a.planned.stop ≤ b.planned.payloadOffset := by
    obtain ⟨size, -, hst⟩ := hfit a ha
    exact hst.trans (slotEnd_le (hmem b hb) hsh hlt)
  constructor
  · rintro ⟨hap, -⟩
    refine ⟨(pairwise_map.mp (hrec ▸ hap.apart)).imp fun hab hsh hoff => ?_, fun a ha hzer => ?_⟩
    · by_contra hbot
      rw [not_or] at hbot
      have := hab (congrArg UInt32.toNat hsh) hbot.1 hbot.2
      simp only [PlannedRecord.stop, Action.planned, hoff] at this
      omega
    · by_contra hne
      have := hap.header _ (hrec ▸ mem_map_of_mem ha) hne
      simp [Action.planned, hzer, dataShardHeaderBytes] at this
  · rintro ⟨hequ, hzer⟩
    suffices hap : RangesApart p plan from ⟨hap, hap.rewrites⟩
    refine ⟨?_, ?_, ?_⟩
    · rw [hrec, pairwise_map]
      refine hequ.imp_of_mem fun ha hb hab hsh hane hbne => ?_
      have hsh := UInt32.toNat_inj.mp hsh
      rcases lt_trichotomy (UInt64.toNat _) (UInt64.toNat _) with hlt | heq | hgt
      · exact Or.inl (hsl _ _ ha hb hsh.symm (UInt64.lt_iff_toNat_lt.mpr hlt))
      · exact absurd (hab hsh (UInt64.toNat_inj.mp heq)) (not_or.mpr ⟨hane, hbne⟩)
      · exact Or.inr (hsl _ _ hb ha hsh (UInt64.lt_iff_toNat_lt.mpr hgt))
    · rw [hrec, forall_mem_map]
      intro a ha hne
      have hpos : a.source.offset.toNat ≠ 0 := fun h =>
        hne (hzer a ha (UInt64.toNat_inj.mp h))
      have hlim := (readHeader_eq_ok.mp ho.header).alignment_le.2.1
      have hmul := (checkRange_eq_ok.mp (ho.placed _ (hmem a ha)).range).1
      have hle := Nat.le_of_dvd (Nat.pos_of_ne_zero hpos) (Nat.dvd_of_mod_eq_zero hmul)
      simp only [Action.planned, dataShardHeaderBytes]
      omega
    · rw [hrec, forall_mem_map]
      intro a ha
      obtain ⟨size, hsz, hst⟩ := hfit a ha
      obtain ⟨file, hfil, rfl⟩ := Option.map_eq_some_iff.mp (hsiz _ _ hsz)
      refine ⟨file, hfil, hst.trans (slotEnd_le_size fun other hoth hsh => ?_)⟩
      have hrng := (checkRange_eq_ok.mp (ho.placed other hoth).range).2.2
      rw [hsh, getD_eq_getElem?_getD, List.getElem?_map, hfil] at hrng
      exact (Nat.le_add_right _ _).trans hrng

/-- A package with a tensor of eight bytes, at an offset of a shard of 4104 bytes. -/
def movedTensor (offset : UInt64) : Directory :=
  onePackage (List.replicate 4104 0) [(328, u16Bytes 1), (360, u64Bytes offset),
    (368, u64Bytes 8), (384, u32Bytes (Logan.crc32c (List.replicate 8 0)))]

/-- An action that leaves the tensor as it is. -/
def copyAction (offset : UInt64) : Action :=
  ⟨{ zeroTensorRecord 8 with offset := offset }, 1, 2, 8, 0⟩

/-- The plan for it. -/
def copyPlan (offset : UInt64) : StoragePlan :=
  ⟨4096, 4104, 1, [⟨(copyAction offset).lowered, 0, offset.toNat⟩], 8, 0⟩

variable {offset : UInt64}

set_option maxRecDepth 10000 in
/-- The package is opened, and the plan is accepted. -/
theorem planInPlace_movedTensor (h : offset = 0 ∨ offset = 4096) :
    (openPackage Logan.crc32c (movedTensor offset)).map (fun p =>
        (p.records, (planInPlace p [copyAction offset] "canonical" 4096).toOption))
      = .ok ([(copyAction offset).source], some (copyPlan offset, [4104])) := by
  rcases h with rfl | rfl <;> decide +kernel

theorem exists_planInPlace_movedTensor (h : offset = 0 ∨ offset = 4096) :
    ∃ p, openPackage Logan.crc32c (movedTensor offset) = .ok p ∧
      p.records = [copyAction offset].map Action.source ∧
      planInPlace p [copyAction offset] "canonical" 4096 = .ok (copyPlan offset, [4104]) := by
  obtain ⟨p, hop, hp⟩ := map_eq_ok (planInPlace_movedTensor h)
  obtain ⟨hrec, hpl⟩ := Prod.mk.inj hp
  refine ⟨p, hop, hrec, ?_⟩
  cases h : planInPlace p [copyAction offset] "canonical" 4096 with
  | ok =>
    rw [h] at hpl
    exact congrArg _ (Option.some.inj hpl)
  | error =>
    rw [h] at hpl
    cases hpl

/-- Behind the header the tensor is apart from it. -/
theorem rangesApart_movedTensor : ∃ p, openPackage Logan.crc32c (movedTensor 4096) = .ok p ∧
    RangesApart p (copyPlan 4096) ∧ RewritesApart p (copyPlan 4096) := by
  obtain ⟨p, hop, hrec, hpl⟩ := exists_planInPlace_movedTensor (Or.inr rfl)
  refine ⟨p, hop, (rangesApart_iff hop hrec.symm hpl).mpr ⟨pairwise_singleton _ _, ?_⟩⟩
  intro a ha hoff
  obtain rfl := mem_singleton.mp ha
  exact nomatch hoff

/-- **A package that is opened, and a plan that is accepted, in which a record is written over
the header of its shard.** -/
theorem movedTensor_not_apart : ∃ p, openPackage Logan.crc32c (movedTensor 0) = .ok p ∧
    p.records = [copyAction 0].map Action.source ∧
    planInPlace p [copyAction 0] "canonical" 4096 = .ok (copyPlan 0, [4104]) ∧
    ¬ RangesApart p (copyPlan 0) := by
  obtain ⟨p, hop, hrec, hpl⟩ := exists_planInPlace_movedTensor (Or.inl rfl)
  refine ⟨p, hop, hrec, hpl, fun hap => ?_⟩
  exact absurd (hap.header _ mem_cons_self (by decide)) (by decide)

end Storage

end Logan
