import Logan.Format.Payload
import Logan.Util.Crc

/-!
# When reading a payload panics

`Package::open` looks at no payload, so that the readers of payloads meet any
bytes. They are careful with what they find in them, but for two places. A
record that claims to be a tensor or an expert is sliced at its eighth byte
before its length is known; and the place of a matrix, which is read from the
record, is added to that of the record without a check. Everything else –
descriptors, spans, coded matrices – ends in a result or in an error.
-/

namespace Logan

open Option Result

namespace Fault

open Result

variable {E A B : Type}

/-- A call that does not panic. -/
def NoPanic (x : Except (Fault E) A) : Prop := x ≠ .error .panicked

theorem noPanic_lift (x : Except E A) : NoPanic (lift x) := lift_ne_panicked x

variable {f : A → Except (Fault E) B}

/-- **A chain does not panic** if its computations do not. -/
theorem NoPanic.bind {x : Except (Fault E) A} (hx : NoPanic x)
    (hf : ∀ a, x = .ok a → NoPanic (f a)) : NoPanic (x >>= f) := by
  intro hno
  rcases bind_eq_error.mp hno with hno | ⟨a, ha, hno⟩
  · exact hx hno
  · exact hf a ha hno

theorem noPanic_lift_bind {x : Except E A}
    (hf : ∀ a, x = .ok a → NoPanic (f a)) : NoPanic (lift x >>= f) :=
  (noPanic_lift x).bind fun a ha => hf a (lift_eq_ok.mp ha)

theorem noPanic_mapM {l : List A} (h : ∀ a ∈ l, NoPanic (f a)) : NoPanic (l.mapM f) := by
  induction l with
  | nil => exact fun hno => (by cases hno)
  | cons a l ih =>
    rw [List.mapM_cons]
    exact (h a List.mem_cons_self).bind fun b _ =>
      (ih fun a' ha' => h a' (List.mem_cons_of_mem _ ha')).bind fun bs _ hno => (by cases hno)

end Fault

namespace Format

open Result Fault

variable {crc32c : List UInt8 → UInt32} {d : Directory} {p : Package} {h : ManifestHeader}
  {record : RecordInfo}

/-! ## Tensors -/

variable {bytes : List UInt8}

theorem noPanic_checkLogicalCrc {dataOffset dataEnd : ℕ} (hle : dataOffset ≤ dataEnd)
    (hins : dataEnd ≤ bytes.length) :
    NoPanic (checkLogicalCrc crc32c record bytes dataOffset dataEnd) := by
  unfold checkLogicalCrc
  split_ifs
  · refine noPanic_lift_bind fun _ _ => noPanic_lift_bind fun _ _ => ?_
    rw [orPanic_bind (range?_of_le hle hins)]
    exact noPanic_lift _
  · exact fun hno => (by cases hno)

/-- **A tensor is read without a panic if it has eight bytes.** -/
theorem tensorPayload_eq_panicked :
    tensorPayload crc32c record bytes = .error .panicked ↔ bytes.length < 8 := by
  constructor
  · intro hpan
    by_contra hlong
    refine absurd hpan ?_
    show NoPanic _
    unfold tensorPayload
    rw [orPanic_bind (range?_of_le (by decide) (not_lt.mp hlong))]
    refine noPanic_lift_bind fun _ _ => noPanic_lift_bind fun _ _ => noPanic_lift_bind fun _ _ =>
      noPanic_lift_bind fun _ _ => noPanic_lift_bind fun _ _ =>
      noPanic_lift_bind fun dataOffset _ => noPanic_lift_bind fun dataStored _ =>
      noPanic_lift_bind fun dataDecoded _ => noPanic_lift_bind fun _ hlens => ?_
    have hsp := (not_or.mp (not_or.mp (not_or.mp (not_or.mp (refuse_eq_ok.mp hlens)).2).2).2).2
    -- the sum of the span has been checked: it is in the record
    by_cases hsum : dataOffset.toNat + dataStored.toNat ≤ usizeMax
    · rw [checkedSum_of_le hsum, all_some, decide_eq_true_iff, not_lt] at hsp
      rw [orPanic_bind (checkedSum_of_le hsum)]
      refine (noPanic_checkLogicalCrc (Nat.le_add_right _ _) hsp).bind fun _ _ => ?_
      rw [range?_of_le (Nat.le_add_right _ _) hsp]
      exact fun hno => (by cases hno)
    · rw [checkedSum, if_neg hsum] at hsp
      exact absurd rfl hsp
  · intro hsh
    unfold tensorPayload
    rw [range?_eq_none.mpr fun hno => absurd hno.2 (not_le.mpr hsh)]
    rfl

/-! ## Experts -/

theorem noPanic_apple8Decode {manifest : List UInt8} {table : RansReader.RansTable} {wt : UInt32}
    {wc : UInt16} {rows columns : ℕ}
    (htab : RansReader.fromManifest crc32c manifest wt wc = .ok table) :
    NoPanic (apple8Decode bytes table rows columns) := by
  refine noPanic_lift_bind fun expected _ => ?_
  rw [(RansReader.Guarded.decodeRecord_follows (RansReader.valid_of_fromManifest htab)
    _ _).toFault]
  exact noPanic_lift _

theorem noPanic_residentMatrix {manifest weights scales : List UInt8} {i rows cols wDecoded : ℕ}
    {role math scale wc : UInt16} {wt : UInt32} :
    NoPanic (residentMatrix crc32c manifest i role math scale wc wt rows cols wDecoded weights
      scales) := by
  unfold residentMatrix
  split_ifs
  · exact fun hno => (by cases hno)
  · exact fun hno => (by cases hno)
  · refine noPanic_lift_bind fun _ _ => ?_
    rw [RansReader.fromManifest_eq_lift]
    exact noPanic_lift_bind fun table htab => (noPanic_apple8Decode htab).bind fun _ _ =>
      noPanic_lift_bind fun _ _ hno => (by cases hno)
  · exact noPanic_lift _

/-- The place of a descriptor, which is a word of 32 bits long, does not overflow. -/
theorem descriptor_fits (descSize : UInt32) {i : ℕ} (hi : i < 3) :
    i * descSize.toNat ≤ usizeMax ∧ 64 + i * descSize.toNat ≤ usizeMax ∧
      64 + i * descSize.toNat + 88 ≤ usizeMax := by
  have hword : descSize.toNat ≤ u32Max := Nat.le_of_lt_succ descSize.toNat_lt
  have hpr : i * descSize.toNat ≤ 3 * u32Max := Nat.mul_le_mul (le_of_lt hi) hword
  have hrm : 64 + 3 * u32Max + 88 ≤ usizeMax := by norm_num [u32Max, usizeMax]
  refine ⟨by omega, by omega, by omega⟩

theorem noPanic_expertMatrix {manifest : List UInt8} {descSize : UInt32} {i : ℕ}
    (hi : i < 3) : NoPanic (expertMatrix crc32c manifest bytes descSize.toNat i) := by
  obtain ⟨hpr, hsum, hfld⟩ := descriptor_fits descSize hi
  unfold expertMatrix
  rw [orPanic_bind (checkedProduct_of_le hpr), orPanic_bind (checkedSum_of_le hsum),
    orPanic_bind (checkedSum_of_le hfld)]
  refine noPanic_lift_bind fun _ _ => noPanic_lift_bind fun _ _ => noPanic_lift_bind fun _ _ =>
    noPanic_lift_bind fun _ _ => noPanic_lift_bind fun _ _ => noPanic_lift_bind fun _ _ =>
    noPanic_lift_bind fun _ _ => noPanic_lift_bind fun _ _ => noPanic_lift_bind fun _ _ =>
    noPanic_lift_bind fun _ _ => noPanic_lift_bind fun _ _ => noPanic_lift_bind fun _ _ =>
    noPanic_lift_bind fun _ _ => noPanic_lift_bind fun _ _ => noPanic_lift_bind fun _ _ =>
    noPanic_lift_bind fun _ _ => noPanic_residentMatrix

/-- **An expert is read without a panic if it has eight bytes.** -/
theorem expertMatrices_eq_panicked {manifest : List UInt8} :
    expertMatrices crc32c manifest bytes = .error .panicked ↔ bytes.length < 8 := by
  constructor
  · intro hpan
    by_contra hlong
    refine absurd hpan ?_
    show NoPanic _
    unfold expertMatrices
    rw [orPanic_bind (range?_of_le (by decide) (not_lt.mp hlong))]
    exact noPanic_lift_bind fun _ _ => noPanic_lift_bind fun _ _ => noPanic_lift_bind fun _ _ =>
      noPanic_lift_bind fun _ _ => noPanic_lift_bind fun _ _ => noPanic_lift_bind fun _ _ =>
      noPanic_lift_bind fun _ _ => noPanic_lift_bind fun _ _ =>
      noPanic_mapM fun i hi => noPanic_expertMatrix (List.mem_range.mp hi)
  · intro hsh
    unfold expertMatrices
    rw [range?_eq_none.mpr fun hno => absurd hno.2 (not_le.mpr hsh)]
    rfl

/-! ## Places of matrices -/

theorem orNone_bind_panicked {A B : Type} {x : Option A} {f : A → Except (Fault Unit) B} :
    (orNone x >>= f) = .error .panicked ↔ ∃ a, x = some a ∧ f a = .error .panicked := by
  cases x with
  | none => exact ⟨fun h => (by cases h), fun ⟨_, h, _⟩ => (by cases h)⟩
  | some a => exact ⟨fun h => ⟨a, rfl, h⟩, fun ⟨_, ha, h⟩ => some.inj ha ▸ h⟩

theorem refuse_bind_panicked {A : Type} {q : Prop} [Decidable q]
    {f : Unit → Except (Fault Unit) A} :
    (refuse q (.failed ()) >>= f) = .error .panicked ↔ ¬ q ∧ f () = .error .panicked := by
  by_cases hq : q
  · rw [refuse_of hq]
    exact ⟨fun h => (by cases h), fun h => absurd hq h.1⟩
  · rw [refuse_of_not hq]
    exact (and_iff_right hq).symm

theorem okOrNone_readPayloadRange (p : Package) (record : RecordInfo) (len : ℕ) :
    okOrNone (readPayloadRange p record 0 len)
      = orNone (p.shardFiles[record.shardId.toNat]? >>= fun file =>
          range? file record.offset.toNat (record.offset.toNat + len)) := by
  have hoff : record.offset.toNat + 0 ≤ usizeMax := Nat.le_of_lt_succ record.offset.toNat_lt
  unfold readPayloadRange readShardRange
  rw [checkedSum_of_le hoff, orPanic_some, ok_bind, Nat.add_zero]
  cases p.shardFiles[record.shardId.toNat]? with
  | none => rfl
  | some file =>
    show okOrNone (lift (okOr (range? file _ _) _)) = orNone (range? file _ _)
    cases range? file record.offset.toNat (record.offset.toNat + len) <;> rfl

/-- **A descriptor whose matrix has no place**: it is of a kind that can be streamed, and the
sum of the record's offset and of its own is not a word. -/
def DescriptorOverflows (offset : ℕ) (raw : List UInt8) (d : ℕ) : Prop :=
  u16At? raw (d + 4) = some 0x20 ∧ u16At? raw (d + 8) = some 0 ∧
    ∃ wOff, u64At? raw (d + 48) = some wOff ∧ usizeMax < offset + wOff.toNat

/-- A descriptor whose matrix has a place. -/
def DescriptorFits (offset : ℕ) (raw : List UInt8) (d : ℕ) : Prop :=
  u16At? raw (d + 4) = some 0x20 ∧ u16At? raw (d + 8) = some 0 ∧
    ∃ wOff, u64At? raw (d + 48) = some wOff ∧ offset + wOff.toNat ≤ usizeMax

/-- **The expert at an offset of a file has a matrix without a place**: of its three descriptors,
all of which are in the file, one overflows, and those before it do not. -/
def RegionOverflows (file : List UInt8) (offset : ℕ) : Prop :=
  ∃ head descSize raw, range? file offset (offset + (64 + 3 * baseDesc)) = some head ∧
    range? head 0 8 = some expertMagic ∧ u32At? head 28 = some descSize ∧
    baseDesc ≤ descSize.toNat ∧
    range? file offset (offset + (64 + 3 * descSize.toNat)) = some raw ∧
    ∃ i < 3, (∀ j < i, DescriptorFits offset raw (64 + j * descSize.toNat)) ∧
      DescriptorOverflows offset raw (64 + i * descSize.toNat)

section Descriptor

variable {raw : List UInt8} {descSize : UInt32} {i : ℕ}

/-- The fields of a descriptor are in the buffer. -/
theorem descriptor_inside (hraw : 64 + 3 * descSize.toNat ≤ raw.length)
    (hbas : baseDesc ≤ descSize.toNat) (hi : i < 3) :
    64 + i * descSize.toNat + 88 ≤ raw.length := by
  have hbas : 88 ≤ descSize.toNat := hbas
  have hle : (i + 1) * descSize.toNat ≤ 3 * descSize.toNat := Nat.mul_le_mul_right _ hi
  rw [Nat.succ_mul] at hle
  omega

/-- What is left of a matrix's place, once the fields have been read. -/
theorem matrixRegion_eq (record : RecordInfo) (hraw : 64 + 3 * descSize.toNat ≤ raw.length)
    (hbas : baseDesc ≤ descSize.toNat) (hi : i < 3) : ∃ math wc rows cols wOff wStored,
      u16At? raw (64 + i * descSize.toNat + 4) = some math ∧
        u16At? raw (64 + i * descSize.toNat + 8) = some wc ∧
        u64At? raw (64 + i * descSize.toNat + 48) = some wOff ∧
        matrixRegion record raw descSize.toNat i = (do
          refuse (math ≠ 0x20 ∨ wc ≠ 0) (.failed ())
          let start ← orPanic (checkedSum record.offset.toNat wOff.toNat)
          pure ((start, UInt64.toNat wStored), (UInt64.toNat rows, UInt64.toNat cols))) := by
  have hins := descriptor_inside hraw hbas hi
  obtain ⟨hpr, hsum, hfld⟩ := descriptor_fits descSize hi
  have h4 : 64 + i * descSize.toNat + 4 + 2 ≤ raw.length := by omega
  have h8 : 64 + i * descSize.toNat + 8 + 2 ≤ raw.length := by omega
  have h16 : 64 + i * descSize.toNat + 16 + 8 ≤ raw.length := by omega
  have h24 : 64 + i * descSize.toNat + 24 + 8 ≤ raw.length := by omega
  have h48 : 64 + i * descSize.toNat + 48 + 8 ≤ raw.length := by omega
  have h56 : 64 + i * descSize.toNat + 56 + 8 ≤ raw.length := by omega
  obtain ⟨math, hmat⟩ := exists_u16At h4
  obtain ⟨wc, hwc⟩ := exists_u16At h8
  obtain ⟨rows, hrow⟩ := exists_u64At h16
  obtain ⟨cols, hcol⟩ := exists_u64At h24
  obtain ⟨wOff, hwOf⟩ := exists_u64At h48
  obtain ⟨wStored, hwSt⟩ := exists_u64At h56
  have hmat := okOr_eq_ok.mp hmat
  have hwc := okOr_eq_ok.mp hwc
  have hwOf := okOr_eq_ok.mp hwOf
  refine ⟨math, wc, rows, cols, wOff, wStored, hmat, hwc, hwOf, ?_⟩
  unfold matrixRegion orNone
  rw [orPanic_bind (checkedProduct_of_le hpr), orPanic_bind (checkedSum_of_le hsum),
    orPanic_bind (checkedSum_of_le (le_trans (by omega) hfld)), hmat, hwc,
    okOr_eq_ok.mp hrow, okOr_eq_ok.mp hcol, hwOf, okOr_eq_ok.mp hwSt]
  rfl

/-- **A place is computed without a panic** unless the descriptor overflows. -/
theorem matrixRegion_eq_panicked (hraw : 64 + 3 * descSize.toNat ≤ raw.length)
    (hbas : baseDesc ≤ descSize.toNat) (hi : i < 3) :
    matrixRegion record raw descSize.toNat i = .error .panicked
      ↔ DescriptorOverflows record.offset.toNat raw (64 + i * descSize.toNat) := by
  obtain ⟨math, wc, rows, cols, wOff, wStored, hmat, hwc, hwOf, heq⟩ :=
    matrixRegion_eq record hraw hbas hi
  rw [heq]
  by_cases hkin : math ≠ 0x20 ∨ wc ≠ 0
  · rw [refuse_of hkin, error_bind]
    refine ⟨fun h => (by cases h), ?_⟩
    rintro ⟨hmat', hwc', -⟩
    rcases hkin with hne | hne
    · exact absurd (some.inj (hmat.symm.trans hmat')) hne
    · exact absurd (some.inj (hwc.symm.trans hwc')) hne
  · obtain ⟨hm, hw⟩ := not_or.mp hkin
    rw [not_not.mp hm] at hmat
    rw [not_not.mp hw] at hwc
    rw [refuse_of_not hkin, ok_bind]
    by_cases hsum : record.offset.toNat + wOff.toNat ≤ usizeMax
    · rw [orPanic_bind (checkedSum_of_le hsum)]
      refine ⟨fun h => (by cases h), ?_⟩
      rintro ⟨-, -, wOff', hwOf', hlt⟩
      rw [← some.inj (hwOf.symm.trans hwOf')] at hlt
      exact absurd hsum (not_le.mpr hlt)
    · rw [checkedSum, if_neg hsum]
      exact iff_of_true rfl ⟨hmat, hwc, wOff, hwOf, not_le.mp hsum⟩

/-- A place is computed if the descriptor has one. -/
theorem matrixRegion_eq_ok (hraw : 64 + 3 * descSize.toNat ≤ raw.length)
    (hbas : baseDesc ≤ descSize.toNat) (hi : i < 3) :
    (∃ found, matrixRegion record raw descSize.toNat i = .ok found)
      ↔ DescriptorFits record.offset.toNat raw (64 + i * descSize.toNat) := by
  obtain ⟨math, wc, rows, cols, wOff, wStored, hmat, hwc, hwOf, heq⟩ :=
    matrixRegion_eq record hraw hbas hi
  rw [heq]
  constructor
  · rintro ⟨found, h⟩
    obtain ⟨_, hkin, h⟩ := bind_eq_ok.mp h
    obtain ⟨start, hst, -⟩ := bind_eq_ok.mp h
    obtain ⟨hm, hw⟩ := not_or.mp (refuse_eq_ok.mp hkin)
    exact ⟨hmat.trans (congrArg some (not_not.mp hm)), hwc.trans (congrArg some (not_not.mp hw)),
      wOff, hwOf, (checkedSum_eq_some.mp (okOr_eq_ok.mp hst)).2⟩
  · rintro ⟨hmat', hwc', wOff', hwOf', hsum⟩
    rw [← some.inj (hwOf.symm.trans hwOf')] at hsum
    have hkin : ¬ (math ≠ 0x20 ∨ wc ≠ 0) := not_or.mpr
      ⟨not_not.mpr (some.inj (hmat.symm.trans hmat')), not_not.mpr (some.inj (hwc.symm.trans hwc'))⟩
    rw [refuse_of_not hkin, ok_bind, orPanic_bind (checkedSum_of_le hsum)]
    exact ⟨_, rfl⟩

end Descriptor


/-- The descriptors are read from the file, whether all at once or not. -/
theorem readDescriptors_eq {file raw : List UInt8} {need : ℕ}
    (hfil : p.shardFiles[record.shardId.toNat]? = some file)
    (hraw : range? file record.offset.toNat (record.offset.toNat + (64 + 3 * baseDesc)) = some raw)
    (hnd : 64 + 3 * baseDesc ≤ need) : readDescriptors p record raw need
      = orNone (range? file record.offset.toNat (record.offset.toNat + need)) := by
  unfold readDescriptors
  split_ifs with hlong
  · rw [okOrNone_readPayloadRange, hfil]
    rfl
  · have hlen := length_of_range? hraw
    obtain rfl : need = 64 + 3 * baseDesc := by omega
    rw [hraw]
    rfl

/-- The loop over the descriptors panics at the first that overflows. -/
theorem places_eq_panicked {raw : List UInt8} {descSize : UInt32}
    (hraw : 64 + 3 * descSize.toNat ≤ raw.length) (hbas : baseDesc ≤ descSize.toNat) :
    ((List.range 3).mapM (matrixRegion record raw descSize.toNat) >>= fun found =>
        (pure ⟨found.map Prod.fst, found.map Prod.snd⟩ : Except (Fault Unit) ExpertRegions))
      = .error .panicked ↔
      ∃ i < 3, (∀ j < i, DescriptorFits record.offset.toNat raw (64 + j * descSize.toNat)) ∧
        DescriptorOverflows record.offset.toNat raw (64 + i * descSize.toNat) := by
  rw [bind_eq_error, mapM_range_eq_error]
  constructor
  · rintro (⟨i, hi, hbef, h⟩ | ⟨_, _, h⟩)
    · exact ⟨i, hi, fun j hj => (matrixRegion_eq_ok hraw hbas (hj.trans hi)).mp (hbef j hj),
        (matrixRegion_eq_panicked hraw hbas hi).mp h⟩
    · cases h
  · rintro ⟨i, hi, hbef, h⟩
    exact Or.inl ⟨i, hi, fun j hj => (matrixRegion_eq_ok hraw hbas (hj.trans hi)).mpr (hbef j hj),
      (matrixRegion_eq_panicked hraw hbas hi).mpr h⟩

/-- The size of the envelope with its three descriptors is a word. -/
theorem descriptors_size (descSize : UInt32) :
    (checkedProduct 3 descSize.toNat >>= checkedSum 64) = some (64 + 3 * descSize.toNat) := by
  have hword : descSize.toNat ≤ u32Max := Nat.le_of_lt_succ descSize.toNat_lt
  have hrm : 64 + 3 * u32Max ≤ usizeMax := by norm_num [u32Max, usizeMax]
  rw [checkedProduct_of_le (by omega)]
  exact checkedSum_of_le (by omega)

theorem descriptors_size_le {descSize : UInt32} (h : baseDesc ≤ descSize.toNat) :
    64 + 3 * baseDesc ≤ 64 + 3 * descSize.toNat :=
  Nat.add_le_add_left (Nat.mul_le_mul_left 3 h) 64

/-- **Places are found without a panic** unless one of them overflows. -/
theorem findRegions_eq_panicked : findRegions p record = .error .panicked ↔
      ∃ file, p.shardFiles[record.shardId.toNat]? = some file ∧
        RegionOverflows file record.offset.toNat := by
  unfold findRegions
  simp only [okOrNone_readPayloadRange, orNone_bind_panicked, refuse_bind_panicked,
    descriptors_size,
    some.injEq, exists_eq_left', not_not, not_lt]
  constructor
  · rintro ⟨head, hhd, magic, hmag, rfl, descSize, hsiz, hle, h⟩
    obtain ⟨file, hfil, hhd⟩ := bind_eq_some_iff.mp hhd
    rw [readDescriptors_eq hfil hhd (descriptors_size_le hle), orNone_bind_panicked] at h
    obtain ⟨raw, hraw, h⟩ := h
    exact ⟨file, hfil, head, descSize, raw, hhd, hmag, hsiz, hle, hraw,
      (places_eq_panicked (length_of_range? hraw).ge hle).mp h⟩
  · rintro ⟨file, hfil, head, descSize, raw, hhd, hmag, hsiz, hle, hraw, h⟩
    refine ⟨head, bind_eq_some_iff.mpr ⟨file, hfil, hhd⟩, _, hmag, rfl, descSize, hsiz, hle, ?_⟩
    rw [readDescriptors_eq hfil hhd (descriptors_size_le hle), orNone_bind_panicked]
    exact ⟨raw, hraw, (places_eq_panicked (length_of_range? hraw).ge hle).mpr h⟩

/-! ## The cache of places -/

/-- **The caches that a package can have**: an empty one, and one of which a record has been
asked. -/
inductive CacheOf (p : Package) : RegionCache → Prop
  | empty : CacheOf p fun _ => none
  | asked {cache : RegionCache} (record : RecordInfo) (h : CacheOf p cache)
      (hrecord : record ∈ p.records) : CacheOf p (expertMatrixRegions p cache record).2

/-- **A cache only has what would be found again.** -/
theorem CacheOf.found {cache : RegionCache} (h : CacheOf p cache) {id : UInt64}
    {found : ExpertRegions} (hfnd : cache id = some found) :
    ∃ record ∈ p.records, record.id = id ∧ findRegions p record = .ok found := by
  induction h with
  | empty => cases hfnd
  | @asked cache record _ hrec ih =>
    unfold expertMatrixRegions at hfnd
    cases hcac : cache record.id with
    | some =>
      rw [hcac] at hfnd
      exact ih hfnd
    | none =>
      cases hfin : findRegions p record with
      | error =>
        rw [hcac, hfin] at hfnd
        exact ih hfnd
      | ok =>
        rw [hcac, hfin] at hfnd
        dsimp only at hfnd
        by_cases hid : id = record.id
        · subst hid
          rw [Function.update_self] at hfnd
          exact ⟨record, hrec, rfl, hfin.trans (congrArg _ (some.inj hfnd))⟩
        · rw [Function.update_of_ne hid] at hfnd
          exact ih hfnd

/-- **A cache hides no panic**: places are looked up without one exactly when they are found
without one. -/
theorem noPanic_expertMatrixRegions (hdis : Distinct p.records) {cache : RegionCache}
    (hcac : CacheOf p cache) (hrec : record ∈ p.records) :
    NoPanic (expertMatrixRegions p cache record).1 ↔ NoPanic (findRegions p record) := by
  unfold expertMatrixRegions
  cases hcch : cache record.id with
  | some found =>
    obtain ⟨other, hoth, hid, hfnd⟩ := hcac.found hcch
    obtain rfl := List.inj_on_of_nodup_map hdis.ids hoth hrec hid
    rw [hfnd]
  | none => cases findRegions p record <;> exact Iff.rfl

/-! ## The readers of a package -/

/-- **The readers of a record do not panic.** -/
structure ReadersReturn (crc32c : List UInt8 → UInt32) (p : Package) (cache : RegionCache)
    (record : RecordInfo) : Prop where
  tensor : NoPanic (readTensorPayload crc32c p record)
  expert : NoPanic (readExpertMatrices crc32c p record)
  regions : NoPanic (expertMatrixRegions p cache record).1

/-- A record of an opened package is read if its checksum is right. -/
theorem readRecord_eq_ok {file : List UInt8}
    (hfil : p.shardFiles[record.shardId.toNat]? = some file)
    (hins : record.offset.toNat + record.stored.toNat ≤ file.length) :
    readRecord crc32c p record = .ok bytes ↔
      bytes = slice file record.offset.toNat record.stored.toNat ∧
        crc32c bytes = record.storedCrc := by
  unfold readRecord readShardRange
  rw [hfil, okOr_some, ok_bind, range?_of_le (Nat.le_add_right _ _) hins, okOr_some,
    ok_bind, Nat.add_sub_cancel_left, bind_eq_ok]
  constructor
  · rintro ⟨_, hcrc, hbytes⟩
    cases hbytes
    exact ⟨rfl, not_not.mp (refuse_eq_ok.mp hcrc)⟩
  · rintro ⟨rfl, hcrc⟩
    exact ⟨(), refuse_of_not (not_not.mpr hcrc), rfl⟩

/-- **When the readers of a record do not panic**: if it is claimed to be a tensor or an expert,
and has the checksum that it should have, then it has eight bytes; and no place of a matrix
overflows. -/
theorem readersReturn_iff (hopen : openPackage crc32c d = .ok p) {cache : RegionCache}
    (hcache : CacheOf p cache) {id : UInt64} (hid : p.recordById id = some record) :
    ReadersReturn crc32c p cache record ↔ ∀ file, p.shardFiles[record.shardId.toNat]? = some file →
        ((record.kind = 1 ∧ record.codec = 0 ∨ record.kind = 2) →
          crc32c (slice file record.offset.toNat record.stored.toNat) = record.storedCrc →
            8 ≤ record.stored.toNat) ∧ ¬ RegionOverflows file record.offset.toNat := by
  obtain ⟨header, ho⟩ := openPackage_eq_ok.mp hopen
  rw [ho.recordById] at hid
  have hrec := List.mem_of_find?_eq_some hid
  have hpl := ho.placed record hrec
  have hsh := hpl.shard_lt
  rw [List.length_map] at hsh
  obtain ⟨file, hfil⟩ : ∃ file, p.shardFiles[record.shardId.toNat]? = some file :=
    ⟨_, List.getElem?_eq_getElem hsh⟩
  have hins := (checkRange_eq_ok.mp hpl.range).2.2
  rw [List.getD_eq_getElem?_getD, List.getElem?_map, hfil] at hins
  have hrd : ∀ bytes, readRecord crc32c p record = .ok bytes ↔
      bytes = slice file record.offset.toNat record.stored.toNat ∧
        crc32c bytes = record.storedCrc := fun bytes => readRecord_eq_ok hfil hins
  have hlen : (slice file record.offset.toNat record.stored.toNat).length = record.stored.toNat :=
    length_slice hins
  -- what each of the readers panics at
  have hten : readTensorPayload crc32c p record = .error .panicked ↔
      record.kind = 1 ∧ record.codec = 0 ∧
        crc32c (slice file record.offset.toNat record.stored.toNat) = record.storedCrc ∧
        record.stored.toNat < 8 := by
    unfold readTensorPayload
    simp only [lift_bind_eq_panicked, refuse_eq_ok, hrd, tensorPayload_eq_panicked, not_not,
      exists_const]
    constructor
    · rintro ⟨hkin, hcod, bytes, ⟨rfl, hcrc⟩, hshr⟩
      exact ⟨hkin, hcod, hcrc, hlen ▸ hshr⟩
    · rintro ⟨hkin, hcod, hcrc, hshr⟩
      exact ⟨hkin, hcod, _, ⟨rfl, hcrc⟩, hlen.symm ▸ hshr⟩
  have hexp : readExpertMatrices crc32c p record = .error .panicked ↔ record.kind = 2 ∧
        crc32c (slice file record.offset.toNat record.stored.toNat) = record.storedCrc ∧
        record.stored.toNat < 8 := by
    unfold readExpertMatrices
    simp only [lift_bind_eq_panicked, refuse_eq_ok, hrd, expertMatrices_eq_panicked, not_not,
      exists_const]
    constructor
    · rintro ⟨hkin, bytes, ⟨rfl, hcrc⟩, hshr⟩
      exact ⟨hkin, hcrc, hlen ▸ hshr⟩
    · rintro ⟨hkin, hcrc, hshr⟩
      exact ⟨hkin, _, ⟨rfl, hcrc⟩, hlen.symm ▸ hshr⟩
  have hreg : NoPanic (expertMatrixRegions p cache record).1 ↔
      ¬ RegionOverflows file record.offset.toNat := by
    rw [noPanic_expertMatrixRegions ho.distinct hcache hrec]
    refine not_congr (findRegions_eq_panicked.trans ?_)
    rw [hfil]
    simp only [some.injEq, exists_eq_left']
  rw [hfil]
  constructor
  · rintro ⟨hntn, hnxp, hnrg⟩ file' hfil'
    cases hfil'
    refine ⟨fun hkin hcrc => ?_, hreg.mp hnrg⟩
    by_contra hshr
    rcases hkin with ⟨hkin, hcod⟩ | hkin
    · exact hntn (hten.mpr ⟨hkin, hcod, hcrc, not_le.mp hshr⟩)
    · exact hnxp (hexp.mpr ⟨hkin, hcrc, not_le.mp hshr⟩)
  · intro h
    obtain ⟨hlong, hplc⟩ := h file rfl
    refine ⟨fun hpan => ?_, fun hpan => ?_, hreg.mpr hplc⟩
    · obtain ⟨hkin, hcod, hcrc, hshr⟩ := hten.mp hpan
      exact absurd (hlong (Or.inl ⟨hkin, hcod⟩) hcrc) (not_le.mpr hshr)
    · obtain ⟨hkin, hcrc, hshr⟩ := hexp.mp hpan
      exact absurd (hlong (Or.inr hkin) hcrc) (not_le.mpr hshr)

/-! ## A package with an empty tensor -/

/-- A package with one file and one record, named `a`, of which more is written. -/
def onePackage (file : List UInt8) (record : List (Write UInt8)) : Directory :=
  let manifest := puts (List.replicate 433 0)
    ([(0, manifestMagic), (8, u16Bytes 1), (12, u32Bytes 256), (24, u32Bytes 4096),
      (28, u32Bytes 1), (32, u64Bytes 1), (40, u32Bytes 1), (48, u64Bytes 256),
      (56, u64Bytes 64), (64, u64Bytes 320), (72, u64Bytes 96), (80, u64Bytes 416),
      (88, u64Bytes 17),
      -- the shard
      (272, u64Bytes (.ofNat file.length)),
      -- the record
      (320, u64Bytes 1),
      -- the string
      (416, u64Bytes 16), (424, u32Bytes 1), (432, utf8 "a")] ++ record)
  ⟨some (put manifest 144 (u32Bytes (Logan.crc32c manifest))),
    fun id => if id = 0 then some file else none⟩

/-- A tensor of zeros. -/
def zeroTensor (n : ℕ) : Directory :=
  onePackage (List.replicate n 0) [(328, u16Bytes 1), (368, u64Bytes (.ofNat n)),
    (384, u32Bytes (Logan.crc32c (List.replicate n 0)))]

/-- Its record. -/
def zeroTensorRecord (n : ℕ) : RecordInfo where
  id := 1
  kind := 1
  codec := 0
  mathFormat := 0
  scaleFormat := 0
  layout := 0
  flags := 0
  shardId := 0
  name := some "a"
  layer := 0
  expert := 0
  offset := 0
  stored := .ofNat n
  decoded := 0
  storedCrc := Logan.crc32c (List.replicate n 0)
  logicalCrc := 0

set_option maxRecDepth 10000 in
/-- The package is opened, with its record and its shard. -/
theorem openPackage_zeroTensor {n : ℕ} (hn : n = 0 ∨ n = 8) :
    (openPackage Logan.crc32c (zeroTensor n)).map (fun p => (p.records, p.shardFiles))
      = .ok ([zeroTensorRecord n], [List.replicate n 0]) := by
  rcases hn with rfl | rfl <;> decide +kernel

theorem exists_openPackage_zeroTensor {n : ℕ} (hn : n = 0 ∨ n = 8) :
    ∃ p, openPackage Logan.crc32c (zeroTensor n) = .ok p ∧ p.shardFiles = [List.replicate n 0] ∧
      p.recordById 1 = some (zeroTensorRecord n) := by
  obtain ⟨p, hop, hp⟩ := map_eq_ok (openPackage_zeroTensor hn)
  obtain ⟨hrec, hfil⟩ := Prod.mk.inj hp
  obtain ⟨header, ho⟩ := openPackage_eq_ok.mp hop
  refine ⟨p, hop, hfil, ?_⟩
  rw [ho.recordById, hrec]
  rfl

/-- The readers return for a tensor of eight bytes. -/
theorem readersReturn_zeroTensor : ∃ p, openPackage Logan.crc32c (zeroTensor 8) = .ok p ∧
    p.recordById 1 = some (zeroTensorRecord 8) ∧
      ReadersReturn Logan.crc32c p (fun _ => none) (zeroTensorRecord 8) := by
  obtain ⟨p, hop, hfil, hrec⟩ := exists_openPackage_zeroTensor (Or.inr rfl)
  refine ⟨p, hop, hrec, (readersReturn_iff hop CacheOf.empty hrec).mpr fun file hfile => ?_⟩
  rw [hfil] at hfile
  obtain rfl := Option.some.inj hfile
  refine ⟨fun _ _ => le_rfl, ?_⟩
  rintro ⟨head, -, -, hhead, -⟩
  exact nomatch hhead

/-- **The package is opened, but its tensor is not read without a panic.** -/
theorem emptyTensor_panics : ∃ p, openPackage Logan.crc32c (zeroTensor 0) = .ok p ∧
    p.recordById 1 = some (zeroTensorRecord 0) ∧
      readTensorPayload Logan.crc32c p (zeroTensorRecord 0) = .error .panicked := by
  obtain ⟨p, hop, hfil, hrec⟩ := exists_openPackage_zeroTensor (Or.inl rfl)
  refine ⟨p, hop, hrec, ?_⟩
  unfold readTensorPayload readRecord readShardRange
  rw [hfil]
  rfl

end Format

end Logan
