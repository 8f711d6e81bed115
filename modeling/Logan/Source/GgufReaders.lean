import Logan.Source.GgufFormat

/-!
# The readers of a GGUF header read its format

Each reader is shown to read just what the format says (`reads_header`),
an array that is skipped included. None of them panics, and none allocates
more than a fixed number of bytes at once (`frugal_header`).
-/

namespace Logan

open List Metered
open Reads (bind_written guard lift times_each vec vec_each)

namespace Gguf

open FileCursor

variable {file : FileBytes} {A : Type}

/-! ## Numbers and strings -/

theorem reads_check {x : Except String A} :
    Reads (check x : Read file A) (fun a w => x = .ok a ∧ w = []) := by
  refine lift.congr fun a w => and_congr_left fun _ => ?_
  cases x with
  | ok => exact ⟨fun h => congrArg Except.ok (Except.ok.inj h),
    fun h => congrArg _ (Except.ok.inj h)⟩
  | error => exact ⟨fun h => (by cases h), fun h => (by cases h)⟩

theorem reads_number (width : ℕ) (decode : List UInt8 → A) :
    Reads (readNumber width decode : Read file A) (NumberAs some width decode) := by
  refine (Reads.bind (FileCursor.reads_readExact width) fun raw => Reads.pure (decode raw)).congr
    fun v w => ?_
  constructor
  · rintro ⟨raw, _, _, ⟨hlen, rfl⟩, ⟨hv, rfl⟩, rfl⟩
    exact ⟨raw, hlen, hv, List.append_nil _⟩
  · rintro ⟨raw, hlen, hv, rfl⟩
    exact ⟨raw, _, [], ⟨hlen, rfl⟩, ⟨hv, rfl⟩, (List.append_nil _).symm⟩

theorem reads_map_number {C : Type} (f : A → C) (width : ℕ) (decode : List UInt8 → A) :
    Reads (f <$> readNumber width decode : Read file C)
      (NumberAs some width fun raw => f (decode raw)) := by
  refine (Reads.bind (reads_number width decode) fun a => Reads.pure (f a)).congr fun v w => ?_
  constructor
  · rintro ⟨_, _, _, ⟨raw, hlen, rfl, rfl⟩, ⟨hv, rfl⟩, rfl⟩
    exact ⟨raw, hlen, hv, List.append_nil _⟩
  · rintro ⟨raw, hlen, hv, rfl⟩
    exact ⟨decode raw, _, [], ⟨raw, hlen, rfl, rfl⟩, ⟨hv, rfl⟩, (List.append_nil _).symm⟩

/-- **A 64-bit word** is read from its bytes. -/
theorem reads_u64 : Reads (readU64 : Read file UInt64) (fun v w => w = (u64Bytes v).map some) := by
  refine (reads_number 8 unsigned).congr fun v w => ?_
  constructor
  · rintro ⟨raw, hlen, rfl, rfl⟩
    rw [show unsigned raw = u64OfBytes raw from rfl, u64Bytes_u64OfBytes hlen]
  · rintro rfl
    exact ⟨u64Bytes v, length_u64Bytes v, (u64OfBytes_u64Bytes v).symm, rfl⟩

theorem reads_u32 : Reads (readU32 : Read file UInt32) (fun v w => w = (u32Bytes v).map some) := by
  refine (reads_number 4 u32OfBytes).congr fun v w => ?_
  constructor
  · rintro ⟨raw, hlen, rfl, rfl⟩
    rw [u32Bytes_u32OfBytes hlen]
  · rintro rfl
    exact ⟨u32Bytes v, length_u32Bytes v, (u32OfBytes_u32Bytes v).symm, rfl⟩

theorem toNat_ofNat_of_le {n m : ℕ} (h : n ≤ m) (hm : m ≤ u64Max) : (UInt64.ofNat n).toNat = n := by
  rw [UInt64.toNat_ofNat_of_lt']
  unfold u64Max at hm
  show n < 2 ^ 64
  omega

theorem reads_string : Reads (readString : Read file String) (StringAs some) := by
  refine (bind_written reads_u64 fun len => guard (Reads.bind lift fun _ =>
    Reads.bind (FileCursor.reads_readExact len.toNat) fun bytes => reads_check)).congr fun s w => ?_
  constructor
  · rintro ⟨len, _, ⟨hlen, _, _, _, ⟨-, rfl⟩, ⟨bytes, _, _, ⟨hbytes, rfl⟩, ⟨hs, rfl⟩, rfl⟩, rfl⟩, rfl⟩
    obtain rfl := fromUtf8_eq_some.mp (Result.okOr_eq_ok.mp hs)
    rw [not_lt] at hlen
    refine ⟨by rw [hbytes]; exact hlen, ?_⟩
    rw [hbytes, UInt64.ofNat_toNat, List.map_append, nil_append, List.append_nil]
  · rintro ⟨hlen, rfl⟩
    have hnat := toNat_ofNat_of_le hlen (by decide)
    refine ⟨UInt64.ofNat (utf8 s).length, (utf8 s).map some, ⟨?_, (), [], _, ⟨?_, rfl⟩,
      ⟨utf8 s, _, [], ⟨hnat.symm, rfl⟩, ⟨?_, rfl⟩, (List.append_nil _).symm⟩, rfl⟩,
      List.map_append⟩
    · rw [hnat]
      exact not_lt.mpr hlen
    · rw [hnat]
      exact reserve_eq_ok.mpr (hlen.trans (by decide))
    · exact Result.okOr_eq_ok.mpr (fromUtf8_eq_some.mpr rfl)

/-! ## Arrays that are skipped -/

theorem reads_skipString : Reads (skipString : Read file Unit) (fun _ => SkippedStringAs some) := by
  refine (bind_written reads_u64 fun n => guard (reads_skipBytes n.toNat)).congr
    fun _ w => ?_
  constructor
  · rintro ⟨n, s, ⟨hn, hs⟩, rfl⟩
    refine ⟨s, by rw [hs]; exact not_lt.mp hn, ?_⟩
    rw [hs, UInt64.ofNat_toNat]
  · rintro ⟨s, hlen, rfl⟩
    have hnat := toNat_ofNat_of_le hlen (by decide)
    refine ⟨UInt64.ofNat s.length, s, ⟨?_, hnat.symm⟩, rfl⟩
    rw [hnat]
    exact not_lt.mpr hlen

/-- **Skipping an array** takes just what the array is written as. -/
theorem reads_skipArray (elemTy : UInt32) (len : UInt64) :
    Reads (skipArray elemTy len : Read file Unit) (fun _ => SkippedAs some elemTy len) := by
  unfold skipArray SkippedAs
  split_ifs with hstr hnes
  · refine (Reads.bind (times_each reads_skipString len.toNat) fun _ =>
      Reads.pure ()).congr fun _ w => ?_
    constructor
    · rintro ⟨l, w₁, _, ⟨hlen, hl⟩, ⟨-, rfl⟩, rfl⟩
      have hun : l = List.replicate len.toNat () :=
        eq_replicate_iff.mpr ⟨hlen, fun _ _ => rfl⟩
      rwa [← hun, List.append_nil]
    · intro h
      exact ⟨_, w, [], ⟨length_replicate, h⟩, ⟨rfl, rfl⟩, (List.append_nil _).symm⟩
  · refine (Reads.fail _).congr fun _ w => iff_of_false id ?_
    rintro ⟨width, hwid, -⟩
    rw [hnes] at hwid
    cases hwid
  · refine reads_congr (Reads.bind reads_check fun width => Reads.bind reads_check fun bytes =>
      reads_skipBytes bytes) fun _ w hfit => ?_
    constructor
    · rintro ⟨width, _, _, ⟨hwid, rfl⟩, ⟨bytes, _, _, ⟨hbytes, rfl⟩, hw, rfl⟩, rfl⟩
      refine ⟨width, Result.okOr_eq_ok.mp hwid, hw.trans ?_⟩
      exact (checkedProduct_eq_some.mp (Result.okOr_eq_ok.mp hbytes)).1.symm
    · rintro ⟨width, hwid, hlen⟩
      refine ⟨width, [], w, ⟨Result.okOr_eq_ok.mpr hwid, rfl⟩, ⟨width * len.toNat, [], w,
        ⟨Result.okOr_eq_ok.mpr (checkedProduct_of_le ?_), rfl⟩, hlen, rfl⟩, rfl⟩
      rw [← hlen]
      exact hfit.trans (by decide)

/-! ## Values of the metadata -/

variable {f : Vec 8 A → MetadataValue} {r : Read file A}

/-- The elements of an array of numbers are read as they are written. -/
theorem reads_elems {W : A → List (Option UInt8) → Prop} (hr : Reads r W) (len : UInt64) :
    Reads (readElems f len r) (fun v w => ∃ out : Vec 8 A, v = f out ∧ out.toList.length = len.toNat
        ∧ EachAs W out.toList w) := by
  refine (Reads.bind (vec_each hr len.toNat) fun out => Reads.pure (f out)).congr
    fun v w => ?_
  constructor
  · rintro ⟨out, w₁, _, ⟨hlen, hout⟩, ⟨hv, rfl⟩, rfl⟩
    rw [List.append_nil]
    exact ⟨out, hv, hlen, hout⟩
  · rintro ⟨out, hv, hlen, hout⟩
    exact ⟨out, w, [], ⟨hlen, hout⟩, ⟨hv, rfl⟩, (List.append_nil _).symm⟩

variable {w : List (Option UInt8)}

/-- A 32-bit word as a 64-bit one is the number of its bytes. -/
theorem numberAs_widened {v : UInt64} :
    (∃ x : UInt32, v = x.toUInt64 ∧ w = (u32Bytes x).map some) ↔ NumberAs some 4 unsigned v w := by
  have hwid (raw : List UInt8) (hlen : raw.length = 4) :
      (u32OfBytes raw).toUInt64 = unsigned raw := by
    have hlt := leNat_lt raw
    rw [hlen] at hlt
    refine UInt64.toNat_inj.mp ?_
    rw [UInt32.toNat_toUInt64, unsigned, u32OfBytes, UInt32.toNat_ofNat_of_lt' (by exact hlt),
      UInt64.toNat_ofNat_of_lt' (hlt.trans (by decide))]
  constructor
  · rintro ⟨x, rfl, rfl⟩
    refine ⟨u32Bytes x, length_u32Bytes x, ?_, rfl⟩
    rw [← hwid _ (length_u32Bytes x), u32OfBytes_u32Bytes]
  · rintro ⟨raw, hlen, rfl, rfl⟩
    exact ⟨u32OfBytes raw, (hwid raw hlen).symm, by rw [u32Bytes_u32OfBytes hlen]⟩

theorem reads_unsignedElem {elemTy : UInt32} (h : elemTy.toNat ∈ [0, 2, 4, 10]) :
    ∃ width, scalarWidth elemTy = some width
      ∧ Reads (readUnsignedElem elemTy : Read file UInt64) (NumberAs some width unsigned) := by
  simp only [mem_cons, not_mem_nil, or_false] at h
  unfold scalarWidth readUnsignedElem
  rcases h with h | h | h | h
  · rw [h]
    exact ⟨1, rfl, reads_number 1 unsigned⟩
  · rw [h]
    exact ⟨2, rfl, reads_number 2 unsigned⟩
  · rw [h]
    refine ⟨4, rfl, (Reads.map_written reads_u32).congr fun v w => numberAs_widened⟩
  · rw [h]
    exact ⟨8, rfl, reads_number 8 unsigned⟩

theorem reads_signedElem {elemTy : UInt32} (h : elemTy.toNat ∈ [1, 3, 5, 11]) :
    ∃ width, scalarWidth elemTy = some width
      ∧ Reads (readSignedElem elemTy : Read file ℤ) (NumberAs some width signed) := by
  simp only [mem_cons, not_mem_nil, or_false] at h
  unfold scalarWidth readSignedElem
  rcases h with h | h | h | h
  · rw [h]
    exact ⟨1, rfl, reads_number 1 signed⟩
  · rw [h]
    exact ⟨2, rfl, reads_number 2 signed⟩
  · rw [h]
    exact ⟨4, rfl, reads_number 4 signed⟩
  · rw [h]
    exact ⟨8, rfl, reads_number 8 signed⟩

/-- An array that is skipped is remembered by its length. -/
theorem reads_ignoreArray (elemTy : UInt32) (len : UInt64) :
    Reads (ignoreArray elemTy len : Read file MetadataValue)
      (fun v w => v = .ignoredArray len ∧ SkippedAs some elemTy len w) := by
  refine (Reads.bind (reads_skipArray elemTy len) fun _ =>
    Reads.pure (MetadataValue.ignoredArray len)).congr fun v w => ?_
  constructor
  · rintro ⟨_, w₁, _, h, ⟨hv, rfl⟩, rfl⟩
    rw [List.append_nil]
    exact ⟨hv, h⟩
  · rintro ⟨hv, h⟩
    exact ⟨(), w, [], h, ⟨hv, rfl⟩, (List.append_nil _).symm⟩

section Kept

variable {widen : UInt32 → UInt64} {elemTy : UInt32} {len : UInt64}

theorem readKept_of_unsigned (h : elemTy.toNat ∈ [0, 2, 4, 10]) :
    (readKept widen elemTy len : Read file MetadataValue)
      = readElems .u64Array len (readUnsignedElem elemTy) := by
  simp only [mem_cons, not_mem_nil, or_false] at h
  unfold readKept
  rcases h with h | h | h | h <;> simp only [h]

theorem readKept_of_signed (h : elemTy.toNat ∈ [1, 3, 5, 11]) :
    (readKept widen elemTy len : Read file MetadataValue)
      = readElems .i64Array len (readSignedElem elemTy) := by
  simp only [mem_cons, not_mem_nil, or_false] at h
  unfold readKept
  rcases h with h | h | h | h <;> simp only [h]

theorem readKept_of_float (h : elemTy.toNat = 6 ∨ elemTy.toNat = 12) :
    (readKept widen elemTy len : Read file MetadataValue)
      = readElems .f64Array len (readFloatElem widen elemTy) := by
  unfold readKept
  rcases h with h | h <;> simp only [h]

theorem readKept_of_other (huns : elemTy.toNat ∉ [0, 2, 4, 10])
    (hsig : elemTy.toNat ∉ [1, 3, 5, 11]) (h6 : elemTy.toNat ≠ 6) (h12 : elemTy.toNat ≠ 12) :
    (readKept widen elemTy len : Read file MetadataValue) = ignoreArray elemTy len := by
  unfold readKept
  split
  all_goals first
    | rfl
    | (exfalso; simp_all)

/-- The width of the elements is that of their type. -/
theorem exists_width {decode : List UInt8 → A} {v : MetadataValue} {width : ℕ}
    (h : scalarWidth elemTy = some width) :
    (∃ out : Vec 8 A, v = f out ∧ out.toList.length = len.toNat
        ∧ EachAs (NumberAs some width decode) out.toList w)
      ↔ ∃ (out : Vec 8 A) (width' : ℕ), v = f out ∧ scalarWidth elemTy = some width'
        ∧ out.toList.length = len.toNat ∧ EachAs (NumberAs some width' decode) out.toList w := by
  constructor
  · rintro ⟨out, hv, hlen, hout⟩
    exact ⟨out, width, hv, h, hlen, hout⟩
  · rintro ⟨out, width', hv, hwid', hlen, hout⟩
    obtain rfl := Option.some.inj (h.symm.trans hwid')
    exact ⟨out, hv, hlen, hout⟩

/-- **An array that is kept** is read as it is written. -/
theorem reads_kept : Reads (readKept widen elemTy len : Read file MetadataValue)
    (KeptAs some widen elemTy len) := by
  unfold KeptAs
  split_ifs with huns hsig h6 h12
  · rw [readKept_of_unsigned huns]
    obtain ⟨width, hwid, hr⟩ := reads_unsignedElem huns
    exact (reads_elems hr len).congr fun v w => exists_width hwid
  · rw [readKept_of_signed hsig]
    obtain ⟨width, hwid, hr⟩ := reads_signedElem hsig
    exact (reads_elems hr len).congr fun v w => exists_width hwid
  · rw [readKept_of_float (Or.inl h6)]
    refine reads_elems ?_ len
    have hel : elemTy = 6 := UInt32.toNat_inj.mp h6
    unfold readFloatElem
    rw [if_pos hel]
    exact reads_number 4 _
  · rw [readKept_of_float (Or.inr h12)]
    refine reads_elems ?_ len
    have hel : elemTy ≠ 6 := fun h => h6 (congrArg UInt32.toNat h)
    unfold readFloatElem
    rw [if_neg hel]
    exact reads_number 8 _
  · rw [readKept_of_other huns hsig h6 h12]
    exact reads_ignoreArray elemTy len

end Kept

variable (widen : UInt32 → UInt64)

/-- **An array** is read or skipped. -/
theorem reads_array (keepArray : Bool) : Reads (readArray widen keepArray : Read file MetadataValue)
      (ArrayAs some widen keepArray) := by
  have hbod (elemTy : UInt32) (len : UInt64) :
      Reads (if ¬ keepArray ∨ maxMetadataArray < len.toNat then ignoreArray elemTy len
          else readKept widen elemTy len : Read file MetadataValue)
        (fun v w => if keepArray ∧ len.toNat ≤ maxMetadataArray then KeptAs some widen elemTy len v w
          else v = .ignoredArray len ∧ SkippedAs some elemTy len w) := by
    by_cases hkp : keepArray = true ∧ len.toNat ≤ maxMetadataArray
    · simp only [if_pos hkp]
      rw [if_neg fun h => h.elim (absurd hkp.1) (absurd hkp.2 ∘ not_le.mpr)]
      exact reads_kept
    · simp only [if_neg hkp]
      rw [if_pos ((not_and_or.mp hkp).imp id not_le.mp)]
      exact reads_ignoreArray elemTy len
  refine (bind_written reads_u32 fun elemTy => bind_written reads_u64 fun len =>
    hbod elemTy len).congr fun v w => ?_
  constructor
  · rintro ⟨elemTy, _, ⟨len, w', h, rfl⟩, rfl⟩
    exact ⟨elemTy, len, w', by rw [List.map_append, append_assoc], h⟩
  · rintro ⟨elemTy, len, w', rfl, h⟩
    exact ⟨elemTy, _, ⟨len, w', h, rfl⟩, by rw [List.map_append, append_assoc]⟩

/-- A value of a scalar type is a number. -/
theorem valueAs_scalar {widen : UInt32 → UInt64} {ty : UInt32} {keepArray : Bool} {k width : ℕ}
    {decode : List UInt8 → MetadataValue} (h : ty.toNat = k) (h8 : k ≠ 8) (h9 : k ≠ 9)
    (hk : scalarOf widen k = some (width, decode)) {v : MetadataValue} :
    NumberAs some width decode v w ↔ ValueAs some widen ty keepArray v w := by
  have hstr : ty ≠ 8 := fun hty => h8 (h.symm.trans (congrArg UInt32.toNat hty))
  have harr : ty ≠ 9 := fun hty => h9 (h.symm.trans (congrArg UInt32.toNat hty))
  unfold ValueAs
  rw [if_neg hstr, if_neg harr, h, hk]
  constructor
  · exact fun hv => ⟨width, decode, rfl, hv⟩
  · rintro ⟨_, _, heq, hv⟩
    cases heq
    exact hv

/-- **A value of the metadata** is read as it is written, by its type. -/
theorem reads_value (ty : UInt32) (keepArray : Bool) :
    Reads (readMetadataValue widen ty keepArray : Read file MetadataValue)
      (ValueAs some widen ty keepArray) := by
  unfold readMetadataValue
  split
  case h_1 h =>
    exact (reads_map_number _ 1 unsigned).congr fun v w =>
      valueAs_scalar h (by decide) (by decide) rfl
  case h_2 h =>
    exact (reads_map_number _ 1 signed).congr fun v w =>
      valueAs_scalar h (by decide) (by decide) rfl
  case h_3 h =>
    exact (reads_map_number _ 2 unsigned).congr fun v w =>
      valueAs_scalar h (by decide) (by decide) rfl
  case h_4 h =>
    exact (reads_map_number _ 2 signed).congr fun v w =>
      valueAs_scalar h (by decide) (by decide) rfl
  case h_5 h =>
    refine (Reads.map_written reads_u32).congr fun v w =>
      Iff.trans ?_ (valueAs_scalar h (by decide) (by decide) rfl)
    constructor
    · rintro ⟨x, rfl, hw⟩
      obtain ⟨raw, hlen, hx, hraw⟩ := numberAs_widened.mp ⟨x, rfl, hw⟩
      exact ⟨raw, hlen, congrArg _ hx, hraw⟩
    · rintro ⟨raw, hlen, rfl, rfl⟩
      obtain ⟨x, hx, hw⟩ := numberAs_widened.mpr ⟨raw, hlen, rfl, rfl⟩
      exact ⟨x, congrArg _ hx, hw⟩
  case h_6 h =>
    exact (reads_map_number _ 4 signed).congr fun v w =>
      valueAs_scalar h (by decide) (by decide) rfl
  case h_7 h =>
    exact (reads_map_number _ 4 _).congr fun v w =>
      valueAs_scalar h (by decide) (by decide) rfl
  case h_8 h =>
    exact (reads_map_number (fun v : UInt64 => MetadataValue.bool (v ≠ 0)) 1 unsigned).congr
      fun v w => valueAs_scalar h (by decide) (by decide) rfl
  case h_9 h =>
    have hty : ty = 8 := UInt32.toNat_inj.mp h
    refine (Reads.bind reads_string fun s => Reads.pure (MetadataValue.string s)).congr
      fun v w => ?_
    unfold ValueAs
    rw [if_pos hty]
    constructor
    · rintro ⟨s, w₁, _, hs, ⟨hv, rfl⟩, rfl⟩
      rw [List.append_nil]
      exact ⟨s, hv, hs⟩
    · rintro ⟨s, hv, hs⟩
      exact ⟨s, w, [], hs, ⟨hv, rfl⟩, (List.append_nil _).symm⟩
  case h_10 h =>
    have hty : ty = 9 := UInt32.toNat_inj.mp h
    refine (reads_array widen keepArray).congr fun v w => ?_
    unfold ValueAs
    rw [if_neg (by rw [hty]; decide), if_pos hty]
  case h_11 h =>
    exact (reads_map_number _ 8 unsigned).congr fun v w =>
      valueAs_scalar h (by decide) (by decide) rfl
  case h_12 h =>
    exact (reads_map_number _ 8 signed).congr fun v w =>
      valueAs_scalar h (by decide) (by decide) rfl
  case h_13 h =>
    exact (reads_map_number _ 8 unsigned).congr fun v w =>
      valueAs_scalar h (by decide) (by decide) rfl
  case h_14 h₀ h₁ h₂ h₃ h₄ h₅ h₆ h₇ h₈ h₉ h₁₀ h₁₁ h₁₂ =>
    refine (Reads.fail _).congr fun v w => iff_of_false id fun h => ?_
    unfold ValueAs at h
    rw [if_neg fun hty => h₈ (congrArg UInt32.toNat hty),
      if_neg fun hty => h₉ (congrArg UInt32.toNat hty)] at h
    obtain ⟨_, _, hsom, -⟩ := h
    unfold scalarOf at hsom
    split at hsom
    all_goals contradiction

/-! ## Entries and descriptors -/

theorem reads_entry :
    Reads (readEntry widen : Read file (String × MetadataValue)) (EntryAs some widen) := by
  refine (Reads.bind reads_string fun key => bind_written reads_u32 fun ty =>
    Reads.bind (reads_value widen ty (keepsArray key)) fun value =>
      Reads.pure (key, value)).congr fun entry w => ?_
  constructor
  · rintro ⟨key, w₁, _, hkey, ⟨ty, _, ⟨value, w₂, _, hval, ⟨rfl, rfl⟩, rfl⟩, rfl⟩, rfl⟩
    rw [List.append_nil]
    exact ⟨ty, w₁, w₂, hkey, hval, rfl⟩
  · rintro ⟨ty, w₁, w₂, hkey, hval, rfl⟩
    exact ⟨entry.1, w₁, _, hkey, ⟨ty, w₂, ⟨entry.2, w₂, [], hval, ⟨rfl, rfl⟩,
      (List.append_nil _).symm⟩, rfl⟩, rfl⟩

/-- The loop of `elementCount`, from any product. -/
theorem foldlM_elementCount {e : String} {dims : List UInt64} {m n : ℕ} (hm : m ≤ u64Max) :
    dims.foldlM (fun n d => Result.okOr (checkedProduct n d.toNat) e) m = .ok n
      ↔ n = m * (dims.map UInt64.toNat).prod
        ∧ ∀ k, m * ((dims.take k).map UInt64.toNat).prod ≤ u64Max := by
  induction dims generalizing m with
  | nil =>
    simp only [take_nil, map_nil, prod_nil, Nat.mul_one]
    constructor
    · intro h
      exact ⟨(Except.ok.inj h).symm, fun _ => hm⟩
    · rintro ⟨rfl, -⟩
      rfl
  | cons d dims ih =>
    rw [foldlM_cons, Result.bind_eq_ok, map_cons, prod_cons, ← Nat.mul_assoc]
    constructor
    · rintro ⟨_, hfst, hres⟩
      obtain ⟨rfl, hle⟩ := checkedProduct_eq_some.mp (Result.okOr_eq_ok.mp hfst)
      obtain ⟨hn, hall⟩ := (ih hle).mp hres
      refine ⟨hn, fun k => ?_⟩
      cases k with
      | zero => rwa [take_zero, map_nil, prod_nil, Nat.mul_one]
      | succ k =>
        rw [take_succ_cons, map_cons, prod_cons, ← Nat.mul_assoc]
        exact hall k
    · rintro ⟨hn, hall⟩
      have hres (k : ℕ) : m * d.toNat * ((dims.take k).map UInt64.toNat).prod ≤ u64Max := by
        have h := hall (k + 1)
        rwa [take_succ_cons, map_cons, prod_cons, ← Nat.mul_assoc] at h
      have hle : m * d.toNat ≤ u64Max := by
        have h := hres 0
        rwa [take_zero, map_nil, prod_nil, Nat.mul_one] at h
      exact ⟨_, Result.okOr_eq_ok.mpr (checkedProduct_of_le hle), (ih hle).mpr ⟨hn, hres⟩⟩

/-- **The number of elements** is computed if it can be, dimension by
dimension. -/
theorem elementCount_eq_ok {name : String} {dims : List UInt64} {n : ℕ} :
    elementCount name dims = .ok n
      ↔ n = (dims.map UInt64.toNat).prod ∧ ∀ k, ((dims.take k).map UInt64.toNat).prod ≤ u64Max := by
  unfold elementCount
  rw [foldlM_elementCount (show 1 ≤ u64Max by decide)]
  simp only [Nat.one_mul]

theorem toNat_ofNat_rank {n : ℕ} (h : n ≤ maxDims) : (UInt32.ofNat n).toNat = n := by
  rw [UInt32.toNat_ofNat_of_lt']
  exact h.trans_lt (by decide)

/-- **A descriptor** is read as it is written, if it makes sense. -/
theorem reads_pending : Reads (readPending : Read file PendingTensor) (TensorAs some) := by
  refine (Reads.bind reads_string fun name => bind_written reads_u32 fun nDims =>
    guard (Reads.bind (vec reads_u64 nDims.toNat) fun dims =>
      bind_written reads_u32 fun ty => Reads.bind reads_check fun dtype =>
        bind_written reads_u64 fun relativeOffset => Reads.bind reads_check fun elements =>
          Reads.bind reads_check fun storedBytes =>
            Reads.pure (PendingTensor.mk name dims dtype relativeOffset storedBytes))).congr
    fun t w => ?_
  constructor
  · rintro ⟨name, w₁, _, hnam, ⟨nDims, _, ⟨hran, dims, _, _, ⟨hlen, rfl⟩, ⟨ty, _, ⟨dtype, _, _,
      ⟨hty, rfl⟩, ⟨relativeOffset, _, ⟨elements, _, _, ⟨hel, rfl⟩, ⟨storedBytes, _, _,
      ⟨hst, rfl⟩, ⟨rfl, rfl⟩, rfl⟩, rfl⟩, rfl⟩, rfl⟩, rfl⟩, rfl⟩, rfl⟩, rfl⟩
    obtain rfl := GgmlType.fromId_eq_ok.mp hty
    obtain ⟨rfl, hall⟩ := elementCount_eq_ok.mp hel
    obtain ⟨hdvd, hbytes, hle⟩ := GgmlType.storedBytes_eq_ok.mp hst
    obtain ⟨hpos, hmax⟩ := not_or.mp hran
    have hndm : nDims = UInt32.ofNat dims.toList.length := by rw [hlen, UInt32.ofNat_toNat]
    refine ⟨⟨?_, ?_, hall, hdvd, hbytes, hle⟩, w₁, hnam, ?_⟩
    · show 1 ≤ dims.toList.length
      rw [hlen]
      exact Nat.pos_of_ne_zero fun h => hpos (UInt32.toNat_inj.mp h)
    · show dims.toList.length ≤ maxDims
      rw [hlen]
      exact not_lt.mp hmax
    · rw [hndm]
      simp only [List.map_append, map_flatMap, nil_append, List.append_nil]
  · rintro ⟨hsnd, w₁, hnam, rfl⟩
    have hnat := toNat_ofNat_rank hsnd.rank_le
    refine ⟨t.name, w₁, _, hnam, ⟨UInt32.ofNat t.dims.toList.length, _, ⟨?_, t.dims, _, _,
      ⟨hnat.symm, rfl⟩, ⟨t.dtype.id, _, ⟨t.dtype, [], _, ⟨GgmlType.fromId_eq_ok.mpr rfl, rfl⟩,
      ⟨t.relativeOffset, _, ⟨_, [], _, ⟨elementCount_eq_ok.mpr ⟨rfl, hsnd.elements_le⟩, rfl⟩,
      ⟨t.storedBytes, [], [], ⟨GgmlType.storedBytes_eq_ok.mpr
        ⟨hsnd.divides, hsnd.storedBytes, hsnd.storedBytes_le⟩, rfl⟩, ⟨rfl, rfl⟩, rfl⟩, rfl⟩,
      rfl⟩, rfl⟩, rfl⟩, rfl⟩, rfl⟩, ?_⟩
    · refine not_or.mpr ⟨fun h => ?_, ?_⟩
      · rw [h] at hnat
        exact absurd hsnd.rank_pos (by rw [← hnat]; decide)
      · rw [hnat]
        exact not_lt.mpr hsnd.rank_le
    · simp only [List.map_append, map_flatMap, nil_append, List.append_nil]

/-- An alignment that is accepted. -/
def GoodAlignment (alignment : ℕ) : Prop :=
  ¬ (alignment = 0 ∨ ¬ isPowerOfTwo alignment ∨ 1024 * 1024 < alignment)

/-- **The header** is read as it is written, if its alignment is accepted. -/
theorem reads_header :
    Reads (readHeader widen : Read file _) (fun out w => ∃ entries, out.1 = insertAll entries
      ∧ out.2.1 = alignmentOf out.1 ∧ GoodAlignment out.2.1
      ∧ HeaderAs some widen entries out.2.2.toList w) := by
  refine (bind_written reads_u32 fun m => guard (bind_written reads_u32
    fun version => guard (bind_written reads_u64 fun tensorCount =>
      bind_written reads_u64 fun kvCount => guard
        (Reads.bind (times_each (reads_entry widen) kvCount.toNat) fun entries =>
          guard (Reads.bind (vec_each reads_pending tensorCount.toNat) fun pending =>
            Reads.pure (insertAll entries, alignmentOf (insertAll entries), pending)))))).congr
    fun out w => ?_
  constructor
  · rintro ⟨m, _, ⟨hm, version, _, ⟨hver, tensorCount, _, ⟨kvCount, _, ⟨hcount, entries, w₁, _,
      ⟨hents, hw₁⟩, ⟨hal, pending, w₂, _, ⟨hpen, hw₂⟩, ⟨rfl, rfl⟩, rfl⟩, rfl⟩, rfl⟩,
      rfl⟩, rfl⟩, rfl⟩
    obtain rfl := not_not.mp hm
    obtain rfl := not_not.mp hver
    obtain ⟨hten, hkvs⟩ := not_or.mp hcount
    refine ⟨entries, rfl, rfl, hal, ?_, ?_, w₁, w₂, hw₁, hw₂, ?_⟩
    · rw [hents]
      exact not_lt.mp hkvs
    · rw [hpen]
      exact not_lt.mp hten
    · rw [hents, hpen, UInt64.ofNat_toNat, UInt64.ofNat_toNat]
      simp only [List.map_append, append_assoc, List.append_nil]
  · obtain ⟨metadata, alignment, pending⟩ := out
    rintro ⟨entries, hmet, hali, hal, hkvs, hten, w₁, w₂, hw₁, hw₂, rfl⟩
    obtain rfl : metadata = insertAll entries := hmet
    obtain rfl : alignment = alignmentOf (insertAll entries) := hali
    have hkv := toNat_ofNat_of_le hkvs (by decide)
    have htns := toNat_ofNat_of_le hten (by decide)
    refine ⟨magic, _, ⟨not_not.mpr rfl, 3, _, ⟨not_not.mpr rfl,
      UInt64.ofNat pending.toList.length, _, ⟨UInt64.ofNat entries.length, _, ⟨?_, entries, w₁, w₂,
      ⟨hkv.symm, hw₁⟩, ⟨hal, pending, w₂, [], ⟨htns.symm, hw₂⟩, ⟨rfl, rfl⟩,
      (List.append_nil _).symm⟩, rfl⟩, rfl⟩, rfl⟩, rfl⟩, ?_⟩
    · rw [hkv, htns]
      exact not_or.mpr ⟨not_lt.mpr hten, not_lt.mpr hkvs⟩
    · simp only [List.map_append, append_assoc]

/-! ## No harm -/

/-- **The largest allocation**: the vector of the descriptors, when there are
as many as there may be. -/
def allocationBound : ℕ := pendingSize * maxCount

theorem frugal_readExact (n k : ℕ) : Frugal k
    (FileCursor.readExact n : Read file (List UInt8)) := by
  intro c
  unfold FileCursor.readExact
  split
  · exact harmless_pure _
  · split
    · exact harmless_pure _
    · exact harmless_fail _

theorem frugal_skipBytes (n k : ℕ) : Frugal k (skipBytes n : Read file Unit) := by
  intro c
  unfold skipBytes
  split
  · exact harmless_fail _
  · split
    · exact harmless_pure _
    · exact harmless_fail _

theorem frugal_check {x : Except String A} (k : ℕ) : Frugal k (check x : Read file A) := by
  refine Frugal.lift ⟨?_, fun _ h => absurd h not_mem_nil⟩
  cases x with
  | ok a => exact Or.inl ⟨a, rfl⟩
  | error e => exact Or.inr ⟨e, rfl⟩

theorem frugal_number (width : ℕ) (decode : List UInt8 → A) (k : ℕ) :
    Frugal k (readNumber width decode : Read file A) :=
  Frugal.bind (frugal_readExact width k) fun raw => Frugal.pure (decode raw)

theorem frugal_map {C : Type} {f : A → C} {k : ℕ} (h : Frugal k r) :
    Frugal k (f <$> r) := Frugal.bind h fun a => Frugal.pure (f a)

theorem frugal_guard {p : Prop} [Decidable p] {e : String} {k : ℕ}
    (h : ¬ p → Frugal k r) : Frugal k (if p then Reader.fail e else r) := by
  split
  · exact Frugal.fail e
  · exact h ‹_›

theorem frugal_reserve {n k : ℕ} (h : n ≤ k) (hk : k ≤ isizeMax) :
    Frugal k (Reader.lift (reserve n) : Read file Unit) :=
  Frugal.lift (harmless_reserve.mpr ⟨h.trans hk, h⟩)

theorem frugal_vec {size n k : ℕ} (hr : Frugal k r) (h : size * n ≤ k)
    (hk : k ≤ isizeMax) : Frugal k (Reader.vec size n r) :=
  fun _ => (Frugal.harmless_vec hr).mpr ⟨h.trans hk, h⟩

theorem allocationBound_le : allocationBound ≤ isizeMax := by decide

theorem frugal_string : Frugal allocationBound (readString : Read file String) := by
  refine Frugal.bind (frugal_number 8 _ _) fun len => frugal_guard fun hlen => ?_
  refine Frugal.bind (frugal_reserve ((not_lt.mp hlen).trans (by decide)) allocationBound_le)
    fun _ => Frugal.bind (frugal_readExact _ _) fun _ => frugal_check _

theorem frugal_skipArray (elemTy : UInt32) (len : UInt64) (k : ℕ) :
    Frugal k (skipArray elemTy len : Read file Unit) := by
  unfold skipArray
  split
  · refine Frugal.bind (Frugal.times ?_ _) fun _ => Frugal.pure ()
    exact Frugal.bind (frugal_number 8 _ _) fun n => frugal_guard fun _ => frugal_skipBytes _ _
  · refine frugal_guard fun _ => ?_
    exact Frugal.bind (frugal_check _) fun _ => Frugal.bind (frugal_check _) fun _ =>
      frugal_skipBytes _ _

theorem frugal_ignoreArray (elemTy : UInt32) (len : UInt64) (k : ℕ) :
    Frugal k (ignoreArray elemTy len : Read file MetadataValue) :=
  Frugal.bind (frugal_skipArray elemTy len k) fun _ => Frugal.pure _

theorem frugal_elems {len : UInt64} (hr : Frugal allocationBound r)
    (hlen : len.toNat ≤ maxMetadataArray) : Frugal allocationBound (readElems f len r) := by
  refine Frugal.bind (frugal_vec hr ?_ allocationBound_le) fun _ => Frugal.pure _
  exact (Nat.mul_le_mul_left 8 hlen).trans (by decide)

theorem frugal_kept {elemTy : UInt32} {len : UInt64} (hlen : len.toNat ≤ maxMetadataArray) :
    Frugal allocationBound (readKept widen elemTy len : Read file MetadataValue) := by
  by_cases huns : elemTy.toNat ∈ [0, 2, 4, 10]
  · rw [readKept_of_unsigned huns]
    refine frugal_elems ?_ hlen
    simp only [mem_cons, not_mem_nil, or_false] at huns
    unfold readUnsignedElem
    rcases huns with h | h | h | h <;> simp only [h]
    · exact frugal_number 1 _ _
    · exact frugal_number 2 _ _
    · exact Frugal.bind (frugal_number 4 _ _) fun _ => Frugal.pure _
    · exact frugal_number 8 _ _
  by_cases hsig : elemTy.toNat ∈ [1, 3, 5, 11]
  · rw [readKept_of_signed hsig]
    refine frugal_elems ?_ hlen
    simp only [mem_cons, not_mem_nil, or_false] at hsig
    unfold readSignedElem
    rcases hsig with h | h | h | h <;> simp only [h]
    · exact frugal_number 1 _ _
    · exact frugal_number 2 _ _
    · exact frugal_number 4 _ _
    · exact frugal_number 8 _ _
  by_cases hfl : elemTy.toNat = 6 ∨ elemTy.toNat = 12
  · rw [readKept_of_float hfl]
    refine frugal_elems ?_ hlen
    unfold readFloatElem
    split
    · exact frugal_number 4 _ _
    · exact frugal_number 8 _ _
  · obtain ⟨h6, h12⟩ := not_or.mp hfl
    rw [readKept_of_other huns hsig h6 h12]
    exact frugal_ignoreArray _ _ _

theorem frugal_value (ty : UInt32) (keepArray : Bool) :
    Frugal allocationBound (readMetadataValue widen ty keepArray : Read file MetadataValue) := by
  unfold readMetadataValue
  split
  case h_5 => exact Frugal.bind (frugal_number 4 _ _) fun _ => Frugal.pure _
  case h_8 => exact Frugal.bind (frugal_number 1 _ _) fun _ => Frugal.pure _
  case h_9 => exact frugal_map frugal_string
  case h_10 =>
    refine Frugal.bind (frugal_number 4 _ _) fun _ => Frugal.bind (frugal_number 8 _ _)
      fun len => ?_
    split
    case isTrue => exact frugal_ignoreArray _ _ _
    case isFalse h => exact frugal_kept widen (not_lt.mp (not_or.mp h).2)
  case h_14 => exact Frugal.fail _
  all_goals exact frugal_map (frugal_number _ _ _)

theorem frugal_pending : Frugal allocationBound (readPending : Read file PendingTensor) := by
  refine Frugal.bind frugal_string fun _ => Frugal.bind (frugal_number 4 _ _) fun nDims =>
    frugal_guard fun hran => ?_
  have hdim : 8 * nDims.toNat ≤ allocationBound :=
    (Nat.mul_le_mul_left 8 (not_lt.mp (not_or.mp hran).2)).trans (by decide)
  exact Frugal.bind (frugal_vec (frugal_number 8 _ _) hdim allocationBound_le) fun _ =>
    Frugal.bind (frugal_number 4 _ _) fun _ => Frugal.bind (frugal_check _) fun _ =>
      Frugal.bind (frugal_number 8 _ _) fun _ => Frugal.bind (frugal_check _) fun _ =>
        Frugal.bind (frugal_check _) fun _ => Frugal.pure _

/-- **Reading a header does no harm**, whatever the file says of itself. -/
theorem frugal_header : Frugal allocationBound (readHeader widen : Read file _) := by
  refine Frugal.bind (frugal_number 4 _ _) fun _ => frugal_guard fun _ =>
    Frugal.bind (frugal_number 4 _ _) fun _ => frugal_guard fun _ =>
      Frugal.bind (frugal_number 8 _ _) fun tensorCount => Frugal.bind (frugal_number 8 _ _)
        fun kvCount => frugal_guard fun hcount => ?_
  refine Frugal.bind (Frugal.times ?_ _) fun _ => frugal_guard fun _ =>
    Frugal.bind (frugal_vec frugal_pending ?_ allocationBound_le) fun _ => Frugal.pure _
  · exact Frugal.bind frugal_string fun _ => Frugal.bind (frugal_number 4 _ _) fun _ =>
      Frugal.bind (frugal_value widen _ _) fun _ => Frugal.pure _
  · exact Nat.mul_le_mul_left _ (not_lt.mp (not_or.mp hcount).1)

end Gguf

end Logan
