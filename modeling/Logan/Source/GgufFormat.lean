import Logan.Source.Gguf

/-!
# The format of a GGUF header

The format, as a relation between what a header says and the bytes that say
it. A value of the metadata can be written in several ways – as a number of
one width or another, and a skipped array by any content of its length – so
nothing less than a relation will do.

The bytes may be those of a list, or those of a file that ends in nothing:
the format is stated in any alphabet that the bytes are part of, and does not
depend on it (`HeaderAs.map`).
-/

namespace Logan

open List

namespace Gguf

section Format

variable {B D A : Type} (e : UInt8 → B)

/-- A number of a fixed width. -/
def NumberAs (width : ℕ) (decode : List UInt8 → A) (v : A) (w : List B) : Prop :=
  ∃ raw : List UInt8, raw.length = width ∧ v = decode raw ∧ w = raw.map e

/-- A string: its length, and its bytes. -/
def StringAs (s : String) (w : List B) : Prop :=
  (utf8 s).length ≤ maxStringBytes ∧ w = (u64Bytes (UInt64.ofNat (utf8 s).length) ++ utf8 s).map e

/-- A string that is skipped may be any bytes. -/
def SkippedStringAs (w : List B) : Prop :=
  ∃ s : List B, s.length ≤ maxStringBytes ∧ w = (u64Bytes (UInt64.ofNat s.length)).map e ++ s

/-- An array that is skipped: strings, or numbers, of which only the width
matters. -/
def SkippedAs (elemTy : UInt32) (len : UInt64) (w : List B) : Prop :=
  if elemTy = 8 then EachAs (fun (_ : Unit) => SkippedStringAs e) (List.replicate len.toNat ()) w
  else ∃ width, scalarWidth elemTy = some width ∧ w.length = width * len.toNat

/-- An array that is kept, if it is one of numbers. -/
def KeptAs (widen : UInt32 → UInt64) (elemTy : UInt32) (len : UInt64) (v : MetadataValue)
    (w : List B) : Prop :=
  if elemTy.toNat ∈ [0, 2, 4, 10] then
    ∃ out width, v = .u64Array out ∧ scalarWidth elemTy = some width
      ∧ out.toList.length = len.toNat ∧ EachAs (NumberAs e width unsigned) out.toList w
  else if elemTy.toNat ∈ [1, 3, 5, 11] then
    ∃ out width, v = .i64Array out ∧ scalarWidth elemTy = some width
      ∧ out.toList.length = len.toNat ∧ EachAs (NumberAs e width signed) out.toList w
  else if elemTy.toNat = 6 then
    ∃ out, v = .f64Array out ∧ out.toList.length = len.toNat
      ∧ EachAs (NumberAs e 4 fun raw => widen (u32OfBytes raw)) out.toList w
  else if elemTy.toNat = 12 then
    ∃ out, v = .f64Array out ∧ out.toList.length = len.toNat
      ∧ EachAs (NumberAs e 8 unsigned) out.toList w
  else v = .ignoredArray len ∧ SkippedAs e elemTy len w

/-- An array: the type of its elements, their number, and the elements. -/
def ArrayAs (widen : UInt32 → UInt64) (keepArray : Bool) (v : MetadataValue) (w : List B) : Prop :=
  ∃ (elemTy : UInt32) (len : UInt64) (w' : List B),
    w = (u32Bytes elemTy ++ u64Bytes len).map e ++ w' ∧
    if keepArray ∧ len.toNat ≤ maxMetadataArray then KeptAs e widen elemTy len v w'
    else v = .ignoredArray len ∧ SkippedAs e elemTy len w'

/-- The scalar types: the width of a value, and what it is. -/
def scalarOf (widen : UInt32 → UInt64) (ty : ℕ) : Option (ℕ × (List UInt8 → MetadataValue)) :=
  match ty with
  | 0 => some (1, fun raw => .u64 (unsigned raw))
  | 1 => some (1, fun raw => .i64 (signed raw))
  | 2 => some (2, fun raw => .u64 (unsigned raw))
  | 3 => some (2, fun raw => .i64 (signed raw))
  | 4 => some (4, fun raw => .u64 (unsigned raw))
  | 5 => some (4, fun raw => .i64 (signed raw))
  | 6 => some (4, fun raw => .f64 (widen (u32OfBytes raw)))
  | 7 => some (1, fun raw => .bool (unsigned raw ≠ 0))
  | 10 => some (8, fun raw => .u64 (unsigned raw))
  | 11 => some (8, fun raw => .i64 (signed raw))
  | 12 => some (8, fun raw => .f64 (unsigned raw))
  | _ => none

/-- A value of a supported type. -/
def ValueAs (widen : UInt32 → UInt64) (ty : UInt32) (keepArray : Bool) (v : MetadataValue)
    (w : List B) : Prop :=
  if ty = 8 then ∃ s, v = .string s ∧ StringAs e s w
  else if ty = 9 then ArrayAs e widen keepArray v w
  else ∃ width decode, scalarOf widen ty.toNat = some (width, decode)
    ∧ NumberAs e width decode v w

/-- An entry of the metadata: the key, the type, and the value. -/
def EntryAs (widen : UInt32 → UInt64) (entry : String × MetadataValue) (w : List B) : Prop :=
  ∃ (ty : UInt32) (w₁ w₂ : List B), StringAs e entry.1 w₁
    ∧ ValueAs e widen ty (keepsArray entry.1) entry.2 w₂
    ∧ w = w₁ ++ ((u32Bytes ty).map e ++ w₂)

end Format

/-- **A descriptor that makes sense**: a rank of 1 to 8, and numbers of
elements and of bytes that can be computed, dimension by dimension, in 64
bits. -/
structure PendingTensor.Sound (t : PendingTensor) : Prop where
  rank_pos : 1 ≤ t.dims.toList.length
  rank_le : t.dims.toList.length ≤ maxDims
  elements_le : ∀ k, ((t.dims.toList.take k).map UInt64.toNat).prod ≤ u64Max
  divides : t.dtype.blockGeometry.1 ∣ (t.dims.toList.map UInt64.toNat).prod
  storedBytes : t.storedBytes = (t.dims.toList.map UInt64.toNat).prod / t.dtype.blockGeometry.1
    * t.dtype.blockGeometry.2
  storedBytes_le : t.storedBytes ≤ u64Max

variable {widen : UInt32 → UInt64}

section Format

variable {B D A : Type} (e : UInt8 → B)

/-- A descriptor: the name, the rank, the dimensions, the type and the
offset. -/
def TensorAs (t : PendingTensor) (w : List B) : Prop :=
  t.Sound ∧ ∃ w₁ : List B, StringAs e t.name w₁
    ∧ w = w₁ ++ (u32Bytes (UInt32.ofNat t.dims.toList.length) ++ (t.dims.toList.flatMap u64Bytes
      ++ (u32Bytes t.dtype.id ++ u64Bytes t.relativeOffset))).map e

/-- **A header**: the magic number, the version, the numbers of tensors and
of metadata entries, the entries, and the descriptors. -/
def HeaderAs (widen : UInt32 → UInt64) (entries : List (String × MetadataValue))
    (tensors : List PendingTensor) (w : List B) : Prop :=
  entries.length ≤ maxCount ∧ tensors.length ≤ maxCount ∧ ∃ w₁ w₂ : List B,
    EachAs (EntryAs e widen) entries w₁ ∧ EachAs (TensorAs e) tensors w₂
      ∧ w = (u32Bytes magic ++ (u32Bytes 3 ++ (u64Bytes (UInt64.ofNat tensors.length)
        ++ u64Bytes (UInt64.ofNat entries.length)))).map e ++ (w₁ ++ w₂)

/-! ## The alphabet does not matter -/

variable {e} {f : B → D} {w : List B}

theorem NumberAs.map {width : ℕ} {decode : List UInt8 → A} {v : A}
    (h : NumberAs e width decode v w) : NumberAs (f ∘ e) width decode v (w.map f) := by
  obtain ⟨raw, hlen, hv, rfl⟩ := h
  exact ⟨raw, hlen, hv, map_map⟩

theorem StringAs.map {s : String} (h : StringAs e s w) : StringAs (f ∘ e) s (w.map f) := by
  obtain ⟨hlen, rfl⟩ := h
  exact ⟨hlen, map_map⟩

theorem SkippedStringAs.map (h : SkippedStringAs e w) : SkippedStringAs (f ∘ e) (w.map f) := by
  obtain ⟨s, hlen, rfl⟩ := h
  refine ⟨s.map f, by rwa [length_map], ?_⟩
  rw [List.map_append, map_map, length_map]

theorem SkippedAs.map {elemTy : UInt32} {len : UInt64} (h : SkippedAs e elemTy len w) :
    SkippedAs (f ∘ e) elemTy len (w.map f) := by
  unfold SkippedAs at h ⊢
  split_ifs at h ⊢
  · exact h.map fun _ _ => SkippedStringAs.map
  · obtain ⟨width, hwid, hlen⟩ := h
    exact ⟨width, hwid, by rwa [length_map]⟩

theorem KeptAs.map {elemTy : UInt32} {len : UInt64} {v : MetadataValue}
    (h : KeptAs e widen elemTy len v w) : KeptAs (f ∘ e) widen elemTy len v (w.map f) := by
  unfold KeptAs at h ⊢
  split_ifs at h ⊢
  · obtain ⟨out, width, hv, hwid, hlen, hout⟩ := h
    exact ⟨out, width, hv, hwid, hlen, hout.map fun _ _ => NumberAs.map⟩
  · obtain ⟨out, width, hv, hwid, hlen, hout⟩ := h
    exact ⟨out, width, hv, hwid, hlen, hout.map fun _ _ => NumberAs.map⟩
  · obtain ⟨out, hv, hlen, hout⟩ := h
    exact ⟨out, hv, hlen, hout.map fun _ _ => NumberAs.map⟩
  · obtain ⟨out, hv, hlen, hout⟩ := h
    exact ⟨out, hv, hlen, hout.map fun _ _ => NumberAs.map⟩
  · exact ⟨h.1, h.2.map⟩

theorem ArrayAs.map {keepArray : Bool} {v : MetadataValue}
    (h : ArrayAs e widen keepArray v w) : ArrayAs (f ∘ e) widen keepArray v (w.map f) := by
  obtain ⟨elemTy, len, w', rfl, h⟩ := h
  refine ⟨elemTy, len, w'.map f, by rw [List.map_append, map_map], ?_⟩
  split_ifs at h ⊢
  · exact h.map
  · exact ⟨h.1, h.2.map⟩

theorem ValueAs.map {ty : UInt32} {keepArray : Bool} {v : MetadataValue}
    (h : ValueAs e widen ty keepArray v w) : ValueAs (f ∘ e) widen ty keepArray v (w.map f) := by
  unfold ValueAs at h ⊢
  split_ifs at h ⊢
  · obtain ⟨s, hv, hs⟩ := h
    exact ⟨s, hv, hs.map⟩
  · exact h.map
  · obtain ⟨width, decode, hty, hv⟩ := h
    exact ⟨width, decode, hty, hv.map⟩

theorem EntryAs.map {entry : String × MetadataValue}
    (h : EntryAs e widen entry w) : EntryAs (f ∘ e) widen entry (w.map f) := by
  obtain ⟨ty, w₁, w₂, hkey, hval, rfl⟩ := h
  refine ⟨ty, w₁.map f, w₂.map f, hkey.map, hval.map, ?_⟩
  rw [List.map_append, List.map_append, map_map]

theorem TensorAs.map {t : PendingTensor} (h : TensorAs e t w) : TensorAs (f ∘ e) t (w.map f) := by
  obtain ⟨hsnd, w₁, hnam, rfl⟩ := h
  exact ⟨hsnd, w₁.map f, hnam.map, by rw [List.map_append, map_map]⟩

/-- **A header can be written in any alphabet.** -/
theorem HeaderAs.map {entries : List (String × MetadataValue)} {tensors : List PendingTensor}
    (h : HeaderAs e widen entries tensors w) :
    HeaderAs (f ∘ e) widen entries tensors (w.map f) := by
  obtain ⟨hents, hten, w₁, w₂, h₁, h₂, rfl⟩ := h
  refine ⟨hents, hten, w₁.map f, w₂.map f, h₁.map fun _ _ => EntryAs.map,
    h₂.map fun _ _ => TensorAs.map, ?_⟩
  simp only [List.map_append, map_map]

end Format

/-- **The header of a file** is one of its bytes. -/
theorem headerAs_some {entries : List (String × MetadataValue)} {tensors : List PendingTensor}
    {w : List UInt8} :
    HeaderAs some widen entries tensors (w.map some) ↔ HeaderAs id widen entries tensors w := by
  constructor
  · intro h
    have hbac := h.map (f := fun o : Option UInt8 => o.getD 0)
    rw [map_map] at hbac
    exact (map_id w) ▸ hbac
  · intro h
    exact h.map (f := some)

end Gguf

end Logan
