import Logan.Util.Fields

/-!
# The types of quantised tensors

A tensor is stored in blocks, each of which holds a fixed number of elements
in a fixed number of bytes, as its type says.
-/

namespace Logan

/-- The types of tensors that the source supports. -/
inductive GgmlType
  | f32 | f16 | q5_0 | q8_0 | q4K | q5K | q6K | iq2Xxs | iq2Xs | iq3Xxs | iq4Nl | iq3S | iq2S
  | iq4Xs | bf16 | q2_0
deriving DecidableEq

namespace GgmlType

/-- `from_id` -/
def fromId (id : UInt32) : Except String GgmlType :=
  match id.toNat with
  | 0 => .ok f32
  | 1 => .ok f16
  | 6 => .ok q5_0
  | 8 => .ok q8_0
  | 12 => .ok q4K
  | 13 => .ok q5K
  | 14 => .ok q6K
  | 16 => .ok iq2Xxs
  | 17 => .ok iq2Xs
  | 18 => .ok iq3Xxs
  | 20 => .ok iq4Nl
  | 21 => .ok iq3S
  | 22 => .ok iq2S
  | 23 => .ok iq4Xs
  | 30 => .ok bf16
  | 42 => .ok q2_0
  | other => .error ("unsupported GGML tensor type id " ++ toString other)

def id : GgmlType → UInt32
  | f32 => 0
  | f16 => 1
  | q5_0 => 6
  | q8_0 => 8
  | q4K => 12
  | q5K => 13
  | q6K => 14
  | iq2Xxs => 16
  | iq2Xs => 17
  | iq3Xxs => 18
  | iq4Nl => 20
  | iq3S => 21
  | iq2S => 22
  | iq4Xs => 23
  | bf16 => 30
  | q2_0 => 42

def name : GgmlType → String
  | f32 => "F32"
  | f16 => "F16"
  | q5_0 => "Q5_0"
  | q8_0 => "Q8_0"
  | q4K => "Q4_K"
  | q5K => "Q5_K"
  | q6K => "Q6_K"
  | iq2Xxs => "IQ2_XXS"
  | iq2Xs => "IQ2_XS"
  | iq3Xxs => "IQ3_XXS"
  | iq4Nl => "IQ4_NL"
  | iq3S => "IQ3_S"
  | iq2S => "IQ2_S"
  | iq4Xs => "IQ4_XS"
  | bf16 => "BF16"
  | q2_0 => "Q2_0"

/-- `block_geometry`: the elements of a block, and its bytes. -/
def blockGeometry : GgmlType → ℕ × ℕ
  | f32 => (1, 4)
  | f16 | bf16 => (1, 2)
  | q5_0 => (32, 22)
  | q8_0 => (32, 34)
  | q4K => (256, 144)
  | q5K => (256, 176)
  | q6K => (256, 210)
  | iq2Xxs => (256, 66)
  | iq2Xs => (256, 74)
  | iq3Xxs => (256, 98)
  | iq4Nl => (32, 18)
  | iq3S => (256, 110)
  | iq2S => (256, 82)
  | iq4Xs => (256, 136)
  | q2_0 => (64, 18)

/-- `stored_bytes`: the number of bytes of so many elements. -/
def storedBytes (t : GgmlType) (elements : ℕ) : Except String ℕ :=
  if elements % t.blockGeometry.1 ≠ 0 then
    .error (t.name ++ " tensor has " ++ toString elements
      ++ " elements, not divisible by block size " ++ toString t.blockGeometry.1)
  else Result.okOr (checkedProduct (elements / t.blockGeometry.1) t.blockGeometry.2)
    (t.name ++ " tensor byte size overflow")

/-- **The identifiers are those of the types.** -/
theorem fromId_eq_ok {id : UInt32} {t : GgmlType} : fromId id = .ok t ↔ id = t.id := by
  constructor
  · intro h
    unfold fromId at h
    split at h
    all_goals first
      | (cases h; exact UInt32.toNat_inj.mp ‹_›)
      | cases h
  · rintro rfl
    cases t <;> rfl

theorem storedBytes_eq_ok {t : GgmlType} {elements n : ℕ} :
    t.storedBytes elements = .ok n ↔ t.blockGeometry.1 ∣ elements
      ∧ n = elements / t.blockGeometry.1 * t.blockGeometry.2 ∧ n ≤ u64Max := by
  unfold storedBytes
  split
  case isTrue h =>
    exact iff_of_false nofun fun hn => h (Nat.mod_eq_zero_of_dvd hn.1)
  case isFalse h =>
    rw [not_not] at h
    rw [and_iff_right (Nat.dvd_of_mod_eq_zero h)]
    rw [Result.okOr_eq_ok, checkedProduct_eq_some]
    constructor
    · rintro ⟨rfl, hle⟩
      exact ⟨rfl, hle⟩
    · rintro ⟨rfl, hle⟩
      exact ⟨rfl, hle⟩

end GgmlType

end Logan
