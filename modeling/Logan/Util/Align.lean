import Mathlib.Data.Nat.Bitwise
import Mathlib.Data.Nat.Log

/-!
# Rounding up to a power of two

A word is rounded down to a multiple of a power of two by clearing its low bits,
and rounded up in the same way after the largest remainder has been added.
-/

namespace Logan

/-- Clearing the low bits of a word. -/
theorem and_not_two_pow {v k : ℕ} (hv : v < 2 ^ 64) (hk : k < 64) :
    (UInt64.ofNat v &&& ~~~(UInt64.ofNat (2 ^ k - 1))).toNat = v / 2 ^ k * 2 ^ k := by
  have hmas : 2 ^ k - 1 < 2 ^ 64 :=
    (Nat.sub_le _ _).trans_lt (Nat.pow_lt_pow_right (by decide) hk)
  rw [UInt64.toNat_and, UInt64.toNat_not, UInt64.toNat_ofNat_of_lt' hv,
    UInt64.toNat_ofNat_of_lt' hmas, ← Nat.shiftRight_eq_div_pow, ← Nat.shiftLeft_eq]
  refine Nat.eq_of_testBit_eq fun i => ?_
  have hnot : (UInt64.size - 1 - (2 ^ k - 1)).testBit i = (decide (i < 64) && !decide (i < k)) := by
    rw [show UInt64.size - 1 - (2 ^ k - 1) = 2 ^ 64 - (2 ^ k - 1 + 1) by
      unfold UInt64.size
      omega, Nat.testBit_two_pow_sub_succ hmas, Nat.testBit_two_pow_sub_one]
  rw [Nat.testBit_and, hnot, Nat.testBit_shiftLeft, Nat.testBit_shiftRight]
  by_cases hik : i < k
  · simp [hik]
  · have hadd : k + (i - k) = i := by omega
    rw [hadd]
    by_cases hi : i < 64
    · simp [hik, hi, not_lt.mp hik]
    · have hzer : v.testBit i = false :=
        Nat.testBit_lt_two_pow (hv.trans_le (Nat.pow_le_pow_right (by decide) (not_lt.mp hi)))
      simp [hzer]

/-- **Rounding up** goes to the next multiple. -/
theorem roundUp_spec (v : ℕ) {a : ℕ} (ha : 0 < a) :
    a ∣ (v + (a - 1)) / a * a ∧ v ≤ (v + (a - 1)) / a * a ∧ (v + (a - 1)) / a * a < v + a := by
  have hdiv := Nat.div_add_mod (v + (a - 1)) a
  have hmod := Nat.mod_lt (v + (a - 1)) ha
  rw [Nat.mul_comm] at hdiv
  exact ⟨Nat.dvd_mul_left _ _, by omega, by omega⟩

end Logan
