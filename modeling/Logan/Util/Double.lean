import Mathlib.Data.Int.Log
import Mathlib.Tactic

/-!
# Double precision

The numbers that a program computes with in double precision are rationals of
53 significant bits, and each operation rounds its exact result to the nearest
of them. The numbers here are not negative, and neither very small nor very
large, so that there are always 53 bits. Rounding changes a number by no more
than one part in 2^53.
-/

namespace Logan

namespace Double

/-- The nearest integer, and of two that are equally near the even one. -/
def nearest (q : ℚ) : ℤ :=
  if q - ⌊q⌋ < 1 / 2 then ⌊q⌋
  else if 1 / 2 < q - ⌊q⌋ then ⌊q⌋ + 1
  else if ⌊q⌋ % 2 = 0 then ⌊q⌋ else ⌊q⌋ + 1

/-- What the last of 53 bits is worth. -/
def unit (q : ℚ) : ℚ := 2 ^ (Int.log 2 q - 52)

/-- **Rounding** to the nearest number of 53 bits. -/
def round (q : ℚ) : ℚ := nearest (q / unit q) * unit q

theorem abs_nearest_sub_le (q : ℚ) : |(nearest q : ℚ) - q| ≤ 1 / 2 := by
  have hlo := Int.floor_le q
  have hhi := Int.lt_floor_add_one q
  unfold nearest
  rw [abs_le]
  split_ifs <;> push_cast <;> constructor <;> linarith

theorem unit_pos (q : ℚ) : 0 < unit q := zpow_pos two_pos _

/-- A number has 53 bits before its unit. -/
theorem unit_le {q : ℚ} (hq : 0 < q) : unit q ≤ q / 2 ^ 52 := by
  have hlog := Int.zpow_log_le_self one_lt_two hq
  rw [unit, zpow_sub₀ two_ne_zero, le_div_iff₀ (by positivity)]
  calc (2 : ℚ) ^ Int.log 2 q / 2 ^ (52 : ℤ) * 2 ^ 52 = 2 ^ Int.log 2 q := by
        rw [show ((2 : ℚ) ^ (52 : ℤ)) = 2 ^ 52 from rfl, div_mul_cancel₀ _ (by positivity)]
    _ ≤ q := hlog

/-- **The error of rounding.** -/
theorem abs_round_sub_le {q : ℚ} (hq : 0 < q) : |round q - q| ≤ q / 2 ^ 53 := by
  have hpos := unit_pos q
  have hspl : round q - q = ((nearest (q / unit q) : ℚ) - q / unit q) * unit q := by
    rw [round, sub_mul, div_mul_cancel₀ _ (ne_of_gt hpos)]
  rw [hspl, abs_mul, abs_of_pos hpos]
  calc |(nearest (q / unit q) : ℚ) - q / unit q| * unit q ≤ 1 / 2 * unit q :=
        mul_le_mul_of_nonneg_right (abs_nearest_sub_le _) (le_of_lt hpos)
    _ ≤ 1 / 2 * (q / 2 ^ 52) := mul_le_mul_of_nonneg_left (unit_le hq) (by norm_num)
    _ = q / 2 ^ 53 := by ring

theorem le_round {q : ℚ} (hq : 0 < q) : q * (1 - 1 / 2 ^ 53) ≤ round q := by
  have h := (abs_le.mp (abs_round_sub_le hq)).1
  linarith

theorem round_le {q : ℚ} (hq : 0 < q) : round q ≤ q * (1 + 1 / 2 ^ 53) := by
  have h := (abs_le.mp (abs_round_sub_le hq)).2
  linarith

theorem round_pos {q : ℚ} (hq : 0 < q) : 0 < round q :=
  lt_of_lt_of_le (mul_pos hq (by norm_num)) (le_round hq)

end Double

end Logan
