import Mathlib.Data.Nat.Bitwise
import Mathlib.Tactic

/-!
# Single precision

A number in single precision is given by its 32 bits: the sign, eight bits of an
exponent, and 23 of a significand. Here its value is an exact rational. Without
the sign, the order of the values is that of the bits, and the exponent says
between which powers of two the value is.
-/

namespace Logan

namespace Single

/-- The value of the bits after the sign, as a number. -/
def magnitude (n : ℕ) : ℚ :=
  if n / 2 ^ 23 = 0 then (n % 2 ^ 23 : ℕ) * 2 ^ (-149 : ℤ)
  else (2 ^ 23 + n % 2 ^ 23 : ℕ) * 2 ^ ((n / 2 ^ 23 : ℕ) - 150 : ℤ)

/-- `f32::abs` -/
def fabs (bits : UInt32) : UInt32 := bits &&& 0x7fffffff

/-- `f32::is_sign_negative` -/
def isSignNegative (bits : UInt32) : Bool := bits >>> 31 ≠ 0

/-- `f32::is_finite` -/
def isFinite (bits : UInt32) : Bool := (bits >>> 23) &&& 0xff ≠ 0xff

/-- The value of a number without a sign. -/
def absValue (bits : UInt32) : ℚ := magnitude (fabs bits).toNat

/-- **The value of a number.** -/
def value (bits : UInt32) : ℚ := if isSignNegative bits then -absValue bits else absValue bits

/-- `f32::max`, of two numbers that are. -/
def fmax (a b : UInt32) : UInt32 := if value a < value b then b else a

/-! ## Bits -/

variable (bits : UInt32)

theorem toNat_fabs : (fabs bits).toNat = bits.toNat % 2 ^ 31 := by
  rw [fabs, UInt32.toNat_and]
  exact Nat.and_two_pow_sub_one_eq_mod bits.toNat 31

theorem toNat_fabs_lt : (fabs bits).toNat < 2 ^ 31 := by
  rw [toNat_fabs]
  exact Nat.mod_lt _ (by decide)

theorem toNat_exponent : ((bits >>> 23) &&& 0xff).toNat = bits.toNat / 2 ^ 23 % 2 ^ 8 := by
  rw [UInt32.toNat_and, UInt32.toNat_shiftRight]
  show bits.toNat >>> 23 &&& 2 ^ 8 - 1 = _
  rw [Nat.and_two_pow_sub_one_eq_mod, Nat.shiftRight_eq_div_pow]

theorem toNat_significand : (bits &&& 0x7fffff).toNat = bits.toNat % 2 ^ 23 := by
  rw [UInt32.toNat_and]
  exact Nat.and_two_pow_sub_one_eq_mod bits.toNat 23

theorem isFinite_iff {bits : UInt32} : isFinite bits = true ↔ bits.toNat / 2 ^ 23 % 2 ^ 8
    ≠ 255 := by
  unfold isFinite
  rw [decide_eq_true_iff, ← toNat_exponent]
  exact not_congr UInt32.toNat_inj.symm

/-- A number without a sign bit has a value that is not negative. -/
theorem isSignNegative_of_lt {bits : UInt32} (h : bits.toNat < 2 ^ 31) :
    isSignNegative bits = false := by
  unfold isSignNegative
  rw [decide_eq_false_iff_not, not_not, ← UInt32.toNat_inj, UInt32.toNat_shiftRight]
  show bits.toNat >>> 31 = 0
  rw [Nat.shiftRight_eq_div_pow, Nat.div_eq_of_lt h]

theorem fabs_of_lt {bits : UInt32} (h : bits.toNat < 2 ^ 31) : fabs bits = bits := by
  rw [← UInt32.toNat_inj, toNat_fabs, Nat.mod_eq_of_lt h]

theorem value_of_lt {bits : UInt32} (h : bits.toNat < 2 ^ 31) :
    value bits = magnitude bits.toNat := by
  rw [value, isSignNegative_of_lt h, if_neg Bool.false_ne_true, absValue, fabs_of_lt h]

/-! ## The order of values -/

theorem magnitude_nonneg (n : ℕ) : 0 ≤ magnitude n := by
  unfold magnitude
  split_ifs
  · positivity
  · positivity

/-- **Values increase with the bits.** -/
theorem magnitude_strictMono : StrictMono magnitude := by
  refine strictMono_nat_of_lt_succ fun n => ?_
  have hdiv := Nat.div_add_mod n (2 ^ 23)
  have hmod := Nat.mod_lt n (show 0 < 2 ^ 23 by decide)
  have hnex : (((n / 2 ^ 23 + 1 : ℕ) : ℤ) - 150) = ((n / 2 ^ 23 : ℕ) - 150 : ℤ) + 1 := by
    push_cast
    ring
  by_cases hlas : n % 2 ^ 23 = 2 ^ 23 - 1
  · -- the significand is full, and the exponent goes up
    have hd : (n + 1) / 2 ^ 23 = n / 2 ^ 23 + 1 := by omega
    have hm : (n + 1) % 2 ^ 23 = 0 := by omega
    unfold magnitude
    rw [hd, hm, hlas, if_neg (Nat.succ_ne_zero _)]
    split_ifs with hzer
    · rw [hzer]
      norm_num
    · rw [hnex, zpow_add_one₀ two_ne_zero]
      have hpos : (0 : ℚ) < 2 ^ ((n / 2 ^ 23 : ℕ) - 150 : ℤ) := zpow_pos two_pos _
      generalize (2 : ℚ) ^ ((n / 2 ^ 23 : ℕ) - 150 : ℤ) = unit at hpos ⊢
      norm_num
      linarith
  · have hd : (n + 1) / 2 ^ 23 = n / 2 ^ 23 := by omega
    have hm : (n + 1) % 2 ^ 23 = n % 2 ^ 23 + 1 := by omega
    unfold magnitude
    rw [hd, hm]
    split_ifs
    · exact mul_lt_mul_of_pos_right (Nat.cast_lt.mpr (Nat.lt_succ_self _)) (by positivity)
    · exact mul_lt_mul_of_pos_right (Nat.cast_lt.mpr (Nat.lt_succ_self _)) (by positivity)

/-- **Of two numbers without a sign, the greater is that of greater bits.** -/
theorem toNat_fmax {a b : UInt32} (ha : a.toNat < 2 ^ 31) (hb : b.toNat < 2 ^ 31) :
    (fmax a b).toNat = Nat.max a.toNat b.toNat := by
  unfold fmax
  rw [value_of_lt ha, value_of_lt hb]
  by_cases h : magnitude a.toNat < magnitude b.toNat
  · rw [if_pos h]
    exact (Nat.max_eq_right (le_of_lt (magnitude_strictMono.lt_iff_lt.mp h))).symm
  · rw [if_neg h]
    exact (Nat.max_eq_left (not_lt.mp fun hlt => h (magnitude_strictMono hlt))).symm

/-- **What is below a bound has all its numbers below it**: the greatest of some numbers
without a sign. -/
theorem foldl_fmax_le {A : Type} {f : A → UInt32} {l : List A} {start : UInt32} {n : ℕ}
    (hst : start.toNat < 2 ^ 31) (hf : ∀ a ∈ l, (f a).toNat < 2 ^ 31) :
    (l.foldl (fun best a => fmax best (f a)) start).toNat ≤ n ↔
      start.toNat ≤ n ∧ ∀ a ∈ l, (f a).toNat ≤ n := by
  induction l generalizing start with
  | nil => simp
  | cons a l ih =>
    have ha := hf a List.mem_cons_self
    have hmax := toNat_fmax hst ha
    have hlt : (fmax start (f a)).toNat < 2 ^ 31 := hmax.trans_lt (Nat.max_lt.mpr ⟨hst, ha⟩)
    rw [List.foldl_cons, ih hlt fun b hb => hf b (List.mem_cons_of_mem a hb), hmax,
      List.forall_mem_cons, ← and_assoc]
    exact and_congr_left' Nat.max_le

/-! ## Powers of two -/

/-- The power of two that is not above a value. -/
def exponent (n : ℕ) : ℤ :=
  if n / 2 ^ 23 = 0 then (n % 2 ^ 23).log2 - 149 else (n / 2 ^ 23 : ℕ) - 127

/-- **A value is between two powers of two**, of its exponent and the next one. -/
theorem magnitude_bounds {n : ℕ} (hn : n ≠ 0) :
    (2 : ℚ) ^ exponent n ≤ magnitude n ∧ magnitude n < 2 ^ (exponent n + 1) := by
  unfold exponent magnitude
  have hdiv := Nat.div_add_mod n (2 ^ 23)
  by_cases hzer : n / 2 ^ 23 = 0
  · rw [if_pos hzer, if_pos hzer, sub_add_eq_add_sub, sub_eq_add_neg, sub_eq_add_neg,
      zpow_add₀ two_ne_zero, zpow_add₀ two_ne_zero]
    have hmod : n % 2 ^ 23 ≠ 0 := by
      rw [hzer] at hdiv
      omega
    have hpos : (0 : ℚ) < 2 ^ (-149 : ℤ) := zpow_pos two_pos _
    refine ⟨mul_le_mul_of_nonneg_right ?_ (le_of_lt hpos), mul_lt_mul_of_pos_right ?_ hpos⟩
    · rw [zpow_natCast]
      exact_mod_cast Nat.log2_self_le hmod
    · rw [← Nat.cast_succ, zpow_natCast]
      exact_mod_cast Nat.lt_log2_self
  · rw [if_neg hzer, if_neg hzer]
    have hmod := Nat.mod_lt n (show 0 < 2 ^ 23 by decide)
    have hpos : (0 : ℚ) < 2 ^ ((n / 2 ^ 23 : ℕ) - 150 : ℤ) := zpow_pos two_pos _
    have hlow : (2 : ℚ) ^ ((n / 2 ^ 23 : ℕ) - 127 : ℤ)
        = (2 ^ 23 : ℕ) * 2 ^ ((n / 2 ^ 23 : ℕ) - 150 : ℤ) := by
      rw [show ((n / 2 ^ 23 : ℕ) - 127 : ℤ) = (23 : ℕ) + ((n / 2 ^ 23 : ℕ) - 150 : ℤ) by
        push_cast; ring, zpow_add₀ two_ne_zero, zpow_natCast, Nat.cast_pow, Nat.cast_ofNat]
    have hhig : (2 : ℚ) ^ ((n / 2 ^ 23 : ℕ) - 127 + 1 : ℤ)
        = (2 ^ 24 : ℕ) * 2 ^ ((n / 2 ^ 23 : ℕ) - 150 : ℤ) := by
      rw [show ((n / 2 ^ 23 : ℕ) - 127 + 1 : ℤ) = (24 : ℕ) + ((n / 2 ^ 23 : ℕ) - 150 : ℤ) by
        push_cast; ring, zpow_add₀ two_ne_zero, zpow_natCast, Nat.cast_pow, Nat.cast_ofNat]
    rw [hlow, hhig]
    refine ⟨mul_le_mul_of_nonneg_right ?_ (le_of_lt hpos), mul_lt_mul_of_pos_right ?_ hpos⟩
    · exact_mod_cast Nat.le_add_right _ _
    · have hlt : 2 ^ 23 + n % 2 ^ 23 < 2 ^ 24 := by omega
      exact_mod_cast hlt

theorem magnitude_eq_zero {n : ℕ} : magnitude n = 0 ↔ n = 0 := by
  refine ⟨fun h => ?_, fun h => by rw [h]; simp [magnitude]⟩
  by_contra hn
  exact absurd h (ne_of_gt (lt_of_lt_of_le (zpow_pos two_pos _) (magnitude_bounds hn).1))

/-- The value of a power of two. -/
theorem magnitude_two_pow {e : ℕ} (he : e ≠ 0) : magnitude (e * 2 ^ 23) = 2 ^ ((e : ℤ) - 127) := by
  have hdiv : e * 2 ^ 23 / 2 ^ 23 = e := Nat.mul_div_cancel e (by decide)
  have hmod : e * 2 ^ 23 % 2 ^ 23 = 0 := Nat.mul_mod_left e _
  unfold magnitude
  rw [hdiv, hmod, if_neg he, Nat.add_zero,
    show ((e : ℤ) - 127) = (23 : ℕ) + ((e : ℤ) - 150) by push_cast; ring,
    zpow_add₀ two_ne_zero, zpow_natCast, Nat.cast_pow, Nat.cast_ofNat]

end Single

end Logan
