import Logan.Util.Buffer

/-!
# Streams of bits

Some bytes are a stream of bits, the lowest bit of each byte first. A window of it is a
number. A window of a window is one of the stream, and so is a window of what is read
from some of the bytes, such as a word. Numbers that are packed one after the other are
the windows of the bytes that they make.
-/

namespace Logan

/-- The number that `n` bits of a stream are, the lowest one first. -/
def bitsAt (l : List UInt8) (start n : ℕ) : ℕ := leNat l / 2 ^ start % 2 ^ n

theorem testBit_leNat (l : List UInt8) (i : ℕ) :
    (leNat l).testBit i = (l.getD (i / 8) 0).toNat.testBit (i % 8) := by
  induction l generalizing i with
  | nil => simp [leNat]
  | cons b l ih =>
    rw [leNat, Nat.add_comm, show 256 = 2 ^ 8 from rfl, Nat.testBit_two_pow_mul_add _ b.toNat_lt]
    split_ifs with hi
    · rw [Nat.div_eq_of_lt hi, Nat.mod_eq_of_lt hi, List.getD_cons_zero]
    · rw [ih, show i / 8 = (i - 8) / 8 + 1 by omega, show (i - 8) % 8 = i % 8 by omega,
        List.getD_cons_succ]

/-- **The bits of a window** are those of the bytes. -/
theorem testBit_bitsAt {l : List UInt8} {start n k : ℕ} (hk : k < n) : (bitsAt l start n).testBit k
      = (l.getD ((start + k) / 8) 0).toNat.testBit ((start + k) % 8) := by
  rw [bitsAt, Nat.testBit_mod_two_pow, decide_eq_true hk, Bool.true_and, Nat.testBit_div_two_pow,
    testBit_leNat, Nat.add_comm k]

/-- **A window of a window** is a window. -/
theorem bitsAt_window {l : List UInt8} {start n i k : ℕ} (h : i + k ≤ n) :
    bitsAt l start n / 2 ^ i % 2 ^ k = bitsAt l (start + i) k := by
  refine Nat.eq_of_testBit_eq fun j => ?_
  simp only [bitsAt, Nat.testBit_mod_two_pow, Nat.testBit_div_two_pow, ← Nat.add_assoc]
  by_cases hj : j < k
  · rw [decide_eq_true hj, decide_eq_true (by omega : j + i < n), Nat.add_right_comm j,
      Nat.add_right_comm j]
    rfl
  · rw [decide_eq_false hj, Bool.false_and, Bool.false_and]

theorem bitsAt_add (l : List UInt8) (start m n : ℕ) :
    bitsAt l start (m + n) = bitsAt l start m + bitsAt l (start + m) n * 2 ^ m := by
  rw [bitsAt, pow_add, Nat.mod_mul, bitsAt, bitsAt, Nat.div_div_eq_div_mul, ← pow_add,
    Nat.mul_comm (2 ^ m)]

/-- **Some of the bytes** are a window. -/
theorem leNat_slice (l : List UInt8) (i n : ℕ) :
    leNat (slice l i n) = bitsAt l (8 * i) (8 * n) := by
  refine Nat.eq_of_testBit_eq fun j => ?_
  by_cases hj : j < 8 * n
  · rw [testBit_bitsAt hj, testBit_leNat, List.getD_eq_getElem?_getD, List.getD_eq_getElem?_getD,
      getElem?_slice (by omega), show (8 * i + j) / 8 = i + j / 8 by omega,
      show (8 * i + j) % 8 = j % 8 by omega]
  · rw [testBit_leNat, bitsAt, Nat.testBit_mod_two_pow, decide_eq_false hj, Bool.false_and,
      List.getD_eq_getElem?_getD,
      List.getElem?_eq_none ((length_slice_le l i n).trans (by omega))]
    exact Nat.zero_testBit _

/-! ## Packing -/

/-- Numbers of `n` bits, one after the other. -/
def packBits (n : ℕ) (codes : List ℕ) : List UInt8 :=
  leBytes (codes.length * n / 8) (Nat.ofDigits (2 ^ n) codes)

theorem length_packBits (n : ℕ) (codes : List ℕ) :
    (packBits n codes).length = codes.length * n / 8 := length_leBytes _ _

/-- **The numbers are read back** if they fill the bytes. -/
theorem bitsAt_packBits {n : ℕ} {codes : List ℕ} (hn : n ≠ 0) (hful : 8 ∣ codes.length * n)
    (hcod : ∀ code ∈ codes, code < 2 ^ n) {i : ℕ} (hi : i < codes.length) :
    bitsAt (packBits n codes) (i * n) n = codes[i] := by
  have hall : leNat (packBits n codes) = Nat.ofDigits (2 ^ n) codes := by
    refine leNat_leBytes ?_
    rw [show 256 = 2 ^ 8 from rfl, ← pow_mul, Nat.mul_div_cancel' hful, Nat.mul_comm, pow_mul]
    exact Nat.ofDigits_lt_base_pow_length (Nat.one_lt_two_pow hn) hcod
  rw [bitsAt, hall, Nat.mul_comm i, pow_mul,
    Nat.ofDigits_div_pow_eq_ofDigits_drop i (Nat.two_pow_pos n) codes hcod,
    List.drop_eq_getElem_cons hi, Nat.ofDigits_cons, Nat.add_mul_mod_self_left,
    Nat.mod_eq_of_lt (hcod _ (List.getElem_mem hi))]

end Logan
