import Logan.Util.Buffer
import Logan.Util.Memory

/-!
# Fields of a buffer

A number is read from a fixed place of a buffer, or there is none when the
buffer ends before. Where a buffer holds the bytes of a number, the number
is what is read. Sizes and places are computed with checked arithmetic on
`usize`, which has 64 bits, as `u64` has.
-/

namespace Logan

open Option

/-- `u32::MAX` -/
def u32Max : ℕ := 2 ^ 32 - 1

/-! ## Checked arithmetic -/

/-- `checked_add` on a `usize` or a `u64`. -/
def checkedSum (a b : ℕ) : Option ℕ := if a + b ≤ usizeMax then some (a + b) else none

/-- `checked_mul` on a `usize` or a `u64`. -/
def checkedProduct (a b : ℕ) : Option ℕ := if a * b ≤ usizeMax then some (a * b) else none

theorem checkedSum_eq_some {a b c : ℕ} :
    checkedSum a b = some c ↔ a + b = c ∧ a + b ≤ usizeMax := by
  unfold checkedSum
  split_ifs with h
  · rw [some_inj, and_iff_left h]
  · exact iff_of_false nofun (fun hc => h hc.2)

theorem checkedProduct_eq_some {a b c : ℕ} :
    checkedProduct a b = some c ↔ a * b = c ∧ a * b ≤ usizeMax := by
  unfold checkedProduct
  split_ifs with h
  · rw [some_inj, and_iff_left h]
  · exact iff_of_false nofun (fun hc => h hc.2)

theorem checkedSum_of_le {a b : ℕ} (h : a + b ≤ usizeMax) : checkedSum a b = some (a + b) :=
  if_pos h

theorem checkedProduct_of_le {a b : ℕ} (h : a * b ≤ usizeMax) :
    checkedProduct a b = some (a * b) := if_pos h

/-- A sum that is computed step by step. -/
theorem sum_of_foldlM_checkedSum {A : Type} {f : A → ℕ} {l : List A} {start total : ℕ}
    (h : l.foldlM (fun sum a => checkedSum sum (f a)) start = some total) :
    start + (l.map f).sum = total := by
  induction l generalizing start with
  | nil => exact some.inj h
  | cons a l ih =>
    obtain ⟨next, hnex, hres⟩ := bind_eq_some_iff.mp h
    obtain ⟨rfl, -⟩ := checkedSum_eq_some.mp hnex
    rw [List.map_cons, List.sum_cons, ← Nat.add_assoc]
    exact ih hres

theorem foldlM_checkedSum_of_le {A : Type} {f : A → ℕ} {l : List A} {start : ℕ}
    (h : start + (l.map f).sum ≤ usizeMax) :
    l.foldlM (fun sum a => checkedSum sum (f a)) start = some (start + (l.map f).sum) := by
  induction l generalizing start with
  | nil => rfl
  | cons a l ih =>
    rw [List.map_cons, List.sum_cons, ← Nat.add_assoc] at h ⊢
    rw [List.foldlM_cons, checkedSum_of_le (by omega)]
    exact ih h

/-! ## Reading a field -/

/-- The `u16` at a place. -/
def u16At? (b : List UInt8) (i : ℕ) : Option UInt16 := (range? b i (i + 2)).map u16OfBytes

/-- The `u32` at a place. -/
def u32At? (b : List UInt8) (i : ℕ) : Option UInt32 := (range? b i (i + 4)).map u32OfBytes

/-- The `u64` at a place. -/
def u64At? (b : List UInt8) (i : ℕ) : Option UInt64 := (range? b i (i + 8)).map u64OfBytes

variable {b : List UInt8} {i : ℕ}

theorem le_length_of_slice {v : List UInt8} {n : ℕ} (h : slice b i n = v) (hn : v.length = n)
    (hpos : 0 < n) : i + n ≤ b.length := by
  rw [← h, slice, List.length_take, List.length_drop] at hn
  omega

theorem range?_of_slice {v : List UInt8} {n : ℕ} (h : slice b i n = v) (hn : v.length = n)
    (hpos : 0 < n) : range? b i (i + n) = some v := by
  rw [range?_of_le (Nat.le_add_right _ _) (le_length_of_slice h hn hpos),
    Nat.add_sub_cancel_left, h]

/-- **A `u16` is read** where its bytes are. -/
theorem u16At?_of_slice {x : UInt16} (h : slice b i 2 = u16Bytes x) : u16At? b i = some x := by
  rw [u16At?, range?_of_slice h (length_u16Bytes x) (by decide), map_some, u16OfBytes_u16Bytes]

/-- **A `u32` is read** where its bytes are. -/
theorem u32At?_of_slice {x : UInt32} (h : slice b i 4 = u32Bytes x) : u32At? b i = some x := by
  rw [u32At?, range?_of_slice h (length_u32Bytes x) (by decide), map_some, u32OfBytes_u32Bytes]

/-- **A `u64` is read** where its bytes are. -/
theorem u64At?_of_slice {x : UInt64} (h : slice b i 8 = u64Bytes x) : u64At? b i = some x := by
  rw [u64At?, range?_of_slice h (length_u64Bytes x) (by decide), map_some, u64OfBytes_u64Bytes]

theorem length_of_range? {A : Type} {b v : List A} {n : ℕ} (h : range? b i (i + n) = some v) :
    v.length = n := by
  obtain ⟨-, hle, rfl⟩ := range?_eq_some.mp h
  rw [Nat.add_sub_cancel_left]
  exact length_slice hle

theorem slice_of_u16At? {x : UInt16} (h : u16At? b i = some x) : slice b i 2 = u16Bytes x := by
  obtain ⟨v, hv, rfl⟩ := map_eq_some_iff.mp h
  rw [u16Bytes_u16OfBytes (length_of_range? hv), ← (range?_eq_some.mp hv).2.2,
    Nat.add_sub_cancel_left]

theorem slice_of_u32At? {x : UInt32} (h : u32At? b i = some x) : slice b i 4 = u32Bytes x := by
  obtain ⟨v, hv, rfl⟩ := map_eq_some_iff.mp h
  rw [u32Bytes_u32OfBytes (length_of_range? hv), ← (range?_eq_some.mp hv).2.2,
    Nat.add_sub_cancel_left]

theorem slice_of_u64At? {x : UInt64} (h : u64At? b i = some x) : slice b i 8 = u64Bytes x := by
  obtain ⟨v, hv, rfl⟩ := map_eq_some_iff.mp h
  rw [u64Bytes_u64OfBytes (length_of_range? hv), ← (range?_eq_some.mp hv).2.2,
    Nat.add_sub_cancel_left]

end Logan
