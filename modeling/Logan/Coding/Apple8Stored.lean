import Logan.Coding.Apple8

/-!
# Matrices as they are stored

A matrix is stored as it is, or coded. Either way a record is its first 448
bytes, in which the descriptors are written, and the matrices one after the
other, each aligned. Here is what holds of any such record: where the matrices
are, and that the descriptors can be written again.
-/

namespace Logan

open List

namespace Apple8

open Result Rans256

/-- **A matrix as it is stored**: the fields of its descriptor, its bytes in
the record, and the matrix itself. -/
structure Stored where
  codec : UInt16
  table : UInt32
  stored : ℕ
  bytes : List UInt8
  payload : List UInt8

/-- A matrix that is not coded. -/
def rawStored (payload : List UInt8) : Stored := ⟨0, 0, payload.length, payload, payload⟩

/-- A matrix that is coded. -/
def codedStored (payload encoded : List UInt8) : Stored :=
  ⟨codecId, tableId, encoded.length, encoded ++ List.replicate readableSlack 0, payload⟩

/-- The descriptors of matrices, of which the first begins after `stop`. -/
def storedWrites : ℕ → ℕ → List Stored → List (Write UInt8)
  | _, _, [] => []
  | index, stop, x :: rest =>
    descriptorWrites index x.codec x.table (round16 stop) x.stored x.payload.length ++
    storedWrites (index + 1) (round16 stop + x.bytes.length) rest

/-- A byte string, up to a multiple of 16. -/
def align (b : List UInt8) : List UInt8 :=
  b ++ List.replicate (round16 b.length - b.length) 0

/-- A byte string, and matrices after it, each aligned. -/
def bodyFrom : List UInt8 → List (List UInt8) → List UInt8
  | b, [] => b
  | b, x :: rest => bodyFrom (align b ++ x) rest

theorem le_round16 (n : ℕ) : n ≤ round16 n := by
  unfold round16
  omega

theorem round16_lt (n : ℕ) : round16 n < n + 16 := by
  unfold round16
  omega

variable (b : List UInt8)

@[simp] theorem length_align : (align b).length = round16 b.length := by
  rw [align, length_append, length_replicate, Nat.add_sub_cancel' (le_round16 _)]

/-- The first bytes of a record are aligned. -/
theorem align_append {head b : List UInt8} (h : head.length = prefixBytes) :
    align (head ++ b) = head ++ align b := by
  have hrnd : round16 (prefixBytes + b.length) - (prefixBytes + b.length)
      = round16 b.length - b.length := by
    unfold round16 prefixBytes
    omega
  rw [align, length_append, h, hrnd, append_assoc, align]

theorem bodyFrom_append {head b : List UInt8} (h : head.length = prefixBytes)
    (xs : List (List UInt8)) : bodyFrom (head ++ b) xs = head ++ bodyFrom b xs := by
  induction xs generalizing b with
  | nil => rfl
  | cons x rest ih => rw [bodyFrom, align_append h, append_assoc, ih, bodyFrom]

variable (xs : List (List UInt8))

theorem bodyFrom_prefix : ∃ tail, bodyFrom b xs = b ++ tail := by
  induction xs generalizing b with
  | nil => exact ⟨[], (List.append_nil b).symm⟩
  | cons x rest ih =>
    obtain ⟨tail, htl⟩ := ih (align b ++ x)
    exact ⟨List.replicate (round16 b.length - b.length) 0 ++ x ++ tail, by
      rw [bodyFrom, htl, align, append_assoc, append_assoc, append_assoc]⟩

theorem length_bodyFrom_le :
    (bodyFrom b xs).length ≤ b.length + (xs.map fun x => x.length + 15).sum := by
  induction xs generalizing b with
  | nil => exact le_rfl
  | cons x rest ih =>
    have hres := ih (align b ++ x)
    have hrnd := round16_lt b.length
    rw [length_append, length_align] at hres
    rw [bodyFrom, map_cons, sum_cons]
    omega

theorem le_length_bodyFrom : b.length + (xs.map List.length).sum ≤ (bodyFrom b xs).length := by
  induction xs generalizing b with
  | nil => exact le_rfl
  | cons x rest ih =>
    have hres := ih (align b ++ x)
    have hrnd := le_round16 b.length
    rw [length_append, length_align] at hres
    rw [bodyFrom, map_cons, sum_cons]
    omega

/-! ## Descriptors -/

theorem prefixBytes_eq : prefixBytes = descriptorAt matrixCount := rfl

variable {index : ℕ} {w : Write UInt8}

/-- **Fields of a descriptor** are inside of it. -/
theorem mem_descriptorWrites {offset stored decoded : ℕ} {codec : UInt16} {table : UInt32}
    (h : w ∈ descriptorWrites index codec table offset stored decoded) :
    descriptorAt index + 8 ≤ w.1 ∧ w.1 + w.2.length ≤ descriptorAt index + 72 := by
  simp only [descriptorWrites, mem_cons, not_mem_nil, or_false] at h
  rcases h with rfl | rfl | rfl | rfl | rfl <;> dsimp only <;>
    simp only [length_u16Bytes, length_u32Bytes, length_u64Bytes] <;> omega

theorem descriptorWrites_within {offset stored decoded : ℕ} {codec : UInt16} {table : UInt32}
    (hidx : index < matrixCount)
    (h : w ∈ descriptorWrites index codec table offset stored decoded) :
    w.1 + w.2.length ≤ prefixBytes := by
  have hw := (mem_descriptorWrites h).2
  unfold descriptorAt descBytes at hw
  unfold matrixCount at hidx
  unfold prefixBytes
  omega

variable {xs : List Stored}

theorem mem_storedWrites {stop : ℕ} (h : w ∈ storedWrites index stop xs) : ∃ i < xs.length,
      descriptorAt (index + i) + 8 ≤ w.1 ∧ w.1 + w.2.length ≤ descriptorAt (index + i) + 72 := by
  induction xs generalizing index stop with
  | nil => exact absurd h not_mem_nil
  | cons x rest ih =>
    rcases mem_append.mp h with h | h
    · exact ⟨0, Nat.zero_lt_succ _, mem_descriptorWrites h⟩
    · obtain ⟨i, hi, hw⟩ := ih h
      refine ⟨i + 1, Nat.succ_lt_succ hi, ?_⟩
      rwa [show index + (i + 1) = index + 1 + i by omega]

/-- Descriptors one after the other are in order. -/
theorem laid_descriptors {n : ℕ} {first rest : List (Write UInt8)}
    (hfst : Laid (descriptorAt index) (descriptorAt (index + 1)) first)
    (hres : Laid (descriptorAt (index + 1)) (descriptorAt (index + 1 + n)) rest) :
    Laid (descriptorAt index) (descriptorAt (index + (n + 1))) (first ++ rest) := by
  rw [Nat.add_assoc, Nat.add_comm 1 n] at hres
  refine hfst.append hres ?_ ?_ <;> unfold descriptorAt descBytes <;> omega

theorem laid_storedWrites (index stop : ℕ) (xs : List Stored) :
    Laid (descriptorAt index) (descriptorAt (index + xs.length)) (storedWrites index stop xs) := by
  induction xs generalizing index stop with
  | nil => exact Laid.nil
  | cons x rest ih =>
    refine laid_descriptors (Laid.of_inOrder ?_) (ih (index + 1) _)
    simp only [descriptorWrites, Laid.InOrder, length_u16Bytes, length_u32Bytes, length_u64Bytes]
    unfold descriptorAt descBytes
    omega

/-- The extents of the descriptors depend on the number of the matrices only. -/
theorem extents_storedWrites (index stop stop' : ℕ) {ys : List Stored} (h : xs.length = ys.length) :
    extents (storedWrites index stop xs) = extents (storedWrites index stop' ys) := by
  induction xs generalizing index stop stop' ys with
  | nil =>
    obtain rfl := length_eq_zero_iff.mp h.symm
    rfl
  | cons x rest ih =>
    obtain ⟨y, ys, rfl⟩ := exists_cons_of_length_eq_add_one h.symm
    have hres := ih (index + 1) (round16 stop + x.bytes.length) (round16 stop' + y.bytes.length)
      (Nat.succ.inj h)
    unfold extents at hres ⊢
    rw [storedWrites, storedWrites, List.map_append, List.map_append, hres]
    simp only [descriptorWrites, map_cons, map_nil, length_u16Bytes, length_u32Bytes,
      length_u64Bytes]

theorem storedWrites_within {stop : ℕ} (h : index + xs.length ≤ matrixCount)
    (hw : w ∈ storedWrites index stop xs) : w.1 + w.2.length ≤ prefixBytes := by
  have hend := ((laid_storedWrites index stop xs).within w hw).2
  have hlas : descriptorAt (index + xs.length) ≤ prefixBytes := by
    rw [prefixBytes_eq]
    unfold descriptorAt descBytes
    omega
  exact hend.trans hlas

/-- **No field of a descriptor is its checksum**, nor the magic. -/
theorem slice_puts_storedWrites {head : List UInt8} (hhd : head.length = prefixBytes) {stop : ℕ}
    (h : index + xs.length ≤ matrixCount) {i n : ℕ}
    (hout : i + n ≤ 64 ∨ ∃ k, i = descriptorAt k + 96 ∧ n = 4) :
    slice (puts head (storedWrites index stop xs)) i n = slice head i n := by
  refine slice_puts_of_apart (fun w hw => hhd ▸ storedWrites_within h hw) fun w hw => ?_
  obtain ⟨j, -, hlo, hhi⟩ := mem_storedWrites hw
  unfold descriptorAt descBytes at hlo hhi
  rcases hout with hout | ⟨k, rfl, rfl⟩
  · omega
  · unfold descriptorAt descBytes
    omega

end Apple8

end Logan
