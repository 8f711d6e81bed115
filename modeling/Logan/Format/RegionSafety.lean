import Logan.Format.PayloadSafety

/-!
# Regions of an expert

`expert_matrix_regions` finds the places of the three matrices of an expert in
its shard. A place is the offset of the record and that of the matrix in it, as
its descriptor has it, and is not compared with the size of the record, as
`read_expert_matrices` does. So the regions are inside the record exactly if all
descriptors say so.

This is about all calls of a run: a cache may only have the regions of a record
that has been asked for before.
-/

namespace Logan

open List Option

namespace Format

open Result Fault

/-! ## Which regions are found -/

/-- What a descriptor says where its matrix is: the offset in the record, and the
size. -/
structure MatrixPlace where
  offset : UInt64
  stored : UInt64

/-- **A descriptor has a place.** -/
def HasPlace (raw : List UInt8) (d : ℕ) (m : MatrixPlace) : Prop :=
  u64At? raw (d + 48) = some m.offset ∧ u64At? raw (d + 56) = some m.stored

theorem HasPlace.unique {raw : List UInt8} {d : ℕ} {m m' : MatrixPlace} (h : HasPlace raw d m)
    (h' : HasPlace raw d m') : m = m' := by
  obtain ⟨offset, stored⟩ := m
  obtain ⟨offset', stored'⟩ := m'
  obtain rfl : offset = offset' := some.inj (h.1.symm.trans h'.1)
  obtain rfl : stored = stored' := some.inj (h.2.symm.trans h'.2)
  rfl

section Regions

variable {p : Package} {record : RecordInfo} {raw : List UInt8} {found : ExpertRegions}

end Regions

/-! ## An expert and its last matrix -/

variable {bytes : UInt64}

end Format

end Logan
