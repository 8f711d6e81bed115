import Logan.Coding.Apple8Stored
import Logan.Util.Fault
import Logan.Util.Filling

/-!
# Matrices as tiles

Before it is coded, a matrix of four-bit floats is cut into tiles of 8 rows and 32
columns. The matrix has two nibbles in each byte of its weights, row by row, and a
scale for each 32 columns of a row. A tile has the 16 bytes of each of its rows, and
then the scale of each of them. The tiles at the lower and the right edge may be
larger than what is left of the matrix; what is beyond it is zero.

The compiler writes row after row, and in each row group after group. What it has
written in the end is described by the function `relaid` of the places of the tiles.
-/

namespace Logan

open List

namespace Apple8

open Result Fault

/-! ## The model -/

/-- `PackedMatrix` -/
structure PackedMatrix where
  rows : UInt32
  columns : UInt32
  weights : List UInt8
  scales : List UInt8
deriving DecidableEq

/-- The bytes of a row: two columns each. -/
def rowBytes (columns : UInt32) : ℕ := (columns.toNat + 1) / 2

/-- The groups of a row: 32 columns each. -/
def groups (columns : UInt32) : ℕ := (columns.toNat + 31) / 32

/-- `apple8_tile_bytes` of the compiler -/
def tileBytes (rows columns : UInt32) : Except ColicError ℕ := do
  refuse (rows = 0 ∨ columns = 0) (.usage "Apple8 MXFP4 matrices must have non-zero dimensions")
  let rowTiles := (rows.toNat + 7) / 8
  let kTiles := (columns.toNat + 31) / 32
  okOr (checkedProduct rowTiles kTiles >>= fun tiles => checkedProduct tiles 136)
    (.usage "Apple8 MXFP4 matrix size overflows u64")

/-- One round of the loops of `repack_apple8_matrix`. A row of a tile has 16 bytes, and its
scale is found 128 bytes after the beginning of the tile. -/
def repackGroup (m : PackedMatrix) (row : ℕ) (output : List UInt8) (group : ℕ) :
    Except (Fault ColicError) (List UInt8) := do
  let tileIndex ← lift (okOr
    (checkedProduct (row / 8) (groups m.columns) >>= fun index => checkedSum index group)
    (.usage "Apple8 tile index overflows usize"))
  let tile ← lift (okOr (checkedProduct tileIndex 136)
    (.usage "Apple8 tile offset overflows usize"))
  let column := group * 32
  let logicalColumns := min (m.columns.toNat - column) 32
  let copyBytes := (logicalColumns + 1) / 2
  let source := row * rowBytes m.columns + column / 2
  let destination := tile + row % 8 * 16
  let copied ← orPanic (range? m.weights source (source + copyBytes))
  let output ← orPanic (putAt? output destination copied)
  let scale ← orPanic m.scales[row * groups m.columns + group]?
  orPanic (putAt? output (tile + 128 + row % 8) [scale])

/-- `repack_apple8_matrix` -/
def repackApple8Matrix (m : PackedMatrix) : Except (Fault ColicError) (List UInt8) := do
  let expectedWeights ← lift (okOr (checkedProduct m.rows.toNat (rowBytes m.columns))
    (.usage "MXFP4 canonical weight size overflows usize"))
  let expectedScales ← lift (okOr (checkedProduct m.rows.toNat (groups m.columns))
    (.usage "MXFP4 canonical scale size overflows usize"))
  lift (refuse (m.weights.length ≠ expectedWeights ∨ m.scales.length ≠ expectedScales)
    (.usage "canonical MXFP4 buffers do not match matrix shape"))
  let outputBytes ← lift (tileBytes m.rows m.columns)
  (List.range m.rows.toNat).foldlM (fun output row =>
    (List.range (groups m.columns)).foldlM (repackGroup m row) output)
    (List.replicate outputBytes 0)

/-! ## Matrices -/

/-- **A matrix whose buffers have the sizes that its dimensions ask for**, which is what the
compiler calls canonical, and which is not empty. -/
structure PackedMatrix.Canonical (m : PackedMatrix) : Prop where
  rows_ne : m.rows ≠ 0
  columns_ne : m.columns ≠ 0
  weights_length : m.weights.length = m.rows.toNat * rowBytes m.columns
  scales_length : m.scales.length = m.rows.toNat * groups m.columns

instance (m : PackedMatrix) : Decidable m.Canonical :=
  decidable_of_iff (m.rows ≠ 0 ∧ m.columns ≠ 0 ∧
      m.weights.length = m.rows.toNat * rowBytes m.columns ∧
      m.scales.length = m.rows.toNat * groups m.columns)
    ⟨fun h => ⟨h.1, h.2.1, h.2.2.1, h.2.2.2⟩,
      fun h => ⟨h.rows_ne, h.columns_ne, h.weights_length, h.scales_length⟩⟩

/-- A byte of a row. -/
def PackedMatrix.weight (m : PackedMatrix) (row j : ℕ) : UInt8 :=
  m.weights.getD (row * rowBytes m.columns + j) 0

/-- The scale of a group of a row. -/
def PackedMatrix.scale (m : PackedMatrix) (row group : ℕ) : UInt8 :=
  m.scales.getD (row * groups m.columns + group) 0

/-! ## Places in a matrix -/

section Rows

variable {rows n row j : ℕ}

theorem place_lt (hrow : row < rows) (hj : j < n) : row * n + j < rows * n :=
  calc row * n + j < (row + 1) * n := by
        rw [Nat.add_mul, Nat.one_mul]
        omega
    _ ≤ rows * n := Nat.mul_le_mul_right n hrow

theorem place_coordinates (hj : j < n) : (row * n + j) / n = row ∧ (row * n + j) % n = j := by
  refine ⟨?_, Nat.mul_add_mod_of_lt hj⟩
  rw [Nat.add_comm, Nat.add_mul_div_right _ _ (Nat.zero_lt_of_lt hj), Nat.div_eq_of_lt hj,
    Nat.zero_add]

/-- No two elements are in the same place. -/
theorem place_inj {row' j' : ℕ} (hj : j < n) (hj' : j' < n)
    (h : row' * n + j' = row * n + j) : row' = row ∧ j' = j := by
  have hpl := @place_coordinates n row j hj
  have hpl' := @place_coordinates n row' j' hj'
  rw [h] at hpl'
  exact ⟨hpl'.1.symm.trans hpl.1, hpl'.2.symm.trans hpl.2⟩

end Rows

/-! ## Places in the tiles -/

/-- Where the tile of a row and a group begins. -/
def tilePlace (groups row group : ℕ) : ℕ := (row / 8 * groups + group) * 136

/-- Where a byte of a row goes. -/
def weightPlace (groups row j : ℕ) : ℕ := tilePlace groups row (j / 16) + row % 8 * 16 + j % 16

/-- Where a scale goes. -/
def scalePlace (groups row group : ℕ) : ℕ := tilePlace groups row group + 128 + row % 8

/-- **What the tiles of a matrix hold**, place by place: a byte of a row of the matrix, a scale,
or nothing if the row or the column is beyond the matrix. -/
def relaid (m : PackedMatrix) (i : ℕ) : UInt8 :=
  let tile := i / 136
  let offset := i % 136
  let firstRow := tile / groups m.columns * 8
  let group := tile % groups m.columns
  if offset < 128 then
    if firstRow + offset / 16 < m.rows.toNat ∧ group * 16 + offset % 16 < rowBytes m.columns then
      m.weight (firstRow + offset / 16) (group * 16 + offset % 16)
    else 0
  else
    if firstRow + (offset - 128) < m.rows.toNat then
      m.scale (firstRow + (offset - 128)) group
    else 0

section Places

variable {n row group j : ℕ}

/-- **Every place of the tiles is that of a byte or of a scale.** -/
theorem exists_place {rowTiles i : ℕ} (hi : i < rowTiles * n * 136) :
    (∃ row j, row / 8 < rowTiles ∧ j / 16 < n ∧ i = weightPlace n row j) ∨
      ∃ row group, row / 8 < rowTiles ∧ group < n ∧ i = scalePlace n row group := by
  have hn : 0 < n := by
    rcases Nat.eq_zero_or_pos n with rfl | h
    · rw [Nat.mul_zero, Nat.zero_mul] at hi
      exact absurd hi (Nat.not_lt_zero _)
    · exact h
  have htil : i / 136 < rowTiles * n := Nat.div_lt_of_lt_mul (by rwa [Nat.mul_comm])
  have hrow : i / 136 / n < rowTiles := Nat.div_lt_of_lt_mul (by rwa [Nat.mul_comm])
  have hgr : i / 136 % n < n := Nat.mod_lt _ hn
  have hspl : i / 136 / n * n + i / 136 % n = i / 136 := by
    rw [Nat.mul_comm]
    exact Nat.div_add_mod _ _
  by_cases hoff : i % 136 < 128
  · refine Or.inl ⟨i / 136 / n * 8 + i % 136 / 16, i / 136 % n * 16 + i % 136 % 16,
      by omega, by omega, ?_⟩
    have h1 : (i / 136 / n * 8 + i % 136 / 16) / 8 = i / 136 / n := by omega
    have h2 : (i / 136 % n * 16 + i % 136 % 16) / 16 = i / 136 % n := by omega
    rw [weightPlace, tilePlace, h1, h2, hspl]
    omega
  · refine Or.inr ⟨i / 136 / n * 8 + (i % 136 - 128), i / 136 % n, by omega, hgr, ?_⟩
    have h1 : (i / 136 / n * 8 + (i % 136 - 128)) / 8 = i / 136 / n := by omega
    rw [scalePlace, tilePlace, h1, hspl]
    omega

theorem tilePlace_le {rowTiles : ℕ} (hrow : row / 8 < rowTiles) (hgr : group < n) :
    tilePlace n row group + 136 ≤ rowTiles * n * 136 := by
  have htil := place_lt hrow hgr
  unfold tilePlace
  omega

end Places

section Relaid

variable {m : PackedMatrix} {row group j : ℕ}

/-- What stands where a byte of a row goes. -/
theorem relaid_weightPlace (hj : j / 16 < groups m.columns) :
    relaid m (weightPlace (groups m.columns) row j)
      = if row < m.rows.toNat ∧ j < rowBytes m.columns then m.weight row j else 0 := by
  have htil : weightPlace (groups m.columns) row j / 136 = row / 8 * groups m.columns + j / 16 := by
    unfold weightPlace tilePlace
    omega
  have hoff : weightPlace (groups m.columns) row j % 136 = row % 8 * 16 + j % 16 := by
    unfold weightPlace tilePlace
    omega
  have hcrd := @place_coordinates (groups m.columns) (row / 8) (j / 16) hj
  have hrow : row / 8 * 8 + (row % 8 * 16 + j % 16) / 16 = row := by omega
  have hbyt : j / 16 * 16 + (row % 8 * 16 + j % 16) % 16 = j := by omega
  unfold relaid
  dsimp only
  rw [htil, hoff, hcrd.1, hcrd.2, hrow, hbyt, if_pos (by omega)]

/-- What stands where a scale goes. -/
theorem relaid_scalePlace (hgr : group < groups m.columns) :
    relaid m (scalePlace (groups m.columns) row group)
      = if row < m.rows.toNat then m.scale row group else 0 := by
  have htil : scalePlace (groups m.columns) row group / 136
      = row / 8 * groups m.columns + group := by
    unfold scalePlace tilePlace
    omega
  have hoff : scalePlace (groups m.columns) row group % 136 = 128 + row % 8 := by
    unfold scalePlace tilePlace
    omega
  have hcrd := @place_coordinates (groups m.columns) (row / 8) group hgr
  have hrow : row / 8 * 8 + (128 + row % 8 - 128) = row := by omega
  unfold relaid
  dsimp only
  rw [htil, hoff, hcrd.1, hcrd.2, hrow, if_neg (by omega)]

end Relaid

/-! ## The loops -/

section Loops

variable {m : PackedMatrix} {output : List UInt8} {row group : ℕ}

/-- The tiles of a matrix. -/
def tileCount (rows columns : UInt32) : ℕ := (rows.toNat + 7) / 8 * groups columns

theorem tileCount_le (rows columns : UInt32) : tileCount rows columns * 136 ≤ usizeMax := by
  have hrow : (rows.toNat + 7) / 8 ≤ 2 ^ 29 := by
    have := rows.toNat_lt
    omega
  have hcol : groups columns ≤ 2 ^ 27 := by
    have := columns.toNat_lt
    unfold groups
    omega
  calc tileCount rows columns * 136 ≤ 2 ^ 29 * 2 ^ 27 * 136 :=
        Nat.mul_le_mul_right _ (Nat.mul_le_mul hrow hcol)
    _ ≤ usizeMax := by decide

theorem buffers_le (m : PackedMatrix) : m.rows.toNat * rowBytes m.columns ≤ usizeMax ∧
      m.rows.toNat * groups m.columns ≤ usizeMax := by
  have hrow : m.rows.toNat ≤ 2 ^ 32 := le_of_lt m.rows.toNat_lt
  have hcol := m.columns.toNat_lt
  have hmos : 2 ^ 32 * 2 ^ 31 ≤ usizeMax := by decide
  have hbytes : rowBytes m.columns ≤ 2 ^ 31 := by
    unfold rowBytes
    omega
  have hgr : groups m.columns ≤ 2 ^ 31 := by
    unfold groups
    omega
  exact ⟨(Nat.mul_le_mul hrow hbytes).trans hmos, (Nat.mul_le_mul hrow hgr).trans hmos⟩

/-- **The size of the tiles** is always known. -/
theorem tileBytes_eq {rows columns : UInt32} (hrow : rows ≠ 0) (hcol : columns ≠ 0) :
    tileBytes rows columns = .ok (tileCount rows columns * 136) := by
  have hle := tileCount_le rows columns
  have htil : tileCount rows columns ≤ usizeMax := by omega
  unfold tileBytes
  rw [refuse_of_not (not_or.mpr ⟨hrow, hcol⟩), ok_bind]
  exact okOr_eq_ok.mpr (Option.bind_eq_some_iff.mpr
    ⟨_, checkedProduct_of_le htil, checkedProduct_of_le hle⟩)

namespace PackedMatrix.Canonical

theorem weight_lt (h : m.Canonical) {j : ℕ} (hrow : row < m.rows.toNat)
    (hj : j < rowBytes m.columns) : row * rowBytes m.columns + j < m.weights.length := by
  rw [h.weights_length]
  exact place_lt hrow hj

theorem scale_lt (h : m.Canonical) (hrow : row < m.rows.toNat)
    (hgr : group < groups m.columns) : row * groups m.columns + group < m.scales.length := by
  rw [h.scales_length]
  exact place_lt hrow hgr

end PackedMatrix.Canonical

/-- The places that a round writes to. -/
def Written (m : PackedMatrix) (row group i : ℕ) : Prop :=
  (∃ j, j / 16 = group ∧ j < rowBytes m.columns ∧ i = weightPlace (groups m.columns) row j) ∨
    i = scalePlace (groups m.columns) row group

/-- The buffer before the loops. -/
abbrev blank (m : PackedMatrix) : List UInt8 :=
  List.replicate (tileCount m.rows m.columns * 136) 0

/-- The number of bytes that a round copies: those of its group that the row has. -/
def copyBytes (columns : UInt32) (group : ℕ) : ℕ := (min (columns.toNat - group * 32) 32 + 1) / 2

theorem add_copyBytes {columns : UInt32} (hgr : group < groups columns) :
    16 * group + copyBytes columns group = min (16 * (group + 1)) (rowBytes columns) ∧
      0 < copyBytes columns group := by
  unfold groups at hgr
  unfold rowBytes copyBytes
  omega

/-- The bytes of the matrix that a round copies. -/
abbrev copied (m : PackedMatrix) (row group : ℕ) : List UInt8 :=
  slice m.weights (row * rowBytes m.columns + 16 * group) (copyBytes m.columns group)

namespace PackedMatrix.Canonical

/-- **The bytes of a row and of a group** are in the matrix. -/
theorem copied_le (h : m.Canonical) (hrow : row < m.rows.toNat) (hgr : group < groups m.columns) :
    row * rowBytes m.columns + 16 * group + copyBytes m.columns group ≤ m.weights.length := by
  obtain ⟨hcop, hpos⟩ := add_copyBytes hgr
  have hlas := h.weight_lt hrow
    (show 16 * group + copyBytes m.columns group - 1 < rowBytes m.columns by omega)
  omega

theorem length_copied (h : m.Canonical) (hrow : row < m.rows.toNat)
    (hgr : group < groups m.columns) : (copied m row group).length = copyBytes m.columns group :=
  length_slice (h.copied_le hrow hgr)

/-- What a round copies is what the tiles are to hold there. -/
theorem getElem?_copied (h : m.Canonical) (hrow : row < m.rows.toNat)
    (hgr : group < groups m.columns) {j : ℕ} (hj : j < copyBytes m.columns group) :
    (copied m row group)[j]?
      = some (relaid m (tilePlace (groups m.columns) row group + row % 8 * 16 + j)) := by
  obtain ⟨hcop, -⟩ := add_copyBytes hgr
  have hpl : tilePlace (groups m.columns) row group + row % 8 * 16 + j
      = weightPlace (groups m.columns) row (16 * group + j) := by
    rw [weightPlace, show (16 * group + j) / 16 = group by omega,
      show (16 * group + j) % 16 = j by omega]
  have hin : row * rowBytes m.columns + (16 * group + j) < m.weights.length :=
    h.weight_lt hrow (by omega)
  rw [hpl, relaid_weightPlace (by omega), if_pos ⟨hrow, by omega⟩, getElem?_slice hj,
    PackedMatrix.weight, getD_eq_getElem?_getD, Nat.add_assoc,
    List.getElem?_eq_getElem hin]
  rfl

theorem getElem?_scale (h : m.Canonical) (hrow : row < m.rows.toNat)
    (hgr : group < groups m.columns) :
    m.scales[row * groups m.columns + group]? = some (m.scale row group) := by
  rw [PackedMatrix.scale, getD_eq_getElem?_getD, List.getElem?_eq_getElem (h.scale_lt hrow hgr)]
  rfl

end PackedMatrix.Canonical

theorem tilePlace_le_blank (hrow : row < m.rows.toNat) (hgr : group < groups m.columns) :
    tilePlace (groups m.columns) row group + 136 ≤ (blank m).length := by
  rw [length_replicate]
  exact tilePlace_le (by omega) hgr

/-- **No operation of a round overflows** or is beyond a buffer. -/
theorem repackGroup_eq (h : m.Canonical) (hrow : row < m.rows.toNat)
    (hgr : group < groups m.columns) : repackGroup m row output group = (do
      let next ← orPanic (putAt? output
        (tilePlace (groups m.columns) row group + row % 8 * 16) (copied m row group))
      orPanic (putAt? next (scalePlace (groups m.columns) row group) [m.scale row group])) := by
  have hpl := tilePlace_le_blank hrow hgr
  have hmos : (blank m).length ≤ usizeMax :=
    length_replicate.trans_le (tileCount_le m.rows m.columns)
  unfold tilePlace at hpl
  have hidx : (checkedProduct (row / 8) (groups m.columns) >>= fun index =>
      checkedSum index group) = some (row / 8 * groups m.columns + group) :=
    Option.bind_eq_some_iff.mpr ⟨_, checkedProduct_of_le (by omega), checkedSum_of_le (by omega)⟩
  have htil : checkedProduct (row / 8 * groups m.columns + group) 136
      = some (tilePlace (groups m.columns) row group) := checkedProduct_of_le (by omega)
  have hsource : row * rowBytes m.columns + group * 32 / 2
      = row * rowBytes m.columns + 16 * group := by omega
  have hcop : range? m.weights (row * rowBytes m.columns + 16 * group)
      (row * rowBytes m.columns + 16 * group + copyBytes m.columns group)
      = some (copied m row group) := by
    rw [range?_of_le (Nat.le_add_right _ _) (h.copied_le hrow hgr), Nat.add_sub_cancel_left]
  unfold repackGroup
  rw [hidx, okOr_some, lift_ok, ok_bind, htil, okOr_some, lift_ok, ok_bind]
  dsimp only
  rw [hsource, ← copyBytes, hcop, orPanic_some, ok_bind, h.getElem?_scale hrow hgr]
  rfl

theorem written_iff (hgr : group < groups m.columns) {i : ℕ} :
    Written m row group i ↔ (tilePlace (groups m.columns) row group + row % 8 * 16 ≤ i ∧
        i < tilePlace (groups m.columns) row group + row % 8 * 16 + copyBytes m.columns group) ∨
      i = scalePlace (groups m.columns) row group := by
  obtain ⟨hcop, -⟩ := add_copyBytes hgr
  refine or_congr_left ⟨?_, fun hi => ?_⟩
  · rintro ⟨j, rfl, hj, rfl⟩
    unfold weightPlace
    omega
  · refine ⟨16 * group + (i - (tilePlace (groups m.columns) row group + row % 8 * 16)),
      by omega, by omega, ?_⟩
    rw [weightPlace, show (16 * group + (i - (tilePlace (groups m.columns) row group
      + row % 8 * 16))) / 16 = group by omega]
    omega

/-- **A round** writes what the tiles are to hold. -/
theorem repackGroup_filled (h : m.Canonical) (hrow : row < m.rows.toNat)
    (hgr : group < groups m.columns) {done : ℕ → Prop}
    (hout : Filled (blank m) (relaid m) done output) :
    ∃ output', repackGroup m row output group = .ok output' ∧
      Filled (blank m) (relaid m) (fun i => done i ∨ Written m row group i) output' := by
  have hlen := h.length_copied hrow hgr
  have hpl := tilePlace_le_blank hrow hgr
  have hbytes : copyBytes m.columns group ≤ 16 := by
    unfold copyBytes
    omega
  have hwgh : tilePlace (groups m.columns) row group + row % 8 * 16
      + (copied m row group).length ≤ (blank m).length := by omega
  have hscale : scalePlace (groups m.columns) row group + [m.scale row group].length
      ≤ (blank m).length := by
    rw [length_singleton, scalePlace]
    omega
  obtain ⟨next, hnex, hfil⟩ := hout.putAt? hwgh fun j hj =>
    h.getElem?_copied hrow hgr (hlen ▸ hj)
  obtain ⟨last, hlas, hdon⟩ := hfil.putAt? hscale fun j hj => by
    obtain rfl : j = 0 := by
      rw [length_singleton] at hj
      omega
    rw [Nat.add_zero, relaid_scalePlace hgr, if_pos hrow]
    rfl
  refine ⟨last, ?_, hdon.congr fun i => ?_⟩
  · rw [repackGroup_eq h hrow hgr, hnex, orPanic_some, ok_bind, hlas, orPanic_some]
  · rw [written_iff hgr, hlen, length_singleton, or_assoc]
    refine or_congr_right (or_congr_right ?_)
    omega

/-- What no round writes to is zero. -/
theorem relaid_of_not_written {i : ℕ} (hi : i < tileCount m.rows m.columns * 136)
    (hno : ¬ ∃ row < m.rows.toNat, ∃ group < groups m.columns, Written m row group i) :
    relaid m i = 0 := by
  rcases exists_place hi with ⟨row, j, -, hj, rfl⟩ | ⟨row, group, -, hgr, rfl⟩
  · rw [relaid_weightPlace hj, if_neg]
    rintro ⟨hrow, hbyt⟩
    exact hno ⟨row, hrow, j / 16, hj, Or.inl ⟨j, rfl, hbyt, rfl⟩⟩
  · rw [relaid_scalePlace hgr, if_neg]
    exact fun hrow => hno ⟨row, hrow, group, hgr, Or.inr rfl⟩

/-- **The compiler succeeds on every canonical matrix**, and what it writes is described by
`relaid`, place by place. -/
theorem repackApple8Matrix_eq (h : m.Canonical) : ∃ tiles, repackApple8Matrix m = .ok tiles ∧
      tiles.length = tileCount m.rows m.columns * 136 ∧
      ∀ i < tiles.length, tiles[i]? = some (relaid m i) := by
  have hlng : (blank m).length = tileCount m.rows m.columns * 136 := length_replicate
  have hlps := (Filled.refl (blank m) (relaid m)).foldlM (E := Fault ColicError)
    (f := fun output row => (List.range (groups m.columns)).foldlM (repackGroup m row) output)
    (l := List.range m.rows.toNat)
    fun row hrow done output hout => hout.foldlM fun group hgr done' output' h' =>
      repackGroup_filled h (mem_range.mp hrow) (mem_range.mp hgr) h'
  obtain ⟨tiles, htil, hfil⟩ := hlps
  have hlen : tiles.length = tileCount m.rows m.columns * 136 := hfil.length_eq.trans hlng
  refine ⟨tiles, ?_, hlen, fun i hi => hfil.getElem?_eq (fun k hk hdon => ?_)
    (hfil.length_eq ▸ hi)⟩
  · obtain ⟨hwgh, hsc⟩ := buffers_le m
    unfold repackApple8Matrix
    rw [checkedProduct_of_le hwgh, okOr_some, lift_ok, ok_bind,
      checkedProduct_of_le hsc, okOr_some, lift_ok, ok_bind,
      refuse_of_not (not_or.mpr ⟨not_not.mpr h.weights_length, not_not.mpr h.scales_length⟩),
      lift_ok, ok_bind, tileBytes_eq h.rows_ne h.columns_ne, lift_ok, ok_bind]
    exact htil
  · rw [hlng] at hk
    rw [List.getElem?_replicate, if_pos hk, relaid_of_not_written hk]
    rintro ⟨row, hrow, group, hgr, hw⟩
    exact hdon (Or.inr ⟨row, mem_range.mpr hrow, group, mem_range.mpr hgr, hw⟩)

variable {tiles : List UInt8}

section

variable (h : repackApple8Matrix m = .ok tiles)

include h

/-- A matrix that can be cut into tiles is canonical. -/
theorem canonical_of_repack : m.Canonical := by
  obtain ⟨weights, hwgh, h⟩ := bind_eq_ok.mp h
  obtain ⟨scales, hsc, h⟩ := bind_eq_ok.mp h
  obtain ⟨_, hmat, h⟩ := bind_eq_ok.mp h
  obtain ⟨bytes, hbytes, -⟩ := bind_eq_ok.mp h
  have hw := checkedProduct_eq_some.mp (okOr_eq_ok.mp (lift_eq_ok.mp hwgh))
  have hs := checkedProduct_eq_some.mp (okOr_eq_ok.mp (lift_eq_ok.mp hsc))
  have hlens := refuse_eq_ok.mp (lift_eq_ok.mp hmat)
  obtain ⟨_, hdim, -⟩ := bind_eq_ok.mp (lift_eq_ok.mp hbytes)
  have hne := refuse_eq_ok.mp hdim
  rw [not_or, not_not, not_not] at hlens
  rw [not_or] at hne
  exact ⟨hne.1, hne.2, hlens.1.trans hw.1.symm, hlens.2.trans hs.1.symm⟩

/-- **The tiles of a matrix**, place by place. -/
theorem tiles_eq : tiles.length = tileCount m.rows m.columns * 136 ∧
      ∀ i < tiles.length, tiles[i]? = some (relaid m i) := by
  obtain ⟨tiles', htil, hlen, hget⟩ := repackApple8Matrix_eq (canonical_of_repack h)
  obtain rfl := Except.ok.inj (h.symm.trans htil)
  exact ⟨hlen, hget⟩

/-- **The size of the tiles is the one that is computed beforehand.** -/
theorem tileBytes_of_repack : tileBytes m.rows m.columns = .ok tiles.length := by
  have hcan := canonical_of_repack h
  rw [(tiles_eq h).1]
  exact tileBytes_eq hcan.rows_ne hcan.columns_ne

end

end Loops

end Apple8

end Logan
