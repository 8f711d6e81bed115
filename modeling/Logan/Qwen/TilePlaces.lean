import Logan.Coding.Apple8Tiles
import Logan.Qwen.ColiMatrices

/-!
# Where the nibbles and the scales of a matrix are stored

Half a byte of the tiles **stores** a nibble of a matrix if it is that nibble for
every matrix of the same dimensions, and a byte stores a scale in the same sense.
Each nibble and each scale is stored in exactly one place: there is one, by the
description of the tiles, and a matrix that is zero but for this nibble shows that
there is no other. Half a byte in which nothing is stored is zero, unless the number
of columns is odd: then the last byte of a row has a half that belongs to no column,
which is copied with the rest of the byte.
-/

namespace Logan

open List

namespace Coli

open Result Fault Apple8

/-! ## Halves of bytes -/

/-- Half a byte, of which the lower half comes first. -/
def nibbleAt (bytes : List UInt8) (k : ℕ) : UInt8 := nibbleOf (bytes.getD (k / 2) 0) k

/-- The nibble of a row and a column. -/
def nibble (m : PackedMatrix) (row column : ℕ) : UInt8 :=
  nibbleOf (m.weight row (column / 2)) column

/-- Half a byte that stores the nibble of a row and a column. -/
def NibbleAt (rows columns : UInt32) (k row column : ℕ) : Prop :=
  ∀ (m : PackedMatrix) (tiles : List UInt8), m.rows = rows → m.columns = columns →
    repackApple8Matrix m = .ok tiles → nibbleAt tiles k = nibble m row column

/-- A byte that stores the scale of a row and a group. -/
def ScaleAt (rows columns : UInt32) (i row group : ℕ) : Prop :=
  ∀ (m : PackedMatrix) (tiles : List UInt8), m.rows = rows → m.columns = columns →
    repackApple8Matrix m = .ok tiles → tiles[i]? = some (m.scale row group)

/-- Half a byte in which nothing is stored. -/
def Padding (rows columns : UInt32) (k : ℕ) : Prop :=
  (∀ row < rows.toNat, ∀ column < columns.toNat, ¬ NibbleAt rows columns k row column) ∧
    ∀ row < rows.toNat, ∀ group < groups columns, ¬ ScaleAt rows columns (k / 2) row group

/-- Where the nibble of a row and a column goes. -/
def nibblePlace (columns : UInt32) (row column : ℕ) : ℕ :=
  2 * weightPlace (groups columns) row (column / 2) + column % 2

theorem nibbleOf_congr {c d : ℕ} (byte : UInt8) (h : c % 2 = d % 2) :
    nibbleOf byte c = nibbleOf byte d := by
  unfold nibbleOf
  rw [h]

@[simp] theorem nibbleOf_zero (c : ℕ) : nibbleOf 0 c = 0 := by
  unfold nibbleOf
  split_ifs <;> rfl

/-! ## What the compiler has written -/

section Written

variable {m : PackedMatrix} {tiles : List UInt8} {rows columns : UInt32}

theorem getD_tiles (h : repackApple8Matrix m = .ok tiles) {i : ℕ} (hi : i < tiles.length) :
    tiles.getD i 0 = relaid m i := by
  rw [getD_eq_getElem?_getD, (tiles_eq h).2 i hi]
  rfl

theorem div_lt_groups {j : ℕ} (hj : j < rowBytes columns) : j / 16 < groups columns := by
  unfold rowBytes at hj
  unfold groups
  omega

theorem weightPlace_lt {row j : ℕ} (hrow : row < rows.toNat) (hj : j < rowBytes columns) :
    weightPlace (groups columns) row j < tileCount rows columns * 136 := by
  have htil := @tilePlace_le (groups columns) row (j / 16) ((rows.toNat + 7) / 8) (by omega)
    (div_lt_groups hj)
  unfold weightPlace tileCount
  omega

theorem scalePlace_lt {row group : ℕ} (hrow : row < rows.toNat) (hgr : group < groups columns) :
    scalePlace (groups columns) row group < tileCount rows columns * 136 := by
  have htil := @tilePlace_le (groups columns) row group ((rows.toNat + 7) / 8) (by omega) hgr
  unfold scalePlace tileCount
  omega

section

variable (h : repackApple8Matrix m = .ok tiles)

include h

/-- **A byte of a row** is where it goes. -/
theorem getD_weightPlace {row j : ℕ} (hrow : row < m.rows.toNat) (hj : j < rowBytes m.columns) :
    tiles.getD (weightPlace (groups m.columns) row j) 0 = m.weight row j := by
  rw [getD_tiles h ((tiles_eq h).1 ▸ weightPlace_lt hrow hj), relaid_weightPlace (div_lt_groups hj),
    if_pos ⟨hrow, hj⟩]

/-- **A scale** is where it goes. -/
theorem getElem?_scalePlace {row group : ℕ}
    (hrow : row < m.rows.toNat) (hgr : group < groups m.columns) :
    tiles[scalePlace (groups m.columns) row group]? = some (m.scale row group) := by
  rw [(tiles_eq h).2 _ ((tiles_eq h).1 ▸ scalePlace_lt hrow hgr), relaid_scalePlace hgr,
    if_pos hrow]

/-- **Every nibble of a row** is where it goes, also the one after an odd number of columns. -/
theorem nibbleAt_nibblePlace {row column : ℕ}
    (hrow : row < m.rows.toNat) (hcol : column / 2 < rowBytes m.columns) :
    nibbleAt tiles (nibblePlace m.columns row column) = nibble m row column := by
  have hhal : nibblePlace m.columns row column / 2
      = weightPlace (groups m.columns) row (column / 2) := by
    unfold nibblePlace
    omega
  have hpar : nibblePlace m.columns row column % 2 = column % 2 := by
    unfold nibblePlace
    omega
  rw [nibbleAt, hhal, getD_weightPlace h hrow hcol, nibble]
  exact nibbleOf_congr _ hpar

end

/-- **The bytes of the tiles** are those of the rows, the scales, and zeros. -/
theorem byte_cases {i : ℕ} (hi : i < tileCount rows columns * 136) :
    (∃ row j, row < rows.toNat ∧ j < rowBytes columns ∧ i = weightPlace (groups columns) row j) ∨
    (∃ row group, row < rows.toNat ∧ group < groups columns ∧
      i = scalePlace (groups columns) row group) ∨
    ∀ (m : PackedMatrix) (tiles : List UInt8), m.rows = rows → m.columns = columns →
      repackApple8Matrix m = .ok tiles → tiles.getD i 0 = 0 := by
  have hzer : (∀ m : PackedMatrix, m.rows = rows → m.columns = columns → relaid m i = 0) →
      ∀ (m : PackedMatrix) (tiles : List UInt8), m.rows = rows → m.columns = columns →
        repackApple8Matrix m = .ok tiles → tiles.getD i 0 = 0 := by
    rintro hrel m tiles rfl rfl h
    rw [getD_tiles h ((tiles_eq h).1 ▸ hi), hrel m rfl rfl]
  rcases exists_place hi with ⟨row, j, -, hj, rfl⟩ | ⟨row, group, -, hgr, rfl⟩
  · by_cases hin : row < rows.toNat ∧ j < rowBytes columns
    · exact Or.inl ⟨row, j, hin.1, hin.2, rfl⟩
    · refine Or.inr (Or.inr (hzer ?_))
      rintro m rfl rfl
      rw [relaid_weightPlace hj, if_neg hin]
  · by_cases hin : row < rows.toNat
    · exact Or.inr (Or.inl ⟨row, group, hin, hgr, rfl⟩)
    · refine Or.inr (Or.inr (hzer ?_))
      rintro m rfl rfl
      rw [relaid_scalePlace hgr, if_neg hin]

end Written

/-! ## Matrices that are zero but for one element -/

section Marked

variable {rows columns : UInt32} {row group j : ℕ}

/-- A matrix with given bytes, whose scales are zero. -/
def bytesOnly (rows columns : UInt32) (weights : List UInt8) : PackedMatrix :=
  ⟨rows, columns, weights, List.replicate (rows.toNat * groups columns) 0⟩

/-- A matrix with given scales, whose bytes are zero. -/
def scalesOnly (rows columns : UInt32) (scales : List UInt8) : PackedMatrix :=
  ⟨rows, columns, List.replicate (rows.toNat * rowBytes columns) 0, scales⟩

/-- The matrix that is zero but for one nibble. -/
def markedNibble (rows columns : UInt32) (row column : ℕ) : PackedMatrix :=
  bytesOnly rows columns ((List.replicate (rows.toNat * rowBytes columns) 0).set
    (row * rowBytes columns + column / 2) (if column % 2 = 0 then 0x01 else 0x10))

/-- The matrix that is zero but for one scale. -/
def markedScale (rows columns : UInt32) (row group : ℕ) : PackedMatrix :=
  scalesOnly rows columns ((List.replicate (rows.toNat * groups columns) 0).set
    (row * groups columns + group) 1)

theorem getD_marked {n at' i : ℕ} {x : UInt8} (hat : at' < n) :
    ((List.replicate n 0).set at' x).getD i 0 = if i = at' then x else 0 := by
  rw [getD_eq_getElem?_getD, List.getElem?_set, length_replicate]
  split_ifs with h1 h2 h2
  · rfl
  · exact absurd h1.symm h2
  · exact absurd h2.symm h1
  · rw [List.getElem?_replicate]
    split_ifs <;> rfl

theorem getD_zeros (n i : ℕ) : (List.replicate n (0 : UInt8)).getD i 0 = 0 := by
  rw [getD_eq_getElem?_getD, List.getElem?_replicate]
  split_ifs <;> rfl

theorem canonical_markedNibble (hrow : rows ≠ 0) (hcol : columns ≠ 0) {column : ℕ} :
    (markedNibble rows columns row column).Canonical :=
  ⟨hrow, hcol, by rw [markedNibble, bytesOnly, length_set, length_replicate],
    length_replicate⟩

theorem canonical_markedScale (hrow : rows ≠ 0) (hcol : columns ≠ 0) :
    (markedScale rows columns row group).Canonical :=
  ⟨hrow, hcol, length_replicate, by rw [markedScale, scalesOnly, length_set, length_replicate]⟩

@[simp] theorem scale_bytesOnly (weights : List UInt8) (row group : ℕ) :
    (bytesOnly rows columns weights).scale row group = 0 := getD_zeros _ _

@[simp] theorem weight_scalesOnly (scales : List UInt8) (row j : ℕ) :
    (scalesOnly rows columns scales).weight row j = 0 := getD_zeros _ _

/-- **The marked nibble is the only one** that is not zero. -/
theorem nibble_markedNibble {column row' column' : ℕ} (hrow : row < rows.toNat)
    (hcol : column / 2 < rowBytes columns) (hcol' : column' / 2 < rowBytes columns) :
    nibble (markedNibble rows columns row column) row' column'
      = if row' = row ∧ column' = column then 1 else 0 := by
  have hwgh : (markedNibble rows columns row column).weight row' (column' / 2)
      = if row' * rowBytes columns + column' / 2 = row * rowBytes columns + column / 2 then
          if column % 2 = 0 then 0x01 else 0x10 else 0 := getD_marked (place_lt hrow hcol)
  rw [nibble, hwgh]
  by_cases hpl : row' * rowBytes columns + column' / 2 = row * rowBytes columns + column / 2
  · obtain ⟨rfl, hbyt⟩ := place_inj hcol hcol' hpl
    rw [if_pos hpl]
    -- the two columns share a byte: they are the same if their parities are
    unfold nibbleOf
    rcases Nat.mod_two_eq_zero_or_one column with hc | hc <;>
      rcases Nat.mod_two_eq_zero_or_one column' with hc' | hc' <;> rw [hc, hc']
    · rw [if_pos rfl, if_pos rfl, if_pos ⟨rfl, by omega⟩]
      rfl
    · rw [if_neg (by decide), if_pos rfl, if_neg (by omega)]
      rfl
    · rw [if_pos rfl, if_neg (by decide), if_neg (by omega)]
      rfl
    · rw [if_neg (by decide), if_neg (by decide), if_pos ⟨rfl, by omega⟩]
      rfl
  · rw [if_neg hpl, nibbleOf_zero, if_neg]
    rintro ⟨rfl, rfl⟩
    exact hpl rfl

/-- **The marked scale is the only one** that is not zero. -/
theorem scale_markedScale {row' group' : ℕ} (hrow : row < rows.toNat)
    (hgr : group < groups columns) (hgr' : group' < groups columns) :
    (markedScale rows columns row group).scale row' group'
      = if row' = row ∧ group' = group then 1 else 0 := by
  have hscale : (markedScale rows columns row group).scale row' group'
      = if row' * groups columns + group' = row * groups columns + group then 1 else 0 :=
    getD_marked (place_lt hrow hgr)
  rw [hscale]
  refine if_congr ⟨place_inj hgr hgr', ?_⟩ rfl rfl
  rintro ⟨rfl, rfl⟩
  rfl

end Marked

/-! ## Where nibbles and scales are stored -/

section Stored

variable {rows columns : UInt32} {row column group k i : ℕ}

/-- **A nibble is stored where it goes.** -/
theorem nibbleAt_place (hrow : row < rows.toNat) (hcol : column < columns.toNat) :
    NibbleAt rows columns (nibblePlace columns row column) row column := by
  rintro m tiles rfl rfl h
  refine nibbleAt_nibblePlace h hrow ?_
  unfold rowBytes
  omega

/-- **A scale is stored where it goes.** -/
theorem scaleAt_place (hrow : row < rows.toNat) (hgr : group < groups columns) :
    ScaleAt rows columns (scalePlace (groups columns) row group) row group := by
  rintro m tiles rfl rfl h
  exact getElem?_scalePlace h hrow hgr

/-- **A nibble is stored nowhere else.** -/
theorem eq_of_nibbleAt (hrws : rows ≠ 0) (hcol : columns ≠ 0) (hrow : row < rows.toNat)
    (hclm : column < columns.toNat) (hk : k < 2 * (tileCount rows columns * 136))
    (h : NibbleAt rows columns k row column) : k = nibblePlace columns row column := by
  have hbyt : column / 2 < rowBytes columns := by
    unfold rowBytes
    omega
  obtain ⟨tiles, htil, -⟩ :=
    repackApple8Matrix_eq (@canonical_markedNibble rows columns row hrws hcol column)
  have hone : nibbleAt tiles k = 1 := by
    rw [h _ tiles rfl rfl htil, nibble_markedNibble hrow hbyt hbyt, if_pos ⟨rfl, rfl⟩]
  have hzer : tiles.getD (k / 2) 0 ≠ 0 := by
    intro hz
    rw [nibbleAt, hz, nibbleOf_zero] at hone
    cases hone
  rcases @byte_cases rows columns (k / 2) (by omega) with
    ⟨row', j, hrow', hj, hpl⟩ | ⟨row', group, hrow', hgr, hpl⟩ | hnon
  · -- a byte of a row: the nibble is the marked one
    have hat : k = nibblePlace columns row' (2 * j + k % 2) := by
      rw [nibblePlace, show (2 * j + k % 2) / 2 = j by omega, ← hpl]
      omega
    have hj' : (2 * j + k % 2) / 2 < rowBytes columns := by omega
    rw [hat] at hone
    have hmar := (nibbleAt_nibblePlace htil hrow' hj').symm.trans hone
    rw [nibble_markedNibble hrow hbyt hj'] at hmar
    split_ifs at hmar with heq
    · rw [hat, heq.1, heq.2]
    · exact absurd hmar (by decide)
  · -- a scale: all of them are zero
    refine absurd ?_ hzer
    have hscale := getElem?_scalePlace htil hrow' hgr
    rw [hpl, getD_eq_getElem?_getD]
    exact (congrArg (Option.getD · 0) hscale).trans (scale_bytesOnly _ row' group)
  · exact absurd (hnon _ tiles rfl rfl htil) hzer

/-- **A scale is stored nowhere else.** -/
theorem eq_of_scaleAt (hrws : rows ≠ 0) (hcol : columns ≠ 0) (hrow : row < rows.toNat)
    (hgr : group < groups columns) (hi : i < tileCount rows columns * 136)
    (h : ScaleAt rows columns i row group) : i = scalePlace (groups columns) row group := by
  obtain ⟨tiles, htil, -⟩ :=
    repackApple8Matrix_eq (@canonical_markedScale rows columns row group hrws hcol)
  have hone : tiles[i]? = some 1 := by
    rw [h _ tiles rfl rfl htil, scale_markedScale hrow hgr hgr, if_pos ⟨rfl, rfl⟩]
  have hzer : tiles.getD i 0 ≠ 0 := by
    rw [getD_eq_getElem?_getD, hone]
    decide
  rcases byte_cases hi with ⟨row', j, hrow', hj, rfl⟩ | ⟨row', group', hrow', hgr', rfl⟩ | hnon
  · -- a byte of a row: all of them are zero
    refine absurd ?_ hzer
    exact (getD_weightPlace htil hrow' hj).trans (weight_scalesOnly _ row' j)
  · -- a scale: it is the marked one
    have hscale := getElem?_scalePlace htil hrow' hgr'
    have hmar := Option.some.inj (hscale.symm.trans hone)
    rw [scale_markedScale hrow hgr hgr'] at hmar
    split_ifs at hmar with heq
    · rw [heq.1, heq.2]
    · exact absurd hmar (by decide)
  · exact absurd (hnon _ tiles rfl rfl htil) hzer

/-- **Half a byte in which nothing is stored is zero**, or is the half after an odd number of
columns. -/
theorem spare_of_padding (hk : k < 2 * (tileCount rows columns * 136))
    (hpad : Padding rows columns k) {m : PackedMatrix} {tiles : List UInt8}
    (hm : m.rows = rows) (hm' : m.columns = columns) (h : repackApple8Matrix m = .ok tiles)
    (hne : nibbleAt tiles k ≠ 0) :
    columns.toNat % 2 = 1 ∧ ∃ row < rows.toNat, k = nibblePlace columns row columns.toNat := by
  rcases @byte_cases rows columns (k / 2) (by omega) with
    ⟨row, j, hrow, hj, hpl⟩ | ⟨row, group, hrow, hgr, hpl⟩ | hnon
  · have hat : k = nibblePlace columns row (2 * j + k % 2) := by
      rw [nibblePlace, show (2 * j + k % 2) / 2 = j by omega, ← hpl]
      omega
    have hcol : columns.toNat ≤ 2 * j + k % 2 := by
      by_contra hlt
      have hst := @nibbleAt_place rows columns row (2 * j + k % 2) hrow (by omega)
      rw [← hat] at hst
      exact hpad.1 row hrow _ (by omega) hst
    have hlas : 2 * j + k % 2 = columns.toNat := by
      unfold rowBytes at hj
      omega
    refine ⟨?_, row, hrow, hlas ▸ hat⟩
    unfold rowBytes at hj
    omega
  · exact absurd (hpl ▸ scaleAt_place hrow hgr) (hpad.2 row hrow group hgr)
  · refine absurd ?_ hne
    rw [nibbleAt, hnon m tiles hm hm' h, nibbleOf_zero]

/-- **Nothing is stored in the half after an odd number of columns**: the byte of which it is a half
belongs to a row, and no element of any matrix is found in this half. -/
theorem padding_spare (hrws : rows ≠ 0) (hcol : columns ≠ 0) (hodd : columns.toNat % 2 = 1)
    (hrow : row < rows.toNat) : Padding rows columns (nibblePlace columns row columns.toNat) := by
  have hbyt : columns.toNat / 2 < rowBytes columns := by
    unfold rowBytes
    omega
  refine ⟨fun row' hrow' column' hcol' hst => ?_, fun row' hrow' group' hgr' hst => ?_⟩
  · obtain ⟨tiles, htil, -⟩ :=
      repackApple8Matrix_eq (@canonical_markedNibble rows columns row' hrws hcol column')
    have hbyt' : column' / 2 < rowBytes columns := by omega
    have hone := hst _ tiles rfl rfl htil
    rw [nibble_markedNibble hrow' hbyt' hbyt', if_pos ⟨rfl, rfl⟩] at hone
    have hspr := (nibbleAt_nibblePlace htil hrow hbyt).symm.trans hone
    rw [nibble_markedNibble hrow' hbyt' hbyt, if_neg fun h => hcol'.ne' h.2] at hspr
    exact absurd hspr (by decide)
  · obtain ⟨tiles, htil, -⟩ :=
      repackApple8Matrix_eq (@canonical_markedScale rows columns row' group' hrws hcol)
    have hone := hst _ tiles rfl rfl htil
    rw [scale_markedScale hrow' hgr' hgr', if_pos ⟨rfl, rfl⟩] at hone
    have hzer := (getD_weightPlace htil hrow hbyt).trans (weight_scalesOnly _ row _)
    have hhal : nibblePlace columns row columns.toNat / 2
        = weightPlace (groups columns) row (columns.toNat / 2) := by
      unfold nibblePlace
      omega
    rw [hhal] at hone
    rw [getD_eq_getElem?_getD] at hzer
    exact absurd ((congrArg (Option.getD · 0) hone).symm.trans hzer) (by decide)

end Stored

end Coli

end Logan
