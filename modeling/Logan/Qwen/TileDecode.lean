import Logan.Coding.Apple8Expert
import Logan.Qwen.ColiAgreement
import Logan.Qwen.TilePlaces

/-!
# Tiles are decoded to the matrix

The compiler goes through a matrix row after row; the runtime goes through the tiles,
and through the 8 rows and 32 columns of each, of which it leaves out those that are
beyond the matrix. Both write each of their elements where the other expects it: a
number that is decoded is the nibble of its row and column, under the scale of its row
and group. What is not stored is zero, unless the number of columns is odd: the half
of a byte that is left over at the end of a row is copied with the byte, whatever it is
(`relayout`). The check that the compiler makes of its own packages, `padding`, refuses
such a half if it is not zero.
-/

namespace Logan

namespace Coli

open Result Fault Apple8

variable {F : Type}

/-! ## The reader -/

section Reader

variable (fl : Floats F) (tiles : List UInt8) (rows columns : ℕ)

/-- The number of a row and a column of a matrix in tiles. -/
def tileValue (row column : ℕ) : F :=
  let byte := tiles.getD (weightPlace ((columns + 31) / 32) row (column / 2)) 0
  let code := tiles.getD (scalePlace ((columns + 31) / 32) row (column / 32)) 0
  e2m1Value fl (nibbleOf byte column) code

/-- The number of a place of the matrix. -/
def valueAt (i : ℕ) : F := tileValue fl tiles columns (i / columns) (i % columns)

/-- The matrix before the loops. -/
abbrev blankMatrix : List F := List.replicate (rows * columns) (fl.ofBits 0)

variable {fl tiles rows columns} {done : ℕ → Prop} {out : List F}

/-- **A round** writes the number of its row and column, if the matrix has it. -/
theorem decodeTileEntry_filled {rt ct r c : ℕ} (hr : r < 8) (hc : c < 32)
    (hout : Filled (blankMatrix fl rows columns) (valueAt fl tiles columns) done out) :
    Filled (blankMatrix fl rows columns) (valueAt fl tiles columns)
      (fun i => done i ∨ (rt * 8 + r < rows ∧ ct * 32 + c < columns ∧
        i = (rt * 8 + r) * columns + (ct * 32 + c)))
      (decodeTileEntry fl tiles rows columns rt ct r c out) := by
  unfold decodeTileEntry
  by_cases hin : rt * 8 + r < rows ∧ ct * 32 + c < columns
  · rw [if_pos hin]
    have hpl := @place_coordinates columns (rt * 8 + r) (ct * 32 + c) hin.2
    have hwgh : weightPlace ((columns + 31) / 32) (rt * 8 + r) ((ct * 32 + c) / 2)
        = (rt * ((columns + 31) / 32) + ct) * 136 + (r * 16 + c / 2) := by
      rw [weightPlace, tilePlace, show (rt * 8 + r) / 8 = rt by omega,
        show (ct * 32 + c) / 2 / 16 = ct by omega, show (rt * 8 + r) % 8 = r by omega,
        show (ct * 32 + c) / 2 % 16 = c / 2 by omega, Nat.add_assoc]
    have hscale : scalePlace ((columns + 31) / 32) (rt * 8 + r) ((ct * 32 + c) / 32)
        = (rt * ((columns + 31) / 32) + ct) * 136 + 128 + r := by
      rw [scalePlace, tilePlace, show (rt * 8 + r) / 8 = rt by omega,
        show (ct * 32 + c) / 32 = ct by omega, show (rt * 8 + r) % 8 = r by omega]
    have hval : valueAt fl tiles columns ((rt * 8 + r) * columns + (ct * 32 + c))
        = e2m1Value fl (nibbleOf (tiles.getD
            ((rt * ((columns + 31) / 32) + ct) * 136 + (r * 16 + c / 2)) 0) c)
          (tiles.getD ((rt * ((columns + 31) / 32) + ct) * 136 + 128 + r) 0) := by
      rw [valueAt, hpl.1, hpl.2, tileValue, hwgh, hscale]
      exact congrArg (e2m1Value fl · _) (nibbleOf_congr _ (by omega))
    rw [← hval]
    exact (hout.set _).congr fun i => by simp only [hin.1, hin.2, true_and]
  · rw [if_neg hin]
    refine hout.congr fun i => (or_iff_left ?_).symm
    rintro ⟨hrow, hcol, -⟩
    exact hin ⟨hrow, hcol⟩

variable (fl) in
/-- **What tiles are decoded to**: the number of every row and column. -/
theorem apple8Mxfp4Decode_eq (hsiz : Format.apple8TileBytes rows columns = .ok tiles.length) :
    ∃ f, apple8Mxfp4Decode fl tiles rows columns = .ok f ∧ f.length = rows * columns ∧
      ∀ row < rows, ∀ column < columns,
        f[row * columns + column]? = some (tileValue fl tiles columns row column) := by
  have hbl : (blankMatrix fl rows columns).length = rows * columns := List.length_replicate
  -- the four loops, from the outermost to the innermost
  have hlps := (Filled.refl (blankMatrix fl rows columns) (valueAt fl tiles columns)).foldl
    (l := List.range ((rows + 7) / 8))
    (f := fun out rt => (List.range ((columns + 31) / 32)).foldl (fun out ct =>
      (List.range 8).foldl (fun out r => (List.range 32).foldl (fun out c =>
        decodeTileEntry fl tiles rows columns rt ct r c out) out) out) out)
    fun rt _ _ _ h => h.foldl fun ct _ _ _ h => h.foldl fun r hr _ _ h => h.foldl
      fun c hc _ _ h =>
        decodeTileEntry_filled (List.mem_range.mp hr) (List.mem_range.mp hc) h
  refine ⟨_, ?_, hlps.length_eq.trans hbl, fun row hrow column hcol => ?_⟩
  · unfold apple8Mxfp4Decode
    rw [hsiz, ok_bind, refuse_of_not (not_not.mpr rfl), ok_bind]
    rfl
  · have hpl := place_lt hrow hcol
    have hcrd := @place_coordinates columns row column hcol
    rw [hlps.of_done _ (by rw [hlps.length_eq, hbl]; exact hpl) (Or.inr
      ⟨row / 8, List.mem_range.mpr (by omega), column / 32, List.mem_range.mpr (by omega), row % 8,
        List.mem_range.mpr (by omega), column % 32, List.mem_range.mpr (by omega), by omega,
        by omega, ?_⟩), valueAt, hcrd.1, hcrd.2]
    rw [show row / 8 * 8 + row % 8 = row by omega,
      show column / 32 * 32 + column % 32 = column by omega]

end Reader

/-! ## The matrix and its tiles -/

section Law

variable (fl : Floats F) {m : PackedMatrix} {tiles : List UInt8}

/-- **The tiles of a matrix are the matrix**, laid out anew. -/
structure Relayout (fl : Floats F) (m : PackedMatrix) (tiles : List UInt8) : Prop where
  /-- They are as long as the compiler computes. -/
  compiler_size : tileBytes m.rows m.columns = .ok tiles.length
  /-- They are as long as the runtime computes. -/
  runtime_size : Format.apple8TileBytes m.rows.toNat m.columns.toNat = .ok tiles.length
  /-- They are decoded to the nibbles under their scales. -/
  decoded : ∃ f, apple8Mxfp4Decode fl tiles m.rows.toNat m.columns.toNat = .ok f ∧
    f.length = m.rows.toNat * m.columns.toNat ∧
    ∀ row < m.rows.toNat, ∀ column < m.columns.toNat, f[row * m.columns.toNat + column]?
      = some (e2m1Value fl (nibble m row column) (m.scale row (column / 32)))
  /-- Every nibble is stored in exactly one place. -/
  nibbles : ∀ row < m.rows.toNat, ∀ column < m.columns.toNat,
    ∃! k, k < 2 * tiles.length ∧ NibbleAt m.rows m.columns k row column
  /-- Every scale is stored in exactly one place. -/
  scales : ∀ row < m.rows.toNat, ∀ group < groups m.columns,
    ∃! i, i < tiles.length ∧ ScaleAt m.rows m.columns i row group
  /-- After an odd number of columns, the unused nibble of a row is copied. -/
  spare : m.columns.toNat % 2 = 1 → ∀ row < m.rows.toNat, ∀ k < 2 * tiles.length,
    NibbleAt m.rows m.columns k row (m.columns.toNat - 1) →
      nibbleAt tiles (k + 1) = nibble m row m.columns.toNat
  /-- Nothing else that is not stored differs from zero. -/
  padding : ∀ k < 2 * tiles.length, Padding m.rows m.columns k → nibbleAt tiles k ≠ 0 →
    m.columns.toNat % 2 = 1 ∧ ∃ row < m.rows.toNat, ∃ last, k = last + 1 ∧
      NibbleAt m.rows m.columns last row (m.columns.toNat - 1)

/-- The two functions for the size of the tiles agree. -/
theorem runtimeSize_of_repack (h : repackApple8Matrix m = .ok tiles) :
    Format.apple8TileBytes m.rows.toNat m.columns.toNat = .ok tiles.length := by
  have hcan := canonical_of_repack h
  have hsiz := tileCount_le m.rows m.columns
  have hrow : m.rows.toNat ≠ 0 := fun hz => hcan.rows_ne (UInt32.toNat_inj.mp hz)
  have hcol : m.columns.toNat ≠ 0 := fun hz => hcan.columns_ne (UInt32.toNat_inj.mp hz)
  have htil : (m.rows.toNat + 7) / 8 * ((m.columns.toNat + 31) / 32) ≤ usizeMax := by
    unfold tileCount groups at hsiz
    omega
  unfold Format.apple8TileBytes
  rw [refuse_of_not (not_or.mpr ⟨hrow, hcol⟩), ok_bind, (tiles_eq h).1]
  exact okOr_eq_ok.mpr (Option.bind_eq_some_iff.mpr
    ⟨_, checkedProduct_of_le htil, checkedProduct_of_le hsiz⟩)

/-- The half after the last of an odd number of columns. -/
theorem nibblePlace_spare {columns : UInt32} (hodd : columns.toNat % 2 = 1) (row : ℕ) :
    nibblePlace columns row columns.toNat = nibblePlace columns row (columns.toNat - 1) + 1 := by
  unfold nibblePlace
  rw [show (columns.toNat - 1) / 2 = columns.toNat / 2 by omega]
  omega

/-- **The tiles that the compiler writes** are the matrix, laid out anew. -/
theorem relayout_of_repack (h : repackApple8Matrix m = .ok tiles) : Relayout fl m tiles := by
  have hcan := canonical_of_repack h
  have hlen := (tiles_eq h).1
  have hpl : 2 * tiles.length = 2 * (tileCount m.rows m.columns * 136) := by rw [hlen]
  refine ⟨tileBytes_of_repack h, runtimeSize_of_repack h, ?_, fun row hrow column hcol => ?_,
    fun row hrow group hgr => ?_, fun hodd row hrow k hk hst => ?_,
    fun k hk hpad hne => ?_⟩
  · obtain ⟨f, hf, hcount, hval⟩ := apple8Mxfp4Decode_eq fl (runtimeSize_of_repack h)
    refine ⟨f, hf, hcount, fun row hrow column hcol => ?_⟩
    have hbyt : column / 2 < rowBytes m.columns := by
      unfold rowBytes
      omega
    have hgr : column / 32 < groups m.columns := by
      unfold groups
      omega
    have hwgh := getD_weightPlace h hrow hbyt
    have hscale : tiles.getD (scalePlace (groups m.columns) row (column / 32)) 0
        = m.scale row (column / 32) := by
      rw [List.getD_eq_getElem?_getD, getElem?_scalePlace h hrow hgr]
      rfl
    unfold groups at hwgh hscale
    rw [hval row hrow column hcol, tileValue, hwgh, hscale]
    rfl
  · have hbyt : column / 2 < rowBytes m.columns := by
      unfold rowBytes
      omega
    refine ⟨nibblePlace m.columns row column, ⟨?_, nibbleAt_place hrow hcol⟩, ?_⟩
    · have hlt := weightPlace_lt hrow hbyt
      unfold nibblePlace
      omega
    · rintro k ⟨hk, hst⟩
      exact eq_of_nibbleAt hcan.rows_ne hcan.columns_ne hrow hcol (hpl ▸ hk) hst
  · refine ⟨scalePlace (groups m.columns) row group,
      ⟨hlen ▸ scalePlace_lt hrow hgr, scaleAt_place hrow hgr⟩, ?_⟩
    rintro i ⟨hi, hst⟩
    exact eq_of_scaleAt hcan.rows_ne hcan.columns_ne hrow hgr (hlen ▸ hi) hst
  · rw [eq_of_nibbleAt hcan.rows_ne hcan.columns_ne hrow (by omega) (hpl ▸ hk)
      hst, ← nibblePlace_spare hodd]
    refine nibbleAt_nibblePlace h hrow ?_
    unfold rowBytes
    omega
  · obtain ⟨hodd, row, hrow, hk⟩ :=
      spare_of_padding (hpl ▸ hk) hpad rfl rfl h hne
    refine ⟨hodd, row, hrow, nibblePlace m.columns row (m.columns.toNat - 1), ?_,
      nibbleAt_place hrow (by omega)⟩
    rw [hk, nibblePlace_spare hodd]

/-- **A faithful relayout**: the matrix, laid out anew, and zero wherever nothing is stored. -/
structure Faithful (fl : Floats F) (m : PackedMatrix) (tiles : List UInt8) : Prop
    extends Relayout fl m tiles where
  zero : ∀ k < 2 * tiles.length, Padding m.rows m.columns k → nibbleAt tiles k = 0

/-- Nothing is left over of a row of the matrix that is not zero. -/
def SparesZero (m : PackedMatrix) : Prop :=
  m.columns.toNat % 2 = 0 ∨ ∀ row < m.rows.toNat, nibble m row m.columns.toNat = 0

/-- **A relayout is faithful** exactly if the halves that are left over are zero. -/
theorem faithful_iff (h : repackApple8Matrix m = .ok tiles) :
    Faithful fl m tiles ↔ SparesZero m := by
  have hcan := canonical_of_repack h
  have hrel := relayout_of_repack fl h
  constructor
  · intro hf
    refine (Nat.mod_two_eq_zero_or_one _).imp_right fun hodd row hrow => ?_
    have hbyt : m.columns.toNat / 2 < rowBytes m.columns := by
      unfold rowBytes
      omega
    have hlt := weightPlace_lt hrow hbyt
    rw [← nibbleAt_nibblePlace h hrow hbyt]
    refine hf.zero _ ?_ (padding_spare hcan.rows_ne hcan.columns_ne hodd hrow)
    rw [(tiles_eq h).1]
    unfold nibblePlace
    omega
  · intro hspr
    refine ⟨hrel, fun k hk hpad => ?_⟩
    by_contra hne
    obtain ⟨hodd, row, hrow, last, rfl, hst⟩ := hrel.padding k hk hpad hne
    have hzer := hspr.resolve_left (by omega) row hrow
    exact hne ((hrel.spare hodd row hrow last (by omega) hst).trans hzer)

/-- **Tiling is a relayout, and it is faithful exactly if the spare halves are zero.** Every
canonical matrix is cut into tiles that are the matrix, laid out anew; and the record of an expert
is as long as has been computed beforehand, and has the tiles of its three matrices where its
descriptors say. -/
theorem relayout (crc32c : List UInt8 → UInt32) : (∀ m : PackedMatrix, m.Canonical →
      ∃ tiles, repackApple8Matrix m = .ok tiles ∧ Relayout fl m tiles ∧
        (Faithful fl m tiles ↔ SparesZero m)) ∧
    ∀ (layer expert : UInt32) (gate up down : PackedMatrix) (n : ℕ),
      gate.Canonical → up.Canonical → down.Canonical → layer.toNat < 2 ^ 31 →
      expert.toNat < 2 ^ 31 → apple8ExpertStoredBytes [gate.size, up.size, down.size] = .ok n →
      ∃ payload a b c, repackApple8Matrix gate = .ok a ∧ repackApple8Matrix up = .ok b ∧
        repackApple8Matrix down = .ok c ∧
        lowerApple8PackedExpert crc32c layer expert gate up down = .ok payload ∧
        LoweredRecord crc32c payload n [a, b, c] ∧
        apple8ExpertDecodedBytes [gate.size, up.size, down.size]
          = .ok ([a, b, c].map List.length).sum := by
  refine ⟨fun m hm => ?_, fun layer expert gate up down n hgat hup hdow hlay hexp hn => ?_⟩
  · obtain ⟨tiles, htil, -⟩ := repackApple8Matrix_eq hm
    exact ⟨tiles, htil, relayout_of_repack fl htil, faithful_iff fl htil⟩
  · obtain ⟨a, ha, -⟩ := repackApple8Matrix_eq hgat
    obtain ⟨b, hb, -⟩ := repackApple8Matrix_eq hup
    obtain ⟨c, hc, -⟩ := repackApple8Matrix_eq hdow
    obtain ⟨⟨payload, hpay, hrec⟩, hdec⟩ :=
      lowerApple8PackedExpert_eq hlay hexp ha hb hc (storedBytes_eq_ok.mp hn)
    exact ⟨payload, a, b, c, ha, hb, hc, hpay, hrec, hdec⟩

/-- Nine rows of 35 columns: four tiles, three of them ragged. -/
def raggedMatrix : PackedMatrix :=
  ⟨9, 35, (List.replicate 9 (List.replicate 17 0x21 ++ [0x03])).flatten, (List.range 18).map .ofNat⟩

/-- They are laid out faithfully, and so are the matrices of an expert. -/
theorem relayout_ragged : (∃ tiles, repackApple8Matrix raggedMatrix = .ok tiles ∧
      Relayout zeroFloats raggedMatrix tiles ∧ Faithful zeroFloats raggedMatrix tiles) ∧
    ∃ payload a, repackApple8Matrix raggedMatrix = .ok a ∧
      lowerApple8PackedExpert Logan.crc32c 1 2 raggedMatrix raggedMatrix raggedMatrix =
        .ok payload ∧
      LoweredRecord Logan.crc32c payload 2080 [a, a, a] := by
  obtain ⟨hall, hexp⟩ := relayout zeroFloats Logan.crc32c
  have hcan : raggedMatrix.Canonical := by decide +kernel
  obtain ⟨tiles, htil, hrel, hiff⟩ := hall raggedMatrix hcan
  obtain ⟨payload, a, b, c, ha, hb, hc, hpay, hrec, -⟩ := hexp 1 2 raggedMatrix raggedMatrix
    raggedMatrix 2080 hcan hcan hcan (by decide) (by decide) (by decide)
  obtain rfl := Except.ok.inj (hb.symm.trans ha)
  obtain rfl := Except.ok.inj (hc.symm.trans ha)
  exact ⟨⟨tiles, htil, hrel, hiff.mpr (Or.inr (by decide +kernel))⟩, payload, _, ha, hpay, hrec⟩

/-- **Half a byte in which nothing is stored may differ from zero**: the matrix of one element
whose byte is `0x10` is copied with the half that belongs to no column. -/
theorem not_forall_padding_zero : ¬ ∀ (m : PackedMatrix) (tiles : List UInt8), m.Canonical →
    repackApple8Matrix m = .ok tiles → ∀ k < 2 * tiles.length,
      Padding m.rows m.columns k → nibbleAt tiles k = 0 := by
  intro hall
  have hcan : (⟨1, 1, [0x10], [127]⟩ : PackedMatrix).Canonical := by decide
  obtain ⟨tiles, htil, hlen, -⟩ := repackApple8Matrix_eq hcan
  have hlong : tiles.length = 136 := hlen
  have hpad : Padding 1 1 1 := padding_spare (by decide) (by decide) rfl
    (by decide : 0 < UInt32.toNat 1)
  have hsp := nibbleAt_nibblePlace htil (show 0 < 1 by decide) (show 1 / 2 < 1 by decide)
  have hzer := hall _ tiles hcan htil 1 (by omega) hpad
  exact absurd (hsp.symm.trans hzer) (by decide)

end Law

end Coli

end Logan
