import Logan.Format.PayloadSafety
import Logan.Qwen.ColiSource

/-!
# Where the two expert readers agree

The reader of tiles and the reader of matrices go through the same descriptors. They read
the same fields of them, but for one: the table of a coded matrix is the one that the
descriptor names for one of the readers, and for the other the one whose number is that of
the codec, which is 1. Moreover the reader of tiles does not look at the size of tiles that
are not coded, and the reader of matrices does not look at scales that are in the tiles
anyway.

So there are packages on which one of them succeeds and the other does not. They agree on an
expert exactly if neither of these differences is seen: this is what `ReadAlike` says of the
bytes of the expert, without a word about the readers.
-/

namespace Logan

open Option

namespace Coli

open Result Format Fault

/-! ## Chains that succeed -/

theorem orPanic_eq_ok {E A : Type} {x : Option A} {a : A} :
    (orPanic x : Except (Fault E) A) = .ok a ↔ x = some a := okOr_eq_ok

theorem orText_eq_ok {A : Type} {x : Except (Fault FormatError) A} {a : A} :
    orText x = .ok a ↔ x = .ok a := by
  match x with
  | .ok b => exact ⟨fun h => congrArg _ (Except.ok.inj h), fun h => congrArg _ (Except.ok.inj h)⟩
  | .error (.failed e) => exact ⟨fun h => (by cases h), fun h => (by cases h)⟩
  | .error .panicked => exact ⟨fun h => (by cases h), fun h => (by cases h)⟩

/-! ## Descriptors -/

/-- **The fields of a descriptor** that one of the readers reads. -/
structure Descriptor where
  role : UInt16
  math : UInt16
  scale : UInt16
  wc : UInt16
  wt : UInt32
  rows : UInt64
  cols : UInt64
  wOff : UInt64
  wStored : UInt64
  wDecoded : UInt64
  sOff : UInt64
  sStored : UInt64
deriving Inhabited

namespace Descriptor

/-- The descriptor that the bytes of an expert have at a place. -/
structure ReadAt (desc : Descriptor) (raw : List UInt8) (d : ℕ) : Prop where
  role : u16At? raw d = some desc.role
  math : u16At? raw (d + 4) = some desc.math
  scale : u16At? raw (d + 6) = some desc.scale
  wc : u16At? raw (d + 8) = some desc.wc
  wt : u32At? raw (d + 40) = some desc.wt
  rows : u64At? raw (d + 16) = some desc.rows
  cols : u64At? raw (d + 24) = some desc.cols
  wOff : u64At? raw (d + 48) = some desc.wOff
  wStored : u64At? raw (d + 56) = some desc.wStored
  wDecoded : u64At? raw (d + 64) = some desc.wDecoded
  sOff : u64At? raw (d + 72) = some desc.sOff
  sStored : u64At? raw (d + 80) = some desc.sStored

/-- The weights of a matrix. -/
def weights? (desc : Descriptor) (raw : List UInt8) : Option (List UInt8) :=
  slicedAt raw desc.wOff.toNat desc.wStored.toNat

/-- The scales of a matrix. -/
def scales? (desc : Descriptor) (raw : List UInt8) : Option (List UInt8) :=
  slicedAt raw desc.sOff.toNat desc.sStored.toNat

variable {raw : List UInt8} {d : ℕ}

theorem ReadAt.unique {desc desc' : Descriptor} (h : desc.ReadAt raw d)
    (h' : desc'.ReadAt raw d) : desc = desc' := by
  obtain ⟨⟩ := desc
  obtain ⟨⟩ := desc'
  simp only [Descriptor.mk.injEq]
  exact ⟨some.inj (h.role.symm.trans h'.role), some.inj (h.math.symm.trans h'.math),
    some.inj (h.scale.symm.trans h'.scale), some.inj (h.wc.symm.trans h'.wc),
    some.inj (h.wt.symm.trans h'.wt), some.inj (h.rows.symm.trans h'.rows),
    some.inj (h.cols.symm.trans h'.cols), some.inj (h.wOff.symm.trans h'.wOff),
    some.inj (h.wStored.symm.trans h'.wStored),
    some.inj (h.wDecoded.symm.trans h'.wDecoded),
    some.inj (h.sOff.symm.trans h'.sOff),
    some.inj (h.sStored.symm.trans h'.sStored)⟩

theorem le_of_u64At? {i : ℕ} {x : UInt64} (h : u64At? raw i = some x) : i + 8 ≤ raw.length := by
  obtain ⟨v, hv, -⟩ := map_eq_some_iff.mp h
  exact (range?_eq_some.mp hv).2.1

theorem exists_role_wt {sStored : UInt64} (h : u64At? raw (d + 80) = some sStored) :
    (∃ role, u16At? raw d = some role) ∧ ∃ wt, u32At? raw (d + 40) = some wt := by
  have hle := le_of_u64At? h
  have hrol : d + 2 ≤ raw.length := by omega
  have hwt : d + 40 + 4 ≤ raw.length := by omega
  obtain ⟨role, hrol⟩ := exists_u16At hrol
  obtain ⟨wt, hwt⟩ := exists_u32At hwt
  exact ⟨⟨role, okOr_eq_ok.mp hrol⟩, wt, okOr_eq_ok.mp hwt⟩

end Descriptor

section Readers

variable {F : Type} {fl : Floats F} {crc32c : List UInt8 → UInt32} {source : ColiSource}
  {layer expert : Int32} {raw : List UInt8} {descSize i : ℕ} {desc : Descriptor}
  {w : List UInt8}

/-- **What the reader of matrices does for a matrix.** -/
theorem expertMatrix_eq_ok {m : ColiWt} :
    expertMatrix fl crc32c source layer expert raw descSize i = .ok m ↔
      ∃ (desc : Descriptor) (w bytes : List UInt8), desc.ReadAt raw (64 + i * descSize) ∧
        desc.weights? raw = some w ∧
        matrixBytes fl crc32c source layer expert raw i (64 + i * descSize) desc.math desc.scale
          desc.wc desc.wt desc.rows.toNat desc.cols.toNat desc.wDecoded.toNat desc.sOff.toNat
          desc.sStored.toNat w = .ok bytes ∧
        m = ⟨bytes, [], 5, desc.rows.toNat, desc.cols.toNat⟩ := by
  unfold expertMatrix
  simp only [bind_eq_ok, orPanic_eq_ok]
  constructor
  · rintro ⟨role, hrol, math, hmat, scale, hscale, wc, hwc, wt, hwt, rows, hrow, cols, hcol,
      wOff, hwOf, wStored, hwSt, wDecoded, hwdc, sOff, hsOf, sStored, hsSt, w, hw,
      bytes, hbytes, hm⟩
    exact ⟨⟨role, math, scale, wc, wt, rows, cols, wOff, wStored, wDecoded, sOff, sStored⟩, w,
      bytes, ⟨hrol, hmat, hscale, hwc, hwt, hrow, hcol, hwOf, hwSt, hwdc, hsOf,
        hsSt⟩, hw, hbytes, (Except.ok.inj hm).symm⟩
  · rintro ⟨desc, w, bytes, h, hw, hbytes, rfl⟩
    exact ⟨_, h.role, _, h.math, _, h.scale, _, h.wc, _, h.wt, _, h.rows, _, h.cols, _, h.wOff, _,
      h.wStored, _, h.wDecoded, _, h.sOff, _, h.sStored, w, hw, bytes, hbytes, rfl⟩

/-- **What the reader of tiles does for a matrix.** -/
theorem expertTile_eq_ok {t : RawExpert} :
    expertTile crc32c source layer expert raw descSize i = .ok t ↔
      ∃ (desc : Descriptor) (w s tiles : List UInt8), desc.ReadAt raw (64 + i * descSize) ∧
        desc.weights? raw = some w ∧ desc.scales? raw = some s ∧
        gpuTiles crc32c source layer expert i desc.math desc.scale desc.wc desc.rows.toNat
          desc.cols.toNat w = .ok tiles ∧
        t = ⟨tiles, s, desc.rows.toNat, desc.cols.toNat, 7⟩ := by
  unfold expertTile
  simp only [bind_eq_ok, orPanic_eq_ok]
  constructor
  · rintro ⟨math, hmat, scale, hscale, wc, hwc, rows, hrow, cols, hcol, wOff, hwOf, wStored,
      hwSt, wDecoded, hwdc, sOff, hsOf, sStored, hsSt, w, hw, s, hs, tiles, htil,
      ht⟩
    obtain ⟨⟨role, hrol⟩, wt, hwt⟩ := Descriptor.exists_role_wt hsSt
    exact ⟨⟨role, math, scale, wc, wt, rows, cols, wOff, wStored, wDecoded, sOff, sStored⟩, w, s,
      tiles, ⟨hrol, hmat, hscale, hwc, hwt, hrow, hcol, hwOf, hwSt, hwdc, hsOf,
        hsSt⟩, hw, hs, htil, (Except.ok.inj ht).symm⟩
  · rintro ⟨desc, w, s, tiles, h, hw, hs, htil, rfl⟩
    exact ⟨_, h.math, _, h.scale, _, h.wc, _, h.rows, _, h.cols, _, h.wOff, _, h.wStored, _,
      h.wDecoded, _, h.sOff, _, h.sStored, w, hw, s, hs, tiles, htil, rfl⟩

/-! ## Matrices of tiles -/

/-- **A matrix of tiles**: its descriptor, which is at a place of an expert's bytes and has the
formats of tiles, and its weights. -/
structure TileMatrix (raw : List UInt8) (d : ℕ) (desc : Descriptor) (w : List UInt8) : Prop where
  read : desc.ReadAt raw d
  math : desc.math = 0x0020
  scale : desc.scale = 0x0004
  weights : desc.weights? raw = some w

/-- Weights that a table of the manifest decodes to some tiles. -/
def DecodesUnder (crc32c : List UInt8 → UInt32) (source : ColiSource) (desc : Descriptor)
    (tableId : UInt32) (w tiles : List UInt8) : Prop :=
  ∃ table, RansReader.Guarded.fromManifest crc32c source.pkg.manifest tableId
      RansReader.codecId = .ok table ∧
    apple8Decode w table desc.rows.toNat desc.cols.toNat = .ok tiles

/-- **The tiles for the GPU**: those that the first table decodes, if the matrix is coded. -/
def GpuTiles (crc32c : List UInt8 → UInt32) (source : ColiSource) (desc : Descriptor)
    (w tiles : List UInt8) : Prop :=
  if desc.wc = RansReader.codecId then DecodesUnder crc32c source desc 1 w tiles else tiles = w

/-- **The tiles for a processor**: those that the named table decodes, if the matrix is coded;
otherwise, their number is checked. -/
def CpuTiles (crc32c : List UInt8 → UInt32) (source : ColiSource) (desc : Descriptor)
    (w tiles : List UInt8) : Prop :=
  if desc.wc = RansReader.codecId then DecodesUnder crc32c source desc desc.wt w tiles
  else tiles = w ∧ w.length = desc.wDecoded.toNat

variable (fl) in
/-- Tiles are decoded to numbers if they are as many as a matrix of its size has. -/
theorem exists_apple8Mxfp4Decode {tiles : List UInt8} {rows columns : ℕ} :
    (∃ f, apple8Mxfp4Decode fl tiles rows columns = .ok f) ↔
      apple8TileBytes rows columns = .ok tiles.length := by
  unfold apple8Mxfp4Decode
  simp only [bind_eq_ok, refuse_eq_ok, not_not]
  constructor
  · rintro ⟨_, _, hexp, -, rfl, -⟩
    exact hexp
  · exact fun h => ⟨_, _, h, (), rfl, rfl⟩

theorem gpuTiles_eq_ok {d : ℕ} (h : TileMatrix raw d desc w) {tiles : List UInt8} :
    gpuTiles crc32c source layer expert i desc.math desc.scale desc.wc desc.rows.toNat
      desc.cols.toNat w = .ok tiles ↔ GpuTiles crc32c source desc w tiles := by
  unfold gpuTiles GpuTiles DecodesUnder
  rw [if_pos ⟨h.math, h.scale⟩]
  by_cases hwc : desc.wc = RansReader.codecId
  · rw [if_neg (not_not.mpr hwc), if_pos hwc, hwc]
    simp only [bind_eq_ok, orText_eq_ok]
    exact Iff.rfl
  · rw [if_pos hwc, if_neg hwc]
    exact ⟨fun ht => (Except.ok.inj ht).symm, fun ht => congrArg _ ht.symm⟩

theorem matrixTiles_eq_ok {tiles : List UInt8} :
    matrixTiles crc32c source layer expert i desc.wc desc.wt desc.rows.toNat desc.cols.toNat
      desc.wDecoded.toNat w = .ok tiles ↔ CpuTiles crc32c source desc w tiles := by
  unfold matrixTiles CpuTiles DecodesUnder
  by_cases hwc : desc.wc = RansReader.codecId
  · rw [if_pos hwc, if_pos hwc, hwc]
    simp only [bind_eq_ok, orText_eq_ok]
  · rw [if_neg hwc, if_neg hwc]
    simp only [bind_eq_ok, lift_eq_ok, refuse_eq_ok, not_not, exists_const]
    exact ⟨fun ht => ⟨(Except.ok.inj ht.2).symm, ht.1⟩, fun ht => ⟨ht.2, congrArg _ ht.1.symm⟩⟩

theorem matrixBytes_eq_ok {d : ℕ} (h : TileMatrix raw d desc w) {bytes : List UInt8} :
    matrixBytes fl crc32c source layer expert raw i d desc.math desc.scale desc.wc desc.wt
      desc.rows.toNat desc.cols.toNat desc.wDecoded.toNat desc.sOff.toNat desc.sStored.toNat w
        = .ok bytes ↔ ∃ tiles f, CpuTiles crc32c source desc w tiles ∧
        apple8Mxfp4Decode fl tiles desc.rows.toNat desc.cols.toNat = .ok f ∧
        bytes = bf16Matrix fl f := by
  unfold matrixBytes
  rw [h.math, h.scale, if_neg (by decide), if_neg (by decide), if_neg (by decide),
    if_pos ⟨rfl, rfl⟩]
  simp only [bind_eq_ok, orText_eq_ok, lift_eq_ok, matrixTiles_eq_ok]
  constructor
  · rintro ⟨tiles, htil, f, hf, hbytes⟩
    exact ⟨tiles, f, htil, hf, (Except.ok.inj hbytes).symm⟩
  · rintro ⟨tiles, f, htil, hf, rfl⟩
    exact ⟨tiles, htil, f, hf, rfl⟩

/-- **The reader of tiles, on a matrix of tiles.** -/
theorem TileMatrix.tile_eq_ok (h : TileMatrix raw (64 + i * descSize) desc w) {t : RawExpert} :
    expertTile crc32c source layer expert raw descSize i = .ok t ↔
      ∃ s tiles, desc.scales? raw = some s ∧ GpuTiles crc32c source desc w tiles ∧
        t = ⟨tiles, s, desc.rows.toNat, desc.cols.toNat, 7⟩ := by
  rw [expertTile_eq_ok]
  constructor
  · rintro ⟨desc', w', s, tiles, hrd, hw, hs, htil, rfl⟩
    obtain rfl := hrd.unique h.read
    obtain rfl := some.inj (hw.symm.trans h.weights)
    exact ⟨s, tiles, hs, (gpuTiles_eq_ok h).mp htil, rfl⟩
  · rintro ⟨s, tiles, hs, htil, rfl⟩
    exact ⟨desc, w, s, tiles, h.read, h.weights, hs, (gpuTiles_eq_ok h).mpr htil, rfl⟩

/-- **The reader of matrices, on a matrix of tiles.** -/
theorem TileMatrix.matrix_eq_ok (h : TileMatrix raw (64 + i * descSize) desc w) {m : ColiWt} :
    expertMatrix fl crc32c source layer expert raw descSize i = .ok m ↔
      ∃ tiles f, CpuTiles crc32c source desc w tiles ∧
        apple8Mxfp4Decode fl tiles desc.rows.toNat desc.cols.toNat = .ok f ∧
        m = ⟨bf16Matrix fl f, [], 5, desc.rows.toNat, desc.cols.toNat⟩ := by
  rw [expertMatrix_eq_ok]
  constructor
  · rintro ⟨desc', w', bytes, hrd, hw, hbytes, rfl⟩
    obtain rfl := hrd.unique h.read
    obtain rfl := some.inj (hw.symm.trans h.weights)
    obtain ⟨tiles, f, htil, hf, rfl⟩ := (matrixBytes_eq_ok h).mp hbytes
    exact ⟨tiles, f, htil, hf, rfl⟩
  · rintro ⟨tiles, f, htil, hf, rfl⟩
    exact ⟨desc, w, _, h.read, h.weights, (matrixBytes_eq_ok h).mpr ⟨tiles, f, htil, hf, rfl⟩, rfl⟩

theorem tileMatrix_of_tile {t : RawExpert}
    (ht : expertTile crc32c source layer expert raw descSize i = .ok t) :
    ∃ desc w, TileMatrix raw (64 + i * descSize) desc w := by
  obtain ⟨desc, w, s, tiles, hrd, hw, -, htil, -⟩ := expertTile_eq_ok.mp ht
  unfold gpuTiles at htil
  by_cases hkin : desc.math = 0x0020 ∧ desc.scale = 0x0004
  · exact ⟨desc, w, hrd, hkin.1, hkin.2, hw⟩
  · rw [if_neg hkin] at htil
    cases htil

end Readers

/-! ## Agreement -/

section Agreement

variable {F : Type} (fl : Floats F) (crc32c : List UInt8 → UInt32) (source : ColiSource)
  (layer expert : Int32)

/-- **The BF16 form of a matrix of tiles**: that of the numbers that its tiles are decoded to. -/
def IsBf16Of (m : ColiWt) (t : RawExpert) : Prop :=
  m.o = t.rows ∧ m.i = t.cols ∧
    ∃ f, apple8Mxfp4Decode fl t.tiles t.rows t.cols = .ok f ∧ m.bytes = bf16Matrix fl f

/-- The bytes of an expert, with the size of its descriptors. -/
def ExpertBytes (raw : List UInt8) (descSize : UInt32) : Prop :=
  expertRecord crc32c source layer expert = .ok raw ∧ u32At? raw 28 = some descSize

/-- An expert all of whose matrices have the formats of tiles. -/
def AllTiles : Prop :=
  ∃ raw descSize, ExpertBytes crc32c source layer expert raw descSize ∧ ∀ i < 3,
    u16At? raw (64 + i * descSize.toNat + 4) = some 0x0020 ∧
      u16At? raw (64 + i * descSize.toNat + 6) = some 0x0004

/-- **The readers agree on an expert.** If its tiles are read, then its matrices are, as the BF16
form of these tiles; and if its matrices are read and are all stored as tiles, then these are
read too. -/
structure ReadersAgree : Prop where
  ofTiles : ∀ tiles, source.expertTiles crc32c layer expert = .ok tiles →
    ∃ matrices, source.expertMatrices fl crc32c layer expert = .ok matrices ∧
      List.Forall₂ (IsBf16Of fl) matrices tiles
  ofMatrices : ∀ matrices, source.expertMatrices fl crc32c layer expert = .ok matrices →
    AllTiles crc32c source layer expert →
      ∃ tiles, source.expertTiles crc32c layer expert = .ok tiles

/-- A matrix of tiles that has what a GPU needs: its scales are in the record, and if it is coded,
then the first table decodes it. -/
def ForGpu (raw : List UInt8) (desc : Descriptor) (w : List UInt8) : Prop :=
  (∃ s, desc.scales? raw = some s) ∧ ∃ tiles, GpuTiles crc32c source desc w tiles

/-- A matrix of tiles that has what a processor needs: if it is coded, then the table that it
names decodes it; if it is not, then it is as long as it says and as its size says. -/
def ForCpu (desc : Descriptor) (w : List UInt8) : Prop :=
  ∃ tiles, CpuTiles crc32c source desc w tiles ∧
    apple8TileBytes desc.rows.toNat desc.cols.toNat = .ok tiles.length

/-- A matrix of tiles whose tiles for a GPU have the values of those for a processor. -/
def SameValues (desc : Descriptor) (w : List UInt8) : Prop :=
  ∀ tiles tiles' f, GpuTiles crc32c source desc w tiles → CpuTiles crc32c source desc w tiles' →
    apple8Mxfp4Decode fl tiles' desc.rows.toNat desc.cols.toNat = .ok f →
    ∃ g, apple8Mxfp4Decode fl tiles desc.rows.toNat desc.cols.toNat = .ok g ∧
      bf16Matrix fl f = bf16Matrix fl g

/-- **What an expert has to be for the readers to agree.** If it has three matrices of tiles, then
either it lacks something that a GPU needs and something that a processor needs, or it has
everything, with the same values for both. -/
def ReadAlike : Prop :=
  ∀ raw descSize (desc : ℕ → Descriptor) (w : ℕ → List UInt8),
    ExpertBytes crc32c source layer expert raw descSize →
    (∀ i < 3, TileMatrix raw (64 + i * descSize.toNat) (desc i) (w i)) →
    ((∀ i < 3, ForGpu crc32c source raw (desc i) (w i)) →
      ∀ i < 3, ForCpu crc32c source (desc i) (w i) ∧ SameValues fl crc32c source (desc i) (w i)) ∧
    ((∀ i < 3, ForCpu crc32c source (desc i) (w i)) →
      ∀ i < 3, ForGpu crc32c source raw (desc i) (w i))

end Agreement

section Exact

variable {F : Type} {fl : Floats F} {crc32c : List UInt8 → UInt32} {source : ColiSource}
  {layer expert : Int32} {raw : List UInt8} {descSize : UInt32}

theorem expertTiles_eq_ok {ts : List RawExpert} : source.expertTiles crc32c layer expert = .ok ts ↔
      ∃ raw descSize, ExpertBytes crc32c source layer expert raw descSize ∧
        (List.range 3).mapM (expertTile crc32c source layer expert raw descSize.toNat)
          = .ok ts := by
  unfold ColiSource.expertTiles ExpertBytes
  simp only [bind_eq_ok, orPanic_eq_ok]
  constructor
  · rintro ⟨raw, hraw, descSize, hsiz, h⟩
    exact ⟨raw, descSize, ⟨hraw, hsiz⟩, h⟩
  · rintro ⟨raw, descSize, ⟨hraw, hsiz⟩, h⟩
    exact ⟨raw, hraw, descSize, hsiz, h⟩

theorem expertMatrices_eq_ok {ms : List ColiWt} :
    source.expertMatrices fl crc32c layer expert = .ok ms ↔
      ∃ raw descSize, ExpertBytes crc32c source layer expert raw descSize ∧
        (List.range 3).mapM (expertMatrix fl crc32c source layer expert raw descSize.toNat)
          = .ok ms := by
  unfold ColiSource.expertMatrices ExpertBytes
  simp only [bind_eq_ok, orPanic_eq_ok]
  constructor
  · rintro ⟨raw, hraw, descSize, hsiz, h⟩
    exact ⟨raw, descSize, ⟨hraw, hsiz⟩, h⟩
  · rintro ⟨raw, descSize, ⟨hraw, hsiz⟩, h⟩
    exact ⟨raw, hraw, descSize, hsiz, h⟩

/-- The bytes of an expert are determined. -/
theorem ExpertBytes.unique {raw' : List UInt8} {descSize' : UInt32}
    (h : ExpertBytes crc32c source layer expert raw descSize)
    (h' : ExpertBytes crc32c source layer expert raw' descSize') :
    raw = raw' ∧ descSize = descSize' := by
  obtain rfl := Except.ok.inj (h.1.symm.trans h'.1)
  exact ⟨rfl, some.inj (h.2.symm.trans h'.2)⟩

section Matrix

variable {d : ℕ} {desc : Descriptor} {w : List UInt8} {i : ℕ}

/-- A matrix of tiles is read for a GPU if it has what a GPU needs. -/
theorem TileMatrix.exists_tile (h : TileMatrix raw (64 + i * descSize.toNat) desc w) :
    (∃ t, expertTile crc32c source layer expert raw descSize.toNat i = .ok t)
      ↔ ForGpu crc32c source raw desc w := by
  simp only [h.tile_eq_ok]
  constructor
  · rintro ⟨_, s, tiles, hs, htil, -⟩
    exact ⟨⟨s, hs⟩, tiles, htil⟩
  · rintro ⟨⟨s, hs⟩, tiles, htil⟩
    exact ⟨_, s, tiles, hs, htil, rfl⟩

/-- A matrix of tiles is read for a processor if it has what a processor needs. -/
theorem TileMatrix.exists_matrix (h : TileMatrix raw (64 + i * descSize.toNat) desc w) :
    (∃ m, expertMatrix fl crc32c source layer expert raw descSize.toNat i = .ok m)
      ↔ ForCpu crc32c source desc w := by
  simp only [h.matrix_eq_ok, ForCpu, ← exists_apple8Mxfp4Decode fl]
  constructor
  · rintro ⟨_, tiles, f, htil, hf, -⟩
    exact ⟨tiles, htil, f, hf⟩
  · rintro ⟨tiles, htil, f, hf⟩
    exact ⟨_, tiles, f, htil, hf, rfl⟩

end Matrix

section Three

variable {desc : ℕ → Descriptor} {w : ℕ → List UInt8}

theorem exists_expertTiles (hbytes : ExpertBytes crc32c source layer expert raw descSize)
    (h : ∀ i < 3, TileMatrix raw (64 + i * descSize.toNat) (desc i) (w i)) :
    (∃ ts, source.expertTiles crc32c layer expert = .ok ts)
      ↔ ∀ i < 3, ForGpu crc32c source raw (desc i) (w i) := by
  simp only [expertTiles_eq_ok]
  constructor
  · rintro ⟨ts, raw', descSize', hbyt', hts⟩ i hi
    obtain ⟨rfl, rfl⟩ := hbytes.unique hbyt'
    obtain ⟨hlen, hts⟩ := mapM_range_eq_ok.mp hts
    exact (h i hi).exists_tile.mp ⟨_, hts i (hlen ▸ hi)⟩
  · intro hgpu
    obtain ⟨ts, hts⟩ := exists_mapM_eq_ok fun i hi =>
      (h i (List.mem_range.mp hi)).exists_tile.mpr (hgpu i (List.mem_range.mp hi))
    exact ⟨ts, raw, descSize, hbytes, hts⟩

variable (fl) in
theorem exists_expertMatrices (hbytes : ExpertBytes crc32c source layer expert raw descSize)
    (h : ∀ i < 3, TileMatrix raw (64 + i * descSize.toNat) (desc i) (w i)) :
    (∃ ms, source.expertMatrices fl crc32c layer expert = .ok ms)
      ↔ ∀ i < 3, ForCpu crc32c source (desc i) (w i) := by
  simp only [expertMatrices_eq_ok]
  constructor
  · rintro ⟨ms, raw', descSize', hbyt', hms⟩ i hi
    obtain ⟨rfl, rfl⟩ := hbytes.unique hbyt'
    obtain ⟨hlen, hms⟩ := mapM_range_eq_ok.mp hms
    exact (h i hi).exists_matrix.mp ⟨_, hms i (hlen ▸ hi)⟩
  · intro hcpu
    obtain ⟨ms, hms⟩ := exists_mapM_eq_ok fun i hi =>
      (h i (List.mem_range.mp hi)).exists_matrix.mpr (hcpu i (List.mem_range.mp hi))
    exact ⟨ms, raw, descSize, hbytes, hms⟩

/-- What is read for a processor is the BF16 form of what is read for a GPU if all matrices have
the same values for both. -/
theorem forall₂_isBf16Of_iff (hbytes : ExpertBytes crc32c source layer expert raw descSize)
    (h : ∀ i < 3, TileMatrix raw (64 + i * descSize.toNat) (desc i) (w i))
    {ts : List RawExpert} (hts : source.expertTiles crc32c layer expert = .ok ts)
    {ms : List ColiWt} (hms : source.expertMatrices fl crc32c layer expert = .ok ms) :
    List.Forall₂ (IsBf16Of fl) ms ts ↔ ∀ i < 3, SameValues fl crc32c source (desc i) (w i) := by
  obtain ⟨_, _, hbyt', hts⟩ := expertTiles_eq_ok.mp hts
  obtain ⟨rfl, rfl⟩ := hbytes.unique hbyt'
  obtain ⟨_, _, hbyt', hms⟩ := expertMatrices_eq_ok.mp hms
  obtain ⟨rfl, rfl⟩ := hbytes.unique hbyt'
  obtain ⟨htl, hts⟩ := mapM_range_eq_ok.mp hts
  obtain ⟨hml, hms⟩ := mapM_range_eq_ok.mp hms
  rw [List.forall₂_iff_get]
  constructor
  · rintro ⟨-, hall⟩ i hi tiles tiles' f htil htil' hf
    have hti := hts i (htl ▸ hi)
    have hmi := hms i (hml ▸ hi)
    obtain ⟨s, _, hs, -, -⟩ := (h i hi).tile_eq_ok.mp hti
    have ht := Except.ok.inj (hti.symm.trans ((h i hi).tile_eq_ok.mpr ⟨s, tiles, hs, htil, rfl⟩))
    have hm := Except.ok.inj
      (hmi.symm.trans ((h i hi).matrix_eq_ok.mpr ⟨tiles', f, htil', hf, rfl⟩))
    obtain ⟨-, -, g, hg, hbytes⟩ := hall i (hml ▸ hi) (htl ▸ hi)
    rw [List.get_eq_getElem, ht] at hg
    rw [List.get_eq_getElem, hm] at hbytes
    exact ⟨g, hg, hbytes⟩
  · refine fun hsam => ⟨hml.trans htl.symm, fun i hi hi' => ?_⟩
    have hi3 : i < 3 := hml ▸ hi
    obtain ⟨s, tiles, -, htil, ht⟩ := (h i hi3).tile_eq_ok.mp (hts i hi')
    obtain ⟨tiles', f, htil', hf, hm⟩ := (h i hi3).matrix_eq_ok.mp (hms i hi)
    obtain ⟨g, hg, hbytes⟩ := hsam i hi3 tiles tiles' f htil htil' hf
    rw [List.get_eq_getElem, List.get_eq_getElem, ht, hm]
    exact ⟨rfl, rfl, g, hg, hbytes⟩

end Three

/-- Readers that agree see none of their differences. -/
theorem ReadersAgree.readAlike (hagr : ReadersAgree fl crc32c source layer expert) :
    ReadAlike fl crc32c source layer expert := by
  intro raw descSize desc w hbytes h
  constructor
  · intro hgpu
    obtain ⟨ts, hts⟩ := (exists_expertTiles hbytes h).mpr hgpu
    obtain ⟨ms, hms, hfor⟩ := hagr.ofTiles ts hts
    exact fun i hi => ⟨(exists_expertMatrices fl hbytes h).mp ⟨ms, hms⟩ i hi,
      (forall₂_isBf16Of_iff hbytes h hts hms).mp hfor i hi⟩
  · intro hcpu
    obtain ⟨ms, hms⟩ := (exists_expertMatrices fl hbytes h).mpr hcpu
    have hall : AllTiles crc32c source layer expert := ⟨raw, descSize, hbytes, fun i hi =>
      ⟨(h i hi).math ▸ (h i hi).read.math, (h i hi).scale ▸ (h i hi).read.scale⟩⟩
    exact (exists_expertTiles hbytes h).mp (hagr.ofMatrices ms hms hall)

/-- Readers that see none of their differences agree. -/
theorem ReadAlike.readersAgree (hal : ReadAlike fl crc32c source layer expert) :
    ReadersAgree fl crc32c source layer expert := by
  constructor
  · intro ts hts
    obtain ⟨raw, descSize, hbytes, hlp⟩ := expertTiles_eq_ok.mp hts
    obtain ⟨hlen, hlp⟩ := mapM_range_eq_ok.mp hlp
    have hmat : ∀ i < 3, ∃ desc w, TileMatrix raw (64 + i * descSize.toNat) desc w :=
      fun i hi => tileMatrix_of_tile (hlp i (hlen ▸ hi))
    choose! desc w h using hmat
    have hbot := (hal raw descSize desc w hbytes h).1 ((exists_expertTiles hbytes h).mp ⟨ts, hts⟩)
    obtain ⟨ms, hms⟩ := (exists_expertMatrices fl hbytes h).mpr fun i hi => (hbot i hi).1
    exact ⟨ms, hms, (forall₂_isBf16Of_iff hbytes h hts hms).mpr fun i hi => (hbot i hi).2⟩
  · rintro ms hms ⟨raw, descSize, hbytes, hfor⟩
    obtain ⟨_, _, hbyt', hlp⟩ := expertMatrices_eq_ok.mp hms
    obtain ⟨rfl, rfl⟩ := hbytes.unique hbyt'
    obtain ⟨hlen, hlp⟩ := mapM_range_eq_ok.mp hlp
    have hmat : ∀ i < 3, ∃ desc w, TileMatrix raw (64 + i * descSize.toNat) desc w := by
      intro i hi
      obtain ⟨desc, w, -, hrd, hw, -, -⟩ := expertMatrix_eq_ok.mp (hlp i (hlen ▸ hi))
      exact ⟨desc, w, hrd, some.inj (hrd.math.symm.trans (hfor i hi).1),
        some.inj (hrd.scale.symm.trans (hfor i hi).2), hw⟩
    choose! desc w h using hmat
    exact (exists_expertTiles hbytes h).mpr ((hal raw descSize desc w hbytes h).2
      ((exists_expertMatrices fl hbytes h).mp ⟨ms, hms⟩))

/-- **When the readers agree**: exactly if an expert with three matrices of tiles lacks something
for both of them, or nothing for any of them. -/
theorem readersAgree_iff_readAlike :
    ReadersAgree fl crc32c source layer expert ↔ ReadAlike fl crc32c source layer expert :=
  ⟨ReadersAgree.readAlike, ReadAlike.readersAgree⟩

/-! ## What makes the readers agree or not -/

end Exact

/-! ## An expert without tiles -/

/-- Arithmetic with the bits of numbers, right where one factor is zero and none is negative. -/
def zeroFloats : Floats UInt32 where
  ofBits := id
  toBits := id
  ofInt _ := 0
  add x _ := x
  mul x y := if x = 0 ∨ y = 0 then 0 else x

/-- The descriptor of a matrix with one row and one column, whose tile is said to have 136 bytes
and is stored in none. -/
def emptyMatrix : List UInt8 :=
  puts (List.replicate 88 0)
    [(4, u16Bytes 0x20), (6, u16Bytes 4), (16, u64Bytes 1), (24, u64Bytes 1), (64, u64Bytes 136)]

/-- An expert with three such matrices. -/
def emptyExpert : List UInt8 :=
  puts (List.replicate 64 0)
      [(0, expertMagic), (8, u16Bytes 1), (12, u32Bytes 64), (24, u16Bytes 3), (28, u32Bytes 88)] ++
    emptyMatrix ++ emptyMatrix ++ emptyMatrix

/-- A package with this expert, as number 0 of layer 0. -/
def emptyExpertPackage : Directory :=
  onePackage emptyExpert [(328, u16Bytes 2), (344, u32Bytes 0xffffffff), (368, u64Bytes 328),
    (384, u32Bytes (Logan.crc32c emptyExpert))]

set_option maxRecDepth 10000 in
/-- The package is opened. Of its expert the tiles are read, and the matrices are not. -/
theorem read_emptyExpert : (ColiSource.openDir Logan.crc32c emptyExpertPackage).map (fun source =>
        ((source.expertTiles Logan.crc32c 0 0).toOption.isSome,
          (source.expertMatrices zeroFloats Logan.crc32c 0 0).toOption.isSome))
      = .ok (true, false) := by
  decide +kernel

/-- **A package on which the readers do not agree.** -/
theorem emptyExpert_disagrees :
    ∃ source, ColiSource.openDir Logan.crc32c emptyExpertPackage = .ok source ∧
      ¬ ReadersAgree zeroFloats Logan.crc32c source 0 0 := by
  obtain ⟨source, hop, hrd⟩ := map_eq_ok read_emptyExpert
  obtain ⟨htil, hmat⟩ := Prod.mk.inj hrd
  refine ⟨source, hop, fun hagr => ?_⟩
  cases hts : source.expertTiles Logan.crc32c 0 0 with
  | error =>
    rw [hts] at htil
    cases htil
  | ok ts =>
    obtain ⟨ms, hms, -⟩ := hagr.ofTiles ts hts
    rw [hms] at hmat
    cases hmat

end Coli

end Logan
