import Logan.Coding.Apple8Lossless
import Logan.Coding.Apple8Tiles

/-!
# Lowering an expert

The three matrices of an expert are cut into tiles and stored in one record, whose
size is known before: a header, a descriptor for each matrix, and the matrices, each
aligned to 16 bytes. The descriptor of a matrix says where its tiles are. Fields that
the compiler does not write stay zero, among them those that say how a matrix is
coded – so a lowered record is one that the codec takes for a record without coding.
-/

namespace Logan

open List
open List (replicate)
open Prod (fst snd)
open UInt64 (ofNat)

namespace Apple8

open Result Fault Rans256

/-! ## The model -/

/-- `align_up`, to 16 bytes. -/
def alignUp (value : ℕ) : Except ColicError ℕ := do
  let _ ← okOr (checkedSum value 15) (.usage "alignment calculation overflows u64")
  pure (round16 value)

/-- `append_aligned` -/
def appendAligned (output bytes : List UInt8) : Except ColicError (List UInt8 × ℕ) := do
  let offset ← alignUp output.length
  pure (output ++ replicate (offset - output.length) 0 ++ bytes, offset)

/-- One round of the loop of the two functions that follow. -/
def addStored (overflow : String) (cursor : ℕ) (size : UInt32 × UInt32) : Except ColicError ℕ := do
  let cursor ← alignUp cursor
  let bytes ← tileBytes size.1 size.2
  okOr (checkedSum cursor bytes) (.usage overflow)

variable (sizes : List (UInt32 × UInt32))

/-- `apple8_expert_stored_bytes`, of the rows and columns of the matrices. -/
def apple8ExpertStoredBytes : Except ColicError ℕ :=
  sizes.foldlM (addStored "Apple8 expert stored size overflows u64") prefixBytes

/-- `apple8_packed_stored_bytes` -/
def apple8PackedStoredBytes : Except ColicError ℕ :=
  sizes.foldlM (addStored "Apple8 packed expert size overflows u64") prefixBytes

/-- `apple8_expert_decoded_bytes` -/
def apple8ExpertDecodedBytes : Except ColicError ℕ :=
  sizes.foldlM (fun total size => do
    let bytes ← tileBytes size.1 size.2
    okOr (checkedSum total bytes) (.usage "Apple8 expert resident size overflows u64")) 0

/-- The rows and columns of a matrix. -/
def PackedMatrix.size (m : PackedMatrix) : UInt32 × UInt32 := (m.rows, m.columns)

/-- The fields of the header, before the matrices. -/
def headerFields (layer expert : UInt32) : List (Write UInt8) :=
  [(0, expertMagic), (8, u16Bytes 1), (12, u32Bytes 64), (16, u32Bytes layer),
   (20, u32Bytes expert), (24, u16Bytes 3), (28, u32Bytes 128), (32, u64Bytes 64),
   (40, u64Bytes (ofNat prefixBytes))]

/-- The fields of a descriptor. -/
def descriptorFields (crc32c : List UInt8 → UInt32) (index : ℕ) (m : PackedMatrix) (offset : ℕ)
    (tiles : List UInt8) : List (Write UInt8) :=
  [(descriptorAt index, u16Bytes (UInt16.ofNat (index + 1))),
   (descriptorAt index + 4, u16Bytes 0x0020),
   (descriptorAt index + 6, u16Bytes 0x0004),
   (descriptorAt index + 12, u16Bytes 0x0103),
   (descriptorAt index + 16, u64Bytes m.rows.toUInt64),
   (descriptorAt index + 24, u64Bytes m.columns.toUInt64),
   (descriptorAt index + 32, u32Bytes 1),
   (descriptorAt index + 36, u32Bytes 32),
   (descriptorAt index + 48, u64Bytes (ofNat offset)),
   (descriptorAt index + 56, u64Bytes (ofNat tiles.length)),
   (descriptorAt index + 64, u64Bytes (ofNat tiles.length)),
   (descriptorAt index + 96, u32Bytes (crc32c tiles)),
   (descriptorAt index + 104, u32Bytes 0)]

/-- One matrix of the loop in `lower_apple8_packed_expert`. The payload has its first bytes, so
the fields can be written. -/
def lowerMatrix (crc32c : List UInt8 → UInt32) (state : List UInt8 × ℕ) (p : PackedMatrix × ℕ) :
    Except (Fault ColicError) (List UInt8 × ℕ) := do
  let tiles ← repackApple8Matrix p.1
  let appended ← lift (appendAligned state.1 tiles)
  let decoded ← lift (okOr (checkedSum state.2 tiles.length)
    (.usage "Apple8 decoded size overflows u64"))
  pure (puts appended.1 (descriptorFields crc32c p.2 p.1 appended.2 tiles), decoded)

/-- `lower_apple8_packed_expert` -/
def lowerApple8PackedExpert (crc32c : List UInt8 → UInt32) (layer expert : UInt32)
    (gate up down : PackedMatrix) : Except (Fault ColicError) (List UInt8) := do
  lift (refuse (layer.toNat ≥ 2 ^ 31) (.usage "Apple8 expert layer exceeds i32"))
  lift (refuse (expert.toNat ≥ 2 ^ 31) (.usage "Apple8 expert id exceeds i32"))
  let payload := puts (replicate prefixBytes 0) (headerFields layer expert)
  let state ← [gate, up, down].zipIdx.foldlM (lowerMatrix crc32c) (payload, 0)
  let payload := put state.1 48 (u64Bytes (ofNat state.2))
  let expected ← lift (apple8PackedStoredBytes [gate.size, up.size, down.size])
  lift (refuse (payload.length ≠ expected)
    (.usage "Apple8 lowerer output does not match raw storage plan"))
  pure payload

/-! ## Sizes -/

section Sizes

theorem alignUp_eq_ok {value n : ℕ} :
    alignUp value = .ok n ↔ value + 15 ≤ usizeMax ∧ n = round16 value := by
  unfold alignUp
  simp only [bind_eq_ok, okOr_eq_ok, checkedSum_eq_some]
  constructor
  · rintro ⟨_, ⟨rfl, hle⟩, heq⟩
    exact ⟨hle, (Except.ok.inj heq).symm⟩
  · rintro ⟨hle, rfl⟩
    exact ⟨_, ⟨rfl, hle⟩, rfl⟩

/-- **A round** of a size function. -/
theorem addStored_eq_ok {overflow : String} {cursor n : ℕ} {size : UInt32 × UInt32} {bytes : ℕ}
    (hbytes : tileBytes size.1 size.2 = .ok bytes) : addStored overflow cursor size = .ok n ↔
      cursor + 15 ≤ usizeMax ∧ n = round16 cursor + bytes ∧ n ≤ usizeMax := by
  unfold addStored
  simp only [bind_eq_ok, alignUp_eq_ok, hbytes, okOr_eq_ok, checkedSum_eq_some]
  constructor
  · rintro ⟨_, ⟨hcur, rfl⟩, _, hsam, rfl, hle⟩
    cases hsam
    exact ⟨hcur, rfl, hle⟩
  · rintro ⟨hcur, rfl, hle⟩
    exact ⟨_, ⟨hcur, rfl⟩, _, rfl, rfl, hle⟩

theorem stored_le {overflow : String} {sizes : List (UInt32 × UInt32)} {cursor n : ℕ}
    (hcur : cursor ≤ usizeMax) (h : sizes.foldlM (addStored overflow) cursor = .ok n) :
    n ≤ usizeMax := by
  induction sizes generalizing cursor with
  | nil => exact (Except.ok.inj h) ▸ hcur
  | cons size sizes ih =>
    obtain ⟨next, hnex, hres⟩ := bind_eq_ok.mp h
    obtain ⟨aligned, -, hnex⟩ := bind_eq_ok.mp hnex
    obtain ⟨bytes, -, hnex⟩ := bind_eq_ok.mp hnex
    obtain ⟨rfl, hle⟩ := checkedSum_eq_some.mp (okOr_eq_ok.mp hnex)
    exact ih hle hres

/-- **The two size functions** only differ in the text of an error. -/
theorem storedBytes_eq_ok {sizes : List (UInt32 × UInt32)} {n : ℕ} :
    apple8ExpertStoredBytes sizes = .ok n ↔ apple8PackedStoredBytes sizes = .ok n := by
  have hrnd : ∀ (overflow overflow' : String) (cursor : ℕ) (size : UInt32 × UInt32) (k : ℕ),
      addStored overflow cursor size = .ok k → addStored overflow' cursor size = .ok k := by
    intro overflow overflow' cursor size k h
    obtain ⟨aligned, hal, h⟩ := bind_eq_ok.mp h
    obtain ⟨bytes, hbytes, h⟩ := bind_eq_ok.mp h
    exact bind_eq_ok.mpr ⟨aligned, hal, bind_eq_ok.mpr
      ⟨bytes, hbytes, okOr_eq_ok.mpr (okOr_eq_ok.mp h)⟩⟩
  have hlp : ∀ (overflow overflow' : String) (cursor : ℕ),
      sizes.foldlM (addStored overflow) cursor = .ok n →
        sizes.foldlM (addStored overflow') cursor = .ok n := by
    intro overflow overflow'
    induction sizes with
    | nil => exact fun cursor h => h
    | cons size sizes ih =>
      intro cursor h
      obtain ⟨next, hnex, hres⟩ := bind_eq_ok.mp h
      exact bind_eq_ok.mpr ⟨next, hrnd overflow overflow' _ _ _ hnex, ih next hres⟩
  exact ⟨hlp _ _ _, hlp _ _ _⟩

end Sizes

/-! ## The loop -/

section Loop

variable {crc32c : List UInt8 → UInt32}

/-- The descriptors of matrices, of which the first begins after `stop`. -/
def loweredWrites (crc32c : List UInt8 → UInt32) :
    ℕ → ℕ → List (PackedMatrix × List UInt8) → List (Write UInt8)
  | _, _, [] => []
  | index, stop, x :: rest =>
    descriptorFields crc32c index x.1 (round16 stop) x.2 ++
    loweredWrites crc32c (index + 1) (round16 stop + x.2.length) rest

theorem laid_descriptorFields (index offset : ℕ) (m : PackedMatrix) (tiles : List UInt8) :
    Laid (descriptorAt index) (descriptorAt (index + 1))
      (descriptorFields crc32c index m offset tiles) := by
  refine Laid.of_inOrder ?_
  simp only [descriptorFields, Laid.InOrder, length_u16Bytes, length_u32Bytes, length_u64Bytes]
  unfold descriptorAt descBytes
  omega

theorem laid_loweredWrites (index stop : ℕ) (xs : List (PackedMatrix × List UInt8)) :
    Laid (descriptorAt index) (descriptorAt (index + xs.length))
      (loweredWrites crc32c index stop xs) := by
  induction xs generalizing index stop with
  | nil => exact Laid.nil
  | cons x rest ih => exact laid_descriptors (laid_descriptorFields index _ _ _) (ih (index + 1) _)

/-- The first bytes hold the descriptor of a matrix. -/
theorem descriptorFields_within {index : ℕ} (hidx : index < matrixCount) {offset : ℕ}
    {m : PackedMatrix} {tiles : List UInt8} {w : Write UInt8}
    (hw : w ∈ descriptorFields crc32c index m offset tiles) : w.1 + w.2.length ≤ prefixBytes := by
  have hend := ((laid_descriptorFields index offset m tiles).within w hw).2
  have hlas : descriptorAt (index + 1) ≤ prefixBytes := by
    rw [prefixBytes_eq]
    unfold descriptorAt descBytes
    omega
  exact hend.trans hlas

theorem round16_add_head (n : ℕ) : round16 (prefixBytes + n) = prefixBytes + round16 n := by
  unfold round16 prefixBytes
  omega

/-- **A round** writes the descriptor of a matrix and appends its tiles. -/
theorem lowerMatrix_eq {m : PackedMatrix} {tiles : List UInt8}
    (htil : repackApple8Matrix m = .ok tiles) {index : ℕ} (hidx : index < matrixCount)
    {head body : List UInt8} (hhd : head.length = prefixBytes)
    (hbod : prefixBytes + body.length + 15 ≤ usizeMax) {decoded : ℕ}
    (hdec : decoded + tiles.length ≤ usizeMax) :
    lowerMatrix crc32c (head ++ body, decoded) (m, index)
      = .ok (puts head (descriptorFields crc32c index m (round16 (prefixBytes + body.length)) tiles)
          ++ (align body ++ tiles), decoded + tiles.length) := by
  have hlen : (head ++ body).length = prefixBytes + body.length := by
    rw [length_append, hhd]
  have hgap : round16 (prefixBytes + body.length) - (prefixBytes + body.length)
      = round16 body.length - body.length := by
    rw [round16_add_head]
    omega
  have happ : appendAligned (head ++ body) tiles
      = .ok (head ++ (align body ++ tiles), round16 (prefixBytes + body.length)) := by
    unfold appendAligned
    rw [hlen, alignUp_eq_ok.mpr ⟨hbod, rfl⟩, ok_bind, hgap, align, append_assoc,
      append_assoc, append_assoc]
    rfl
  unfold lowerMatrix
  rw [htil, ok_bind, happ, lift_ok, ok_bind, checkedSum_of_le hdec, okOr_some, lift_ok, ok_bind]
  rw [puts_append_left fun w hw => (descriptorFields_within hidx hw).trans_eq hhd.symm]
  rfl

/-- **All matrices are lowered**, one after the other, if the size of the record is known. -/
theorem lowerMatrices_eq {overflow : String} {xs : List (PackedMatrix × List UInt8)}
    (hxs : ∀ x ∈ xs, repackApple8Matrix x.1 = .ok x.2) {index : ℕ}
    (hidx : index + xs.length ≤ matrixCount) {head body : List UInt8}
    (hhd : head.length = prefixBytes) {decoded n : ℕ}
    (hdec : decoded ≤ prefixBytes + body.length)
    (hn : (xs.map fun x => x.1.size).foldlM (addStored overflow) (prefixBytes + body.length)
      = .ok n) : ((xs.map fst).zipIdx index).foldlM (lowerMatrix crc32c) (head ++ body, decoded)
        = .ok (puts head (loweredWrites crc32c index (prefixBytes + body.length) xs)
            ++ bodyFrom body (xs.map snd), decoded + (xs.map fun x => x.2.length).sum) ∧
      n = prefixBytes + (bodyFrom body (xs.map snd)).length := by
  induction xs generalizing index head body decoded with
  | nil => exact ⟨rfl, (Except.ok.inj hn).symm⟩
  | cons x rest ih =>
    rw [length_cons] at hidx
    have hx := hxs x mem_cons_self
    obtain ⟨next, hnex, hres⟩ := bind_eq_ok.mp hn
    obtain ⟨hbod, hsum, hmos⟩ := (addStored_eq_ok (tileBytes_of_repack hx)).mp hnex
    have hrnd := le_round16 body.length
    rw [round16_add_head] at hsum
    have hlen : prefixBytes + (align body ++ x.2).length = next := by
      rw [length_append, length_align, hsum, Nat.add_assoc]
    have hfst := @lowerMatrix_eq crc32c x.1 x.2 hx index (by omega) head body hhd hbod decoded
      (by omega)
    have hhd' : (puts head (descriptorFields crc32c index x.1
        (round16 (prefixBytes + body.length)) x.2)).length = prefixBytes :=
      (length_puts fun w hw => (descriptorFields_within (by omega) hw).trans_eq hhd.symm).trans
        hhd
    have hdec' : decoded + x.2.length ≤ prefixBytes + (align body ++ x.2).length := by omega
    obtain ⟨hlp, hlas⟩ := ih (fun y hy => hxs y (mem_cons_of_mem _ hy))
      (show index + 1 + rest.length ≤ matrixCount by omega) hhd' hdec' (hlen ▸ hres)
    refine ⟨?_, hlas⟩
    rw [map_cons, zipIdx_cons, foldlM_cons, hfst, ok_bind, hlp, map_cons,
      map_cons, sum_cons, loweredWrites, puts_append, round16_add_head, bodyFrom,
      length_append, length_align, Nat.add_assoc, Nat.add_assoc]

end Loop

/-! ## The record -/

section Record

variable {crc32c : List UInt8 → UInt32} {layer expert : UInt32}

theorem mem_loweredWrites {index stop : ℕ} {xs : List (PackedMatrix × List UInt8)}
    {w : Write UInt8} (h : w ∈ loweredWrites crc32c index stop xs) :
    ∃ k offset m tiles, w ∈ descriptorFields crc32c k m offset tiles := by
  induction xs generalizing index stop with
  | nil => exact absurd h not_mem_nil
  | cons x rest ih =>
    rcases mem_append.mp h with h | h
    · exact ⟨index, _, x.1, x.2, h⟩
    · exact ih h

/-- **The fields of the coding are not written**: the codec and the table of a matrix. -/
theorem descriptorFields_apart {k offset index : ℕ} {m : PackedMatrix} {tiles : List UInt8}
    {w : Write UInt8} (h : w ∈ descriptorFields crc32c k m offset tiles) :
    (w.1 + w.2.length ≤ descriptorAt index + 8 ∨ descriptorAt index + 8 + 2 ≤ w.1) ∧
      (w.1 + w.2.length ≤ descriptorAt index + 40 ∨ descriptorAt index + 40 + 4 ≤ w.1) := by
  simp only [descriptorFields, mem_cons, not_mem_nil, or_false] at h
  unfold descriptorAt descBytes at h ⊢
  rcases h with rfl | rfl | rfl | rfl | rfl | rfl | rfl | rfl | rfl | rfl | rfl | rfl | rfl <;>
    simp only [length_u16Bytes, length_u32Bytes, length_u64Bytes] <;> omega

/-- **The descriptors of matrices that are not coded** are among what is written, with the fields
that stay zero. -/
theorem holds_rawWrites {b : List UInt8} {index stop : ℕ}
    {xs : List (PackedMatrix × List UInt8)} (h : HasWrites b (loweredWrites crc32c index stop xs))
    (hidx : index + xs.length ≤ matrixCount)
    (hzer : ∀ k < matrixCount, slice b (descriptorAt k + 8) 2 = u16Bytes 0 ∧
      slice b (descriptorAt k + 40) 4 = u32Bytes 0) :
    HasWrites b (rawWrites crc32c index stop (xs.map snd)) := by
  induction xs generalizing index stop with
  | nil => exact fun _ hw => absurd hw not_mem_nil
  | cons x rest ih =>
    refine HasWrites.append (HasWrites.append (fun w hw => ?_) fun w hw => ?_)
      (ih h.right (by rw [length_cons] at hidx; omega))
    · simp only [descriptorWrites, mem_cons, not_mem_nil, or_false] at hw
      rcases hw with rfl | rfl | rfl | rfl | rfl
      · exact (hzer index (by rw [length_cons] at hidx; omega)).1
      · exact (hzer index (by rw [length_cons] at hidx; omega)).2
      all_goals
        refine h.left _ ?_
        simp only [descriptorFields, mem_cons, true_or, or_true]
    · rw [mem_singleton.mp hw]
      refine h.left _ ?_
      simp only [descriptorFields, mem_cons, true_or, or_true]

/-- All that is written to the first bytes. -/
def firstWrites (crc32c : List UInt8 → UInt32) (layer expert : UInt32)
    (xs : List (PackedMatrix × List UInt8)) (decoded : ℕ) : List (Write UInt8) :=
  headerFields layer expert ++ loweredWrites crc32c 0 prefixBytes xs ++
    [(48, u64Bytes (ofNat decoded))]

theorem laid_header (layer expert : UInt32) (decoded : ℕ) : Laid 0 (descriptorAt 0)
    (headerFields layer expert ++ [(48, u64Bytes (ofNat decoded))]) := by
  refine Laid.of_inOrder ?_
  simp only [headerFields, cons_append, nil_append, Laid.InOrder, length_u16Bytes,
    length_u32Bytes, length_u64Bytes]
  decide

theorem laid_firstWrites {xs : List (PackedMatrix × List UInt8)} (hxs : xs.length = matrixCount)
    (decoded : ℕ) : Laid 0 prefixBytes (firstWrites crc32c layer expert xs decoded) := by
  have hmat := @laid_loweredWrites crc32c 0 prefixBytes xs
  rw [Nat.zero_add, hxs, ← prefixBytes_eq] at hmat
  refine ((laid_header layer expert decoded).append hmat (by decide) (by decide)).perm ?_
  unfold firstWrites
  rw [append_assoc, append_assoc]
  exact List.Perm.append_left _ perm_append_comm

/-- The fields of the coding are zero. -/
theorem coding_zero {xs : List (PackedMatrix × List UInt8)} (hxs : xs.length = matrixCount)
    (decoded k : ℕ) (hk : k < matrixCount) :
    slice (puts (replicate prefixBytes 0) (firstWrites crc32c layer expert xs decoded))
        (descriptorAt k + 8) 2 = u16Bytes 0 ∧
      slice (puts (replicate prefixBytes 0) (firstWrites crc32c layer expert xs decoded))
        (descriptorAt k + 40) 4 = u32Bytes 0 := by
  have hwit : ∀ w ∈ firstWrites crc32c layer expert xs decoded,
      w.1 + w.2.length ≤ (replicate prefixBytes (0 : UInt8)).length := fun w hw =>
    ((laid_firstWrites hxs decoded).within w hw).2.trans_eq length_replicate.symm
  have hap : ∀ w ∈ firstWrites crc32c layer expert xs decoded,
      (w.1 + w.2.length ≤ descriptorAt k + 8 ∨ descriptorAt k + 8 + 2 ≤ w.1) ∧
        (w.1 + w.2.length ≤ descriptorAt k + 40 ∨ descriptorAt k + 40 + 4 ≤ w.1) := by
    intro w hw
    unfold firstWrites at hw
    rw [append_assoc, mem_append, mem_append, or_left_comm, or_comm] at hw
    rcases hw with hw | hw
    · have hle := ((laid_header layer expert decoded).within w (mem_append.mpr hw)).2
      unfold descriptorAt at hle ⊢
      omega
    · obtain ⟨i, offset, m, tiles, hfld⟩ := mem_loweredWrites hw
      exact descriptorFields_apart hfld
  have hend : descriptorAt k + 128 ≤ prefixBytes := by
    rw [prefixBytes_eq]
    unfold descriptorAt descBytes
    omega
  constructor
  · rw [slice_puts_of_apart hwit fun w hw => (hap w hw).1, slice_replicate (by omega)]
    rfl
  · rw [slice_puts_of_apart hwit fun w hw => (hap w hw).2, slice_replicate (by omega)]
    rfl

/-- The size of the tiles of all matrices. -/
theorem decodedBytes_eq {xs : List (PackedMatrix × List UInt8)}
    (hxs : ∀ x ∈ xs, repackApple8Matrix x.1 = .ok x.2)
    (hsum : (xs.map fun x => x.2.length).sum ≤ usizeMax) :
    apple8ExpertDecodedBytes (xs.map fun x => x.1.size)
      = .ok (xs.map fun x => x.2.length).sum := by
  have hlp : ∀ (ys : List (PackedMatrix × List UInt8)) (total : ℕ),
      (∀ y ∈ ys, repackApple8Matrix y.1 = .ok y.2) →
      total + (ys.map fun y => y.2.length).sum ≤ usizeMax →
      (ys.map fun y => y.1.size).foldlM (fun total size => do
          let bytes ← tileBytes size.1 size.2
          okOr (checkedSum total bytes)
            (ColicError.usage "Apple8 expert resident size overflows u64")) total
        = .ok (total + (ys.map fun y => y.2.length).sum) := by
    intro ys
    induction ys with
    | nil => exact fun total _ _ => rfl
    | cons y ys ih =>
      intro total hys hle
      rw [map_cons, sum_cons] at hle
      have hbytes : tileBytes y.1.size.1 y.1.size.2 = .ok y.2.length :=
        tileBytes_of_repack (hys y mem_cons_self)
      rw [map_cons, foldlM_cons, hbytes, ok_bind, checkedSum_of_le (by omega),
        okOr_some, ok_bind, ih _ (fun z hz => hys z (mem_cons_of_mem _ hz)) (by omega),
        map_cons, sum_cons, Nat.add_assoc]
  have h := hlp xs 0 hxs (by rwa [Nat.zero_add])
  rwa [Nat.zero_add] at h

/-- **A lowered record**: its length, the tiles that the codec finds in it, and the number of
bytes of all tiles in its header. -/
structure LoweredRecord (crc32c : List UInt8 → UInt32) (payload : List UInt8) (n : ℕ)
    (tiles : List (List UInt8)) : Prop where
  length_eq : payload.length = n
  canonical : ∃ spans, Canonical crc32c payload spans ∧
    spans.map (fun m => m.payload payload) = tiles
  decoded : u64At? payload 48 = some (ofNat (tiles.map List.length).sum)

theorem tiles_ne_nil {m : PackedMatrix} {tiles : List UInt8}
    (h : repackApple8Matrix m = .ok tiles) : tiles ≠ [] := by
  rintro rfl
  have hlen := (tiles_eq h).1
  have hcan := canonical_of_repack h
  have hrow : m.rows.toNat ≠ 0 := fun hz => hcan.rows_ne (UInt32.toNat_inj.mp hz)
  have hcol : m.columns.toNat ≠ 0 := fun hz => hcan.columns_ne (UInt32.toNat_inj.mp hz)
  have hpos : 0 < tileCount m.rows m.columns := by
    unfold tileCount groups
    exact Nat.mul_pos (by omega) (by omega)
  rw [length_nil] at hlen
  omega

theorem length_headerFields (layer expert : UInt32) :
    (puts (replicate prefixBytes 0) (headerFields layer expert)).length = prefixBytes := by
  refine (length_puts fun w hw => ?_).trans length_replicate
  have hle := ((laid_header layer expert 0).within w (mem_append_left _ hw)).2
  rw [length_replicate]
  exact hle.trans (by decide)

/-- **What the loop has written in the end**: the first bytes and the tiles. -/
theorem lowered_eq {overflow : String} {xs : List (PackedMatrix × List UInt8)}
    (hxs : ∀ x ∈ xs, repackApple8Matrix x.1 = .ok x.2) (hcount : xs.length = matrixCount) {n : ℕ}
    (hn : (xs.map fun x => x.1.size).foldlM (addStored overflow) prefixBytes = .ok n) :
    ∃ state, (xs.map fst).zipIdx.foldlM (lowerMatrix crc32c)
        (puts (replicate prefixBytes 0) (headerFields layer expert), 0) = .ok state ∧
      put state.1 48 (u64Bytes (ofNat state.2)) = puts (replicate prefixBytes 0)
            (firstWrites crc32c layer expert xs (xs.map fun x => x.2.length).sum)
          ++ bodyFrom [] (xs.map snd) ∧ n = prefixBytes + (bodyFrom [] (xs.map snd)).length := by
  have hhd := length_headerFields layer expert
  obtain ⟨hlp, hsiz⟩ := @lowerMatrices_eq crc32c overflow xs hxs 0 (by omega) _ [] hhd 0 n
    (Nat.zero_le _) hn
  rw [List.append_nil, Nat.zero_add] at hlp
  refine ⟨_, hlp, ?_, hsiz⟩
  have hld := @laid_firstWrites crc32c layer expert xs hcount 0
  have hlen : (puts (puts (replicate prefixBytes 0) (headerFields layer expert))
      (loweredWrites crc32c 0 prefixBytes xs)).length = prefixBytes := by
    refine (length_puts fun w hw => ?_).trans hhd
    rw [hhd]
    exact (hld.within w (mem_append_left _ (mem_append_right _ hw))).2
  rw [put_append_left (by rw [length_nil, Nat.add_zero, hlen, length_u64Bytes]; decide),
    firstWrites, puts_append, puts_append]
  rfl

/-- **The first bytes and the tiles are a record** that the codec reads. -/
theorem loweredRecord_eq {xs : List (PackedMatrix × List UInt8)}
    (hxs : ∀ x ∈ xs, repackApple8Matrix x.1 = .ok x.2) (hcount : xs.length = matrixCount) {n : ℕ}
    (hn : n = prefixBytes + (bodyFrom [] (xs.map snd)).length) (hmos : n ≤ usizeMax) :
    LoweredRecord crc32c (puts (replicate prefixBytes 0)
        (firstWrites crc32c layer expert xs (xs.map fun x => x.2.length).sum)
      ++ bodyFrom [] (xs.map snd)) n (xs.map snd) := by
  have hld := @laid_firstWrites crc32c layer expert xs hcount
    (xs.map fun x => x.2.length).sum
  have hrm : Laid 0 (replicate prefixBytes (0 : UInt8)).length
      (firstWrites crc32c layer expert xs (xs.map fun x => x.2.length).sum) := by
    rwa [length_replicate]
  have hhol := holds_puts hrm
  have hhd : (puts (replicate prefixBytes 0)
      (firstWrites crc32c layer expert xs (xs.map fun x => x.2.length).sum)).length
        = prefixBytes := by
    refine (length_puts fun w hw => ?_).trans length_replicate
    rw [length_replicate]
    exact (hld.within w hw).2
  have hzer := @coding_zero crc32c layer expert xs hcount (xs.map fun x => x.2.length).sum
  generalize puts (replicate prefixBytes 0)
    (firstWrites crc32c layer expert xs (xs.map fun x => x.2.length).sum) = head
    at hhol hhd hzer ⊢
  have hlen : (head ++ bodyFrom [] (xs.map snd)).length = n := by
    rw [length_append, hhd, hn]
  refine ⟨hlen, ⟨_, canonical_of_head ((length_map _).trans hcount) rfl hhd ?_
    (holds_rawWrites hhol.left.right (by omega) hzer) ?_ (hlen ▸ hmos)⟩, ?_⟩
  · refine hhol.left.left.subset fun w hw => ?_
    simp only [headerWrites, mem_cons, not_mem_nil, or_false] at hw
    simp only [headerFields, mem_cons]
    rcases hw with rfl | rfl | rfl | rfl | rfl | rfl <;> simp only [true_or, or_true]
  · intro tiles htil
    obtain ⟨x, hx, rfl⟩ := mem_map.mp htil
    exact tiles_ne_nil (hxs x hx)
  · refine u64At?_of_slice ?_
    have hfld := hhol.right _ (mem_singleton_self _)
    rw [length_u64Bytes] at hfld
    rw [slice_append_left (by rw [hhd]; decide), hfld, map_map]
    rfl

/-- **An expert is lowered** if the size of its record is known and its numbers fit, and its
record has this size and the tiles of its matrices. The size of these is known, too. -/
theorem lowerApple8PackedExpert_eq (hlay : layer.toNat < 2 ^ 31)
    (hexp : expert.toNat < 2 ^ 31) {gate up down : PackedMatrix} {a b c : List UInt8}
    (hgat : repackApple8Matrix gate = .ok a) (hup : repackApple8Matrix up = .ok b)
    (hdow : repackApple8Matrix down = .ok c) {n : ℕ}
    (hn : apple8PackedStoredBytes [gate.size, up.size, down.size] = .ok n) :
    (∃ payload, lowerApple8PackedExpert crc32c layer expert gate up down = .ok payload ∧
      LoweredRecord crc32c payload n [a, b, c]) ∧
    apple8ExpertDecodedBytes [gate.size, up.size, down.size]
      = .ok ([a, b, c].map List.length).sum := by
  have hxs : ∀ x ∈ [(gate, a), (up, b), (down, c)], repackApple8Matrix x.1 = .ok x.2 := by
    intro x hx
    simp only [mem_cons, not_mem_nil, or_false] at hx
    rcases hx with rfl | rfl | rfl
    · exact hgat
    · exact hup
    · exact hdow
  generalize hlis : [(gate, a), (up, b), (down, c)] = xs at hxs
  have hcount : xs.length = matrixCount := hlis ▸ rfl
  have hmat : [gate, up, down] = xs.map fst := hlis ▸ rfl
  have htil : [a, b, c] = xs.map snd := hlis ▸ rfl
  have hsiz : [gate.size, up.size, down.size] = xs.map fun x => x.1.size := hlis ▸ rfl
  rw [hsiz] at hn
  rw [htil]
  obtain ⟨state, hlp, hbytes, hsz⟩ := @lowered_eq crc32c layer expert _ xs hxs hcount n hn
  rw [← hmat] at hlp
  have hmos := stored_le (by decide) hn
  have hrec := @loweredRecord_eq crc32c layer expert xs hxs hcount n hsz hmos
  have hsum : (xs.map fun x => x.2.length).sum ≤ usizeMax := by
    have hle := le_length_bodyFrom [] (xs.map snd)
    rw [map_map, length_nil, Nat.zero_add] at hle
    exact hle.trans (by omega)
  refine ⟨⟨_, ?_, hrec⟩, ?_⟩
  · unfold lowerApple8PackedExpert
    rw [refuse_of_not (not_le.mpr hlay), lift_ok, ok_bind, refuse_of_not (not_le.mpr hexp),
      lift_ok, ok_bind]
    dsimp only
    rw [hlp, ok_bind, hsiz, hbytes, hn, lift_ok, ok_bind,
      refuse_of_not (not_not.mpr hrec.length_eq), lift_ok, ok_bind]
    rfl
  · rw [hsiz, map_map]
    exact decodedBytes_eq hxs hsum

end Record

end Apple8

end Logan
