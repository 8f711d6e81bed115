import Logan.Coding.RansRecords
import Logan.Util.Crc

/-!
# The codec table in a manifest

The table that a compiler has made is stored in the manifest, behind everything
else: a region with one descriptor and the table itself, as a blob. Two numbers
in the header, which were zero before, say where the region is, and a third how
many descriptors it has. The checksum in the header covers all of the manifest,
so it is computed once more, with its own bytes as zeros.

A reader finds the table again; every other byte of the manifest is as before.
-/

namespace Logan

open List
open List (finRange replicate)
open Logan (crc32c)

namespace Rans256

open Result

namespace Table

/-- What a blob begins with: the magic, the version, and the parameters of the codec. -/
def blobHead : List (Write UInt8) :=
  [(0, tableMagic), (8, u16Bytes 1), (10, u16Bytes (UInt16.ofNat scaleBits)),
    (12, u32Bytes (UInt32.ofNat nStreams)), (16, u32Bytes (UInt32.ofNat autoMinSavingsBps)),
    (20, u32Bytes (UInt32.ofNat autoMinSavingsBytes))]

/-- The frequency of a symbol, and its first slot. -/
def symbolWrites (t : Table) (symbol : Nibble) : List (Write UInt8) :=
  [(32 + symbol.val * 4, u32Bytes (UInt32.ofNat (t.freq symbol))),
    (96 + symbol.val * 4, u32Bytes (UInt32.ofNat (t.start symbol)))]

/-- What is written into a blob. -/
def blobWrites (t : Table) : List (Write UInt8) :=
  blobHead ++ (finRange 16).flatMap t.symbolWrites

/-- `Table::encode_blob` -/
def encodeBlob (t : Table) : Except ColicError (List UInt8) := do
  t.validate
  pure (puts (replicate tableBlobBytes 0) t.blobWrites)

end Table

/-! ## Fields that have been written -/

section Fields

variable {b : List UInt8} {ws : List (Write UInt8)} {i : ℕ}

theorem u16At_of_mem (h : HasWrites b ws) {x : UInt16} (hw : (i, u16Bytes x) ∈ ws) :
    u16At b i = .ok x := by
  refine okOr_eq_ok.mpr (u16At?_of_slice ?_)
  have hsl := h _ hw
  rwa [length_u16Bytes] at hsl

theorem u32At_of_mem (h : HasWrites b ws) {x : UInt32} (hw : (i, u32Bytes x) ∈ ws) :
    u32At b i = .ok x := by
  refine okOr_eq_ok.mpr (u32At?_of_slice ?_)
  have hsl := h _ hw
  rwa [length_u32Bytes] at hsl

theorem i32At_of_mem (h : HasWrites b ws) {x : UInt32} (hw : (i, u32Bytes x) ∈ ws) :
    i32At b i = .ok x := okOr_eq_ok.mpr (okOr_eq_ok.mp (u32At_of_mem h hw))

theorem u64At_of_mem (h : HasWrites b ws) {x : UInt64} (hw : (i, u64Bytes x) ∈ ws) :
    u64At b i = .ok x := by
  refine okOr_eq_ok.mpr (u64At?_of_slice ?_)
  have hsl := h _ hw
  rwa [length_u64Bytes] at hsl

end Fields

/-! ## A blob is read back -/

/-- Words that follow one another, each where its index says. -/
theorem tiles_words (base n : ℕ) (f : Fin n → UInt32) : Tiles base (base + n * 4)
      ((finRange n).map fun i => (base + i.val * 4, u32Bytes (f i))) := by
  induction n with
  | zero =>
    rw [Nat.zero_mul]
    exact rfl
  | succ n ih =>
    rw [finRange_succ_last, List.map_append, map_map]
    refine (ih fun i => f i.castSucc).append ⟨rfl, ?_⟩
    rw [length_u32Bytes, Nat.succ_mul, Nat.add_assoc]
    exact rfl

namespace Table

variable {t : Table}

/-- The writes of a blob, and the reserved bytes between them. -/
theorem laid_blobWrites (t : Table) :
    Laid 0 tableBlobBytes (t.blobWrites ++ [(24, replicate 8 0)]) := by
  have hhd : Tiles 0 32 (blobHead ++ [(24, replicate 8 0)]) := by
    simp [Tiles, blobHead, tableMagic]
  have htil := (hhd.append (tiles_words 32 16 fun s => UInt32.ofNat (t.freq s))).append
    (tiles_words 96 16 fun s => UInt32.ofNat (t.start s))
  refine htil.laid.perm ?_
  have hsym : ((finRange 16).map (fun s : Fin 16 =>
        ((32 + s.val * 4, u32Bytes (UInt32.ofNat (t.freq s))) : Write UInt8)) ++
      (finRange 16).map fun s : Fin 16 =>
        (96 + s.val * 4, u32Bytes (UInt32.ofNat (t.start s)))).Perm
      ((finRange 16).flatMap t.symbolWrites) := by
    rw [map_eq_flatMap, map_eq_flatMap]
    exact flatMap_append_perm _ _ _
  unfold blobWrites
  rw [append_assoc, append_assoc, append_assoc]
  refine List.Perm.append_left _ ?_
  exact perm_append_comm.trans (List.Perm.append_right _ hsym)

theorem length_blob (t : Table) :
    (puts (replicate tableBlobBytes 0) t.blobWrites).length = tableBlobBytes := by
  have hlen : (replicate tableBlobBytes (0 : UInt8)).length = tableBlobBytes :=
    length_replicate
  rw [length_puts fun w hw => ?_, hlen]
  rw [hlen]
  exact ((laid_blobWrites t).within w (mem_append_left _ hw)).2

theorem words_of_validate (h : t.validate = .ok ()) (s : Nibble) :
    (UInt32.ofNat (t.freq s)).toNat = t.freq s ∧ (UInt32.ofNat (t.start s)).toNat = t.start s := by
  have hins : t.start s + t.freq s ≤ scale := (slots h).inside s
  have hscale : scale < UInt32.size := by decide
  exact ⟨UInt32.toNat_ofNat_of_lt' (by omega), UInt32.toNat_ofNat_of_lt' (by omega)⟩

/-- **A valid table is read back from its blob.** -/
theorem decodeBlob_blob (h : t.validate = .ok ()) :
    decodeBlob (puts (replicate tableBlobBytes 0) t.blobWrites) = .ok t := by
  have hlen := length_blob t
  have hhol := holds_puts_replicate (laid_blobWrites t) fun z hz => by
    rw [mem_singleton.mp hz, length_replicate]
  generalize puts (replicate tableBlobBytes 0) t.blobWrites = blob at hlen hhol ⊢
  have hhd : HasWrites blob blobHead := hhol.left.left
  have hsym (s : Nibble) : HasWrites blob (t.symbolWrites s) := hhol.left.right.subset
    fun w hw => mem_flatMap.mpr ⟨s, mem_finRange s, hw⟩
  have hmag : range? blob 0 8 = some tableMagic :=
    (range?_of_le (by decide) (by rw [hlen]; decide)).trans
      (congrArg some (hhd (0, tableMagic) (by simp [blobHead])))
  have hres : slice blob 24 8 = replicate 8 0 :=
    hhol (24, replicate 8 0) (mem_append_right _ (mem_singleton_self _))
  have hfld (s : Nibble) : (do
        let freq ← u32At blob (32 + s.val * 4)
        let start ← u32At blob (96 + s.val * 4)
        pure (freq.toNat, start.toNat) : Except ColicError (ℕ × ℕ))
      = pure (t.freq s, t.start s) := by
    obtain ⟨hfr, hst⟩ := words_of_validate h s
    rw [u32At_of_mem (hsym s) (x := UInt32.ofNat (t.freq s)) (by simp [symbolWrites]), ok_bind,
      u32At_of_mem (hsym s) (x := UInt32.ofNat (t.start s)) (by simp [symbolWrites]), ok_bind,
      hfr, hst]
  have hrws : ((finRange 16).map fun s => (t.freq s, t.start s)).length = 16 := by
    rw [length_map, length_finRange]
  have hrow (s : Nibble) : ((finRange 16).map fun s => (t.freq s, t.start s)).getD s.val (0, 0)
      = (t.freq s, t.start s) := by
    rw [getD_eq_getElem _ _ (s.isLt.trans_eq hrws.symm), getElem_map, getElem_finRange]
    rfl
  unfold decodeBlob
  dsimp only
  rw [refuse_of_not (not_not_intro hlen), ok_bind, refuse_of_not (not_not_intro hmag), ok_bind,
    u16At_of_mem hhd (x := 1) (by simp [blobHead]), ok_bind,
    refuse_of_not (not_not_intro rfl), ok_bind,
    u16At_of_mem hhd (x := UInt16.ofNat scaleBits) (by simp [blobHead]), ok_bind,
    refuse_of_not (not_not_intro (by decide)), ok_bind,
    u32At_of_mem hhd (x := UInt32.ofNat nStreams) (by simp [blobHead]), ok_bind,
    refuse_of_not (not_not_intro (by decide)), ok_bind,
    u32At_of_mem hhd (x := UInt32.ofNat autoMinSavingsBps) (by simp [blobHead]), ok_bind,
    refuse_of_not (not_not_intro (by decide)), ok_bind,
    u32At_of_mem hhd (x := UInt32.ofNat autoMinSavingsBytes) (by simp [blobHead]), ok_bind,
    refuse_of_not (not_not_intro (by decide)), ok_bind, hres,
    refuse_of_not (not_not_intro (by decide)), ok_bind, funext hfld, mapM_pure]
  simp only [pure_bind, hrow]
  rw [h]
  rfl

/-- Exactly the valid tables are encoded. -/
theorem encodeBlob_eq_ok {blob : List UInt8} : t.encodeBlob = .ok blob ↔
    t.validate = .ok () ∧ puts (replicate tableBlobBytes 0) t.blobWrites = blob := by
  unfold encodeBlob
  rw [bind_eq_ok]
  constructor
  · rintro ⟨_, hval, h⟩
    exact ⟨hval, Except.ok.inj h⟩
  · rintro ⟨hval, rfl⟩
    exact ⟨(), hval, rfl⟩

/-- **A table that has been encoded is decoded.** -/
theorem decodeBlob_encodeBlob {blob : List UInt8} (h : t.encodeBlob = .ok blob) :
    decodeBlob blob = .ok t := by
  obtain ⟨hval, rfl⟩ := encodeBlob_eq_ok.mp h
  exact decodeBlob_blob hval

end Table

/-! ## The region -/

/-- `DESC_BYTES` -/
def descBytes : ℕ := 64

/-- What is written into a region at `start`: the descriptor, and the blob. -/
def regionWrites (crc32c : List UInt8 → UInt32) (start dataOffset : ℕ) (blob : List UInt8) :
    List (Write UInt8) :=
  [(start, u32Bytes tableId), (start + 4, u16Bytes codecId), (start + 8, u32Bytes 0xffffffff),
    (start + 16, u64Bytes (UInt64.ofNat dataOffset)),
    (start + 24, u64Bytes (UInt64.ofNat blob.length)), (start + 32, u32Bytes (crc32c blob)),
    (start + dataOffset, blob)]

/-- The number of descriptors, and where the region is. -/
def pointerWrites (regionOffset regionBytes : ℕ) : List (Write UInt8) :=
  [(160, u32Bytes 1), (168, u64Bytes (UInt64.ofNat regionOffset)),
    (176, u64Bytes (UInt64.ofNat regionBytes))]

/-- `manifest_table_region`. A manifest is a vector, so its length can be rounded
up. -/
def manifestTableRegion (crc32c : List UInt8 → UInt32) (manifest : List UInt8) :
    Option Table → Except ColicError (List UInt8)
  | none => pure manifest
  | some table => do
    refuse (manifest.length < 256) (.usage "manifest is too short for codec tables")
    let used := ColicError.usage "manifest already contains a codec table region"
    refuse ((← u32At manifest 160) ≠ 0) used
    refuse ((← u64At manifest 168) ≠ 0) used
    refuse ((← u64At manifest 176) ≠ 0) used
    let blob ← table.encodeBlob
    let regionOffset := round16 manifest.length
    let manifest := manifest ++ replicate (regionOffset - manifest.length) 0
    let dataOffset := round16 descBytes
    let regionBytes ← okOr ((do
        let value ← checkedSum dataOffset blob.length
        let value ← checkedSum value 15
        pure (value / 16 * 16)) : Option ℕ) (.usage "codec table region size overflows")
    let start := manifest.length
    let manifest := manifest ++ replicate regionBytes 0
    let manifest := puts manifest (regionWrites crc32c start dataOffset blob ++
      pointerWrites regionOffset regionBytes)
    let manifest := put manifest 144 (replicate 4 0)
    pure (put manifest 144 (u32Bytes (crc32c manifest)))

/-- **A manifest without a codec table**: it has a header, whose numbers of the
region are zero. -/
structure NoTable (manifest : List UInt8) : Prop where
  long : 256 ≤ manifest.length
  count : u32At manifest 160 = .ok 0
  offset : u64At manifest 168 = .ok 0
  bytes : u64At manifest 176 = .ok 0

/-- The place of the checksum, or one of those of the region. -/
def Patched (i : ℕ) : Prop := (144 ≤ i ∧ i < 148) ∨ (160 ≤ i ∧ i < 184)

/-- **The table is embedded**: it is found under its number, and no other is; a
byte of the manifest that is not patched is as before; and the checksum is that
of all of the new manifest, with its own bytes as zeros. -/
structure Embeds (crc32c : List UInt8 → UInt32) (manifest : List UInt8) (t : Table)
    (embedded : List UInt8) : Prop where
  found : ∀ id t', tableFromManifest crc32c embedded id codecId = .ok t' ↔ id = tableId ∧ t' = t
  kept : ∀ i < manifest.length, ¬ Patched i → embedded[i]? = manifest[i]?
  checksum : u32At embedded 144 = .ok (crc32c (put embedded 144 (replicate 4 0)))

section Region

variable {crc32c : List UInt8 → UInt32} {manifest blob : List UInt8} {t : Table}

/-- The manifest with the region, before its checksum. -/
def withRegion (crc32c : List UInt8 → UInt32) (manifest blob : List UInt8) : List UInt8 :=
  puts (manifest ++ replicate (round16 manifest.length - manifest.length) 0 ++ replicate 224 0)
    (regionWrites crc32c (round16 manifest.length) 64 blob ++
      pointerWrites (round16 manifest.length) 224)

/-- A manifest with its checksum, which is computed with its own bytes as zeros. -/
def sealed (crc32c : List UInt8 → UInt32) (manifest : List UInt8) : List UInt8 :=
  let manifest := put manifest 144 (replicate 4 0)
  put manifest 144 (u32Bytes (crc32c manifest))

theorem length_of_encodeBlob (h : t.encodeBlob = .ok blob) : blob.length = 160 := by
  obtain ⟨-, rfl⟩ := Table.encodeBlob_eq_ok.mp h
  exact Table.length_blob t

/-- **What is computed**, where nothing is refused. -/
theorem manifestTableRegion_of_encodeBlob (h : NoTable manifest) (hblob : t.encodeBlob = .ok blob) :
    manifestTableRegion crc32c manifest (some t)
      = .ok (sealed crc32c (withRegion crc32c manifest blob)) := by
  have hst : (manifest ++ replicate (round16 manifest.length - manifest.length)
      (0 : UInt8)).length = round16 manifest.length := by
    rw [length_append, length_replicate, Nat.add_sub_cancel' (le_round16 _)]
  have hbytes : ((do
        let value ← checkedSum (round16 descBytes) blob.length
        let value ← checkedSum value 15
        pure (value / 16 * 16)) : Option ℕ) = some 224 := by
    rw [length_of_encodeBlob hblob]
    decide
  unfold manifestTableRegion
  dsimp only
  rw [refuse_of_not (not_lt.mpr h.long), ok_bind, h.count, ok_bind,
    refuse_of_not (not_not_intro rfl), ok_bind, h.offset, ok_bind,
    refuse_of_not (not_not_intro rfl), ok_bind, h.bytes, ok_bind,
    refuse_of_not (not_not_intro rfl), ok_bind, hblob, ok_bind, hbytes, okOr_some, ok_bind, hst]
  rfl

/-! ## What the new manifest has -/

theorem length_grown (manifest : List UInt8) :
    (manifest ++ replicate (round16 manifest.length - manifest.length) 0 ++
      replicate 224 (0 : UInt8)).length = round16 manifest.length + 224 := by
  rw [length_append, length_append, length_replicate, length_replicate,
    Nat.add_sub_cancel' (le_round16 _)]

/-- The second of two writes to a place counts. -/
theorem put_put {b u v : List UInt8} {i : ℕ} (hi : i ≤ b.length) (huv : u.length = v.length) :
    put (put b i u) i v = put b i v := by
  have htak : (b.take i).length = i := by rw [length_take, Nat.min_eq_left hi]
  have hlen : (b.take i ++ u).length = i + v.length := by rw [length_append, htak, huv]
  unfold put
  rw [append_assoc (b.take i) u, take_left' htak, ← append_assoc, drop_left' hlen, huv]

theorem length_sealed {b : List UInt8} (h : 148 ≤ b.length) :
    (sealed crc32c b).length = b.length := by
  have hzer : (put b 144 (replicate 4 0)).length = b.length := length_put h
  unfold sealed
  rw [length_put (by rw [hzer]; exact h), hzer]

theorem slice_sealed {b : List UInt8} {i n : ℕ} (h : 148 ≤ b.length)
    (hap : 148 ≤ i ∨ i + n ≤ 144) : slice (sealed crc32c b) i n = slice b i n := by
  have hzer : (put b 144 (replicate 4 0)).length = b.length := length_put h
  unfold sealed
  rw [slice_put_of_apart (by rw [hzer]; exact h) hap, slice_put_of_apart h hap]

theorem put_sealed {b : List UInt8} (h : 148 ≤ b.length) :
    put (sealed crc32c b) 144 (replicate 4 0) = put b 144 (replicate 4 0) := by
  have hzer : (put b 144 (replicate 4 0)).length = b.length := length_put h
  unfold sealed
  rw [put_put (by rw [hzer]; omega) (by rw [length_u32Bytes, length_replicate]),
    put_put (by omega) rfl]

/-- **The checksum of a sealed manifest** is that of the manifest, with its own bytes as zeros. -/
theorem u32At_sealed {b : List UInt8} (h : 148 ≤ b.length) :
    u32At (sealed crc32c b) 144 = .ok (crc32c (put (sealed crc32c b) 144 (replicate 4 0))) := by
  have hzer : (put b 144 (replicate 4 0)).length = b.length := length_put h
  rw [put_sealed h]
  refine okOr_eq_ok.mpr (u32At?_of_slice ?_)
  exact slice_put_self (by rw [hzer]; exact h)

section Encoded

variable (hlong : 256 ≤ manifest.length) (hblob : blob.length = 160)

include hlong hblob

/-- The patches of the header, and the writes of the region. -/
theorem laid_withRegion :
    Laid 160 (round16 manifest.length + 224) (regionWrites crc32c (round16 manifest.length) 64 blob ++
      pointerWrites (round16 manifest.length) 224) := by
  have hrnd := le_round16 manifest.length
  have hld : Laid 160 (round16 manifest.length + 224)
      (pointerWrites (round16 manifest.length) 224 ++
        regionWrites crc32c (round16 manifest.length) 64 blob) := by
    refine Laid.of_inOrder ?_
    simp only [pointerWrites, regionWrites, cons_append, nil_append, Laid.InOrder,
      length_u32Bytes, length_u64Bytes, length_u16Bytes, hblob]
    omega
  exact hld.perm perm_append_comm

theorem length_withRegion :
    (withRegion crc32c manifest blob).length = round16 manifest.length + 224 := by
  have hgr := length_grown manifest
  unfold withRegion
  rw [length_puts fun w hw => ?_, hgr]
  rw [hgr]
  exact ((laid_withRegion hlong hblob).within w hw).2

/-- The region and its numbers are there. -/
theorem hasWrites_withRegion : HasWrites (withRegion crc32c manifest blob)
    (regionWrites crc32c (round16 manifest.length) 64 blob ++
      pointerWrites (round16 manifest.length) 224) := by
  refine @holds_puts _ _ 160 _ ?_
  rw [length_grown]
  exact laid_withRegion hlong hblob

omit hlong hblob in
theorem regionWrites_eq_map (start : ℕ) : regionWrites crc32c start 64 blob
    = (regionWrites crc32c 0 64 blob).map fun w => (start + w.1, w.2) := by
  simp [regionWrites]

/-- What is not written in the region is zero. -/
theorem slice_withRegion_zero {i n : ℕ} (hi : i + n ≤ 224)
    (hap : ∀ w ∈ regionWrites crc32c 0 64 blob, w.1 + w.2.length ≤ i ∨ i + n ≤ w.1) :
    slice (withRegion crc32c manifest blob) (round16 manifest.length + i) n = replicate n 0 := by
  have hrnd := le_round16 manifest.length
  have hld := @laid_withRegion crc32c _ _ hlong hblob
  have hlen : (manifest ++ replicate (round16 manifest.length - manifest.length)
      (0 : UInt8)).length = round16 manifest.length := by
    rw [length_append, length_replicate, Nat.add_sub_cancel' hrnd]
  unfold withRegion
  rw [slice_puts_of_apart, slice_append_right (by omega), hlen, Nat.add_sub_cancel_left,
    slice_replicate hi]
  · intro w hw
    rw [length_grown]
    exact (hld.within w hw).2
  · intro w hw
    rcases mem_append.mp hw with hw | hw
    · rw [regionWrites_eq_map] at hw
      obtain ⟨v, hv, rfl⟩ := mem_map.mp hw
      have := hap v hv
      dsimp only
      omega
    · -- the numbers of the header are before the region
      left
      simp only [pointerWrites, mem_cons, not_mem_nil, or_false] at hw
      rcases hw with rfl | rfl | rfl <;> simp <;> omega

/-- **The region**, with the descriptor, the blob, and zeros in between. -/
theorem hasWrites_region :
    HasWrites (slice (withRegion crc32c manifest blob) (round16 manifest.length) 224)
      (regionWrites crc32c 0 64 blob ++
        [(6, replicate 2 0), (12, replicate 4 0), (36, replicate 28 0)]) := by
  have hld : Laid 0 224 (regionWrites crc32c 0 64 blob) := by
    refine Laid.of_inOrder ?_
    simp only [regionWrites, Laid.InOrder, length_u32Bytes, length_u64Bytes, length_u16Bytes, hblob]
    omega
  refine HasWrites.append (fun w hw => ?_) fun z hz => ?_
  · rw [slice_slice ((hld.within w hw).2)]
    refine hasWrites_withRegion hlong hblob (round16 manifest.length + w.1, w.2)
      (mem_append_left _ ?_)
    rw [regionWrites_eq_map]
    exact mem_map.mpr ⟨w, hw, rfl⟩
  · simp only [mem_cons, not_mem_nil, or_false] at hz
    rcases hz with rfl | rfl | rfl
    all_goals
      rw [length_replicate, slice_slice (by decide)]
      refine slice_withRegion_zero hlong hblob (by decide) fun w hw => ?_
      simp only [regionWrites, mem_cons, not_mem_nil, or_false] at hw
      rcases hw with rfl | rfl | rfl | rfl | rfl | rfl | rfl <;> simp

end Encoded

/-! ## The table is found -/

/-- **The descriptor leads to the table**, and for another number it is skipped. -/
theorem tableAt_region {region : List UInt8} (hlen : region.length = 224)
    (hblob : t.encodeBlob = .ok blob) (h : HasWrites region (regionWrites crc32c 0 64 blob ++
      [(6, replicate 2 0), (12, replicate 4 0), (36, replicate 28 0)])) (id : UInt32) :
    tableAt region crc32c id codecId 0 = .ok (if id = tableId then some t else none) := by
  have hsiz := length_of_encodeBlob hblob
  have hzer (i n : ℕ) (hz : (i, replicate n (0 : UInt8)) ∈
      [(6, replicate 2 0), (12, replicate 4 0), (36, replicate 28 0)]) :
      slice region i n = replicate n 0 := by
    have hsl := h _ (mem_append_right _ hz)
    rwa [length_replicate] at hsl
  -- what the gaps have in them
  have hgap (i n j k : ℕ) (hjk : j + k ≤ n) (hz : (i, replicate n (0 : UInt8)) ∈
      [(6, replicate 2 0), (12, replicate 4 0), (36, replicate 28 0)]) :
      slice region (i + j) k = replicate k 0 := by
    rw [← slice_slice hjk, hzer i n hz, slice_replicate hjk]
  have hver : u16At region (0 + 6) = .ok 0 :=
    okOr_eq_ok.mpr (u16At?_of_slice (hgap 6 2 0 2 le_rfl (by simp)))
  have hfl : u32At region (0 + 12) = .ok 0 :=
    okOr_eq_ok.mpr (u32At?_of_slice (hgap 12 4 0 4 le_rfl (by simp)))
  have hsp : u32At region (0 + 36) = .ok 0 :=
    okOr_eq_ok.mpr (u32At?_of_slice (hgap 36 28 0 4 (by decide) (by simp)))
  have hres : slice region (0 + 40) 24 = replicate 24 0 :=
    hgap 36 28 4 24 (by decide) (by simp)
  -- the fields of the descriptor, and the blob
  have hid : u32At region 0 = .ok tableId := u32At_of_mem h (by simp [regionWrites])
  have hcod : u16At region (0 + 4) = .ok codecId := u16At_of_mem h (by simp [regionWrites])
  have hlay : i32At region (0 + 8) = .ok 0xffffffff := i32At_of_mem h (by simp [regionWrites])
  have hoff : u64At region (0 + 16) = .ok (UInt64.ofNat 64) :=
    u64At_of_mem h (by simp [regionWrites])
  have hbytes : u64At region (0 + 24) = .ok (UInt64.ofNat blob.length) :=
    u64At_of_mem h (by simp [regionWrites])
  have hcrc : u32At region (0 + 32) = .ok (crc32c blob) := u32At_of_mem h (by simp [regionWrites])
  have hdat : range? region (UInt64.ofNat 64).toNat 224 = some blob := by
    rw [range?_of_le (by decide) hlen.ge]
    have hsl := h (64, blob) (by simp [regionWrites])
    rw [hsiz] at hsl
    exact congrArg some hsl
  have hst : checkedSum (UInt64.ofNat 64).toNat (UInt64.ofNat blob.length).toNat = some 224 := by
    rw [hsiz]
    decide
  unfold tableAt
  rw [refuse_of_not (not_lt.mpr (by rw [hlen]; decide)), ok_bind, hid, ok_bind]
  by_cases heq : id = tableId
  · subst heq
    rw [if_neg (not_not_intro rfl), if_pos rfl, hcod, ok_bind, refuse_of_not (not_not_intro rfl),
      ok_bind, hver, ok_bind, refuse_of_not (not_not_intro rfl), ok_bind, hlay, ok_bind,
      refuse_of_not (not_not_intro rfl), ok_bind, hfl, ok_bind,
      refuse_of_not (not_not_intro rfl), ok_bind, hsp, ok_bind,
      refuse_of_not (not_not_intro rfl), ok_bind, hres,
      refuse_of_not (not_not_intro (by decide)), ok_bind, hoff, ok_bind, hbytes, ok_bind]
    dsimp only
    rw [hst, okOr_some, ok_bind, hdat,
      okOr_some, ok_bind, hcrc, ok_bind, refuse_of_not (not_not_intro rfl), ok_bind,
      Table.decodeBlob_encodeBlob hblob]
    rfl
  · rw [if_pos (Ne.symm heq), if_neg heq]
    rfl

/-- **A table is embedded** in a manifest that has none. -/
theorem embeds_withRegion (h : NoTable manifest) (hfit : manifest.length ≤ isizeMax)
    (hblob : t.encodeBlob = .ok blob) :
    Embeds crc32c manifest t (sealed crc32c (withRegion crc32c manifest blob)) := by
  have hlong := h.long
  have hsiz := length_of_encodeBlob hblob
  have hrnd := le_round16 manifest.length
  have hrnd' := round16_lt manifest.length
  have hwr : (withRegion crc32c manifest blob).length = round16 manifest.length + 224 :=
    length_withRegion hlong hsiz
  have hhdr : 148 ≤ (withRegion crc32c manifest blob).length := by omega
  have hlen : (sealed crc32c (withRegion crc32c manifest blob)).length
      = round16 manifest.length + 224 := (length_sealed hhdr).trans hwr
  have hmax : isizeMax + 240 ≤ usizeMax := by decide
  have hpnt : HasWrites (sealed crc32c (withRegion crc32c manifest blob))
      (pointerWrites (round16 manifest.length) 224) := by
    intro w hw
    have hsl := @hasWrites_withRegion crc32c _ _ hlong hsiz w (mem_append_right _ hw)
    have hpl : 148 ≤ w.1 := by
      simp only [pointerWrites, mem_cons, not_mem_nil, or_false] at hw
      rcases hw with rfl | rfl | rfl <;> simp
    rw [slice_sealed hhdr (Or.inl hpl), hsl]
  have hcount : u32At (sealed crc32c (withRegion crc32c manifest blob)) 160 = .ok 1 :=
    u32At_of_mem hpnt (by simp [pointerWrites])
  have hoff : u64At (sealed crc32c (withRegion crc32c manifest blob)) 168
      = .ok (UInt64.ofNat (round16 manifest.length)) :=
    u64At_of_mem hpnt (by simp [pointerWrites])
  have hbytes : u64At (sealed crc32c (withRegion crc32c manifest blob)) 176
      = .ok (UInt64.ofNat 224) := u64At_of_mem hpnt (by simp [pointerWrites])
  have hreg : range? (sealed crc32c (withRegion crc32c manifest blob))
      (round16 manifest.length) (round16 manifest.length + 224)
        = some (slice (withRegion crc32c manifest blob) (round16 manifest.length) 224) := by
    rw [range?_of_le (Nat.le_add_right _ _) hlen.ge, Nat.add_sub_cancel_left,
      slice_sealed hhdr (Or.inl (by omega))]
  refine ⟨fun id t' => ?_, fun i hi hpat => ?_, u32At_sealed hhdr⟩
  · have hfin := @tableAt_region crc32c _ _ _ (length_slice hwr.ge) hblob
      (hasWrites_region hlong hsiz) id
    have hst : checkedSum (UInt64.ofNat (round16 manifest.length)).toNat (UInt64.ofNat 224).toNat
        = some (round16 manifest.length + 224) := by
      rw [toNat_ofNat_of_le (by omega), toNat_ofNat_of_le (by decide)]
      exact checkedSum_of_le (by omega)
    have hrd : tableFromManifest crc32c (sealed crc32c (withRegion crc32c manifest blob)) id codecId
        = refuse (id = 0 ∨ codecId ≠ codecId) (.usage "invalid rANS codec/table reference") >>=
          fun _ => findTable (slice (withRegion crc32c manifest blob) (round16 manifest.length) 224)
            crc32c id codecId 1 0 := by
      unfold tableFromManifest
      rw [hcount, ok_bind, hoff, ok_bind, hbytes, ok_bind]
      dsimp only
      rw [hst, okOr_some, ok_bind, toNat_ofNat_of_le (by omega), hreg, okOr_some, ok_bind]
      rfl
    have hone : checkedProduct 0 64 = some 0 := by decide
    rw [hrd, findTable, hone, okOr_some, ok_bind, hfin, ok_bind]
    by_cases hid : id = tableId
    · subst hid
      rw [if_pos rfl, refuse_of_not (by decide), ok_bind]
      exact ⟨fun heq => ⟨rfl, (Except.ok.inj heq).symm⟩, fun heq => congrArg Except.ok heq.2.symm⟩
    · rw [if_neg hid]
      refine iff_of_false (fun heq => ?_) fun heq => hid heq.1
      obtain ⟨_, -, heq⟩ := bind_eq_ok.mp heq
      cases heq
  · have hpl : 148 ≤ i ∨ i + 1 ≤ 144 := by
      unfold Patched at hpat
      omega
    have hsld := congrArg (fun l => l[0]?) (@slice_sealed crc32c _ _ _ hhdr hpl)
    rw [getElem?_slice Nat.one_pos, getElem?_slice Nat.one_pos, Nat.add_zero] at hsld
    rw [hsld, withRegion, getElem?_puts_of_apart, append_assoc, List.getElem?_append_left hi]
    · intro w hw
      rw [length_grown]
      exact ((laid_withRegion hlong hsiz).within w hw).2
    · intro w hw
      rcases mem_append.mp hw with hw | hw
      · -- the region is behind the manifest
        rw [regionWrites_eq_map] at hw
        obtain ⟨v, -, rfl⟩ := mem_map.mp hw
        omega
      · unfold Patched at hpat
        simp only [pointerWrites, mem_cons, not_mem_nil, or_false] at hw
        rcases hw with rfl | rfl | rfl <;> simp <;> omega

end Region

/-- **The codec table of a manifest.** In every manifest that has none, a valid
table is embedded; without a table, the manifest is as before. -/
theorem manifestTableRegion_embeds (crc32c : List UInt8 → UInt32) (manifest : Vec 1 UInt8)
    (table : Option Table) (h : NoTable manifest.toList)
    (hvalid : ∀ t ∈ table, t.validate = .ok ()) :
    ∃ embedded, manifestTableRegion crc32c manifest.toList table = .ok embedded ∧
      (table = none → embedded = manifest.toList) ∧
      ∀ t ∈ table, Embeds crc32c manifest.toList t embedded := by
  have hfit : manifest.toList.length ≤ isizeMax := by
    have hfit := manifest.fits
    rwa [Nat.one_mul] at hfit
  cases table with
  | none => exact ⟨manifest.toList, rfl, fun _ => rfl, fun t ht => absurd ht (by simp)⟩
  | some t =>
    have hblob := Table.encodeBlob_eq_ok.mpr ⟨hvalid t rfl, rfl⟩
    refine ⟨_, manifestTableRegion_of_encodeBlob h hblob, (absurd · (Option.some_ne_none t)),
      fun t' ht' => ?_⟩
    cases ht'
    exact embeds_withRegion h hfit hblob

/-! ## The checksum is that of the whole manifest -/

/-- **Buffers that agree somewhere still agree there** when the same is written. -/
theorem getElem?_puts_congr {b a : List UInt8} {ws : List (Write UInt8)} {i : ℕ}
    (hlen : b.length = a.length) (h : ∀ w ∈ ws, w.1 + w.2.length ≤ b.length)
    (hi : b[i]? = a[i]?) : (puts b ws)[i]? = (puts a ws)[i]? := by
  induction ws generalizing b a with
  | nil => exact hi
  | cons w ws ih =>
    have hw := h w mem_cons_self
    have hb := length_put hw
    have hc := length_put (hlen ▸ hw : w.1 + w.2.length ≤ a.length)
    refine ih (hb.trans (hlen.trans hc.symm)) (fun v hv => ?_) ?_
    · rw [hb]
      exact h v (mem_cons_of_mem _ hv)
    · rw [getElem?_put hw, getElem?_put (hlen ▸ hw), hi]

theorem take_put {b v : List UInt8} {start n : ℕ} (h : start + v.length ≤ n) (hn : n ≤ b.length) :
    (put b start v).take n = put (b.take n) start v := by
  have hlen : (b.take n).length = n := by rw [length_take, Nat.min_eq_left hn]
  have hins : start + v.length ≤ (b.take n).length := h.trans_eq hlen.symm
  conv_lhs => rw [← take_append_drop n b, put_append_left hins]
  exact take_left' ((length_put hins).trans hlen)

/-- A table of one symbol. -/
def soleTable : Table where
  freq s := if s = 0 then scale else 0
  start s := if s = 0 then 0 else scale

theorem soleTable_valid : soleTable.validate = .ok () := by decide

/-- A header of zeros, and sixteen bytes. -/
def shortManifest (byte : UInt8) : Vec 1 UInt8 :=
  ⟨replicate 256 0 ++ byte :: replicate 15 0, by
    rw [length_append, length_cons, length_replicate, length_replicate]
    decide⟩

theorem length_shortManifest (byte : UInt8) : (shortManifest byte).toList.length = 272 := by
  show (replicate 256 0 ++ byte :: replicate 15 0).length = 272
  rw [length_append, length_cons, length_replicate, length_replicate]

theorem noTable_shortManifest (byte : UInt8) : NoTable (shortManifest byte).toList := by
  have hzer {i n : ℕ} (h : i + n ≤ 256) : slice (shortManifest byte).toList i n = replicate n 0 :=
    (slice_append_left (by rw [length_replicate]; exact h)).trans (slice_replicate h)
  refine ⟨by rw [length_shortManifest]; decide, ?_, ?_, ?_⟩
  · exact okOr_eq_ok.mpr (u32At?_of_slice (hzer (by decide)))
  · exact okOr_eq_ok.mpr (u64At?_of_slice (hzer (by decide)))
  · exact okOr_eq_ok.mpr (u64At?_of_slice (hzer (by decide)))

/-- The table of one symbol is embedded. -/
theorem manifestTableRegion_embeds_sole :
    ∃ embedded, manifestTableRegion crc32c (shortManifest 0).toList (some soleTable)
        = .ok embedded ∧
      ((some soleTable : Option Table) = none → embedded = (shortManifest 0).toList) ∧
      ∀ t ∈ some soleTable, Embeds crc32c (shortManifest 0).toList t embedded :=
  manifestTableRegion_embeds crc32c (shortManifest 0) (some soleTable)
    (noTable_shortManifest 0) fun _ ht => Option.some.inj ht ▸ soleTable_valid

/-- **The checksum is not that of the header.** Two manifests that only differ
behind their headers get different checksums. -/
theorem not_forall_checksum_of_header : ¬ ∀ (manifest : Vec 1 UInt8) (t : Table)
    (embedded : List UInt8), NoTable manifest.toList → t.validate = .ok () →
    manifestTableRegion crc32c manifest.toList (some t) = .ok embedded → u32At embedded 144
      = .ok (crc32c (put (slice embedded 0 256) 144 (replicate 4 0))) := by
  intro hall
  obtain ⟨blob, hblob⟩ : ∃ blob, soleTable.encodeBlob = .ok blob :=
    ⟨_, Table.encodeBlob_eq_ok.mpr ⟨soleTable_valid, rfl⟩⟩
  have hsiz := length_of_encodeBlob hblob
  -- the new manifests, with zeros instead of their checksums
  let zeroed (byte : UInt8) : List UInt8 :=
    put (withRegion crc32c (shortManifest byte).toList blob) 144 (replicate 4 0)
  have hlong (byte : UInt8) : 256 ≤ (shortManifest byte).toList.length :=
    (noTable_shortManifest byte).long
  have hwr (byte : UInt8) : (withRegion crc32c (shortManifest byte).toList blob).length = 496 := by
    rw [length_withRegion (hlong byte) hsiz, length_shortManifest]
    rfl
  have hhdr (byte : UInt8) : 148 ≤ (withRegion crc32c (shortManifest byte).toList blob).length := by
    rw [hwr]
    decide
  have hch (byte : UInt8) : crc32c (zeroed byte) = crc32c ((zeroed byte).take 256) := by
    have hst := hall (shortManifest byte) soleTable _ (noTable_shortManifest byte)
      soleTable_valid (manifestTableRegion_of_encodeBlob (noTable_shortManifest byte) hblob)
    rw [u32At_sealed (hhdr byte), put_sealed (hhdr byte)] at hst
    have hlen := (@length_sealed crc32c _ (hhdr byte)).trans (hwr byte)
    have htak := take_put (v := replicate 4 0) (by decide : 144 + 4 ≤ 256)
      (by rw [hlen]; decide : 256 ≤ _)
    rw [put_sealed (hhdr byte)] at htak
    exact (Except.ok.inj hst).trans (congrArg crc32c htak.symm)
  -- they are written to in the same way
  let patches : List (Write UInt8) := regionWrites crc32c 272 64 blob ++ pointerWrites 272 224 ++
    [(144, replicate 4 0)]
  have hzer (byte : UInt8) : zeroed byte
      = puts (replicate 256 0 ++ byte :: replicate 239 0) patches := by
    have hgr : (shortManifest byte).toList ++ replicate (round16 272 - 272) 0 ++
        replicate 224 0 = replicate 256 0 ++ byte :: replicate 239 0 := by
      show replicate 256 0 ++ byte :: replicate 15 0 ++ replicate 0 0 ++ replicate 224 0 = _
      rw [append_assoc, append_assoc, cons_append, replicate_append_replicate,
        replicate_append_replicate]
    show put (withRegion crc32c (shortManifest byte).toList blob) 144 _ = _
    unfold withRegion
    rw [length_shortManifest, hgr, puts_append]
    rfl
  have hpl : ∀ w ∈ patches, (w.1 + w.2.length ≤ 256 ∨ 256 + 1 ≤ w.1) ∧ w.1 + w.2.length ≤ 496 := by
    intro w hw
    simp only [patches, regionWrites, pointerWrites, cons_append, nil_append,
      mem_cons, not_mem_nil, or_false] at hw
    rcases hw with rfl | rfl | rfl | rfl | rfl | rfl | rfl | rfl | rfl | rfl | rfl <;> simp [hsiz]
  have hlen (byte : UInt8) : (replicate 256 0 ++ byte :: replicate 239 0).length = 496 := by
    rw [length_append, length_cons, length_replicate, length_replicate]
  have hins (byte : UInt8) : ∀ w ∈ patches, w.1 + w.2.length
      ≤ (replicate 256 0 ++ byte :: replicate 239 0).length := fun w hw => by
    rw [hlen]
    exact (hpl w hw).2
  have hbef : (replicate 256 (0 : UInt8)).length = 256 := length_replicate
  have hagr : ∀ i ≠ 256, (zeroed 0)[i]? = (zeroed 1)[i]? := by
    intro i hi
    rw [hzer, hzer]
    refine getElem?_puts_congr (by rw [hlen, hlen]) (hins 0) ?_
    rcases Nat.lt_or_ge i 256 with hlt | hge
    · rw [List.getElem?_append_left (by rw [hbef]; exact hlt),
        List.getElem?_append_left (by rw [hbef]; exact hlt)]
    · obtain ⟨k, rfl⟩ := Nat.exists_eq_add_of_lt (lt_of_le_of_ne hge hi.symm)
      rw [List.getElem?_append_right (by omega), List.getElem?_append_right (by omega), hbef,
        show 256 + k + 1 - 256 = k + 1 by omega, List.getElem?_cons_succ, List.getElem?_cons_succ]
  have hbyt (byte : UInt8) : (zeroed byte)[256]? = some byte := by
    rw [hzer, getElem?_puts_of_apart (hins byte) fun w hw => (hpl w hw).1,
      List.getElem?_append_right hbef.le, hbef]
    rfl
  have hhea : (zeroed 0).take 256 = (zeroed 1).take 256 := by
    refine ext_getElem? fun j => ?_
    rcases Nat.lt_or_ge j 256 with hlt | hge
    · rw [List.getElem?_take_of_lt hlt, List.getElem?_take_of_lt hlt, hagr j hlt.ne]
    · rw [List.getElem?_take_eq_none hge, List.getElem?_take_eq_none hge]
  obtain ⟨l, r, hl, hr⟩ := exists_split hagr (hbyt 0) (hbyt 1)
  have hsam := (hch 0).trans ((congrArg crc32c hhea).trans (hch 1).symm)
  rw [hl, hr] at hsam
  exact crc32c_ne (by decide) l r hsam

end Rans256

end Logan
