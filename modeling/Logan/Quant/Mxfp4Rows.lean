import Logan.Quant.Mxfp4
import Logan.Util.Chunks
import Logan.Util.Double
import Logan.Util.Fields
import Logan.Util.Filling

/-!
# Quantisers of rows

A row is quantised in groups of 32, and two codes are packed in a byte. The compiler
does so for the bytes of a BF16 row, and for the numbers of any row, one after the
other or eight at a time; and the runtime does it for the rows of a matrix, which it
shares out among threads.

All of them make the same bytes. The search for the nearest magnitude finds what
counting the middles that are passed finds, whatever the number is; the greatest
magnitude does not depend on the order; and since a group has an even number of
codes, it does not matter whether codes are packed by groups or by rows. Where the
runtime writes to places that it computes, each place is written with what belongs
there.
-/

namespace Logan

open List

namespace Mxfp4

open Single Result

/-! ## Elements -/

/-- `ColicError` -/
inductive ColicError where
  | usage (message : String)
  | unsupported (stage detail : String)
deriving DecidableEq

/-- `f32::from_bits(u32::from(bits) << 16)` -/
def widen (bits : UInt16) : UInt32 := bits.toUInt32 <<< 16

/-- The BF16 number at an offset. -/
def bf16At (bytes : List UInt8) (offset : ℕ) : UInt32 := widen (u16OfBytes (slice bytes offset 2))

/-! ## Packing -/

/-- Two codes in a byte. -/
def packByte (low high : UInt8) : UInt8 := (low &&& (0x0f : UInt8)) ||| ((high &&& 0x0f) <<< 4)

/-- `for pair in nibbles.chunks(2)` -/
def packPairs : List UInt8 → List UInt8
  | low :: high :: rest => packByte low high :: packPairs rest
  | [low] => [packByte low 0]
  | [] => []

/-- One round of the loop of `pack_group`, with a code that waits for the next one. -/
def packStep (state : List UInt8 × Option UInt8) (code : UInt8) : List UInt8 × Option UInt8 :=
  match state.2 with
  | none => (state.1, some (code &&& (0x0f : UInt8)))
  | some low => (state.1 ++ [low ||| ((code &&& 0x0f) <<< 4)], none)

/-- `pack_group` -/
def packGroup (codes out : List UInt8) : List UInt8 :=
  let state := codes.foldl packStep (out, none)
  state.1 ++ state.2.toList

/-! ## Rows of the compiler -/

/-- A number of a row, which has to be finite. -/
def readFinite (rowBytes : List UInt8) (column : ℕ) : Except ColicError UInt32 := do
  let value := bf16At rowBytes (column * 2)
  refuse (isFinite value = false)
    (.usage s!"MXFP4 quantization refuses non-finite BF16 value at column {column}")
  pure value

/-- **`quantize_bf16_row`**. The columns are taken in groups of 32. -/
def quantizeBf16Row (rowBytes packed scales : List UInt8) :
    Except ColicError (List UInt8 × List UInt8) := do
  refuse (rowBytes.length % 2 ≠ 0)
    (.usage "BF16 row has an odd byte count during MXFP4 quantization")
  let groups ← (chunks groupSize (List.range (rowBytes.length / 2))).mapM fun columns => do
    let values ← columns.mapM (readFinite rowBytes)
    let (code, scale) := chooseScale values
    pure (code, values.map fun value => quantizeValue value scale)
  pure (packed ++ packPairs (groups.flatMap Prod.snd), scales ++ groups.map Prod.fst)

/-- The loop of `quantize_f32_row`, for a way to find the scale of a group, and one to
find its codes. -/
def quantizeGroups (scaleOf : List UInt32 → UInt8 × UInt32)
    (codesOf : List UInt32 → UInt32 → List UInt8) (values : List UInt32)
    (packed scales : List UInt8) : Except ColicError (List UInt8 × List UInt8) :=
  (chunks groupSize values).foldlM (fun out chunk => do
    refuse (chunk.all isFinite = false)
      (.usage "MXFP4 quantization refuses a non-finite source value")
    let (code, scale) := scaleOf chunk
    pure (packGroup (codesOf chunk scale) out.1, out.2 ++ [code])) (packed, scales)

/-! ## Eight lanes -/

/-- `THRESHOLDS` -/
def thresholds : List (ℚ × Bool) :=
  [(1 / 4, false), (3 / 4, true), (5 / 4, false), (7 / 4, true), (5 / 2, false), (7 / 2, true),
    (5, false)]

/-- `_mm256_andnot_ps`, of the sign bit. -/
def clearSign (bits : UInt32) : UInt32 := ~~~0x80000000 &&& bits

/-- `_mm256_max_ps` -/
def maxLane (a b : UInt32) : UInt32 := if value b < value a then a else b

/-- `max_abs_avx2`: the lanes, then all lanes, then the rest. -/
def maxAbsAvx2 (values : List UInt32) : UInt32 :=
  let acc := (chunksExact 8 values).foldl
    (fun acc lanes => List.zipWith maxLane acc (lanes.map clearSign)) (List.replicate 8 0)
  let best := acc.foldl (fun best lane => if value best < value lane then lane else best) 0
  (values.drop (8 * (values.length / 8))).foldl
    (fun best v => if value best < value (fabs v) then fabs v else best) best

/-- `hit`, in the loop of `codes_avx2`. -/
def Reached (magnitude : ℚ) (threshold : ℚ × Bool) : Prop :=
  if threshold.2 then threshold.1 ≤ magnitude else threshold.1 < magnitude

instance (magnitude : ℚ) (threshold : ℚ × Bool) : Decidable (Reached magnitude threshold) :=
  inferInstanceAs (Decidable (ite _ _ _))

/-- A lane of the loop of `codes_avx2`. The sum of ones is converted to an integer. -/
def laneCode (scale bits : UInt32) : UInt8 :=
  let quotient := value (clearSign bits) / value scale
  let magnitude := if quotient < maxE2m1 then quotient else maxE2m1
  let code : ℚ := thresholds.foldl (fun code threshold =>
    code + if Reached magnitude threshold then 1 else 0) 0
  let packed := UInt32.ofNat (Double.nearest code).toNat
  (packed ||| ((bits >>> 31) <<< 3)).toUInt8

/-- `codes_avx2` -/
def codesAvx2 (values : List UInt32) (scale : UInt32) : List UInt8 :=
  (chunksExact 8 values).flatMap (fun lanes => lanes.map (laneCode scale))
    ++ (values.drop (8 * (values.length / 8))).map fun value => quantizeValue value scale

/-- **`quantize_f32_row`**, with AVX2 or without. -/
def quantizeF32Row (avx2 : Bool) : List UInt32 → List UInt8 → List UInt8 →
    Except ColicError (List UInt8 × List UInt8) :=
  if avx2 then quantizeGroups (fun chunk => chooseScaleFromMax (maxAbsAvx2 chunk)) codesAvx2
  else quantizeGroups chooseScale fun chunk scale => chunk.map
    fun value => quantizeValue value scale

/-! ## Rows of any type -/

/-- Decoders of the elements that are not BF16. -/
structure ElementDecoders where
  e4m3ToF32 : UInt8 → UInt32
  f16ToF32 : UInt16 → UInt32

/-- `dtype_element_bytes` -/
def dtypeElementBytes (dtype : String) : Option ℕ :=
  if dtype = "BF16" ∨ dtype = "F16" then some 2
  else if dtype = "F32" then some 4
  else if dtype = "F8_E4M3" ∨ dtype = "F8_E4M3FN" then some 1
  else none

/-- An element of a row. -/
def decodeElement (D : ElementDecoders) (dtype : String) (rowBytes : List UInt8) (offset : ℕ) :
    UInt32 :=
  if dtype = "BF16" then bf16At rowBytes offset
  else if dtype = "F16" then D.f16ToF32 (u16OfBytes (slice rowBytes offset 2))
  else if dtype = "F32" then u32OfBytes (slice rowBytes offset 4)
  else D.e4m3ToF32 (rowBytes.getD offset 0)

/-- **`quantize_row`** -/
def quantizeRow (D : ElementDecoders) (avx2 : Bool) (rowBytes : List UInt8) (dtype : String)
    (packed scales : List UInt8) : Except ColicError (List UInt8 × List UInt8) := do
  let elem ← okOr (dtypeElementBytes dtype) (.unsupported "MXFP4 quantization"
    s!"source dtype `{dtype}` has no decoder for the BF16 -> MXFP4 pass")
  refuse (rowBytes.length % elem ≠ 0)
    (.usage s!"{dtype} row has {rowBytes.length} bytes, not a multiple of its {elem}-byte element")
  let values := (List.range (rowBytes.length / elem)).map fun i =>
    decodeElement D dtype rowBytes (i * elem)
  quantizeF32Row avx2 values packed scales

/-! ## Rows of the runtime -/

/-- `mxfp4_choose_scale`, written as `choose_scale_from_max` is. -/
def mxfp4ChooseScale (maxAbs : UInt32) : UInt8 × UInt32 := chooseScaleFromMax maxAbs

/-- `mxfp4_quantize_value`, written as `quantize_value` is. -/
def mxfp4QuantizeValue (bits scale : UInt32) : UInt8 := quantizeValue bits scale

/-- The greatest magnitude of some columns of a row, of those that are finite. -/
def maxAbsColumns (src : List UInt8) (columns : List ℕ) : UInt32 :=
  columns.foldl (fun maxAbs column =>
    let value := bf16At src (column * 2)
    if isFinite value then fmax maxAbs (fabs value) else maxAbs) 0

/-- Two codes of a group, of which the second may be beyond its end. -/
def columnByte (src : List UInt8) (scale : UInt32) (stop column : ℕ) : UInt8 :=
  (mxfp4QuantizeValue (bf16At src (column * 2)) scale &&& (0x0f : UInt8)) |||
    if column + 1 < stop then
      (mxfp4QuantizeValue (bf16At src ((column + 1) * 2)) scale &&& 0x0f) <<< 4
    else 0

/-- One group of a row, in the loop of `quantize_bf16_to_mxfp4`. -/
def quantizeGroupInto (cols : ℕ) (src : List UInt8) (out : List UInt8 × List UInt8) (group : ℕ) :
    List UInt8 × List UInt8 :=
  let start := group * groupSize
  let stop := min (start + groupSize) cols
  let (code, scale) := mxfp4ChooseScale (maxAbsColumns src (List.range' start (stop - start)))
  let dst := (List.range ((stop - start + 1) / 2)).foldl (fun dst i =>
    let column := start + 2 * i
    dst.set (column / 2) (columnByte src scale stop column)) out.1
  (dst, out.2.set group code)

/-- One row, whose bytes and scales are written to their places. -/
def quantizeRowInto (cols : ℕ) (row : (List UInt8 × List UInt8) × List UInt8) :
    List UInt8 × List UInt8 :=
  (List.range row.2.length).foldl (quantizeGroupInto cols row.1.1) (row.1.2, row.2)

/-- **`quantize_bf16_to_mxfp4`**, where no variable of the environment is set, on a machine that
runs so many threads at once. Each thread has some rows, and places of its own to write to. -/
def quantizeBf16ToMxfp4 (available : ℕ) (weights : List UInt8) (rows cols : ℕ) :
    Option (List UInt8 × List UInt8) := do
  let size ← checkedProduct rows cols >>= fun n => checkedProduct n 2
  if rows = 0 ∨ cols = 0 ∨ weights.length ≠ size then none
  else do
    let srcRowBytes := cols * 2
    let packedRowBytes := (cols + 1) / 2
    let scaleRowBytes := (cols + groupSize - 1) / groupSize
    let packedSize ← checkedProduct rows packedRowBytes
    let scaleSize ← checkedProduct rows scaleRowBytes
    let nthreads := min available rows
    let rowsPer := (rows + nthreads - 1) / nthreads
    let parts := ((chunks (srcRowBytes * rowsPer) weights).zip
      (chunks (packedRowBytes * rowsPer) (List.replicate packedSize 0))).zip
      (chunks (scaleRowBytes * rowsPer) (List.replicate scaleSize 0))
    let written := parts.map fun part =>
      (((chunksExact srcRowBytes part.1.1).zip (chunks packedRowBytes part.1.2)).zip
        (chunks scaleRowBytes part.2)).map (quantizeRowInto cols)
    pure (written.flatMap fun out => out.flatMap Prod.fst,
      written.flatMap fun out => out.flatMap Prod.snd)

/-! ## Packing by groups and by rows -/

theorem packGroup_eq (codes out : List UInt8) : packGroup codes out = out ++ packPairs codes := by
  unfold packGroup
  dsimp only
  induction codes using packPairs.induct generalizing out with
  | case1 low high rest ih =>
    refine (ih (out ++ [packByte low high])).trans ?_
    rw [append_assoc]
    rfl
  | case2 low =>
    show out ++ [low &&& 0x0f] = out ++ [packByte low 0]
    rw [packByte]
    simp
  | case3 => rfl

/-- **An even number of codes** is packed apart from the codes after them. -/
theorem packPairs_append {codes codes' : List UInt8} (h : codes.length % 2 = 0) :
    packPairs (codes ++ codes') = packPairs codes ++ packPairs codes' := by
  induction codes using packPairs.induct with
  | case1 low high rest ih =>
    rw [length_cons, length_cons] at h
    show packByte low high :: packPairs (rest ++ codes') = _
    rw [ih (by omega)]
    rfl
  | case2 => exact absurd h Nat.one_ne_zero
  | case3 => rfl

theorem length_packPairs (codes : List UInt8) :
    (packPairs codes).length = (codes.length + 1) / 2 := by
  induction codes using packPairs.induct with
  | case1 low high rest ih =>
    rw [packPairs, length_cons, ih, length_cons, length_cons]
    omega
  | case2 =>
    rw [packPairs, length_singleton, length_singleton]
  | case3 => rfl

/-- **The high nibble that is not used is zero.** -/
theorem getLast_packPairs {codes : List UInt8} (h : codes.length % 2 = 1) :
    ∃ (init : List UInt8) (low : UInt8), packPairs codes = init ++ [low] ∧ low >>> 4 = 0 := by
  induction codes using packPairs.induct with
  | case1 low high rest ih =>
    rw [length_cons, length_cons] at h
    obtain ⟨init, last, heq, hzer⟩ := ih (by omega)
    exact ⟨packByte low high :: init, last, by rw [packPairs, heq, cons_append], hzer⟩
  | case2 low =>
    refine ⟨[], packByte low 0, rfl, ?_⟩
    have hle : low.toNat &&& 15 < 2 ^ 4 := Nat.lt_succ_of_le Nat.and_le_right
    have hbyt : packByte low 0 = low &&& 0x0f := by simp [packByte]
    rw [hbyt, ← UInt8.toNat_inj, UInt8.toNat_shiftRight, UInt8.toNat_and]
    show (low.toNat &&& 15) >>> 4 = 0
    rw [Nat.shiftRight_eq_div_pow, Nat.div_eq_of_lt hle]
  | case3 => exact absurd h (by decide)

/-! ## What a row is quantised to -/

/-- The codes of a row. -/
def rowCodes (values : List UInt32) : List UInt8 :=
  (chunks groupSize values).flatMap fun group =>
    group.map fun value => quantizeValue value (chooseScale group).2

/-- The scales of a row. -/
def rowScales (values : List UInt32) : List UInt8 :=
  (chunks groupSize values).map fun group => (chooseScale group).1

theorem groupSize_pos : 0 < groupSize := by decide

variable {values : List UInt32}

theorem rowCodes_of_ne_nil (h : values ≠ []) :
    rowCodes values = ((values.take groupSize).map fun value =>
      quantizeValue value (chooseScale (values.take groupSize)).2)
        ++ rowCodes (values.drop groupSize) := by
  unfold rowCodes
  rw [chunks_of_ne_nil groupSize_pos h, flatMap_cons]

theorem rowScales_of_ne_nil (h : values ≠ []) :
    rowScales values = (chooseScale (values.take groupSize)).1
      :: rowScales (values.drop groupSize) := by
  unfold rowScales
  rw [chunks_of_ne_nil groupSize_pos h, map_cons]

theorem rowCodes_nil : rowCodes [] = [] := rfl

theorem length_rowCodes (values : List UInt32) : (rowCodes values).length = values.length := by
  induction values using chunks_induction groupSize_pos with
  | hnil => rfl
  | hdr values hne ih =>
    rw [rowCodes_of_ne_nil hne, length_append, ih, length_map, ← length_append, take_append_drop]

theorem length_rowScales (values : List UInt32) :
    (rowScales values).length = (values.length + groupSize - 1) / groupSize := by
  rw [rowScales, length_map, length_chunks]

/-- **Codes that are packed by groups** are packed as a row. -/
theorem packPairs_rowCodes (h : values ≠ []) :
    packPairs (rowCodes values) = packPairs ((values.take groupSize).map fun value =>
      quantizeValue value (chooseScale (values.take groupSize)).2)
        ++ packPairs (rowCodes (values.drop groupSize)) := by
  rw [rowCodes_of_ne_nil h]
  rcases Nat.lt_or_ge values.length groupSize with hlt | hge
  · rw [drop_eq_nil_of_le (le_of_lt hlt), rowCodes_nil, List.append_nil]
    exact (List.append_nil _).symm
  · refine packPairs_append ?_
    rw [length_map, length_take, Nat.min_eq_left hge]
    rfl

/-- **The loop over the groups** makes the codes and the scales of the row, if it finds the
scale and the codes of each group as they are. -/
theorem quantizeGroups_eq_ok {scaleOf : List UInt32 → UInt8 × UInt32}
    {codesOf : List UInt32 → UInt32 → List UInt8}
    (hscale : ∀ group, scaleOf group = chooseScale group)
    (hcodes : ∀ group scale, codesOf group scale = group.map fun value => quantizeValue value scale)
    (hfin : ∀ v ∈ values, isFinite v = true) (packed scales : List UInt8) :
    quantizeGroups scaleOf codesOf values packed scales
      = .ok (packed ++ packPairs (rowCodes values), scales ++ rowScales values) := by
  unfold quantizeGroups
  induction values using chunks_induction groupSize_pos generalizing packed scales with
  | hnil =>
    rw [rowCodes_nil, chunks_nil groupSize_pos]
    show Except.ok (packed, scales) = .ok (packed ++ [], scales ++ [])
    rw [List.append_nil, List.append_nil]
  | hdr values hne ih =>
    have hgroup : (values.take groupSize).all isFinite = true :=
      all_eq_true.mpr fun v hv => hfin v (mem_of_mem_take hv)
    have hrest := ih fun v hv => hfin v (mem_of_mem_drop hv)
    rw [chunks_of_ne_nil groupSize_pos hne, foldlM_cons, hgroup,
      refuse_of_not nofun, ok_bind, hscale]
    dsimp only
    rw [pure_eq, ok_bind, hcodes, packGroup_eq, hrest, packPairs_rowCodes hne,
      rowScales_of_ne_nil hne, append_assoc, append_assoc]
    rfl

/-! ## Lanes -/

theorem clearSign_eq (bits : UInt32) : clearSign bits = fabs bits := by
  rw [clearSign, fabs, UInt32.and_comm]
  rfl

/-- **The greatest of each lane** is below what all of them are below. -/
theorem zipWith_maxLane_le {n : ℕ} {acc lanes : List UInt32} (hlen : acc.length = lanes.length)
    (hacc : ∀ a ∈ acc, a.toNat < 2 ^ 31) (hlan : ∀ b ∈ lanes, b.toNat < 2 ^ 31) :
    (∀ a ∈ List.zipWith maxLane acc lanes, a.toNat ≤ n) ↔
      (∀ a ∈ acc, a.toNat ≤ n) ∧ ∀ b ∈ lanes, b.toNat ≤ n := by
  induction acc generalizing lanes with
  | nil =>
    cases lanes with
    | nil => simp
    | cons => cases hlen
  | cons a acc ih =>
    cases lanes with
    | nil => cases hlen
    | cons b =>
      rw [forall_mem_cons] at hacc hlan
      have hmax : (maxLane a b).toNat = Nat.max b.toNat a.toNat := toNat_fmax hlan.1 hacc.1
      rw [zipWith_cons_cons, forall_mem_cons, forall_mem_cons, forall_mem_cons,
        ih (Nat.succ_inj.mp hlen) hacc.2 hlan.2, hmax]
      refine (and_congr_left' Nat.max_le).trans ?_
      rw [and_comm (a := b.toNat ≤ n), and_and_and_comm]

/-- **A loop over eight numbers at a time** is below what they all are below. -/
theorem foldl_maxLane_le {k n : ℕ} {rows : List (List UInt32)} {acc : List UInt32}
    (hrow : ∀ lanes ∈ rows, lanes.length = k) (hlen : acc.length = k)
    (hacc : ∀ a ∈ acc, a.toNat < 2 ^ 31) :
    (∀ a ∈ rows.foldl (fun acc lanes => List.zipWith maxLane acc (lanes.map clearSign)) acc,
      a.toNat ≤ n) ↔ (∀ a ∈ acc, a.toNat ≤ n) ∧ ∀ v ∈ rows.flatten, (fabs v).toNat ≤ n := by
  induction rows generalizing acc with
  | nil => simp
  | cons lanes rows ih =>
    rw [forall_mem_cons] at hrow
    have hsam : acc.length = (lanes.map clearSign).length := by
      rw [length_map, hlen, hrow.1]
    have hlan : ∀ b ∈ lanes.map clearSign, b.toNat < 2 ^ 31 := by
      intro b hb
      obtain ⟨v, -, rfl⟩ := mem_map.mp hb
      rw [clearSign_eq]
      exact toNat_fabs_lt v
    have hnex : ∀ a ∈ List.zipWith maxLane acc (lanes.map clearSign), a.toNat ≤ 2 ^ 31 - 1 :=
      (zipWith_maxLane_le hsam hacc hlan).mpr
        ⟨fun a ha => Nat.le_pred_of_lt (hacc a ha), fun b hb => Nat.le_pred_of_lt (hlan b hb)⟩
    rw [foldl_cons, ih hrow.2 (by rw [length_zipWith, ← hsam, Nat.min_self, hlen])
      (fun a ha => Nat.lt_of_le_pred (by decide) (hnex a ha)),
      zipWith_maxLane_le hsam hacc hlan, forall_mem_map, flatten_cons,
      forall_mem_append, and_assoc]
    simp only [clearSign_eq]

/-- **The greatest magnitude does not depend on the order** in which it is looked for. -/
theorem maxAbsAvx2_eq (values : List UInt32) : maxAbsAvx2 values = greatestAbs values := by
  rw [← UInt32.toNat_inj]
  refine eq_of_forall_ge_iff fun n => ?_
  have hzer : ∀ a ∈ List.replicate 8 (0 : UInt32), a.toNat ≤ 0 := fun a ha => by
    rw [eq_of_mem_replicate ha]
    exact le_rfl
  have hlan := fun n => @foldl_maxLane_le 8 n (chunksExact 8 values) (List.replicate 8 0)
    (fun _ => length_of_mem_chunksExact) length_replicate
    fun a ha => (hzer a ha).trans_lt (by decide)
  have hacc := (hlan (2 ^ 31 - 1)).mpr ⟨fun a ha => (hzer a ha).trans (Nat.zero_le _),
      fun v _ => Nat.le_pred_of_lt (toNat_fabs_lt v)⟩
  have hbes := fun n => @foldl_fmax_le _ (fun lane => lane) _ 0 n (by decide)
    fun a ha => Nat.lt_of_le_pred (by decide) (hacc a ha)
  have hlt := ((hbes (2 ^ 31 - 1)).mpr ⟨Nat.zero_le _, hacc⟩).trans_lt
    (show 2 ^ 31 - 1 < 2 ^ 31 by decide)
  have hzr : (∀ a ∈ List.replicate 8 (0 : UInt32), a.toNat ≤ n) ↔ True :=
    iff_true_intro fun a ha => (hzer a ha).trans (Nat.zero_le n)
  refine (foldl_fmax_le hlt fun v _ => toNat_fabs_lt v).trans ?_
  rw [hbes, hlan, hzr, true_and, greatestAbs_le_iff, flatten_chunksExact,
    and_iff_right (show (0 : UInt32).toNat ≤ n from Nat.zero_le n), ← forall_mem_append,
    take_append_drop]

/-- The middles that are thresholds, and whether they count as passed. -/
theorem thresholds_eq :
    thresholds = (List.range 7).map fun i => (middle e2m1 i, decide (Even (i + 1))) := by
  decide +kernel

/-- A sum of ones counts what they stand for. -/
theorem foldl_ones {A : Type} {p : A → Prop} [DecidablePred p] {l : List A} (start : ℚ) :
    l.foldl (fun code a => code + if p a then 1 else 0) start
      = start + (l.countP fun a => decide (p a) : ℕ) := by
  induction l generalizing start with
  | nil => rw [foldl_nil, countP_nil, Nat.cast_zero, add_zero]
  | cons a l ih =>
    rw [foldl_cons, ih, countP_cons]
    by_cases ha : p a
    · rw [if_pos ha, if_pos (decide_eq_true ha)]
      push_cast
      ring
    · rw [if_neg ha, if_neg (by simpa using ha), add_zero, Nat.add_zero]

theorem nearest_natCast (c : ℕ) : Double.nearest (c : ℚ) = c := by
  unfold Double.nearest
  rw [Int.floor_natCast, Int.cast_natCast, sub_self, if_pos (by norm_num)]

theorem reached_iff (x : ℚ) (i : ℕ) :
    Reached x (middle e2m1 i, decide (Even (i + 1))) ↔ Passes e2m1 x i := by
  unfold Reached Passes
  by_cases h : Even (i + 1)
  · rw [if_pos (decide_eq_true h), if_pos h]
  · rw [if_neg (by simpa using h), if_neg h]

/-- **As many thresholds are reached** as magnitudes are below the nearest one. -/
theorem countP_thresholds {x : ℚ} {c : ℕ} (hc : Nearest e2m1 7 x c) :
    thresholds.countP (fun threshold => decide (Reached x threshold)) = c := by
  rw [thresholds_eq, countP_map]
  refine Eq.trans (countP_congr fun i _ => ?_)
    ((nearest_count e2m1_strictMonoOn).unique e2m1_strictMonoOn hc)
  rw [Function.comp_apply, decide_eq_true_iff, decide_eq_true_iff]
  exact reached_iff x i

/-- The sign bit, next to a code. -/
theorem toNat_withSign {c : ℕ} (hc : c ≤ 7) (bits : UInt32) :
    (UInt32.ofNat c ||| ((bits >>> 31) <<< 3)).toUInt8.toNat
      = c + if isSignNegative bits then 8 else 0 := by
  have hbit : bits >>> 31 = 0 ∨ bits >>> 31 = 1 := by
    have hlt := bits.toNat_lt
    have hsh : (bits >>> 31).toNat = bits.toNat / 2 ^ 31 := by
      rw [UInt32.toNat_shiftRight]
      exact Nat.shiftRight_eq_div_pow _ _
    have hcas : (bits >>> 31).toNat = 0 ∨ (bits >>> 31).toNat = 1 := by omega
    exact hcas.imp UInt32.toNat_inj.mp fun h => UInt32.toNat_inj.mp h
  have hfin : ∀ c : Fin 8, (UInt32.ofNat c.val ||| ((0 : UInt32) <<< 3)).toUInt8.toNat = c.val ∧
      (UInt32.ofNat c.val ||| ((1 : UInt32) <<< 3)).toUInt8.toNat = c.val + 8 := by decide
  obtain ⟨hzer, hone⟩ := hfin ⟨c, Nat.lt_succ_of_le hc⟩
  unfold isSignNegative
  rcases hbit with h | h
  · rwa [h]
  · rw [h]
    exact hone

/-- **A lane has the code that the search finds.** -/
theorem laneCode_eq (scale bits : UInt32) : laneCode scale bits = quantizeValue bits scale := by
  obtain ⟨c, hc, hq⟩ := quantizeValue_nearest bits scale
  have hmin : ∀ q : ℚ, (if q < maxE2m1 then q else maxE2m1) = min q maxE2m1 := by
    intro q
    split_ifs with h
    · exact (min_eq_left (le_of_lt h)).symm
    · exact (min_eq_right (not_lt.mp h)).symm
  rw [← UInt8.toNat_inj, hq]
  unfold laneCode
  dsimp only
  rw [clearSign_eq, hmin]
  refine Eq.trans ?_ (toNat_withSign hc.le bits)
  rw [foldl_ones, countP_thresholds hc, zero_add, nearest_natCast, Int.toNat_natCast]

/-- **The codes of a group**, eight at a time. -/
theorem codesAvx2_eq (values : List UInt32) (scale : UInt32) :
    codesAvx2 values scale = values.map fun value => quantizeValue value scale := by
  have hlan : laneCode scale = fun value => quantizeValue value scale :=
    funext fun bits => laneCode_eq scale bits
  unfold codesAvx2
  rw [hlan, flatMap_def, ← map_flatten, flatten_chunksExact, ← List.map_append, take_append_drop]

/-- **A row is quantised** to its codes and its scales, with AVX2 or without. -/
theorem quantizeF32Row_eq_ok (avx2 : Bool) (hfin : ∀ v ∈ values, isFinite v = true)
    (packed scales : List UInt8) : quantizeF32Row avx2 values packed scales
      = .ok (packed ++ packPairs (rowCodes values), scales ++ rowScales values) := by
  unfold quantizeF32Row
  cases avx2 with
  | true =>
    rw [if_pos rfl]
    exact quantizeGroups_eq_ok (fun group => congrArg chooseScaleFromMax (maxAbsAvx2_eq group))
      codesAvx2_eq hfin packed scales
  | false =>
    rw [if_neg Bool.false_ne_true]
    exact quantizeGroups_eq_ok (fun _ => rfl) (fun _ _ => rfl) hfin packed scales

/-! ## Bytes of a row -/

/-- The bytes of a row of BF16 numbers. -/
def bf16Bytes (row : List UInt16) : List UInt8 := (row.map u16Bytes).flatten

theorem length_bf16Bytes (row : List UInt16) : (bf16Bytes row).length = 2 * row.length := by
  unfold bf16Bytes
  rw [@length_flatten_of_rows _ 2, length_map]
  exact forall_mem_map.mpr fun bits _ => length_u16Bytes bits

variable {row : List UInt16}

/-- **The numbers that are read** from the bytes of a row. -/
theorem bf16At_bf16Bytes {column : ℕ} (h : column < row.length) :
    bf16At (bf16Bytes row) (column * 2) = widen row[column] := by
  unfold bf16At bf16Bytes
  have hrow : ∀ r ∈ row.map u16Bytes, r.length = 2 :=
    forall_mem_map.mpr fun bits _ => length_u16Bytes bits
  have hdr : (row.map u16Bytes).drop column
      = u16Bytes row[column] :: (row.map u16Bytes).drop (column + 1) := by
    rw [drop_eq_getElem_cons (by rw [length_map]; exact h), getElem_map]
  rw [slice, Nat.mul_comm, drop_flatten_of_rows hrow, hdr, flatten_cons,
    take_left' (length_u16Bytes _), u16OfBytes_u16Bytes]

theorem map_bf16At (row : List UInt16) :
    (List.range row.length).map (fun column => bf16At (bf16Bytes row) (column * 2))
      = row.map widen := by
  refine ext_getElem (by simp) fun i hi _ => ?_
  rw [length_map, length_range] at hi
  rw [getElem_map, getElem_map, getElem_range, bf16At_bf16Bytes hi]

/-- A group of numbers, quantised. -/
def quantizedGroup (values : List UInt32) : UInt8 × List UInt8 :=
  ((chooseScale values).1, values.map fun value => quantizeValue value (chooseScale values).2)

/-- A row of finite BF16 numbers. -/
def FiniteRow (row : List UInt16) : Prop := ∀ bits ∈ row, isFinite (widen bits) = true

theorem FiniteRow.widen (h : FiniteRow row) :
    ∀ v ∈ row.map widen, isFinite v = true := forall_mem_map.mpr h

/-- **The bytes of a row are quantised** to the codes and the scales of its numbers. -/
theorem quantizeBf16Row_eq_ok (hfin : FiniteRow row) (packed scales : List UInt8) :
    quantizeBf16Row (bf16Bytes row) packed scales
      = .ok (packed ++ packPairs (rowCodes (row.map widen)),
        scales ++ rowScales (row.map widen)) := by
  have hlen := length_bf16Bytes row
  have hrd : ∀ column < row.length, readFinite (bf16Bytes row) column
      = .ok (bf16At (bf16Bytes row) (column * 2)) := by
    intro column hcol
    unfold readFinite
    dsimp only
    rw [bf16At_bf16Bytes hcol, hfin _ (getElem_mem hcol), refuse_of_not nofun, ok_bind]
    rfl
  have hgr : (chunks groupSize (List.range row.length)).map (fun columns =>
        quantizedGroup (columns.map fun column => bf16At (bf16Bytes row) (column * 2)))
      = (chunks groupSize (row.map Mxfp4.widen)).map quantizedGroup := by
    rw [← map_bf16At, chunks_map, map_map]
    rfl
  unfold quantizeBf16Row
  rw [hlen, refuse_of_not (by omega), ok_bind, Nat.mul_div_cancel_left _ two_pos]
  refine bind_eq_ok.mpr ⟨(chunks groupSize (List.range row.length)).map fun columns =>
    quantizedGroup (columns.map fun column => bf16At (bf16Bytes row) (column * 2)),
    mapM_eq_ok.mpr ?_, ?_⟩
  · rw [List.forall₂_map_right_iff, List.forall₂_same]
    intro columns hclm
    refine bind_eq_ok.mpr ⟨_, mapM_eq_ok.mpr ?_, rfl⟩
    rw [List.forall₂_map_right_iff, List.forall₂_same]
    intro column hcol
    have hmem := mem_flatten.mpr ⟨columns, hclm, hcol⟩
    rw [flatten_chunks groupSize_pos] at hmem
    exact hrd column (mem_range.mp hmem)
  · rw [hgr, flatMap_map, map_map]
    rfl

/-- **The same of a row whose type is given.** -/
theorem quantizeRow_eq_ok (D : ElementDecoders) (avx2 : Bool) (hfin : FiniteRow row)
    (packed scales : List UInt8) : quantizeRow D avx2 (bf16Bytes row) "BF16" packed scales
      = .ok (packed ++ packPairs (rowCodes (row.map widen)),
        scales ++ rowScales (row.map widen)) := by
  have hlen := length_bf16Bytes row
  have hval : (List.range ((bf16Bytes row).length / 2)).map (fun i =>
      decodeElement D "BF16" (bf16Bytes row) (i * 2)) = row.map Mxfp4.widen := by
    rw [hlen, Nat.mul_div_cancel_left _ two_pos, ← map_bf16At]
    rfl
  have hel : dtypeElementBytes "BF16" = some 2 := if_pos (Or.inl rfl)
  unfold quantizeRow
  rw [hel, okOr_some, ok_bind, refuse_of_not (by omega), ok_bind]
  dsimp only
  rw [hval]
  exact quantizeF32Row_eq_ok avx2 hfin.widen packed scales

/-! ## Rows that are written in place -/

/-- The numbers of a group. -/
def groupOf (values : List UInt32) (group : ℕ) : List UInt32 :=
  (values.drop (group * groupSize)).take groupSize

/-- **The codes of a row**, one by one. -/
theorem getElem?_rowCodes {column : ℕ} (h : column < values.length) :
    (rowCodes values)[column]? = some (quantizeValue values[column]
      (chooseScale (groupOf values (column / groupSize))).2) := by
  induction values using chunks_induction groupSize_pos generalizing column with
  | hnil => exact absurd h (Nat.not_lt_zero _)
  | hdr values hne ih =>
    rw [rowCodes_of_ne_nil hne]
    rcases Nat.lt_or_ge column groupSize with hlt | hge
    · have hgroup : groupOf values (column / groupSize) = values.take groupSize := by
        rw [groupOf, Nat.div_eq_of_lt hlt, Nat.zero_mul, drop_zero]
      rw [List.getElem?_append_left (by rw [length_map, length_take]; omega),
        List.getElem?_map, List.getElem?_take_of_lt hlt, List.getElem?_eq_getElem h, hgroup]
      rfl
    · have hlength : ((values.take groupSize).map fun value =>
          quantizeValue value (chooseScale (values.take groupSize)).2).length = groupSize := by
        rw [length_map, length_take]
        omega
      have hrest : column - groupSize < (values.drop groupSize).length := by
        rw [length_drop]
        omega
      have hgroup : groupOf (values.drop groupSize) ((column - groupSize) / groupSize)
          = groupOf values (column / groupSize) := by
        have hdiv : column / groupSize = (column - groupSize) / groupSize + 1 := by
          rw [← Nat.add_div_right _ groupSize_pos, Nat.sub_add_cancel hge]
        rw [groupOf, groupOf, drop_drop, hdiv, Nat.succ_mul, Nat.add_comm groupSize]
      rw [List.getElem?_append_right (hlength.trans_le hge), hlength, ih hrest, hgroup]
      simp only [getElem_drop, Nat.add_sub_cancel' hge]

variable {group : ℕ}

theorem getElem?_rowScales (h : group < (values.length + groupSize - 1) / groupSize) :
    (rowScales values)[group]? = some (chooseScale (groupOf values group)).1 := by
  unfold rowScales chunks
  rw [List.getElem?_map, List.getElem?_map, List.getElem?_range h, groupOf, Nat.mul_comm]
  rfl

/-- **The bytes of a row**, one by one. -/
theorem getElem?_packPairs (codes : List UInt8) (place : ℕ) :
    (packPairs codes)[place]? = codes[2 * place]?.map fun low =>
      packByte low (codes.getD (2 * place + 1) 0) := by
  induction codes using packPairs.induct generalizing place with
  | case1 low high rest ih =>
    cases place with
    | zero => rfl
    | succ =>
      rw [packPairs, List.getElem?_cons_succ, ih]
      rfl
  | case2 =>
    cases place with
    | zero | succ => rfl
  | case3 => rfl

theorem map_bf16At_range' {start size : ℕ} (h : start + size ≤ row.length) :
    (List.range' start size).map (fun column => bf16At (bf16Bytes row) (column * 2))
      = ((row.map widen).drop start).take size := by
  refine ext_getElem (by simp; omega) fun i hi _ => ?_
  rw [length_map, length_range'] at hi
  rw [getElem_map, getElem_take, getElem_drop, getElem_map,
    getElem_range', Nat.one_mul, bf16At_bf16Bytes]

theorem map_bf16At_group (row : List UInt16) (h : group * groupSize ≤ row.length) :
    (List.range' (group * groupSize)
        (min (group * groupSize + groupSize) row.length - group * groupSize)).map
        (fun column => bf16At (bf16Bytes row) (column * 2)) = groupOf (row.map widen) group := by
  rw [map_bf16At_range' (by omega), groupOf]
  refine take_eq_take_iff.mpr ?_
  rw [length_drop, length_map]
  omega

/-- **The greatest magnitude** of the columns of a group. -/
theorem maxAbsColumns_eq (hfin : FiniteRow row) (h : group * groupSize ≤ row.length) :
    maxAbsColumns (bf16Bytes row) (List.range' (group * groupSize)
        (min (group * groupSize + groupSize) row.length - group * groupSize))
      = greatestAbs (groupOf (row.map widen) group) := by
  rw [← map_bf16At_group row h, greatestAbs, foldl_map]
  refine foldl_ext _ _ _ fun maxAbs column hcol => ?_
  have hlt : column < row.length := by
    have hmem := mem_range'_1.mp hcol
    omega
  dsimp only
  rw [bf16At_bf16Bytes hlt, hfin _ (getElem_mem hlt), if_pos rfl]

/-- **The byte of two columns** is that of their codes. -/
theorem columnByte_eq {i : ℕ}
    (h : group * groupSize + 2 * i < min (group * groupSize + groupSize) row.length) :
    columnByte (bf16Bytes row) (chooseScale (groupOf (row.map widen) group)).2
        (min (group * groupSize + groupSize) row.length) (group * groupSize + 2 * i)
      = (packPairs (rowCodes (row.map widen))).getD ((group * groupSize + 2 * i) / 2) 0 := by
  have hsiz : groupSize = 32 := rfl
  obtain ⟨hgr, hrow⟩ := lt_min_iff.mp h
  have hcod : ∀ column, group * groupSize ≤ column → column < group * groupSize + groupSize →
      ∀ hlt : column < row.length, (rowCodes (row.map Mxfp4.widen))[column]?
        = some (quantizeValue (Mxfp4.widen row[column])
          (chooseScale (groupOf (row.map Mxfp4.widen) group)).2) := by
    intro column hlow hhig hlt
    have hdiv : column / groupSize = group := Nat.div_eq_of_lt_le hlow (by rwa [Nat.succ_mul])
    rw [getElem?_rowCodes (by rwa [length_map]), hdiv, getElem_map]
  have hpl : 2 * ((group * groupSize + 2 * i) / 2) = group * groupSize + 2 * i := by
    rw [hsiz]
    omega
  rw [getD_eq_getElem?_getD, getElem?_packPairs, hpl,
    hcod _ (Nat.le_add_right _ _) hgr hrow, Option.map_some, Option.getD_some]
  unfold columnByte packByte mxfp4QuantizeValue
  rw [bf16At_bf16Bytes hrow]
  refine congrArg _ ?_
  by_cases hnex : group * groupSize + 2 * i + 1 < min (group * groupSize + groupSize) row.length
  · obtain ⟨hgr', hrow'⟩ := lt_min_iff.mp hnex
    rw [if_pos hnex, bf16At_bf16Bytes hrow', getD_eq_getElem?_getD,
      hcod _ (by omega) hgr' hrow', Option.getD_some]
  · -- the group has an even number of columns, so that this is the end of the row
    have hend : (rowCodes (row.map Mxfp4.widen)).length ≤ group * groupSize + 2 * i + 1 := by
      rw [length_rowCodes, length_map]
      rw [hsiz] at hgr hnex ⊢
      omega
    rw [if_neg hnex, getD_eq_default _ _ hend]
    rfl

/-- **One group** is written to its places. -/
theorem quantizeGroupInto_filled (hfin : FiniteRow row) {packed scales : List UInt8}
    (hgr : group * groupSize < row.length) {done done' : ℕ → Prop}
    {out : List UInt8 × List UInt8}
    (hpac : Filled packed (fun place => (packPairs (rowCodes (row.map widen))).getD place 0)
      done out.1)
    (hsc : Filled scales (fun group => (rowScales (row.map widen)).getD group 0) done' out.2) :
    Filled packed (fun place => (packPairs (rowCodes (row.map widen))).getD place 0)
        (fun place => done place ∨ group * groupSize ≤ 2 * place ∧
          2 * place < min (group * groupSize + groupSize) row.length)
        (quantizeGroupInto row.length (bf16Bytes row) out group).1 ∧
      Filled scales (fun group => (rowScales (row.map widen)).getD group 0)
        (fun i => done' i ∨ i = group)
        (quantizeGroupInto row.length (bf16Bytes row) out group).2 := by
  have hsiz : groupSize = 32 := rfl
  have hch : mxfp4ChooseScale (maxAbsColumns (bf16Bytes row) (List.range' (group * groupSize)
        (min (group * groupSize + groupSize) row.length - group * groupSize)))
      = chooseScale (groupOf (row.map Mxfp4.widen) group) := by
    rw [mxfp4ChooseScale, maxAbsColumns_eq hfin (le_of_lt hgr)]
    rfl
  have hcount : group < ((row.map Mxfp4.widen).length + groupSize - 1) / groupSize := by
    rw [length_map]
    rw [hsiz] at hgr ⊢
    omega
  have hscale : (chooseScale (groupOf (row.map Mxfp4.widen) group)).1
      = (rowScales (row.map Mxfp4.widen)).getD group 0 := by
    rw [getD_eq_getElem?_getD, getElem?_rowScales hcount, Option.getD_some]
  unfold quantizeGroupInto
  dsimp only
  rw [hch]
  refine ⟨?_, hscale ▸ hsc.set group⟩
  refine (@Filled.foldl _ _ _ _ _ _ _ _ (fun i place => place = (group * groupSize + 2 * i) / 2)
    (fun i hi done b hb => ?_) hpac).congr fun place => or_congr_right ⟨?_, ?_⟩
  · have hlt := mem_range.mp hi
    rw [columnByte_eq (by omega)]
    exact hb.set _
  · rintro ⟨i, hi, rfl⟩
    have hlt := mem_range.mp hi
    rw [hsiz] at hlt ⊢
    omega
  · rintro ⟨hlow, hhig⟩
    refine ⟨place - group * groupSize / 2, mem_range.mpr ?_, ?_⟩
    · rw [hsiz] at hlow hhig ⊢
      omega
    · rw [hsiz] at hlow ⊢
      omega

/-- **The first groups** are written to their places. -/
theorem quantizeGroupsInto_filled (hfin : FiniteRow row) (packed scales : List UInt8) {n : ℕ}
    (hn : n * groupSize < row.length + groupSize) :
    Filled packed (fun place => (packPairs (rowCodes (row.map widen))).getD place 0)
        (fun place => 2 * place < min (n * groupSize) row.length)
        ((List.range n).foldl (quantizeGroupInto row.length (bf16Bytes row)) (packed, scales)).1 ∧
      Filled scales (fun group => (rowScales (row.map widen)).getD group 0) (fun i => i < n)
        ((List.range n).foldl (quantizeGroupInto row.length (bf16Bytes row))
          (packed, scales)).2 := by
  induction n with
  | zero =>
    refine ⟨(Filled.refl packed _).congr fun place => ?_,
      (Filled.refl scales _).congr fun i => (iff_false_intro (Nat.not_lt_zero i)).symm⟩
    rw [Nat.zero_mul, Nat.zero_min]
    exact (iff_false_intro (Nat.not_lt_zero _)).symm
  | succ n ih =>
    rw [Nat.succ_mul] at hn
    obtain ⟨hpac, hsc⟩ := ih (by omega)
    obtain ⟨hpac, hsc⟩ :=
      quantizeGroupInto_filled hfin (Nat.lt_of_add_lt_add_right hn) hpac hsc
    rw [range_succ, foldl_append]
    refine ⟨hpac.congr fun place => ?_, hsc.congr fun i => Nat.lt_succ_iff_lt_or_eq.symm⟩
    rw [Nat.succ_mul n]
    omega

/-- **A row that is written in place** has the bytes and the scales of its numbers. -/
theorem quantizeRowInto_eq (hfin : FiniteRow row) {packed scales : List UInt8}
    (hpac : packed.length = (row.length + 1) / 2)
    (hsc : scales.length = (row.length + groupSize - 1) / groupSize) :
    quantizeRowInto row.length ((bf16Bytes row, packed), scales)
      = (packPairs (rowCodes (row.map widen)), rowScales (row.map widen)) := by
  have hsiz : groupSize = 32 := rfl
  have hcod : (packPairs (rowCodes (row.map Mxfp4.widen))).length = packed.length := by
    rw [length_packPairs, length_rowCodes, length_map, hpac]
  have hcount : (rowScales (row.map Mxfp4.widen)).length = scales.length := by
    rw [length_rowScales, length_map, hsc]
  have hall : row.length ≤ scales.length * groupSize ∧
      scales.length * groupSize < row.length + groupSize := by
    rw [hsc, hsiz]
    omega
  obtain ⟨hfil, hfil'⟩ := quantizeGroupsInto_filled hfin packed scales hall.2
  refine Prod.ext ?_ ?_
  · exact hfil.eq_of_done hcod fun place hpl => by omega
  · exact hfil'.eq_of_done hcount fun i hi => hi

/-! ## Matrices -/

/-- The bytes and the scales of a row of BF16 numbers. -/
def quantizedRow (row : List UInt16) : List UInt8 × List UInt8 :=
  (packPairs (rowCodes (row.map widen)), rowScales (row.map widen))

/-- **The rows of one thread** are written to its places. -/
theorem quantizeRowsInto_eq {cols : ℕ} (hcol : 0 < cols) {rows : List (List UInt16)}
    (hrws : ∀ row ∈ rows, row.length = cols ∧ FiniteRow row) :
    (((chunksExact (cols * 2) (rows.map bf16Bytes).flatten).zip (chunks ((cols + 1) / 2)
          (rows.map fun _ => List.replicate ((cols + 1) / 2) (0 : UInt8)).flatten)).zip
        (chunks ((cols + groupSize - 1) / groupSize)
          (rows.map fun _ => List.replicate ((cols + groupSize - 1) / groupSize)
            (0 : UInt8)).flatten)).map (quantizeRowInto cols) = rows.map quantizedRow := by
  have hsiz : groupSize = 32 := rfl
  have hbytes : ∀ r ∈ rows.map bf16Bytes, r.length = cols * 2 :=
    forall_mem_map.mpr fun row hrow => by
      rw [length_bf16Bytes, (hrws row hrow).1, Nat.mul_comm]
  have hzer : ∀ n, ∀ r ∈ rows.map fun _ => List.replicate n (0 : UInt8), r.length = n :=
    fun n => forall_mem_map.mpr fun _ _ => length_replicate
  rw [chunksExact_flatten (by omega) hbytes, chunks_flatten (by omega) (hzer _),
    chunks_flatten (by rw [hsiz]; omega) (hzer _), zip_map', zip_map', map_map]
  refine map_congr_left fun row hrow => ?_
  obtain ⟨hlen, hfin⟩ := hrws row hrow
  rw [← hlen]
  exact quantizeRowInto_eq hfin length_replicate length_replicate

/-- **A matrix is quantised row by row**, on any number of threads. -/
theorem quantizeBf16ToMxfp4_eq {available cols : ℕ} {rows : List (List UInt16)}
    (hav : 0 < available) (hne : rows ≠ []) (hcol : 0 < cols)
    (hrws : ∀ row ∈ rows, row.length = cols ∧ FiniteRow row)
    (hmax : rows.length * cols * 2 ≤ usizeMax) :
    quantizeBf16ToMxfp4 available (rows.flatMap bf16Bytes) rows.length cols
      = some (rows.flatMap fun row => (quantizedRow row).1,
        rows.flatMap fun row => (quantizedRow row).2) := by
  have hsiz : groupSize = 32 := rfl
  have hcount : 0 < rows.length := length_pos_of_ne_nil hne
  have hbytes : ∀ r ∈ rows.map bf16Bytes, r.length = cols * 2 :=
    forall_mem_map.mpr fun row hrow => by
      rw [length_bf16Bytes, (hrws row hrow).1, Nat.mul_comm]
  have hwgh : (rows.map bf16Bytes).flatten.length = rows.length * cols * 2 := by
    rw [length_flatten_of_rows hbytes, length_map]
    ring
  have hpac : rows.length * ((cols + 1) / 2) ≤ usizeMax :=
    (Nat.mul_le_mul_left _ (by omega : (cols + 1) / 2 ≤ cols)).trans (by omega)
  have hsc : rows.length * ((cols + groupSize - 1) / groupSize) ≤ usizeMax := by
    refine (Nat.mul_le_mul_left _ (?_ : _ ≤ cols)).trans (by omega)
    rw [hsiz]
    omega
  -- each thread has at least one row
  have hper : 0 < (rows.length + min available rows.length - 1) / min available rows.length := by
    have hthr : 0 < min available rows.length := lt_min hav hcount
    exact Nat.div_pos (by omega) hthr
  have hzer : ∀ n, ∀ r ∈ rows.map fun _ => List.replicate n (0 : UInt8), r.length = n :=
    fun n => forall_mem_map.mpr fun _ _ => length_replicate
  have hfl : ∀ n, List.replicate (rows.length * n) (0 : UInt8)
      = (rows.map fun _ => List.replicate n (0 : UInt8)).flatten := by
    intro n
    rw [map_const', flatten_replicate_replicate]
  have hwh : (checkedProduct rows.length cols >>= fun n => checkedProduct n 2)
      = some (rows.length * cols * 2) := by
    rw [checkedProduct_of_le (by omega)]
    exact checkedProduct_of_le hmax
  unfold quantizeBf16ToMxfp4
  rw [flatMap_def, hwgh]
  refine Option.bind_eq_some_iff.mpr ⟨_, hwh, ?_⟩
  rw [if_neg (by omega)]
  refine Option.bind_eq_some_iff.mpr ⟨_, checkedProduct_of_le hpac, ?_⟩
  refine Option.bind_eq_some_iff.mpr ⟨_, checkedProduct_of_le hsc, ?_⟩
  dsimp only
  rw [hfl, hfl, chunks_mul_flatten (by omega) hper hbytes,
    chunks_mul_flatten (by omega) hper (hzer _),
    chunks_mul_flatten (by rw [hsiz]; omega) hper (hzer _), chunks_map, chunks_map, chunks_map,
    map_map, map_map, map_map, zip_map', zip_map', map_map]
  -- the threads have all rows, in their order
  have hthr : ∀ f : List UInt8 × List UInt8 → List UInt8, ∀ k, 0 < k →
      ((chunks k rows).map fun part => part.map quantizedRow).flatMap (fun out => out.flatMap f)
        = rows.flatMap fun row => f (quantizedRow row) := by
    intro f k hk
    have hrws := flatten_chunks hk rows
    rw [← flatMap_id] at hrws
    rw [flatMap_map]
    simp only [flatMap_map]
    conv => rhs; rw [← hrws, flatMap_assoc]
    rfl
  rw [← hthr _ _ hper, ← hthr _ _ hper]
  have hpar := fun part hprt => @quantizeRowsInto_eq _ hcol part fun row hrow =>
    hrws row (by
      rw [← flatten_chunks hper rows]
      exact mem_flatten.mpr ⟨part, hprt, hrow⟩)
  rw [← map_congr_left hpar]
  rfl

/-! ## All make the same -/

/-- **A row that is quantised**: its bytes and scales are what the compiler puts out for it,
whichever way it goes about it. -/
structure QuantizedRow (row : List UInt16) (out : List UInt8 × List UInt8) : Prop where
  length_packed : out.1.length = (row.length + 1) / 2
  length_scales : out.2.length = (row.length + 31) / 32
  high_nibble : row.length % 2 = 1 →
    ∃ (init : List UInt8) (last : UInt8), out.1 = init ++ [last] ∧ last >>> 4 = 0
  bf16_row : ∀ packed scales,
    quantizeBf16Row (bf16Bytes row) packed scales = .ok (packed ++ out.1, scales ++ out.2)
  f32_row : ∀ avx2 packed scales,
    quantizeF32Row avx2 (row.map widen) packed scales = .ok (packed ++ out.1, scales ++ out.2)
  row : ∀ D avx2 packed scales, quantizeRow D avx2 (bf16Bytes row) "BF16" packed scales
    = .ok (packed ++ out.1, scales ++ out.2)

theorem quantizedRow_spec (hfin : FiniteRow row) : QuantizedRow row (quantizedRow row) where
  length_packed := by
    show (packPairs (rowCodes (row.map Mxfp4.widen))).length = _
    rw [length_packPairs, length_rowCodes, length_map]
  length_scales := by
    show (rowScales (row.map Mxfp4.widen)).length = _
    rw [length_rowScales, length_map]
    rfl
  high_nibble hodd := getLast_packPairs (by rwa [length_rowCodes, length_map])
  bf16_row := quantizeBf16Row_eq_ok hfin
  f32_row avx2 := quantizeF32Row_eq_ok avx2 hfin.widen
  row D avx2 := quantizeRow_eq_ok D avx2 hfin

/-- **All quantisers agree**: each row of finite numbers has bytes and scales that the compiler
makes of it, by whichever function, and that the runtime makes of it as a row of a matrix, on
any number of threads. -/
theorem quantizers_agree : ∃ out : List UInt16 → List UInt8 × List UInt8,
    (∀ row, row ≠ [] → FiniteRow row → QuantizedRow row (out row)) ∧
    ∀ available cols (rows : List (List UInt16)), 0 < available → rows ≠ [] → 0 < cols →
      (∀ row ∈ rows, row.length = cols ∧ FiniteRow row) → rows.length * cols * 2 ≤ usizeMax →
      quantizeBf16ToMxfp4 available (rows.flatMap bf16Bytes) rows.length cols
        = some (rows.flatMap fun row => (out row).1, rows.flatMap fun row => (out row).2) :=
  ⟨quantizedRow, fun _ _ hfin => quantizedRow_spec hfin,
    fun _ _ _ hav hne hcol hrow hmax =>
      quantizeBf16ToMxfp4_eq hav hne hcol hrow hmax⟩

/-- Two rows of 33 numbers: a whole group, and one of a single number. -/
def oddRows : List (List UInt16) :=
  [List.replicate 33 0x3f80, (List.range 33).map fun i => 0xbf80 + UInt16.ofNat i]

/-- Both are quantised, also on four threads. -/
theorem quantizers_agree_odd : ∃ out : List UInt16 → List UInt8 × List UInt8,
    (∀ row ∈ oddRows, QuantizedRow row (out row)) ∧
    quantizeBf16ToMxfp4 4 (oddRows.flatMap bf16Bytes) 2 33
      = some (oddRows.flatMap fun row => (out row).1, oddRows.flatMap fun row => (out row).2) := by
  obtain ⟨out, hrow, hmat⟩ := quantizers_agree
  have hfin : ∀ row ∈ oddRows, row.length = 33 ∧ FiniteRow row := by
    have hall : (oddRows.all fun row => row.length == 33 && row.all fun bits =>
        isFinite (widen bits)) = true := by decide +kernel
    simp only [all_eq_true, Bool.and_eq_true, beq_iff_eq] at hall
    exact hall
  refine ⟨out, fun row hmem => hrow row ?_ (hfin row hmem).2, hmat 4 33 oddRows (by decide)
    (cons_ne_nil _ _) (by decide) hfin (by decide)⟩
  rintro rfl
  exact nomatch (hfin [] hmem).1

end Mxfp4

end Logan
