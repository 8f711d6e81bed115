import Logan.Coding.RansGuarded
import Logan.Format.RansAgreement

/-!
# The reader of coded records does not panic

The reader of coded records indexes its buffers, and computes with words of
32 and of 64 bits. Here is the reader once more, with every one of these
operations as one that may panic – and, where it decodes a record, with the
memory that it requests. None of them ever does: on any bytes, the
reader does the same as the one that ignores panics. A table that is valid has
frequencies that sum up to the scale, so that a state never leaves 32 bits; the
offsets of a record that is parsed are those of its streams.

The memory of the tables, which is of one size for all, is not modelled.
-/

namespace Logan

open List
open Metered.Follows (reserve_bind returns_bind)

namespace RansReader

open Result Format

section Tables

open Fault

namespace Guarded

/-! ## Tables -/

/-- The loop of `RansTable::validate`. -/
def validateFrom (t : RansTable) : List Nibble → ℕ → Except (Fault FormatError) ℕ
  | [], cursor => .ok cursor
  | i :: rest, cursor => do
    lift (refuse (t.start i ≠ cursor) (invalid "rANS start offsets are not contiguous"))
    let cursor ← orPanic (checkedSum cursor (t.freq i))
    lift (refuse (cursor > scale) (invalid "rANS cumulative frequencies overflow M"))
    validateFrom t rest cursor

/-- `RansTable::validate` -/
def validate (t : RansTable) : Except (Fault FormatError) Unit := do
  let total ← orPanic (fitting usizeMax ((List.finRange 16).map t.freq).sum)
  lift (refuse (total ≠ scale) (invalid "rANS frequencies do not sum to M"))
  let cursor ← validateFrom t (List.finRange 16) 0
  lift (refuse (cursor ≠ scale) (invalid "rANS cumulative frequencies do not cover M"))

/-- `RansTable::decode_blob` -/
def decodeBlob (blob : List UInt8) : Except (Fault FormatError) RansTable := do
  let bad := invalid "invalid rANS256-g0-nibble codec table blob"
  lift (refuse (blob.length ≠ tableBlobBytes) bad)
  lift (refuse (range? blob 0 8 ≠ some tableMagic) bad)
  lift (refuse ((← lift (u16At blob 8)) ≠ 1) bad)
  lift (refuse ((← lift (u16At blob 10)).toNat ≠ scaleBits) bad)
  lift (refuse ((← lift (u32At blob 12)).toNat ≠ nStreams) bad)
  lift (refuse ((← lift (u32At blob 16)).toNat ≠ autoMinSavingsBps) bad)
  lift (refuse ((← lift (u32At blob 20)).toNat ≠ autoMinSavingsBytes) bad)
  let reserved ← orPanic (range? blob 24 32)
  lift (refuse (anyNonzero reserved) bad)
  let fields ← (List.finRange 16).mapM fun symbol => do
    let freq ← lift (u32At blob (32 + symbol.val * 4))
    let start ← lift (u32At blob (96 + symbol.val * 4))
    pure (freq.toNat, start.toNat)
  let table : RansTable :=
    ⟨fun s => (fields.getD s.val (0, 0)).1, fun s => (fields.getD s.val (0, 0)).2⟩
  validate table
  pure table

/-- One descriptor of the table region. `none`: it is that of another table. -/
def tableAt (region : List UInt8) (crc32c : List UInt8 → UInt32) (tableId : UInt32)
    (codec : UInt16) (desc : ℕ) : Except (Fault FormatError) (Option RansTable) := do
  let stop ← orPanic (checkedSum desc 64)
  lift (refuse (stop > region.length) (invalid "truncated codec table descriptor"))
  if (← lift (u32At region desc)) ≠ tableId then pure none
  else do
    let bad := invalid "invalid rANS codec table descriptor"
    lift (refuse ((← lift (u16At region (desc + 4))) ≠ codec) bad)
    lift (refuse ((← lift (u16At region (desc + 6))) ≠ 0) bad)
    lift (refuse ((← lift (i32At region (desc + 8))) ≠ 0xffffffff) bad)
    lift (refuse ((← lift (u32At region (desc + 12))) ≠ 0) bad)
    lift (refuse ((← lift (u32At region (desc + 36))) ≠ 0) bad)
    let reserved ← orPanic (range? region (desc + 40) (desc + 64))
    lift (refuse (anyNonzero reserved) bad)
    let dataOffset := (← lift (u64At region (desc + 16))).toNat
    let dataBytes := (← lift (u64At region (desc + 24))).toNat
    let blobEnd ← lift (okOr (checkedSum dataOffset dataBytes)
      (usage "codec table data span overflows usize"))
    let blob ← lift (okOr (range? region dataOffset blobEnd)
      (usage "codec table data is outside region"))
    lift (refuse (crc32c blob ≠ (← lift (u32At region (desc + 32))))
      (invalid "codec table CRC32C mismatch"))
    some <$> decodeBlob blob

/-- `n` descriptors of the table region, from descriptor `index` on. -/
def findTable (region : List UInt8) (crc32c : List UInt8 → UInt32) (tableId : UInt32)
    (codec : UInt16) : ℕ → ℕ → Except (Fault FormatError) RansTable
  | 0, _ => lift (.error (invalid s!"missing rANS codec table {tableId.toNat}"))
  | n + 1, index => do
    let desc ← lift (okOr (checkedProduct index 64) (usage "codec table descriptor overflows"))
    match ← tableAt region crc32c tableId codec desc with
    | some table => pure table
    | none => findTable region crc32c tableId codec n (index + 1)

/-- `RansTable::from_manifest` -/
def fromManifest (crc32c : List UInt8 → UInt32) (manifest : List UInt8) (tableId : UInt32)
    (codec : UInt16) : Except (Fault FormatError) RansTable := do
  lift (refuse (tableId = 0 ∨ codec ≠ codecId) (invalid "invalid rANS codec/table reference"))
  let count ← lift (u32At manifest 160)
  let regionOffset := (← lift (u64At manifest 168)).toNat
  let regionBytes := (← lift (u64At manifest 176)).toNat
  let regionEnd ← lift (okOr (checkedSum regionOffset regionBytes)
    (usage "codec table region overflows usize"))
  let region ← lift (okOr (range? manifest regionOffset regionEnd)
    (usage "codec table region is outside manifest"))
  findTable region crc32c tableId codec count.toNat 0

end Guarded

/-! ## Reading a table does not panic -/

theorem freq_le_sum (t : RansTable) (s : Nibble) : t.freq s ≤ ((List.finRange 16).map t.freq).sum :=
  single_le_sum (fun _ _ => Nat.zero_le _) _ (mem_map_of_mem (mem_finRange s))

theorem validateFrom_eq_lift {t : RansTable} (h : ∀ s, t.freq s ≤ scale) {l : List Nibble}
    {cursor : ℕ} (hcur : cursor ≤ scale) :
    Guarded.validateFrom t l cursor = lift (Table.validateFrom t l cursor) := by
  have hfit : scale + scale ≤ usizeMax := by decide
  induction l generalizing cursor with
  | nil => rfl
  | cons s rest ih =>
    rw [Guarded.validateFrom, Table.validateFrom]
    refine bind_eq_lift fun _ _ => ?_
    have hs := h s
    rw [orPanic_bind (checkedSum_of_le (by omega))]
    exact bind_eq_lift fun _ hle => ih (not_lt.mp (refuse_eq_ok.mp hle))

theorem sum_freq_le {t : RansTable} (h : ∀ s, t.freq s ≤ u32Max) :
    ((List.finRange 16).map t.freq).sum ≤ usizeMax := by
  have hsum := sum_le_card_nsmul ((List.finRange 16).map t.freq) u32Max fun n hn => by
    obtain ⟨s, -, rfl⟩ := mem_map.mp hn
    exact h s
  refine hsum.trans ?_
  rw [length_map, length_finRange]
  norm_num [u32Max, usizeMax]

/-- Frequencies of 32 bits are summed up without a panic. -/
theorem validate_eq_lift {t : RansTable} (h : ∀ s, t.freq s ≤ u32Max) :
    Guarded.validate t = lift (Table.validate t) := by
  unfold Guarded.validate Table.validate
  rw [orPanic_bind (fitting_of_le (sum_freq_le h))]
  refine bind_eq_lift fun _ htot => ?_
  have hscale := not_not.mp (refuse_eq_ok.mp htot)
  rw [validateFrom_eq_lift (fun s => (freq_le_sum t s).trans_eq hscale) (Nat.zero_le _)]
  exact bind_eq_lift fun _ _ => rfl

/-- **A blob is decoded without a panic.** -/
theorem decodeBlob_eq_lift (blob : List UInt8) :
    Guarded.decodeBlob blob = lift (Table.decodeBlob blob) := by
  refine bind_eq_lift fun _ hlng => bind_eq_lift fun _ _ => bind_eq_lift fun _ _ =>
    bind_eq_lift fun _ _ => bind_eq_lift fun _ _ => bind_eq_lift fun _ _ => bind_eq_lift fun _ _ =>
    bind_eq_lift fun _ _ => bind_eq_lift fun _ _ => bind_eq_lift fun _ _ => bind_eq_lift fun _ _ =>
    bind_eq_lift fun _ _ => ?_
  have hlen : blob.length = 160 := not_not.mp (refuse_eq_ok.mp hlng)
  rw [orPanic_bind (range?_of_le (by decide) (by omega))]
  refine bind_eq_lift fun _ _ => ?_
  have hlp : ((List.finRange 16).mapM fun symbol => do
        let freq ← lift (u32At blob (32 + symbol.val * 4))
        let start ← lift (u32At blob (96 + symbol.val * 4))
        pure (freq.toNat, start.toNat))
      = lift ((List.finRange 16).mapM fun symbol => do
        let freq ← u32At blob (32 + symbol.val * 4)
        let start ← u32At blob (96 + symbol.val * 4)
        pure (freq.toNat, start.toNat)) :=
    mapM_eq_lift fun symbol _ => bind_eq_lift fun freq _ => bind_eq_lift fun start _ => rfl
  rw [hlp]
  refine bind_eq_lift fun fields hfld => ?_
  dsimp only
  have hwor : ∀ f ∈ fields, f.1 ≤ u32Max := by
    intro f hf
    obtain ⟨symbol, -, hrd⟩ := exists_of_mem_mapM hfld hf
    obtain ⟨freq, -, hrd⟩ := bind_eq_ok.mp hrd
    obtain ⟨start, -, hrd⟩ := bind_eq_ok.mp hrd
    cases hrd
    exact Nat.le_of_lt_succ freq.toNat_lt
  rw [validate_eq_lift fun s => ?_]
  · exact bind_eq_lift fun _ _ => rfl
  · show (fields.getD s.val (0, 0)).1 ≤ u32Max
    rw [getD_eq_getElem?_getD]
    cases hget : fields[s.val]? with
    | none => exact Nat.zero_le _
    | some f => exact hwor f (mem_of_getElem? hget)

theorem tableAt_eq_lift (region : List UInt8) (crc32c : List UInt8 → UInt32) (tableId : UInt32)
    (codec : UInt16) {desc : ℕ} (h : desc + 64 ≤ usizeMax) :
    Guarded.tableAt region crc32c tableId codec desc
      = lift (tableAt region crc32c tableId codec desc) := by
  unfold Guarded.tableAt tableAt
  rw [orPanic_bind (checkedSum_of_le h)]
  refine bind_eq_lift fun _ hins => bind_eq_lift fun id _ => ?_
  have hle : desc + 64 ≤ region.length := not_lt.mp (refuse_eq_ok.mp hins)
  split_ifs
  · rfl
  · refine bind_eq_lift fun _ _ => bind_eq_lift fun _ _ => bind_eq_lift fun _ _ =>
      bind_eq_lift fun _ _ => bind_eq_lift fun _ _ => bind_eq_lift fun _ _ =>
      bind_eq_lift fun _ _ => bind_eq_lift fun _ _ => bind_eq_lift fun _ _ =>
      bind_eq_lift fun _ _ => ?_
    rw [orPanic_bind (range?_of_le (by omega) hle), show desc + 64 - (desc + 40) = 24 by omega]
    refine bind_eq_lift fun _ _ => bind_eq_lift fun _ _ => bind_eq_lift fun _ _ =>
      bind_eq_lift fun _ _ => bind_eq_lift fun blob _ => bind_eq_lift fun _ _ =>
      bind_eq_lift fun _ _ => ?_
    rw [decodeBlob_eq_lift, map_eq_pure_bind, map_eq_pure_bind]
    exact bind_eq_lift fun _ _ => rfl

/-- The descriptors of a region are searched without a panic, as their number is a word
of 32 bits. -/
theorem findTable_eq_lift (region : List UInt8) (crc32c : List UInt8 → UInt32)
    (tableId : UInt32) (codec : UInt16) {n index : ℕ} (h : index + n ≤ u32Max) :
    Guarded.findTable region crc32c tableId codec n index
      = lift (findTable region crc32c tableId codec n index) := by
  induction n generalizing index with
  | zero => rfl
  | succ n ih =>
    refine bind_eq_lift fun desc hdes => ?_
    obtain ⟨rfl, -⟩ := checkedProduct_eq_some.mp (okOr_eq_ok.mp hdes)
    have hfit : index * 64 + 64 ≤ usizeMax := by
      have hword : u32Max * 64 + 64 ≤ usizeMax := by norm_num [u32Max, usizeMax]
      omega
    rw [tableAt_eq_lift region crc32c tableId codec hfit]
    refine bind_eq_lift fun found _ => ?_
    cases found with
    | none => exact ih (by omega)
    | some => rfl

/-- **A table is found without a panic**, or is not. -/
theorem fromManifest_eq_lift (crc32c : List UInt8 → UInt32) (manifest : List UInt8)
    (tableId : UInt32) (codec : UInt16) : Guarded.fromManifest crc32c manifest tableId codec
      = lift (fromManifest crc32c manifest tableId codec) := by
  refine bind_eq_lift fun _ _ => bind_eq_lift fun count _ => bind_eq_lift fun _ _ =>
    bind_eq_lift fun _ _ => bind_eq_lift fun _ _ => bind_eq_lift fun region _ => ?_
  refine findTable_eq_lift region crc32c tableId codec ?_
  rw [Nat.zero_add]
  exact Nat.le_of_lt_succ count.toNat_lt

theorem valid_of_decodeBlob {blob : List UInt8} {t : RansTable}
    (h : Table.decodeBlob blob = .ok t) : Rans256.Table.validate t = .ok () := by
  unfold Table.decodeBlob at h
  dsimp only at h
  iterate 13 obtain ⟨_, -, h⟩ := bind_eq_ok.mp h
  obtain ⟨_, -, h⟩ := bind_eq_ok.mp h
  obtain ⟨_, hval, h⟩ := bind_eq_ok.mp h
  cases h
  exact (validate_agree _ ()).mp hval

/-- **A table that is found is valid.** -/
theorem valid_of_findTable {region : List UInt8} {crc32c : List UInt8 → UInt32}
    {tableId : UInt32} {codec : UInt16} {n index : ℕ} {t : RansTable}
    (h : findTable region crc32c tableId codec n index = .ok t) :
    Rans256.Table.validate t = .ok () := by
  induction n generalizing index with
  | zero => cases h
  | succ n ih =>
    obtain ⟨desc, -, h⟩ := bind_eq_ok.mp h
    obtain ⟨found, hfnd, h⟩ := bind_eq_ok.mp h
    cases found with
    | none => exact ih h
    | some =>
      cases h
      obtain ⟨_, -, hfnd⟩ := bind_eq_ok.mp hfnd
      obtain ⟨_, -, hfnd⟩ := bind_eq_ok.mp hfnd
      split_ifs at hfnd
      · cases hfnd
      · -- the fields of the descriptor, after which the blob is decoded
        dsimp only at hfnd
        iterate 17 obtain ⟨_, -, hfnd⟩ := bind_eq_ok.mp hfnd
        obtain ⟨t, ht, heq⟩ := map_eq_ok hfnd
        rw [← Option.some.inj heq]
        exact valid_of_decodeBlob ht

/-- **The table of a manifest is valid.** -/
theorem valid_of_fromManifest {crc32c : List UInt8 → UInt32} {manifest : List UInt8}
    {tableId : UInt32} {codec : UInt16} {t : RansTable}
    (h : fromManifest crc32c manifest tableId codec = .ok t) :
    Rans256.Table.validate t = .ok () := by
  iterate 6 obtain ⟨_, -, h⟩ := bind_eq_ok.mp h
  exact valid_of_findTable h

end Tables

/-! ## Records -/

open Metered

namespace Guarded

/-- `RansTable::slot_to_symbol`: a slot has two bytes. -/
def slotToSymbol (t : RansTable) : Metered FormatError (ℕ → Nibble) := do
  ofFault (Guarded.validate t)
  reserve (2 * scale)
  let _ ← orPanic (Rans256.Guarded.slotRanges t)
  pure (Table.slotSymbol t)

/-- `ParsedRansRecord::parse` -/
def parse (record : List UInt8) : Metered FormatError ParsedRansRecord := do
  returns (refuse (record.length < headerBytes) (invalid "truncated rANS record"))
  let nSymbols := (← returns (u64At record 0)).toNat
  let packedBytes := (← returns (u64At record 8)).toNat
  returns (refuse (nSymbols = 0 ∨ packedBytes ≠ nSymbols / 2 + nSymbols % 2)
    (invalid "invalid rANS symbol/byte counts"))
  reserve (4 * (nStreams + 1))
  let offsets ← returns ((List.range (nStreams + 1)).mapM fun stream =>
    u32At record (16 + stream * 4) >>= fun offset => pure offset.toNat)
  let first ← orPanic offsets[0]?
  returns (refuse (first ≠ 0) (invalid "rANS first stream offset is nonzero"))
  returns (refuse ((offsets.zip offsets.tail).any fun pair => pair.2 < pair.1 ∨ pair.2 - pair.1 < 4)
    (invalid "rANS stream offsets are malformed"))
  let payloadBytes ← orPanic offsets[nStreams]?
  let _ ← orPanic (checkedSum payloadBytes 15)
  let expected ← returns (okOr (checkedSum headerBytes (round16 payloadBytes))
    (usage "rANS record length overflows"))
  let stop ← orPanic (checkedSum headerBytes payloadBytes)
  returns (refuse (expected ≠ record.length ∨ stop > record.length)
    (invalid "rANS record length mismatch"))
  let padding ← orPanic (range? record (16 + (nStreams + 1) * 4) headerBytes)
  let tail ← orPanic (range? record stop record.length)
  returns (refuse (anyNonzero padding ∨ anyNonzero tail) (invalid "rANS record padding is nonzero"))
  returns (refuse (nSymbols > payloadBytes * 8 * 2 ^ 15)
    (invalid "rANS record exceeds amplification bound"))
  let payload ← orPanic (range? record headerBytes stop)
  pure { nSymbols, packedBytes, offsets, payload }

/-- `decode_stream_checked`, with the loop that the compiler has, too. -/
def decodeStreamChecked (stream : List UInt8) (symbols : ℕ) (t : RansTable)
    (slots : ℕ → Nibble) : Metered FormatError (List Nibble) := do
  returns (refuse (stream.length < 4) (invalid "rANS stream is shorter than its state"))
  let head ← orPanic (range? stream 0 4)
  let state := leNat head.reverse
  returns (refuse (state < ransL) (invalid "rANS initial state is out of range"))
  reserve symbols
  let decoded ← orPanic
    (Rans256.Guarded.decodeSymbols t slots symbols state (stream.drop 4))
  returns (refuse (decoded.2.2 ≠ []) (invalid "rANS stream has trailing bytes"))
  returns (refuse (decoded.2.1 ≠ ransL) (invalid "rANS stream final state is invalid"))
  pure decoded.1

/-- One stream of the loop in `decode_record`. -/
def decodeInto (parsed : ParsedRansRecord) (t : RansTable) (slots : ℕ → Nibble)
    (output : List UInt8) (stream : ℕ) : Metered FormatError (List UInt8) := do
  let start ← orPanic parsed.offsets[stream]?
  let stop ← orPanic parsed.offsets[stream + 1]?
  let symbols ← orPanic (Rans256.Guarded.streamSymbolCount parsed.nSymbols stream)
  let bytes ← orPanic (range? parsed.payload start stop)
  let decoded ← decodeStreamChecked bytes symbols t slots
  orPanic (Rans256.Guarded.scatter output stream decoded)

/-- **`RansTable::decode_record`**, with all that could stop it. -/
def decodeRecord (t : RansTable) (record : List UInt8) (expectedBytes : ℕ) :
    Metered FormatError (List UInt8) := do
  let mismatch := invalid "rANS decoded length does not match matrix descriptor"
  let parsed ← parse record
  returns (refuse (parsed.packedBytes ≠ expectedBytes) mismatch)
  let twice ← orPanic (checkedProduct expectedBytes 2)
  returns (refuse (parsed.nSymbols ≠ twice) mismatch)
  let slots ← slotToSymbol t
  reserve expectedBytes
  (List.range nStreams).foldlM (decodeInto parsed t slots) (List.replicate expectedBytes 0)

/-! ## Decoding a record does not panic -/

/-- **A record is parsed**: its offsets are words, and its parts are inside. -/
theorem parse_follows {n : ℕ} (record : List UInt8) (hn : 2 * scale ≤ n) :
    Follows n (parse record) (ParsedRansRecord.parse record) := by
  have hhdr : headerBytes = 1056 := by decide
  have hsm : u32Max + 1056 ≤ usizeMax := by norm_num [u32Max, usizeMax]
  refine returns_bind fun _ hlong => returns_bind fun _ _ => ?_
  refine returns_bind fun _ _ => returns_bind fun _ _ => ?_
  refine reserve_bind (by decide) (le_trans (by decide) hn) ?_
  refine returns_bind fun offsets hoff => ?_
  have hlong := not_lt.mp (refuse_eq_ok.mp hlong)
  obtain ⟨hfst, hlast, hword⟩ := Rans256.Guarded.offsets_of_mapM hoff fun i offset hi => by
    obtain ⟨offset, -, hoffs⟩ := Result.bind_eq_ok.mp hi
    cases hoffs
    exact Nat.le_of_lt_succ offset.toNat_lt
  refine Follows.orPanic_bind hfst ?_
  refine returns_bind fun _ _ => returns_bind fun _ _ => ?_
  refine Follows.orPanic_bind hlast ?_
  refine Follows.orPanic_bind (checkedSum_of_le (by omega)) ?_
  refine returns_bind fun _ _ => ?_
  refine Follows.orPanic_bind (checkedSum_of_le (by omega)) ?_
  refine returns_bind fun _ hlen => ?_
  have hins := not_lt.mp (not_or.mp (refuse_eq_ok.mp hlen)).2
  refine Follows.orPanic_bind (range?_of_le (by decide) hlong) ?_
  refine Follows.orPanic_bind (range?_of_le hins le_rfl) ?_
  rw [← Rans256.drop_eq_slice]
  refine returns_bind fun _ _ => returns_bind fun _ _ => ?_
  refine Follows.orPanic_bind (range?_of_le (Nat.le_add_right _ _) hins) ?_
  rw [Nat.add_sub_cancel_left]
  exact follows_pure _

/-- A check of two conditions is two checks. -/
theorem refuse_or_bind {E B : Type} {p q : Prop} [Decidable p] [Decidable q] {e : E}
    {f : Unit → Except E B} :
    (refuse (p ∨ q) e >>= f) = refuse p e >>= fun _ => refuse q e >>= f := by
  by_cases hp : p
  · rw [refuse_of hp, refuse_of (Or.inl hp)]
    rfl
  · by_cases hq : q
    · rw [refuse_of hq, refuse_of (Or.inr hq), refuse_of_not hp]
      rfl
    · rw [refuse_of_not hp, refuse_of_not hq, refuse_of_not (not_or.mpr ⟨hp, hq⟩)]
      rfl

section Valid

variable {t : RansTable} (h : Rans256.Table.validate t = .ok ())

include h

/-- **A stream is decoded**, whatever word it begins with. -/
theorem decodeStreamChecked_follows {n symbols : ℕ} (stream : List UInt8)
    (hfit : symbols ≤ isizeMax) (hn : symbols ≤ n) :
    Follows n (decodeStreamChecked stream symbols t (Table.slotSymbol t))
      (RansReader.decodeStreamChecked stream symbols t (Table.slotSymbol t)) := by
  refine returns_bind fun _ hlen => ?_
  have hfr := not_lt.mp (refuse_eq_ok.mp hlen)
  have hhd : range? stream 0 4 = some (stream.take 4) := range?_of_le (by decide) hfr
  refine Follows.orPanic_bind hhd ?_
  refine returns_bind fun _ _ => reserve_bind hfit hn ?_
  refine Follows.orPanic_bind (Rans256.Guarded.decodeSymbols_eq_some h symbols
    (Rans256.Guarded.initialState_le hfr)) ?_
  rw [decodeSymbols_eq]
  exact returns_bind fun _ _ => returns_bind fun _ _ => follows_pure _

theorem slotToSymbol_follows {n : ℕ} (hn : 2 * scale ≤ n) :
    Follows n (slotToSymbol t) (Table.slotToSymbol t) := by
  have hword (s : Nibble) : t.freq s ≤ u32Max := (Rans256.freq_le h s).trans (by decide)
  refine (Follows.ofFault (validate_eq_lift hword)).bind fun _ _ => ?_
  refine reserve_bind (by decide) hn ?_
  exact Follows.orPanic_bind (Rans256.Guarded.slotRanges_eq_some h) (follows_pure _)

/-- **A record is decoded** as by the decoder that ignores what could stop it,
and never requests more than the limit. -/
theorem decodeRecord_follows (record : List UInt8) (expectedBytes : ℕ) :
    Follows (Rans256.Guarded.limit record) (decodeRecord t record expectedBytes)
      (RansReader.decodeRecord t record expectedBytes) := by
  have hlim : 2 * scale ≤ Rans256.Guarded.limit record := Nat.le_add_right _ _
  refine (parse_follows record hlim).bind fun _ hrd => ?_
  obtain ⟨parsed, hpar, rfl⟩ := map_eq_ok ((parse_agree record _).mp hrd)
  obtain ⟨streams, hrds⟩ := Rans256.ParsedRecord.parse_eq_ok.mp hpar
  rw [refuse_or_bind]
  refine returns_bind fun _ hpac => ?_
  obtain rfl : parsed.packedBytes = expectedBytes := not_not.mp (refuse_eq_ok.mp hpac)
  -- the expected size is that of the record, which is small
  have htw := twice_le_of_parse hpar
  have hwr : parsed.packedBytes * 2 % 2 ^ 64 = parsed.packedBytes * 2 :=
    Nat.mod_eq_of_lt (lt_of_le_of_lt htw (by norm_num [usizeMax]))
  refine Follows.orPanic_bind (checkedProduct_of_le htw) ?_
  rw [hwr]
  refine returns_bind fun _ hsym => ?_
  refine (slotToSymbol_follows h hlim).bind fun slots hsl => ?_
  obtain ⟨_, -, hsl⟩ := Result.bind_eq_ok.mp hsl
  cases hsl
  have hsym : parsed.nSymbols = parsed.packedBytes * 2 := not_not.mp (refuse_eq_ok.mp hsym)
  obtain ⟨hfit, hn⟩ := Rans256.Guarded.symbols_le hrds
  refine reserve_bind (by omega) (by omega) ?_
  exact Rans256.Guarded.streams_follow hrds hsym
    (fun stream _ hs => decodeStreamChecked_follows h stream (hs.trans hfit) (hs.trans hn))
    fun _ _ _ hdec =>
      (Rans256.freq_ne_zero_of_decode h ((decodeStreamChecked_agree _ _ _ _ _).mp hdec)).1

end Valid

end Guarded

end RansReader

end Logan
