import Logan.Coding.Rans256
import Logan.Format.Reading

/-!
# The reader of coded records

The runtime has a reader of its own for the records that the compiler encodes:
the table, the layout of a record and the coder are all declared again, with
other errors, another order of the checks and another way to sum up the
frequencies. That the two readers agree is proved in the next module.
-/

namespace Logan

namespace RansReader

open Result Format

/-- `RANS_CODEC_ID` -/
def codecId : UInt16 := 0x0001

/-- `RANS_N_STREAMS` -/
def nStreams : ℕ := 256

/-- `RANS_SCALE_BITS` -/
def scaleBits : ℕ := 14

/-- `RANS_M` -/
def scale : ℕ := 2 ^ scaleBits

/-- `RANS_L` -/
def ransL : ℕ := 2 ^ 23

/-- `RANS_TABLE_BLOB_BYTES` -/
def tableBlobBytes : ℕ := 160

/-- `RANS_AUTO_MIN_SAVINGS_BPS` -/
def autoMinSavingsBps : ℕ := 500

/-- `RANS_AUTO_MIN_SAVINGS_BYTES` -/
def autoMinSavingsBytes : ℕ := 256

/-- `RANS_TABLE_MAGIC` -/
def tableMagic : List UInt8 := [0x43, 0x4f, 0x4c, 0x49, 0x52, 0x4e, 0x30, 0x31]

/-- `RansTable`: the same fields as those of the compiler's table. -/
abbrev RansTable : Type := Rans256.Table

/-- A symbol. -/
abbrev Nibble : Type := Rans256.Nibble

/-- `round16` -/
def round16 (value : ℕ) : ℕ := (value + 15) / 16 * 16

/-- Whether some byte is not zero. -/
def anyNonzero (bytes : List UInt8) : Bool := bytes.any fun b => b ≠ 0

/-! ## Tables -/

namespace Table

/-- The loop over the symbols, with the sum of the frequencies before. -/
def validateFrom (t : RansTable) : List Nibble → ℕ → Except FormatError ℕ
  | [], cursor => .ok cursor
  | i :: rest, cursor => do
    refuse (t.start i ≠ cursor) (invalid "rANS start offsets are not contiguous")
    let cursor := cursor + t.freq i
    refuse (cursor > scale) (invalid "rANS cumulative frequencies overflow M")
    validateFrom t rest cursor

/-- `RansTable::validate` -/
def validate (t : RansTable) : Except FormatError Unit := do
  refuse (((List.finRange 16).map t.freq).sum ≠ scale) (invalid "rANS frequencies do not sum to M")
  let cursor ← validateFrom t (List.finRange 16) 0
  refuse (cursor ≠ scale) (invalid "rANS cumulative frequencies do not cover M")

/-- The symbol in a slot, after every symbol has been written to its slots. -/
def slotSymbol (t : RansTable) (slot : ℕ) : Nibble :=
  (List.finRange 16).foldl
    (fun symbol s => if t.start s ≤ slot ∧ slot < t.start s + t.freq s then s else symbol) 0

/-- `RansTable::slot_to_symbol` -/
def slotToSymbol (t : RansTable) : Except FormatError (ℕ → Nibble) := do
  validate t
  pure (slotSymbol t)

/-- `RansTable::decode_blob` -/
def decodeBlob (blob : List UInt8) : Except FormatError RansTable := do
  let bad := invalid "invalid rANS256-g0-nibble codec table blob"
  refuse (blob.length ≠ tableBlobBytes) bad
  refuse (range? blob 0 8 ≠ some tableMagic) bad
  refuse ((← u16At blob 8) ≠ 1) bad
  refuse ((← u16At blob 10).toNat ≠ scaleBits) bad
  refuse ((← u32At blob 12).toNat ≠ nStreams) bad
  refuse ((← u32At blob 16).toNat ≠ autoMinSavingsBps) bad
  refuse ((← u32At blob 20).toNat ≠ autoMinSavingsBytes) bad
  refuse (anyNonzero (slice blob 24 8)) bad
  let fields ← (List.finRange 16).mapM fun symbol => do
    let freq ← u32At blob (32 + symbol.val * 4)
    let start ← u32At blob (96 + symbol.val * 4)
    pure (freq.toNat, start.toNat)
  let table : RansTable :=
    ⟨fun s => (fields.getD s.val (0, 0)).1, fun s => (fields.getD s.val (0, 0)).2⟩
  validate table
  pure table

end Table

/-! ## The table region of a manifest -/

/-- One descriptor of the table region. `none`: it is that of another table. -/
def tableAt (region : List UInt8) (crc32c : List UInt8 → UInt32) (tableId : UInt32)
    (codec : UInt16) (desc : ℕ) : Except FormatError (Option RansTable) := do
  refuse (desc + 64 > region.length) (invalid "truncated codec table descriptor")
  if (← u32At region desc) ≠ tableId then pure none
  else do
    let bad := invalid "invalid rANS codec table descriptor"
    refuse ((← u16At region (desc + 4)) ≠ codec) bad
    refuse ((← u16At region (desc + 6)) ≠ 0) bad
    refuse ((← i32At region (desc + 8)) ≠ 0xffffffff) bad
    refuse ((← u32At region (desc + 12)) ≠ 0) bad
    refuse ((← u32At region (desc + 36)) ≠ 0) bad
    refuse (anyNonzero (slice region (desc + 40) 24)) bad
    let dataOffset := (← u64At region (desc + 16)).toNat
    let dataBytes := (← u64At region (desc + 24)).toNat
    let blobEnd ← okOr (checkedSum dataOffset dataBytes)
      (usage "codec table data span overflows usize")
    let blob ← okOr (range? region dataOffset blobEnd)
      (usage "codec table data is outside region")
    refuse (crc32c blob ≠ (← u32At region (desc + 32))) (invalid "codec table CRC32C mismatch")
    some <$> Table.decodeBlob blob

/-- `n` descriptors of the table region, from descriptor `index` on. -/
def findTable (region : List UInt8) (crc32c : List UInt8 → UInt32) (tableId : UInt32)
    (codec : UInt16) : ℕ → ℕ → Except FormatError RansTable
  | 0, _ => .error (invalid s!"missing rANS codec table {tableId.toNat}")
  | n + 1, index => do
    let desc ← okOr (checkedProduct index 64) (usage "codec table descriptor overflows")
    match ← tableAt region crc32c tableId codec desc with
    | some table => pure table
    | none => findTable region crc32c tableId codec n (index + 1)

/-- `RansTable::from_manifest` -/
def fromManifest (crc32c : List UInt8 → UInt32) (manifest : List UInt8) (tableId : UInt32)
    (codec : UInt16) : Except FormatError RansTable := do
  refuse (tableId = 0 ∨ codec ≠ codecId) (invalid "invalid rANS codec/table reference")
  let count ← u32At manifest 160
  let regionOffset := (← u64At manifest 168).toNat
  let regionBytes := (← u64At manifest 176).toNat
  let regionEnd ← okOr (checkedSum regionOffset regionBytes)
    (usage "codec table region overflows usize")
  let region ← okOr (range? manifest regionOffset regionEnd)
    (usage "codec table region is outside manifest")
  findTable region crc32c tableId codec count.toNat 0

/-! ## Records -/

/-- `ParsedRansRecord` -/
structure ParsedRansRecord where
  nSymbols : ℕ
  packedBytes : ℕ
  offsets : List ℕ
  payload : List UInt8
deriving DecidableEq

/-- `rans_header_bytes` -/
def headerBytes : ℕ := round16 (16 + (nStreams + 1) * 4)

/-- `ParsedRansRecord::parse` -/
def ParsedRansRecord.parse (record : List UInt8) : Except FormatError ParsedRansRecord := do
  refuse (record.length < headerBytes) (invalid "truncated rANS record")
  let nSymbols := (← u64At record 0).toNat
  let packedBytes := (← u64At record 8).toNat
  refuse (nSymbols = 0 ∨ packedBytes ≠ nSymbols / 2 + nSymbols % 2)
    (invalid "invalid rANS symbol/byte counts")
  let offsets ← (List.range (nStreams + 1)).mapM fun stream =>
    u32At record (16 + stream * 4) >>= fun offset => pure offset.toNat
  refuse (offsets.getD 0 0 ≠ 0) (invalid "rANS first stream offset is nonzero")
  refuse ((offsets.zip offsets.tail).any fun pair => pair.2 < pair.1 ∨ pair.2 - pair.1 < 4)
    (invalid "rANS stream offsets are malformed")
  let payloadBytes := offsets.getD nStreams 0
  let expected ← okOr (checkedSum headerBytes (round16 payloadBytes))
    (usage "rANS record length overflows")
  refuse (expected ≠ record.length ∨ headerBytes + payloadBytes > record.length)
    (invalid "rANS record length mismatch")
  refuse (anyNonzero (slice record (16 + (nStreams + 1) * 4)
      (headerBytes - (16 + (nStreams + 1) * 4))) ∨
    anyNonzero (record.drop (headerBytes + payloadBytes)))
    (invalid "rANS record padding is nonzero")
  refuse (nSymbols > payloadBytes * 8 * 2 ^ 15) (invalid "rANS record exceeds amplification bound")
  pure { nSymbols, packedBytes, offsets, payload := slice record headerBytes payloadBytes }

/-- `while state < RANS_L && cursor < stream.len()`, with the bytes that have
not been read. -/
def refill : ℕ → List UInt8 → ℕ × List UInt8
  | state, [] => (state, [])
  | state, byte :: rest =>
    if state < ransL then refill (state * 256 + byte.toNat) rest else (state, byte :: rest)

/-- The loop of `decode_stream_checked`. -/
def decodeSymbols (t : RansTable) (slots : ℕ → Nibble) : ℕ → ℕ → List UInt8 →
    List Nibble × ℕ × List UInt8
  | 0, state, bytes => ([], state, bytes)
  | n + 1, state, bytes =>
    let slot := state % scale
    let symbol := slots slot
    let state := t.freq symbol * (state / scale) + slot - t.start symbol
    let (state, bytes) := refill state bytes
    let (symbols, state, bytes) := decodeSymbols t slots n state bytes
    (symbol :: symbols, state, bytes)

/-- `u32::from_be_bytes(stream[..4])` -/
def initialState (stream : List UInt8) : ℕ := leNat (stream.take 4).reverse

/-- `decode_stream_checked` -/
def decodeStreamChecked (stream : List UInt8) (symbols : ℕ) (t : RansTable)
    (slots : ℕ → Nibble) : Except FormatError (List Nibble) := do
  refuse (stream.length < 4) (invalid "rANS stream is shorter than its state")
  refuse (initialState stream < ransL) (invalid "rANS initial state is out of range")
  let (output, state, bytes) := decodeSymbols t slots symbols (initialState stream) (stream.drop 4)
  refuse (bytes ≠ []) (invalid "rANS stream has trailing bytes")
  refuse (state ≠ ransL) (invalid "rANS stream final state is invalid")
  pure output

/-- `stream_symbol_count` -/
def streamSymbolCount (total stream : ℕ) : ℕ :=
  if stream ≥ total then 0 else (total - 1 - stream) / nStreams + 1

/-- A byte with another nibble at a place. -/
def setNibble (bytes : List UInt8) (logical : ℕ) (symbol : Nibble) : List UInt8 :=
  let byte := (bytes.getD (logical / 2) 0).toNat
  bytes.set (logical / 2) (if logical % 2 = 0 then UInt8.ofNat (byte / 16 * 16 + symbol.val)
     else UInt8.ofNat (symbol.val * 16 + byte % 16))

/-- One stream of the loop in `decode_record`. -/
def decodeInto (parsed : ParsedRansRecord) (t : RansTable) (slots : ℕ → Nibble)
    (output : List UInt8) (stream : ℕ) : Except FormatError (List UInt8) := do
  let start := parsed.offsets.getD stream 0
  let stop := parsed.offsets.getD (stream + 1) 0
  let decoded ← decodeStreamChecked (slice parsed.payload start (stop - start))
    (streamSymbolCount parsed.nSymbols stream) t slots
  pure (decoded.zipIdx.foldl
    (fun output p => setNibble output (stream + p.2 * nStreams) p.1) output)

/-- `RansTable::decode_record`. The product `expected_bytes * 2` is not checked:
it wraps around. It is only computed if the number of packed bytes is the
expected one. -/
def decodeRecord (t : RansTable) (record : List UInt8) (expectedBytes : ℕ) :
    Except FormatError (List UInt8) := do
  let parsed ← ParsedRansRecord.parse record
  refuse (parsed.packedBytes ≠ expectedBytes ∨ parsed.nSymbols ≠ expectedBytes * 2 % 2 ^ 64)
    (invalid "rANS decoded length does not match matrix descriptor")
  let slots ← Table.slotToSymbol t
  (List.range nStreams).foldlM (decodeInto parsed t slots) (List.replicate expectedBytes 0)

end RansReader

end Logan
