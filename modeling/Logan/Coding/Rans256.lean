import Logan.Util.Fields
import Logan.Util.Rans

/-!
# The rANS codec

Matrices are compressed nibble by nibble. The nibbles of a byte string go to
256 streams in turn, each of which is encoded on its own, with a table that
gives every nibble a share of 16384 slots. A record is a header – how many
nibbles, how many bytes, where each stream begins – followed by the streams.

A table is 160 bytes of the manifest, in a region of its own, where it is
found by its number.
-/

namespace Logan

open Result

/-- `ColicError`, as the codecs return it. -/
inductive ColicError where
  | usage (message : String)
deriving DecidableEq

namespace Rans256

/-- `CODEC_ID` -/
def codecId : UInt16 := 1

/-- `TABLE_ID` -/
def tableId : UInt32 := 1

/-- `N_STREAMS` -/
def nStreams : ℕ := 256

/-- `SCALE_BITS` -/
def scaleBits : ℕ := 14

/-- `M` -/
def scale : ℕ := 2 ^ scaleBits

/-- `RANS_L` -/
def ransL : ℕ := 2 ^ 23

/-- `READABLE_SLACK` -/
def readableSlack : ℕ := 64

/-- `TABLE_BLOB_BYTES` -/
def tableBlobBytes : ℕ := 160

/-- `AUTO_MIN_SAVINGS_BPS` -/
def autoMinSavingsBps : ℕ := 500

/-- `AUTO_MIN_SAVINGS_BYTES` -/
def autoMinSavingsBytes : ℕ := 256

/-- `TABLE_MAGIC` -/
def tableMagic : List UInt8 := [0x43, 0x4f, 0x4c, 0x49, 0x52, 0x4e, 0x30, 0x31]

/-- A symbol: half a byte. -/
abbrev Nibble : Type := Fin 16

instance sixteenNeZero : NeZero (16 : ℕ) := ⟨by decide⟩

/-- **A frequency table.** -/
structure Table where
  freq : Nibble → ℕ
  start : Nibble → ℕ
deriving DecidableEq

/-- `checked_add` on a `u32`. -/
def checkedSumU32 (a b : ℕ) : Option ℕ := if a + b ≤ u32Max then some (a + b) else none

/-- `round16` -/
def round16 (value : ℕ) : ℕ := (value + 15) / 16 * 16

/-! ## Reading fields -/

def u16At (bytes : List UInt8) (offset : ℕ) : Except ColicError UInt16 :=
  okOr (u16At? bytes offset) (.usage "truncated rANS u16")

def u32At (bytes : List UInt8) (offset : ℕ) : Except ColicError UInt32 :=
  okOr (u32At? bytes offset) (.usage "truncated rANS u32")

/-- A signed word, by its bits. -/
def i32At (bytes : List UInt8) (offset : ℕ) : Except ColicError UInt32 :=
  okOr (u32At? bytes offset) (.usage "truncated rANS i32")

def u64At (bytes : List UInt8) (offset : ℕ) : Except ColicError UInt64 :=
  okOr (u64At? bytes offset) (.usage "truncated rANS u64")

/-- Whether all of some bytes are zero. -/
def allZero (bytes : List UInt8) : Bool := bytes.all fun b => b = 0

/-! ## Tables -/

namespace Table

/-- The loop over the symbols, with the sum of the frequencies before. -/
def validateFrom (t : Table) : List Nibble → ℕ → Except ColicError ℕ
  | [], cursor => .ok cursor
  | symbol :: rest, cursor => do
    refuse (t.start symbol ≠ cursor)
      (.usage "rANS table starts are not the prefix sum of frequencies")
    let cursor ← okOr (checkedSumU32 cursor (t.freq symbol))
      (.usage "rANS table sum overflows u32")
    validateFrom t rest cursor

/-- `Table::validate` -/
def validate (t : Table) : Except ColicError Unit := do
  let cursor ← t.validateFrom (List.finRange 16) 0
  refuse (cursor ≠ scale) (.usage "rANS table frequencies do not sum to the scale")

/-- The symbol in a slot, after every symbol has been written to its slots. -/
def slotSymbol (t : Table) (slot : ℕ) : Nibble :=
  (List.finRange 16).foldl
    (fun symbol s => if t.start s ≤ slot ∧ slot < t.start s + t.freq s then s else symbol) 0

/-- `Table::slot_to_symbol` -/
def slotToSymbol (t : Table) : Except ColicError (ℕ → Nibble) := do
  t.validate
  pure t.slotSymbol

/-- `Table::decode_blob` -/
def decodeBlob (blob : List UInt8) : Except ColicError Table := do
  let bad := ColicError.usage "invalid rANS256-g0-nibble codec table blob"
  refuse (blob.length ≠ tableBlobBytes) bad
  refuse (range? blob 0 8 ≠ some tableMagic) bad
  refuse ((← u16At blob 8) ≠ 1) bad
  refuse ((← u16At blob 10).toNat ≠ scaleBits) bad
  refuse ((← u32At blob 12).toNat ≠ nStreams) bad
  refuse ((← u32At blob 16).toNat ≠ autoMinSavingsBps) bad
  refuse ((← u32At blob 20).toNat ≠ autoMinSavingsBytes) bad
  refuse (¬ allZero (slice blob 24 8)) bad
  let fields ← (List.finRange 16).mapM fun symbol => do
    let freq ← u32At blob (32 + symbol.val * 4)
    let start ← u32At blob (96 + symbol.val * 4)
    pure (freq.toNat, start.toNat)
  let table : Table :=
    ⟨fun s => (fields.getD s.val (0, 0)).1, fun s => (fields.getD s.val (0, 0)).2⟩
  table.validate
  pure table

end Table

/-! ## One stream -/

/-- One symbol of the loop in `encode_stream`. The bytes that are pushed come
out reversed, so each goes in front; a `u32` has no more than four. -/
def encodeSymbol (t : Table) (p : ℕ × List UInt8) (symbol : Nibble) :
    Except ColicError (ℕ × List UInt8) := do
  refuse (t.freq symbol = 0) (.usage "rANS input contains a symbol absent from its table")
  let xMax := 2 ^ 17 * t.freq symbol
  refuse (xMax > u32Max) (.usage "rANS normalization threshold overflows")
  let (state, output) := Slots.spill xMax 4 p.1 p.2
  pure (state / t.freq symbol * scale + state % t.freq symbol + t.start symbol, output)

/-- `encode_stream`: the symbols from the last to the first, then the state. -/
def encodeStream (t : Table) (symbols : List Nibble) : Except ColicError (List UInt8) := do
  let (state, output) ← symbols.reverse.foldlM (encodeSymbol t) (ransL, [])
  pure ((leBytes 4 state).reverse ++ output)

/-- The loop of `decode_stream_checked`, with the bytes that have not been read. -/
def decodeSymbols (t : Table) (slots : ℕ → Nibble) : ℕ → ℕ → List UInt8 →
    List Nibble × ℕ × List UInt8
  | 0, state, bytes => ([], state, bytes)
  | n + 1, state, bytes =>
    let slot := state % scale
    let symbol := slots slot
    let state := t.freq symbol * (state / scale) + slot - t.start symbol
    let (state, bytes) := Slots.refill ransL state bytes
    let (symbols, state, bytes) := decodeSymbols t slots n state bytes
    (symbol :: symbols, state, bytes)

/-- The state that a stream begins with, the highest byte first. -/
def initialState (stream : List UInt8) : ℕ := leNat (stream.take 4).reverse

/-- `decode_stream_checked` -/
def decodeStreamChecked (stream : List UInt8) (symbols : ℕ) (t : Table) (slots : ℕ → Nibble) :
    Except ColicError (List Nibble) := do
  refuse (stream.length < 4) (.usage "rANS stream is shorter than its state")
  refuse (initialState stream < ransL) (.usage "rANS initial state is out of range")
  let (output, state, bytes) := decodeSymbols t slots symbols (initialState stream) (stream.drop 4)
  refuse (bytes ≠ []) (.usage "rANS stream has trailing bytes")
  refuse (state ≠ ransL) (.usage "rANS stream final state is invalid")
  pure output

/-! ## Nibbles of a byte string -/

/-- `byte & 0x0f` -/
def low (byte : UInt8) : Nibble := ⟨byte.toNat % 16, Nat.mod_lt _ (by decide)⟩

/-- `byte >> 4` -/
def high (byte : UInt8) : Nibble := ⟨byte.toNat / 16, by have := byte.toNat_lt; omega⟩

/-- The nibble at a place: the lower half of a byte comes first. -/
def nibbleAt (bytes : List UInt8) (logical : ℕ) : Nibble :=
  let byte := bytes.getD (logical / 2) 0
  if logical % 2 = 0 then low byte else high byte

/-- A byte with another nibble at a place. -/
def setNibble (bytes : List UInt8) (logical : ℕ) (symbol : Nibble) : List UInt8 :=
  let byte := bytes.getD (logical / 2) 0
  bytes.set (logical / 2) (if logical % 2 = 0 then UInt8.ofNat ((high byte).val * 16 + symbol.val)
     else UInt8.ofNat (symbol.val * 16 + (low byte).val))

/-- The symbols of a stream: every 256th nibble from `logical` on. There are
at most `fuel` of them. -/
def gather (input : List UInt8) (nSymbols : ℕ) : ℕ → ℕ → List Nibble
  | 0, _ => []
  | fuel + 1, logical =>
    if logical < nSymbols then
      nibbleAt input logical :: gather input nSymbols fuel (logical + nStreams)
    else []

/-- `stream_symbol_count` -/
def streamSymbolCount (total stream : ℕ) : ℕ :=
  if stream ≥ total then 0 else (total - 1 - stream) / nStreams + 1

/-- The decoded symbols of a stream go where they belong. -/
def scatter (output : List UInt8) (stream : ℕ) (decoded : List Nibble) : List UInt8 :=
  decoded.zipIdx.foldl (fun output p => setNibble output (stream + p.2 * nStreams) p.1) output

/-! ## Records -/

/-- The bytes before the streams. -/
def headerBytes : ℕ := round16 (16 + (nStreams + 1) * 4)

/-- The loop over the streams: the place of each in the header, and the stream. -/
def streamWrites : ℕ → ℕ → List (List UInt8) → List (Write UInt8)
  | _, _, [] => []
  | index, cursor, stream :: rest =>
    [(16 + index * 4, u32Bytes (UInt32.ofNat cursor)), (headerBytes + cursor, stream)] ++
    streamWrites (index + 1) (cursor + stream.length) rest

/-- The bytes of all streams. -/
def payloadBytes (streams : List (List UInt8)) : ℕ := (streams.map List.length).sum

/-- The streams of a byte string. -/
def encodeStreams (input : List UInt8) (t : Table) (nSymbols : ℕ) :
    Except ColicError (List (List UInt8)) :=
  (List.range nStreams).mapM fun stream =>
    encodeStream t (gather input nSymbols nSymbols stream)

/-- `encode_bytes` -/
def encodeBytes (input : List UInt8) (t : Table) : Except ColicError (List UInt8) := do
  t.validate
  refuse (input = []) (.usage "rANS cannot encode an empty matrix")
  let nSymbols ← okOr (checkedProduct input.length 2)
    (.usage "rANS symbol count overflows usize")
  let streams ← encodeStreams input t nSymbols
  let payload ← okOr (streams.foldlM (fun sum stream => checkedSum sum stream.length) 0)
    (.usage "rANS payload size overflows usize")
  refuse (payload > u32Max) (.usage "rANS payload exceeds 32-bit stream-offset contract")
  let total ← okOr (checkedSum headerBytes (round16 payload))
    (.usage "rANS record size overflows usize")
  pure (puts (List.replicate total 0)
    ([(0, u64Bytes (UInt64.ofNat nSymbols)), (8, u64Bytes (UInt64.ofNat input.length))] ++
      streamWrites 0 0 streams ++
      [(16 + nStreams * 4, u32Bytes (UInt32.ofNat payload))]))

structure ParsedRecord where
  nSymbols : ℕ
  packedBytes : ℕ
  offsets : List ℕ
  payload : List UInt8
deriving DecidableEq

/-- `ParsedRecord::parse` -/
def ParsedRecord.parse (record : List UInt8) : Except ColicError ParsedRecord := do
  refuse (record.length < headerBytes) (.usage "truncated rANS record")
  let nSymbols := (← u64At record 0).toNat
  let packedBytes := (← u64At record 8).toNat
  refuse (nSymbols = 0 ∨ packedBytes ≠ nSymbols / 2 + nSymbols % 2)
    (.usage "invalid rANS symbol/byte counts")
  let offsets ← (List.range (nStreams + 1)).mapM fun stream =>
    UInt32.toNat <$> u32At record (16 + stream * 4)
  refuse (offsets.getD 0 0 ≠ 0) (.usage "rANS first stream offset is nonzero")
  refuse ((offsets.zip offsets.tail).any fun pair => pair.2 < pair.1 ∨ pair.2 - pair.1 < 4)
    (.usage "rANS stream offsets are malformed")
  let payload := offsets.getD nStreams 0
  let expected ← okOr (checkedSum headerBytes (round16 payload))
    (.usage "rANS record length overflows")
  refuse (expected ≠ record.length ∨ headerBytes + payload > record.length)
    (.usage "rANS record length mismatch")
  refuse (¬ allZero (slice record (16 + (nStreams + 1) * 4)
      (headerBytes - (16 + (nStreams + 1) * 4))) ∨
    ¬ allZero (record.drop (headerBytes + payload)))
    (.usage "rANS record padding is nonzero")
  refuse (nSymbols > payload * 8 * 2 ^ 15) (.usage "rANS record exceeds amplification bound")
  pure { nSymbols, packedBytes, offsets, payload := slice record headerBytes payload }

/-- One stream of the loop in `decode_bytes`. -/
def decodeInto (parsed : ParsedRecord) (t : Table) (slots : ℕ → Nibble)
    (output : List UInt8) (stream : ℕ) : Except ColicError (List UInt8) := do
  let start := parsed.offsets.getD stream 0
  let stop := parsed.offsets.getD (stream + 1) 0
  let decoded ← decodeStreamChecked (slice parsed.payload start (stop - start))
    (streamSymbolCount parsed.nSymbols stream) t slots
  pure (scatter output stream decoded)

/-- `decode_bytes` -/
def decodeBytes (record : List UInt8) (t : Table) (expectedBytes : ℕ) :
    Except ColicError (List UInt8) := do
  t.validate
  let parsed ← ParsedRecord.parse record
  let mismatch := ColicError.usage "rANS decoded length does not match matrix descriptor"
  refuse (parsed.packedBytes ≠ expectedBytes) mismatch
  let twice ← okOr (checkedProduct expectedBytes 2)
    (.usage "expected rANS symbol count overflows usize")
  refuse (parsed.nSymbols ≠ twice) mismatch
  let slots ← t.slotToSymbol
  (List.range nStreams).foldlM (decodeInto parsed t slots) (List.replicate expectedBytes 0)

/-! ## The table region of a manifest -/

/-- One descriptor of the table region. `none`: it is that of another table. -/
def tableAt (region : List UInt8) (crc32c : List UInt8 → UInt32) (tableId : UInt32)
    (codec : UInt16) (desc : ℕ) : Except ColicError (Option Table) := do
  refuse (desc + 64 > region.length) (.usage "truncated codec table descriptor")
  if (← u32At region desc) ≠ tableId then pure none
  else do
    let bad := ColicError.usage "invalid rANS codec table descriptor"
    refuse ((← u16At region (desc + 4)) ≠ codec) bad
    refuse ((← u16At region (desc + 6)) ≠ 0) bad
    refuse ((← i32At region (desc + 8)) ≠ 0xffffffff) bad
    refuse ((← u32At region (desc + 12)) ≠ 0) bad
    refuse ((← u32At region (desc + 36)) ≠ 0) bad
    refuse (¬ allZero (slice region (desc + 40) 24)) bad
    let dataOffset := (← u64At region (desc + 16)).toNat
    let dataBytes := (← u64At region (desc + 24)).toNat
    let stop ← okOr (checkedSum dataOffset dataBytes)
      (.usage "codec table data span overflows")
    let blob ← okOr (range? region dataOffset stop)
      (.usage "codec table data is outside region")
    refuse (crc32c blob ≠ (← u32At region (desc + 32))) (.usage "codec table CRC32C mismatch")
    some <$> Table.decodeBlob blob

/-- `n` descriptors of the table region, from descriptor `index` on. -/
def findTable (region : List UInt8) (crc32c : List UInt8 → UInt32) (tableId : UInt32)
    (codec : UInt16) : ℕ → ℕ → Except ColicError Table
  | 0, _ => .error (.usage s!"missing rANS codec table {tableId.toNat}")
  | n + 1, index => do
    let desc ← okOr (checkedProduct index 64) (.usage "codec table descriptor overflows")
    match ← tableAt region crc32c tableId codec desc with
    | some table => pure table
    | none => findTable region crc32c tableId codec n (index + 1)

/-- `table_from_manifest` -/
def tableFromManifest (crc32c : List UInt8 → UInt32) (manifest : List UInt8) (tableId : UInt32)
    (codec : UInt16) : Except ColicError Table := do
  refuse (tableId = 0 ∨ codec ≠ codecId) (.usage "invalid rANS codec/table reference")
  let count ← u32At manifest 160
  let regionOffset := (← u64At manifest 168).toNat
  let regionBytes := (← u64At manifest 176).toNat
  let stop ← okOr (checkedSum regionOffset regionBytes)
    (.usage "codec table region overflows usize")
  let region ← okOr (range? manifest regionOffset stop)
    (.usage "codec table region is outside manifest")
  findTable region crc32c tableId codec count.toNat 0

end Rans256

end Logan
