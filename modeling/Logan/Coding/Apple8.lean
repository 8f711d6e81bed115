import Logan.Coding.Rans256

/-!
# Expert records

The record of an expert has a header, three descriptors and three matrices,
each matrix aligned to 16 bytes. The compiler may replace a matrix by its coded
record, with some readable bytes after it, and then descriptor and places are
written anew; the way back restores the record without coding.
-/

namespace Logan

namespace Apple8

open Result Rans256

/-- `PREFIX` -/
def prefixBytes : ℕ := 64 + 3 * 128

/-- `DESC_BYTES` -/
def descBytes : ℕ := 128

/-- `MATRIX_COUNT` -/
def matrixCount : ℕ := 3

/-- `ALIGNMENT` -/
def alignment : ℕ := 16

/-- `b"COLIEXPT"` -/
def expertMagic : List UInt8 := [0x43, 0x4f, 0x4c, 0x49, 0x45, 0x58, 0x50, 0x54]

/-- `Mode` -/
inductive Mode where
  | force
  | auto
deriving DecidableEq

/-- `EncodedExpert` -/
structure EncodedExpert where
  bytes : List UInt8
  compressedMatrices : ℕ
  rawMatrixBytes : ℕ
  storedMatrixBytes : ℕ
deriving DecidableEq

/-- `MatrixSpan` -/
structure MatrixSpan where
  offset : ℕ
  bytes : ℕ
deriving DecidableEq

/-! ## Reading fields -/

def u16At (bytes : List UInt8) (offset : ℕ) : Except ColicError UInt16 :=
  okOr (u16At? bytes offset) (.usage "truncated Apple8 u16")

def u32At (bytes : List UInt8) (offset : ℕ) : Except ColicError UInt32 :=
  okOr (u32At? bytes offset) (.usage "truncated Apple8 u32")

def u64At (bytes : List UInt8) (offset : ℕ) : Except ColicError UInt64 :=
  okOr (u64At? bytes offset) (.usage "truncated Apple8 u64")

/-- Where the descriptor of a matrix begins. -/
def descriptorAt (index : ℕ) : ℕ := 64 + index * descBytes

/-! ## Records without coding -/

/-- One matrix of the loop in `RawExpert::parse`. -/
def parseSpan (bytes : List UInt8) (index : ℕ) : Except ColicError MatrixSpan := do
  let descriptor := descriptorAt index
  let codec ← u16At bytes (descriptor + 8)
  let table ← u32At bytes (descriptor + 40)
  let offset := (← u64At bytes (descriptor + 48)).toNat
  let stored := (← u64At bytes (descriptor + 56)).toNat
  let decoded := (← u64At bytes (descriptor + 64)).toNat
  let stop ← okOr (checkedSum offset stored) (.usage "Apple8 matrix span overflows usize")
  refuse (codec ≠ 0 ∨ table ≠ 0 ∨ stored ≠ decoded ∨ offset < prefixBytes ∨ stop > bytes.length)
    (.usage "rANS input Apple8 record is not raw Design A")
  pure ⟨offset, decoded⟩

/-- `RawExpert::parse` -/
def parseRaw (bytes : List UInt8) : Except ColicError (List MatrixSpan) := do
  let bad := ColicError.usage "rANS input is not a canonical Apple8 expert record"
  refuse (bytes.length < prefixBytes) bad
  refuse (range? bytes 0 8 ≠ some expertMagic) bad
  refuse ((← u16At bytes 8) ≠ 1) bad
  refuse ((← u32At bytes 12) ≠ 64) bad
  refuse ((← u16At bytes 24) ≠ 3) bad
  refuse ((← u32At bytes 28) ≠ 128) bad
  refuse ((← u64At bytes 40).toNat ≠ prefixBytes) bad
  (List.range matrixCount).mapM (parseSpan bytes)

/-- The bytes of a matrix. -/
def MatrixSpan.payload (span : MatrixSpan) (raw : List UInt8) : List UInt8 :=
  slice raw span.offset span.bytes

/-! ## Writing -/

/-- `align_vec`, with the alignment 16. -/
def alignVec (bytes : List UInt8) : Except ColicError (List UInt8) := do
  let _ ← okOr (checkedSum bytes.length (alignment - 1))
    (.usage "Apple8 codec alignment overflows usize")
  pure (bytes ++ List.replicate (round16 bytes.length - bytes.length) 0)

/-- The fields of a descriptor that say where a matrix is and how it is coded. -/
def descriptorWrites (index : ℕ) (codec : UInt16) (table : UInt32) (offset stored decoded : ℕ) :
    List (Write UInt8) :=
  [(descriptorAt index + 8, u16Bytes codec), (descriptorAt index + 40, u32Bytes table),
   (descriptorAt index + 48, u64Bytes (UInt64.ofNat offset)),
   (descriptorAt index + 56, u64Bytes (UInt64.ofNat stored)),
   (descriptorAt index + 64, u64Bytes (UInt64.ofNat decoded))]

/-- `auto_should_use` -/
def autoShouldUse (rawBytes encodedBytes : ℕ) : Bool :=
  match checkedSum encodedBytes readableSlack with
  | none => false
  | some encodedWithSlack =>
    if encodedWithSlack ≥ rawBytes then false
    else
      let saved := rawBytes - encodedWithSlack
      if saved < autoMinSavingsBytes then false
      else decide (saved * 10000 ≥ rawBytes * autoMinSavingsBps)

/-- Whether a matrix is coded. -/
def useCodec (mode : Mode) (rawBytes encodedBytes : ℕ) : Bool :=
  match mode with
  | .force => true
  | .auto => autoShouldUse rawBytes encodedBytes

/-- The branches of the loop in `encode_expert`: the output, the number of coded
matrices and the number of stored bytes. -/
def storeMatrix (coded : Bool) (e : EncodedExpert) (output : List UInt8) (index : ℕ)
    (rawPayload encoded : List UInt8) : Except ColicError (List UInt8 × ℕ × ℕ) :=
  if coded then do
    let output := puts output
      (descriptorWrites index codecId tableId output.length encoded.length rawPayload.length)
      ++ encoded
    let _ ← okOr (checkedSum output.length readableSlack)
      (.usage "rANS expert slack overflows usize")
    let compressed ← okOr (checkedSum e.compressedMatrices 1)
      (.usage "compressed matrix count overflows")
    let stored ← okOr (checkedSum e.storedMatrixBytes (encoded.length + readableSlack))
      (.usage "rANS stored total overflows u64")
    pure (output ++ List.replicate readableSlack 0, compressed, stored)
  else do
    let output := puts output
      (descriptorWrites index 0 0 output.length rawPayload.length rawPayload.length) ++ rawPayload
    let stored ← okOr (checkedSum e.storedMatrixBytes rawPayload.length)
      (.usage "raw stored total overflows u64")
    pure (output, e.compressedMatrices, stored)

/-- One matrix of the loop in `encode_expert`. -/
def encodeMatrix (raw : List UInt8) (t : Table) (mode : Mode) (e : EncodedExpert)
    (p : MatrixSpan × ℕ) : Except ColicError EncodedExpert := do
  let rawPayload := p.1.payload raw
  let encoded ← encodeBytes rawPayload t
  let output ← alignVec e.bytes
  let next ← storeMatrix (useCodec mode rawPayload.length encoded.length) e output p.2 rawPayload
    encoded
  let rawTotal ← okOr (checkedSum e.rawMatrixBytes rawPayload.length)
    (.usage "raw matrix total overflows u64")
  pure ⟨next.1, next.2.1, rawTotal, next.2.2⟩

/-- `encode_expert` -/
def encodeExpert (raw : List UInt8) (t : Table) (mode : Mode) :
    Except ColicError EncodedExpert := do
  let spans ← parseRaw raw
  spans.zipIdx.foldlM (encodeMatrix raw t mode) ⟨raw.take prefixBytes, 0, 0, 0⟩

/-! ## The way back -/

/-- The branches of the loop in `decode_to_raw`: the matrix that is stored in
some bytes. -/
def readMatrix (encoded : List UInt8) (t : Table) (codec : UInt16) (table : UInt32)
    (sourceEnd stored decoded : ℕ) (source : List UInt8) : Except ColicError (List UInt8) :=
  if codec = 0 then do
    refuse (table ≠ 0 ∨ stored ≠ decoded) (.usage "invalid raw Apple8 matrix codec fields")
    pure source
  else if codec = codecId ∧ table = tableId then do
    let slackEnd ← okOr (checkedSum sourceEnd readableSlack)
      (.usage "rANS slack span overflows usize")
    refuse ((range? encoded sourceEnd slackEnd).all fun slack => ¬ allZero slack)
      (.usage "rANS readable slack is missing or nonzero")
    decodeBytes source t decoded
  else .error (.usage "unsupported Apple8 matrix codec")

/-- One matrix of the loop in `decode_to_raw`. -/
def decodeMatrix (crc32c : List UInt8 → UInt32) (encoded : List UInt8) (t : Table)
    (output : List UInt8) (index : ℕ) : Except ColicError (List UInt8) := do
  let descriptor := descriptorAt index
  let codec ← u16At encoded (descriptor + 8)
  let table ← u32At encoded (descriptor + 40)
  let sourceOffset ← u64At encoded (descriptor + 48)
  let stored ← u64At encoded (descriptor + 56)
  let decoded ← u64At encoded (descriptor + 64)
  let sourceEnd ← okOr (checkedSum sourceOffset.toNat stored.toNat)
    (.usage "encoded matrix span overflows usize")
  let source ← okOr (range? encoded sourceOffset.toNat sourceEnd)
    (.usage "encoded matrix lies outside expert record")
  let payload ← readMatrix encoded t codec table sourceEnd stored.toNat decoded.toNat source
  let crc ← u32At encoded (descriptor + 96)
  refuse (crc32c payload ≠ crc) (.usage "decoded Apple8 matrix CRC32C mismatch")
  let output ← alignVec output
  pure (puts output (descriptorWrites index 0 0 output.length decoded.toNat decoded.toNat)
    ++ payload)

/-- `decode_to_raw` -/
def decodeToRaw (crc32c : List UInt8 → UInt32) (encoded : List UInt8) (t : Table) :
    Except ColicError (List UInt8) := do
  let bad := ColicError.usage "invalid encoded Apple8 expert"
  refuse (encoded.length < prefixBytes) bad
  refuse (range? encoded 0 8 ≠ some expertMagic) bad
  (List.range matrixCount).foldlM (decodeMatrix crc32c encoded t) (encoded.take prefixBytes)

end Apple8

end Logan
