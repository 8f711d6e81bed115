import Logan.Source.FileCursor
import Logan.Source.Ggml

/-!
# The header of a GGUF file

A GGUF file begins with a header: some numbers, the metadata – keys with
values of thirteen types, arrays among them – and the descriptors of the
tensors. The data follows, from the next aligned offset on. `parse_gguf_file`
reads the header, skips the arrays that nobody asks for, and checks that every
tensor is in the file.

The numbers of tensors and of keys, the lengths of strings and of the arrays
that are kept are limited before anything is allocated for them; what is
allocated is metered, but for the nodes of the maps and the texts of errors.
The map from names is a function. How a single-precision number is widened is
a parameter.
-/

namespace Logan

open Reader Metered

namespace Gguf

/-- `GGUF_MAGIC` -/
def magic : UInt32 := 0x46554747

/-- `DEFAULT_ALIGNMENT` -/
def defaultAlignment : ℕ := 32

/-- `MAX_STRING_BYTES` -/
def maxStringBytes : ℕ := 64 * 1024 * 1024

/-- `MAX_METADATA_ARRAY` -/
def maxMetadataArray : ℕ := 2 ^ 20

/-- `MAX_DIMS` -/
def maxDims : ℕ := 8

/-- The largest number of tensors and of metadata entries. -/
def maxCount : ℕ := 1000000

/-- **A value of the metadata**; a double-precision number is its bits. -/
inductive MetadataValue
  | u64 (v : UInt64)
  | i64 (v : ℤ)
  | f64 (bits : UInt64)
  | bool (v : Bool)
  | string (v : String)
  | u64Array (v : Vec 8 UInt64)
  | i64Array (v : Vec 8 ℤ)
  | f64Array (v : Vec 8 UInt64)
  /-- An array that has been skipped, with its length. -/
  | ignoredArray (len : UInt64)

structure TensorInfo where
  name : String
  /-- The dimensions, as they are stored. -/
  dims : Vec 8 UInt64
  dtype : GgmlType
  shard : ℕ
  /-- The absolute offset of the first block in its shard. -/
  offset : ℕ
  storedBytes : ℕ

/-- What a file has been parsed to. -/
structure ParsedGguf where
  metadata : String → Option MetadataValue
  tensors : String → Option TensorInfo
  dataStart : ℕ
  alignment : ℕ

/-- A descriptor that has been read. -/
structure PendingTensor where
  name : String
  dims : Vec 8 UInt64
  dtype : GgmlType
  relativeOffset : UInt64
  storedBytes : ℕ

/-! ## Numbers -/

/-- A signed number, from its two's complement in little-endian bytes. -/
def signed (raw : List UInt8) : ℤ :=
  if 2 * leNat raw < 256 ^ raw.length then leNat raw else (leNat raw : ℤ) - 256 ^ raw.length

section Readers

open FileCursor

variable {file : FileBytes}

/-- A reader of a GGUF file. -/
abbrev Read (file : FileBytes) (A : Type) : Type := Reader (FileCursor file) String A

/-- A computation without a reader that may fail. -/
def check {A : Type} (x : Except String A) : Read file A :=
  lift (lift (x.mapError Failure.error))

/-- A number of a fixed width: `from_le_bytes` of `read_exact`. -/
def readNumber {A : Type} (width : ℕ) (decode : List UInt8 → A) : Read file A := do
  let raw ← FileCursor.readExact width
  pure (decode raw)

/-- An unsigned number, `as u64`. -/
def unsigned (raw : List UInt8) : UInt64 := UInt64.ofNat (leNat raw)

def readU8 : Read file UInt64 := readNumber 1 unsigned

def readI8 : Read file ℤ := readNumber 1 signed

def readU16 : Read file UInt64 := readNumber 2 unsigned

def readI16 : Read file ℤ := readNumber 2 signed

def readU32 : Read file UInt32 := readNumber 4 u32OfBytes

def readI32 : Read file ℤ := readNumber 4 signed

def readU64 : Read file UInt64 := readNumber 8 unsigned

def readI64 : Read file ℤ := readNumber 8 signed

variable (widen : UInt32 → UInt64)

/-- `read_f32(file)? as f64` -/
def readF32 : Read file UInt64 :=
  readNumber 4 fun raw => widen (u32OfBytes raw)

def readF64 : Read file UInt64 := readNumber 8 unsigned

/-- `read_string` -/
def readString : Read file String := do
  let len ← readU64
  if maxStringBytes < len.toNat then
    fail ("GGUF string length " ++ toString len.toNat ++ " exceeds safety limit")
  else do
    lift (reserve len.toNat)
    let bytes ← FileCursor.readExact len.toNat
    check (Result.okOr (fromUtf8 bytes) "GGUF string is not UTF-8")

/-! ## Values of the metadata -/

/-- `scalar_width` -/
def scalarWidth (ty : UInt32) : Option ℕ :=
  match ty.toNat with
  | 0 | 1 | 7 => some 1
  | 2 | 3 => some 2
  | 4 | 5 | 6 => some 4
  | 10 | 11 | 12 => some 8
  | _ => none

/-- A string of an array that is skipped. -/
def skipString : Read file Unit := do
  let n ← readU64
  if maxStringBytes < n.toNat then
    fail ("GGUF array string length " ++ toString n.toNat ++ " exceeds safety limit")
  else skipBytes n.toNat

/-- `skip_array` -/
def skipArray (elemTy : UInt32) (len : UInt64) : Read file Unit :=
  if elemTy = 8 then do
    let _ ← times len.toNat skipString
    pure ()
  else if elemTy = 9 then fail "nested GGUF arrays are unsupported"
  else do
    let width ← check (Result.okOr (scalarWidth elemTy)
      ("unsupported GGUF array element type " ++ toString elemTy.toNat))
    let bytes ← check (Result.okOr (checkedProduct width len.toNat) "GGUF array skip overflow")
    skipBytes bytes

/-- An element of a kept array of unsigned numbers. -/
def readUnsignedElem (elemTy : UInt32) : Read file UInt64 :=
  match elemTy.toNat with
  | 0 => readU8
  | 2 => readU16
  | 4 => do
    let v ← readU32
    pure v.toUInt64
  | 10 => readU64
  | _ => panic

/-- An element of a kept array of signed numbers. -/
def readSignedElem (elemTy : UInt32) : Read file ℤ :=
  match elemTy.toNat with
  | 1 => readI8
  | 3 => readI16
  | 5 => readI32
  | 11 => readI64
  | _ => panic

/-- An element of a kept array of floating-point numbers. -/
def readFloatElem (elemTy : UInt32) : Read file UInt64 :=
  if elemTy = 6 then readF32 widen else readF64

/-- An array that is skipped. -/
def ignoreArray (elemTy : UInt32) (len : UInt64) : Read file MetadataValue := do
  skipArray elemTy len
  pure (.ignoredArray len)

/-- The elements of an array are read into a vector. -/
def readElems {A : Type} (array : Vec 8 A → MetadataValue) (len : UInt64) (elem : Read file A) :
    Read file MetadataValue := do
  let out ← vec 8 len.toNat elem
  pure (array out)

/-- An array that is kept, if it is one of numbers. -/
def readKept (elemTy : UInt32) (len : UInt64) :
    Read file MetadataValue :=
  match elemTy.toNat with
  | 0 | 2 | 4 | 10 => readElems .u64Array len (readUnsignedElem elemTy)
  | 1 | 3 | 5 | 11 => readElems .i64Array len (readSignedElem elemTy)
  | 6 | 12 => readElems .f64Array len (readFloatElem widen elemTy)
  | _ => ignoreArray elemTy len

/-- The array of a metadata value. -/
def readArray (keepArray : Bool) : Read file MetadataValue := do
  let elemTy ← readU32
  let len ← readU64
  if ¬ keepArray ∨ maxMetadataArray < len.toNat then ignoreArray elemTy len
  else readKept widen elemTy len

/-- `read_metadata_value` -/
def readMetadataValue (ty : UInt32) (keepArray : Bool) :
    Read file MetadataValue :=
  match ty.toNat with
  | 0 => .u64 <$> readU8
  | 1 => .i64 <$> readI8
  | 2 => .u64 <$> readU16
  | 3 => .i64 <$> readI16
  | 4 => do
    let v ← readU32
    pure (.u64 v.toUInt64)
  | 5 => .i64 <$> readI32
  | 6 => .f64 <$> readF32 widen
  | 7 => do
    let v ← readU8
    pure (.bool (v ≠ 0))
  | 8 => .string <$> readString
  | 9 => readArray widen keepArray
  | 10 => .u64 <$> readU64
  | 11 => .i64 <$> readI64
  | 12 => .f64 <$> readF64
  | other => fail ("unsupported GGUF metadata value type " ++ toString other)

/-- `key.starts_with("qwen4exp.") || key == "general.alignment"` -/
def keepsArray (key : String) : Bool :=
  ("qwen4exp.".toList.isPrefixOf key.toList) || key == "general.alignment"

/-- One turn of the loop over the metadata. -/
def readEntry : Read file (String × MetadataValue) := do
  let key ← readString
  let ty ← readU32
  let value ← readMetadataValue widen ty (keepsArray key)
  pure (key, value)

/-- `metadata.insert(key, value)`, for all of them in order. -/
def insertAll (entries : List (String × MetadataValue)) : String → Option MetadataValue :=
  entries.foldl (fun m e => Function.update m e.1 (some e.2)) fun _ => none

/-- `meta_u64` -/
def metaU64 : MetadataValue → Option ℕ
  | .u64 v => some v.toNat
  | .i64 v => if 0 ≤ v then some v.toNat else none
  | _ => none

/-- The alignment that the metadata asks for. -/
def alignmentOf (metadata : String → Option MetadataValue) : ℕ :=
  ((metadata "general.alignment").bind metaU64).getD defaultAlignment

/-- `is_power_of_two` -/
def isPowerOfTwo (n : ℕ) : Bool := n ≠ 0 ∧ 2 ^ n.log2 = n

/-! ## Descriptors of tensors -/

/-- The product of the dimensions. -/
def elementCount (name : String) (dims : List UInt64) : Except String ℕ :=
  dims.foldlM (fun n d => Result.okOr (checkedProduct n d.toNat)
    (name ++ ": element count overflow")) 1

/-- The size of a descriptor in memory. -/
def pendingSize : ℕ := 72

/-- One turn of the loop over the descriptors. -/
def readPending : Read file PendingTensor := do
  let name ← readString
  let nDims ← readU32
  if nDims = 0 ∨ maxDims < nDims.toNat then
    fail (name ++ ": invalid GGUF rank " ++ toString nDims.toNat)
  else do
    let dims ← vec 8 nDims.toNat readU64
    let ty ← readU32
    let dtype ← check (GgmlType.fromId ty)
    let relativeOffset ← readU64
    let elements ← check (elementCount name dims.toList)
    let storedBytes ← check (dtype.storedBytes elements)
    pure ⟨name, dims, dtype, relativeOffset, storedBytes⟩

/-! ## The header -/

/-- What is read of the header: the metadata, the alignment and the
descriptors. -/
def readHeader :
    Read file ((String → Option MetadataValue) × ℕ × Vec pendingSize PendingTensor) := do
  let m ← readU32
  if m ≠ magic then fail "not a GGUF file"
  else do
    let version ← readU32
    if version ≠ 3 then
      fail ("GGUF version " ++ toString version.toNat ++ " is not supported; expected v3")
    else do
      let tensorCount ← readU64
      let kvCount ← readU64
      if maxCount < tensorCount.toNat ∨ maxCount < kvCount.toNat then
        fail "GGUF header counts exceed safety limits"
      else do
        let entries ← times kvCount.toNat (readEntry widen)
        let metadata := insertAll entries
        let alignment := alignmentOf metadata
        if alignment = 0 ∨ ¬ isPowerOfTwo alignment ∨ 1024 * 1024 < alignment then
          fail ("invalid GGUF alignment " ++ toString alignment)
        else do
          let pending ← vec pendingSize tensorCount.toNat readPending
          pure (metadata, alignment, pending)

end Readers

/-- `align_up`, on 64-bit words. The subtraction panics for an alignment of
zero. -/
def alignUp (value alignment : ℕ) : Metered String ℕ :=
  if alignment = 0 then panic
  else match checkedSum value (alignment - 1) with
    | some v => pure (UInt64.ofNat v &&& ~~~(UInt64.ofNat (alignment - 1))).toNat
    | none => fail "GGUF alignment overflow"

/-- One turn of the loop over the pending tensors. The name is cloned for the
tensor and for the key; a remainder by zero is a panic. -/
def placeTensor (fileLen alignment dataStart shard : ℕ) (tensors : String → Option TensorInfo)
    (t : PendingTensor) : Metered String (String → Option TensorInfo) :=
  if alignment = 0 then panic
  else if t.relativeOffset.toNat % alignment ≠ 0 then
    fail (t.name ++ ": relative tensor offset " ++ toString t.relativeOffset.toNat
      ++ " is not " ++ toString alignment ++ "-byte aligned")
  else match checkedSum dataStart t.relativeOffset.toNat with
    | none => fail (t.name ++ ": tensor offset overflow")
    | some offset => match checkedSum offset t.storedBytes with
      | none => fail (t.name ++ ": tensor extent overflow")
      | some stop =>
        if fileLen < stop then fail (t.name ++ " extends beyond end of GGUF file")
        else do
          reserve (utf8 t.name).length
          reserve (utf8 t.name).length
          if (tensors t.name).isSome then fail ("duplicate GGUF tensor " ++ t.name)
          else pure (Function.update tensors t.name
            (some ⟨t.name, t.dims, t.dtype, shard, offset, t.storedBytes⟩))

/-- The rest of `parse_gguf_file`, from the end of the header on. -/
def placeTensors (fileLen shard headerEnd : ℕ) (metadata : String → Option MetadataValue)
    (alignment : ℕ) (pending : List PendingTensor) : Metered String ParsedGguf := do
  let dataStart ← alignUp headerEnd alignment
  if fileLen < dataStart then fail "GGUF data section begins beyond end of file"
  else do
    let tensors ← pending.foldlM (placeTensor fileLen alignment dataStart shard) fun _ => none
    pure ⟨metadata, tensors, dataStart, alignment⟩

/-- **`parse_gguf_file`** -/
def parseGgufFile (widen : UInt32 → UInt64) (file : FileBytes) (shard : ℕ) :
    Metered String ParsedGguf := do
  let ((metadata, alignment, pending), c) ← readHeader widen (FileCursor.start file)
  placeTensors file.bytes.length shard c.pos metadata alignment pending.toList

end Gguf

end Logan
