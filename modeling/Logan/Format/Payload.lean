import Logan.Format.Opened
import Logan.Format.RansGuarded
import Logan.Format.Verify

/-!
# Reading the payload of a record

An opened package reads the payload of a record when it is asked for: as a
tensor, as the matrices of an expert, or – for an expert whose matrices are
stored as they are executed – as the places of these matrices in the shard. The
last are kept in a cache. What is read is whatever the shard has, and so each of
the readers says here where it panics: at a slice that is not in its buffer, and
at a sum that is not a word.

The cache is behind a lock that is not held while a record is read. Memory is not
modelled.
-/

namespace Logan

namespace Format

open Result Fault

/-- `INT4_MATH_FORMAT` -/
def int4MathFormat : UInt16 := 0x22

/-- `INT4_SCALE_FORMAT` -/
def int4ScaleFormat : UInt16 := 0x1

/-! ## Ranges of a shard -/

variable (p : Package)

/-- `read_shard_range` -/
def readShardRange (shardId : UInt32) (offset len : ℕ) :
    Except FormatError (List UInt8) := do
  let file ← okOr p.shardFiles[shardId.toNat]? (usage "record references a missing shard")
  okOr (range? file offset (offset + len)) (.io (shardName shardId.toNat))

/-- `read_payload_range` -/
def readPayloadRange (record : RecordInfo) (withinOff len : ℕ) :
    Except (Fault FormatError) (List UInt8) := do
  let offset ← orPanic (checkedSum record.offset.toNat withinOff)
  lift (readShardRange p record.shardId offset len)

variable (crc32c : List UInt8 → UInt32)

/-- `read_record` -/
def readRecord (p : Package) (record : RecordInfo) :
    Except FormatError (List UInt8) := do
  let bytes ← readShardRange p record.shardId record.offset.toNat record.stored.toNat
  refuse (crc32c bytes ≠ record.storedCrc) (invalid "record stored CRC32C does not match")
  pure bytes

/-! ## Tensors -/

/-- The checksum of the data of a tensor, if the record has one. -/
def checkLogicalCrc (record : RecordInfo) (bytes : List UInt8)
    (dataOffset dataEnd : ℕ) : Except (Fault FormatError) Unit :=
  if record.flags &&& 2 ≠ 0 then do
    let mismatch := invalid "tensor logical CRC32C does not match"
    let envelopeCrc ← lift (u32At bytes 120)
    lift (refuse (envelopeCrc ≠ record.logicalCrc) mismatch)
    let data ← orPanic (range? bytes dataOffset dataEnd)
    lift (refuse (crc32c data ≠ record.logicalCrc) mismatch)
  else pure ()

/-- The part of `read_tensor_payload` that comes after the record has been read. -/
def tensorPayload (record : RecordInfo) (bytes : List UInt8) :
    Except (Fault FormatError) (List UInt8) := do
  let bad := invalid "tensor envelope header is invalid"
  let magic ← orPanic (range? bytes 0 8)
  lift (refuse (magic ≠ tensorMagic) bad)
  lift (refuse ((← lift (u32At bytes 12)) ≠ 128) bad)
  lift (refuse ((← lift (u16At bytes 16)) > 8) bad)
  let dataOffset := (← lift (u64At bytes 96)).toNat
  let dataStored := (← lift (u64At bytes 104)).toNat
  let dataDecoded := (← lift (u64At bytes 112)).toNat
  lift (refuse (dataOffset < 128 ∨ dataOffset % 16 ≠ 0 ∨ dataStored ≠ dataDecoded ∨
      dataStored ≠ record.decoded.toNat ∨
      (checkedSum dataOffset dataStored).all fun stop => stop > bytes.length)
    (invalid "tensor envelope lengths are invalid"))
  let dataEnd ← orPanic (checkedSum dataOffset dataStored)
  checkLogicalCrc crc32c record bytes dataOffset dataEnd
  orPanic (range? bytes dataOffset dataEnd)

/-- `read_tensor_payload` -/
def readTensorPayload (p : Package) (record : RecordInfo) :
    Except (Fault FormatError) (List UInt8) := do
  lift (refuse (record.kind ≠ 1) (invalid "record is not a tensor record"))
  lift (refuse (record.codec ≠ 0)
    (invalid "tensor record uses an unsupported codec (rANS decode lands with RW-014)"))
  let bytes ← lift (readRecord crc32c p record)
  tensorPayload crc32c record bytes

/-! ## Experts -/

/-- `apple8_tile_bytes` -/
def apple8TileBytes (rows columns : ℕ) : Except FormatError ℕ := do
  refuse (rows = 0 ∨ columns = 0) (invalid "Apple8 matrix has a zero dimension")
  okOr (checkedProduct ((rows + 7) / 8) ((columns + 31) / 32) >>= fun tiles =>
      checkedProduct tiles 136)
    (usage "Apple8 matrix byte count overflows")

/-- `apple8_decode` -/
def apple8Decode (record : List UInt8) (table : RansReader.RansTable) (rows columns : ℕ) :
    Except (Fault FormatError) (List UInt8) := do
  let expected ← lift (apple8TileBytes rows columns)
  (RansReader.Guarded.decodeRecord table record expected).toFault

/-- `{:04x}` -/
def hex4 (x : UInt16) : String :=
  String.ofList [hexDigit (x.toNat / 4096), hexDigit (x.toNat / 256 % 16),
    hexDigit (x.toNat / 16 % 16), hexDigit (x.toNat % 16)]

/-- The resident bytes of a matrix, by its formats. -/
def residentMatrix (manifest : List UInt8) (i : ℕ)
    (role math scale wc : UInt16) (wt : UInt32) (rows cols wDecoded : ℕ)
    (weights scales : List UInt8) : Except (Fault FormatError) (List UInt8) :=
  if math = 0x0003 ∧ scale = 0x0000 then pure weights
  else if math = int4MathFormat ∧ scale = int4ScaleFormat then pure (weights ++ scales)
  else if math = 0x0020 ∧ scale = 0x0004 then do
    lift (refuse (wc ≠ RansReader.codecId) (usage "Apple8 matrix weight codec is not rANS"))
    let table ← RansReader.Guarded.fromManifest crc32c manifest wt wc
    let tiles ← apple8Decode weights table rows cols
    lift (refuse (tiles.length ≠ wDecoded) (usage "Apple8 decoded size disagrees with descriptor"))
    pure tiles
  else lift (.error (usage ("expert matrix " ++ toString i ++ " (role " ++ toString role.toNat ++
    ") uses unsupported math 0x" ++ hex4 math ++ " scale 0x" ++ hex4 scale)))

/-- One matrix of the loop of `read_expert_matrices`. All sums of the descriptor's place
and a place in the descriptor are at most the first one. -/
def expertMatrix (manifest bytes : List UInt8) (descSize i : ℕ) :
    Except (Fault FormatError) (List UInt8) := do
  let before ← orPanic (checkedProduct i descSize)
  let d ← orPanic (checkedSum 64 before)
  let _ ← orPanic (checkedSum d 88)
  let role ← lift (u16At bytes d)
  let math ← lift (u16At bytes (d + 4))
  let scale ← lift (u16At bytes (d + 6))
  let rows := (← lift (u64At bytes (d + 16))).toNat
  let cols := (← lift (u64At bytes (d + 24))).toNat
  let wc ← lift (u16At bytes (d + 8))
  let wt ← lift (u32At bytes (d + 40))
  let wStart := (← lift (u64At bytes (d + 48))).toNat
  let wStored := (← lift (u64At bytes (d + 56))).toNat
  let wDecoded := (← lift (u64At bytes (d + 64))).toNat
  let sStart := (← lift (u64At bytes (d + 72))).toNat
  let sStored := (← lift (u64At bytes (d + 80))).toNat
  let wEnd ← lift (okOr (checkedSum wStart wStored) (usage "matrix span overflows"))
  let sEnd ← lift (okOr (checkedSum sStart sStored) (usage "scale span overflows"))
  let weights ← lift (okOr (range? bytes wStart wEnd) (usage "matrix data outside record"))
  let scales ← lift (okOr (range? bytes sStart sEnd) (usage "scale data outside record"))
  residentMatrix crc32c manifest i role math scale wc wt rows cols wDecoded weights scales

/-- The part of `read_expert_matrices` that comes after the record has been read. -/
def expertMatrices (manifest bytes : List UInt8) :
    Except (Fault FormatError) (List (List UInt8)) := do
  let bad := invalid "expert envelope header is invalid"
  let magic ← orPanic (range? bytes 0 8)
  lift (refuse (magic ≠ expertMagic) bad)
  lift (refuse ((← lift (u16At bytes 8)) ≠ 1) bad)
  lift (refuse ((← lift (u32At bytes 12)) ≠ 64) bad)
  lift (refuse ((← lift (u16At bytes 24)) ≠ 3) bad)
  let descSize := (← lift (u32At bytes 28)).toNat
  (List.range 3).mapM (expertMatrix crc32c manifest bytes descSize)

/-- `read_expert_matrices` -/
def readExpertMatrices (p : Package) (record : RecordInfo) :
    Except (Fault FormatError) (List (List UInt8)) := do
  lift (refuse (record.kind ≠ 2) (invalid "record is not an expert record"))
  let bytes ← lift (readRecord crc32c p record)
  expertMatrices crc32c p.manifest bytes

/-! ## Places of matrices -/

/-- **Where the matrices of an expert are** in their shard, and how many rows and columns
they have. -/
structure ExpertRegions where
  regions : List (ℕ × ℕ)
  dims : List (ℕ × ℕ)
deriving DecidableEq

/-- `BASE_DESC` -/
def baseDesc : ℕ := 88

/-- What is not there makes the call return `None`. -/
def orNone {A : Type} (x : Option A) : Except (Fault Unit) A := okOr x (.failed ())

/-- A reading of the shard that fails makes the call return `None`. -/
def okOrNone {A : Type} : Except (Fault FormatError) A → Except (Fault Unit) A
  | .ok a => .ok a
  | .error (.failed _) => .error (.failed ())
  | .error .panicked => .error .panicked

/-- One matrix of the loop of `expert_matrix_regions`. -/
def matrixRegion (record : RecordInfo) (raw : List UInt8) (descSize i : ℕ) :
    Except (Fault Unit) ((ℕ × ℕ) × (ℕ × ℕ)) := do
  let before ← orPanic (checkedProduct i descSize)
  let d ← orPanic (checkedSum 64 before)
  let _ ← orPanic (checkedSum d 64)
  let math ← orNone (u16At? raw (d + 4))
  let wc ← orNone (u16At? raw (d + 8))
  let rows ← orNone (u64At? raw (d + 16))
  let cols ← orNone (u64At? raw (d + 24))
  let wOff ← orNone (u64At? raw (d + 48))
  let wStored ← orNone (u64At? raw (d + 56))
  refuse (math ≠ 0x20 ∨ wc ≠ 0) (.failed ())
  let start ← orPanic (checkedSum record.offset.toNat wOff.toNat)
  pure ((start, wStored.toNat), (rows.toNat, cols.toNat))

/-- The envelope and its descriptors, which are read again if they are larger than usual. -/
def readDescriptors (record : RecordInfo) (raw : List UInt8) (need : ℕ) :
    Except (Fault Unit) (List UInt8) :=
  if need > raw.length then okOrNone (readPayloadRange p record 0 need) else pure raw

/-- The part of `expert_matrix_regions` that comes after the lookup in the cache. -/
def findRegions (record : RecordInfo) : Except (Fault Unit) ExpertRegions := do
  let raw ← okOrNone (readPayloadRange p record 0 (64 + 3 * baseDesc))
  let magic ← orNone (range? raw 0 8)
  refuse (magic ≠ expertMagic) (.failed ())
  let descSize := (← orNone (u32At? raw 28)).toNat
  refuse (descSize < baseDesc) (.failed ())
  let need ← orNone (checkedProduct 3 descSize >>= checkedSum 64)
  let raw ← readDescriptors p record raw need
  let found ← (List.range 3).mapM (matrixRegion record raw descSize)
  pure ⟨found.map Prod.fst, found.map Prod.snd⟩

/-- The regions that have been found, by the identifier of their record. -/
abbrev RegionCache : Type := UInt64 → Option ExpertRegions

/-- `expert_matrix_regions`, with the cache before and after. -/
def expertMatrixRegions (cache : RegionCache) (record : RecordInfo) :
    Except (Fault Unit) ExpertRegions × RegionCache :=
  match cache record.id with
  | some found => (.ok found, cache)
  | none =>
    match findRegions p record with
    | .ok found => (.ok found, Function.update cache record.id (some found))
    | .error e => (.error e, cache)

end Format

end Logan
