import Logan.Format.Package

/-!
# Verifying a package

`verify_package` checks a package from its bytes alone: the structure of the
manifest, the headers of the shards, the checksums of all payloads, and the
envelopes of tensors and experts. It repeats the checks of `Package::open` and
does not call it.

The verifier reports its progress to a callback, which has no part in the
result and is left out. Payloads are read again from the files, and their
checksum is computed piece by piece, which gives that of the whole.
-/

namespace Logan

namespace Format

open Result

/-- `DATA_MAGIC` -/
def dataMagic : List UInt8 := [0x43, 0x4f, 0x4c, 0x49, 0x44, 0x41, 0x54, 0x00]

/-- `DATA_SHARD_HEADER_BYTES` -/
def dataShardHeaderBytes : ℕ := 128

/-- `b"COLITENS"` -/
def tensorMagic : List UInt8 := [0x43, 0x4f, 0x4c, 0x49, 0x54, 0x45, 0x4e, 0x53]

/-- `b"COLIEXPT"` -/
def expertMagic : List UInt8 := [0x43, 0x4f, 0x4c, 0x49, 0x45, 0x58, 0x50, 0x54]

/-- `VerificationSummary` -/
structure VerificationSummary where
  shards : ℕ
  records : ℕ
deriving DecidableEq

/-- `read_file_range` -/
def readFileRange (d : Directory) (shardId offset length : ℕ) :
    Except FormatError (List UInt8) := do
  let file ← okOr (d.shard shardId) (.io (shardName shardId))
  okOr (range? file offset (offset + length)) (.io (shardName shardId))

variable (crc32c : List UInt8 → UInt32)

/-- `crc32c_file_range` -/
def crc32cFileRange (d : Directory) (shardId offset length : ℕ) :
    Except FormatError UInt32 :=
  crc32c <$> readFileRange d shardId offset length

/-- The checks of the header of a shard file. -/
def verifyShardHeader (manifest : List UInt8) (h : ManifestHeader)
    (shardId fileBytes : ℕ) (headerCrc : UInt32) (header : List UInt8) :
    Except FormatError Unit := do
  let bad := invalid "data shard header disagrees with manifest"
  refuse (slice header 0 8 ≠ dataMagic) bad
  refuse ((← u16At header 8) ≠ 1 ∨ (← u16At header 10) ≠ 0) bad
  refuse ((← u32At header 12).toNat ≠ dataShardHeaderBytes) bad
  refuse ((← u32At header 20).toNat ≠ shardId) bad
  refuse ((← u32At header 24).toNat ≠ h.alignment) bad
  refuse ((← u64At header 32).toNat ≠ fileBytes) bad
  refuse (slice header 40 32 ≠ fingerprintOf manifest) bad
  let actualHeaderCrc ← u32At header 72
  refuse (actualHeaderCrc ≠ headerCrc ∨ crc32c (put header 72 [0, 0, 0, 0]) ≠ actualHeaderCrc)
    (invalid "data shard header CRC32C does not match")

/-- The checks of one shard. Its size is returned. -/
def verifyShard (d : Directory) (manifest : List UInt8)
    (h : ManifestHeader) (shardId : ℕ) : Except FormatError ℕ := do
  let desc := h.shardTable.1 + shardId * 64
  refuse ((← u32At manifest desc).toNat ≠ shardId) (invalid "shard IDs are not contiguous")
  validateStringId manifest h.stringTable h.strings (← u32At manifest (desc + 8)).toNat
  let fileBytes := (← u64At manifest (desc + 16)).toNat
  let headerCrc ← u32At manifest (desc + 24)
  let file ← okOr (d.shard shardId) (.io (shardName shardId))
  refuse (file.length ≠ fileBytes) (invalid "shard file size does not match manifest")
  let header ← okOr (range? file 0 dataShardHeaderBytes) (.io (shardName shardId))
  verifyShardHeader crc32c manifest h shardId fileBytes headerCrc header
  pure fileBytes

/-- `verify_tensor_record` -/
def verifyTensorRecord (d : Directory)
    (shardId offset stored decoded : ℕ) (codec flags : UInt16) (logicalCrc : UInt32) :
    Except FormatError Unit := do
  refuse (codec ≠ 0 ∨ stored < 128)
    (invalid "tensor record uses an unsupported codec or is truncated")
  let header ← readFileRange d shardId offset 128
  refuse (slice header 0 8 ≠ tensorMagic ∨ (← u32At header 12) ≠ 128 ∨ (← u16At header 16) > 8)
    (invalid "tensor envelope header is invalid")
  let dataOffset := (← u64At header 96).toNat
  let dataStored := (← u64At header 104).toNat
  let dataDecoded := (← u64At header 112).toNat
  refuse (dataOffset < 128 ∨ dataOffset % 16 ≠ 0 ∨ dataStored ≠ dataDecoded ∨
      dataDecoded ≠ decoded ∨ (checkedSum dataOffset dataStored).all fun stop => stop > stored)
    (invalid "tensor envelope lengths are invalid")
  if flags &&& 2 ≠ 0 then do
    let envelopeCrc ← u32At header 120
    refuse (envelopeCrc ≠ logicalCrc ∨
        (← crc32cFileRange crc32c d shardId (offset + dataOffset) dataDecoded) ≠ logicalCrc)
      (invalid "tensor logical CRC32C does not match")
  else pure ()

/-- Whether a signed word, which is given by its bits, is negative. -/
def isNegative (x : UInt32) : Bool := 0x80000000 ≤ x

/-- `verify_expert_record` -/
def verifyExpertRecord (d : Directory) (shardId offset stored decoded : ℕ)
    (layer expert : UInt32) (codec : UInt16) : Except FormatError Unit := do
  refuse (codec ≠ 0 ∨ stored < 448 ∨ isNegative layer ∨ isNegative expert)
    (invalid "expert record descriptor is invalid")
  let header ← readFileRange d shardId offset 64
  let bad := invalid "expert envelope header disagrees with its descriptor"
  refuse (slice header 0 8 ≠ expertMagic) bad
  refuse ((← u32At header 12) ≠ 64) bad
  refuse ((← i32At header 16) ≠ layer ∨ (← i32At header 20) ≠ expert) bad
  refuse ((← u16At header 24) ≠ 3 ∨ (← u32At header 28) ≠ 128) bad
  refuse ((← u64At header 32) ≠ 64 ∨ (← u64At header 40) ≠ 448) bad
  refuse ((← u64At header 48).toNat ≠ decoded) bad

/-- The name of a record is validated if it has one. -/
def verifyName (manifest : List UInt8) (h : ManifestHeader) (nameId : UInt32) :
    Except FormatError Unit :=
  if nameId.toNat ≠ u32Max then validateStringId manifest h.stringTable h.strings nameId.toNat
  else pure ()

/-- The envelope of a payload, for the kinds of records that have one. -/
def verifyEnvelope (d : Directory) (kind codec flags : UInt16)
    (shardId : ℕ) (layer expert : UInt32) (offset stored decoded : ℕ) (logicalCrc : UInt32) :
    Except FormatError Unit :=
  if kind = 1 then
    verifyTensorRecord crc32c d shardId offset stored decoded codec flags logicalCrc
  else if kind = 2 then
    verifyExpertRecord d shardId offset stored decoded layer expert codec
  else pure ()

/-- The checks of one record. Kept are the identifiers of the records so far, and
the sum of their sizes. -/
def verifyRecord (d : Directory) (manifest : List UInt8)
    (h : ManifestHeader) (sizes : List ℕ) (soFar : List UInt64 × ℕ) (index : ℕ) :
    Except FormatError (List UInt64 × ℕ) := do
  let desc := h.recordTable.1 + index * 96
  let id ← u64At manifest desc
  let kind ← u16At manifest (desc + 8)
  let codec ← u16At manifest (desc + 10)
  let layout ← u16At manifest (desc + 16)
  refuse (layout ≠ layoutNone ∧ ¬layoutRegistered layout)
    (invalid "record uses an unregistered execution layout")
  let flags ← u16At manifest (desc + 18)
  let shardId := (← u32At manifest (desc + 20)).toNat
  let layer ← i32At manifest (desc + 28)
  let expert ← i32At manifest (desc + 32)
  let offset := (← u64At manifest (desc + 40)).toNat
  let stored := (← u64At manifest (desc + 48)).toNat
  let decoded := (← u64At manifest (desc + 56)).toNat
  let storedCrc ← u32At manifest (desc + 64)
  let logicalCrc ← u32At manifest (desc + 68)
  let nameId ← u32At manifest (desc + 24)
  refuse (id = 0 ∨ id ∈ soFar.1 ∨ shardId ≥ sizes.length)
    (invalid "record ID or shard reference is invalid")
  verifyName manifest h nameId
  checkRange h.alignment (sizes.getD shardId 0) offset stored
  refuse ((← crc32cFileRange crc32c d shardId offset stored) ≠ storedCrc)
    (invalid "record stored CRC32C does not match")
  verifyEnvelope crc32c d kind codec flags shardId layer expert offset stored decoded logicalCrc
  let total ← okOr (checkedSum soFar.2 stored) (usage "verified byte total overflows")
  pure (id :: soFar.1, total)

/-- `verify_package` -/
def verifyPackage (d : Directory) :
    Except FormatError VerificationSummary := do
  let manifest ← okOr d.manifest (.io "manifest.coli")
  let h ← readHeader crc32c manifest
  let profileStringId ← u32At manifest 148
  let compilerStringId ← u32At manifest 152
  validateStringId manifest h.stringTable h.strings profileStringId.toNat
  validateStringId manifest h.stringTable h.strings compilerStringId.toNat
  checkFingerprint h manifest
  let sizes ← (List.range h.shards).mapM (verifyShard crc32c d manifest h)
  let _ ← (List.range h.records).foldlM (verifyRecord crc32c d manifest h sizes) ([], 0)
  pure { shards := h.shards, records := h.records }

end Format

end Logan
