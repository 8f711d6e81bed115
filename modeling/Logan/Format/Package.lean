import Logan.Format.RansReader

/-!
# Opening a package

A package is a directory with a manifest and a number of data shards. The
manifest has a header, a table of shards, a table of records and a table of
strings; the payload of a record is a range of a shard. `openPackage` checks
the structure of the manifest and indexes the records. No payload is read.

The shards are known by their numbers. A file that is not there, or that is too
short for what is read from it, is an I/O error; otherwise files do not change
and can always be read. The host has 64-bit addresses, so that a `u64` is a
`usize`. CRC32C is a function `crc32c` of bytes.
-/

namespace Logan

namespace Format

open Result

/-- `MANIFEST_MAGIC` -/
def manifestMagic : List UInt8 := [0x43, 0x4f, 0x4c, 0x49, 0x0d, 0x0a, 0x1a, 0x0a]

/-- `MANIFEST_HEADER_BYTES` -/
def manifestHeaderBytes : ℕ := 256

/-- `LAYOUT_NONE` -/
def layoutNone : UInt16 := 0xfffe

/-- `layout_registered` -/
def layoutRegistered (layout : UInt16) : Bool :=
  layout = 0x0000 ∨ layout = 0x0201 ∨ layout = 0x0103

/-- `u64::is_power_of_two` -/
def isPowerOfTwo (n : ℕ) : Bool := 2 ^ n.log2 = n

/-- **A package directory**: the manifest and, by their numbers, the data shards. -/
structure Directory where
  manifest : Option (List UInt8)
  shard : ℕ → Option (List UInt8)

/-- `format!("data-{id:05}.coli")` -/
def shardName (id : ℕ) : String :=
  "data-" ++ String.ofList (List.leftpad 5 '0' (Nat.toDigits 10 id)) ++ ".coli"

/-! ## Tables and strings of a manifest -/

/-- `region`: from where to where it is. -/
def region (bytes : List UInt8) (offsetField bytesField expected : ℕ) (label : String) :
    Except FormatError (ℕ × ℕ) := do
  let offset := (← u64At bytes offsetField).toNat
  let length := (← u64At bytes bytesField).toNat
  refuse (length ≠ expected ∨ (length ≠ 0 ∧ offset % 16 ≠ 0))
    (invalid s!"{label} has an invalid size or alignment")
  let stop ← okOr (checkedSum offset length) (usage "manifest region overflows")
  refuse (stop > bytes.length) (invalid s!"{label} is outside the manifest")
  pure (offset, stop)

/-- `variable_region` -/
def variableRegion (bytes : List UInt8) (offsetField bytesField : ℕ) (label : String) :
    Except FormatError (ℕ × ℕ) := do
  let offset := (← u64At bytes offsetField).toNat
  let length := (← u64At bytes bytesField).toNat
  refuse (decide (offset = 0) ≠ decide (length = 0) ∨ (length ≠ 0 ∧ offset % 16 ≠ 0))
    (invalid s!"{label} has an invalid offset or alignment")
  let stop ← okOr (checkedSum offset length) (usage "manifest region overflows")
  refuse (stop > bytes.length) (invalid s!"{label} is outside the manifest")
  pure (offset, stop)

variable (manifest : List UInt8)

/-- `validate_string_id` -/
def validateStringId (stringTable : ℕ × ℕ) (count id : ℕ) :
    Except FormatError Unit := do
  refuse (id ≥ count) (invalid "manifest refers to an invalid string ID")
  let desc := stringTable.1 + id * 16
  let offset := (← u64At manifest desc).toNat
  let bytes := (← u32At manifest (desc + 8)).toNat
  let dataStart ← okOr (checkedSum stringTable.1 offset) (usage "string offset overflows")
  let dataEnd ← okOr (checkedSum dataStart bytes) (usage "string length overflows")
  refuse (dataStart < stringTable.1 + count * 16 ∨ dataEnd > stringTable.2 ∨
      fromUtf8 (slice manifest dataStart bytes) = none ∨ 0 ∈ slice manifest dataStart bytes)
    (invalid "manifest string descriptor is invalid")

/-- `string_at` -/
def stringAt (stringTable : ℕ × ℕ) (count id : ℕ) :
    Except FormatError String := do
  refuse (id ≥ count) (invalid "manifest refers to an invalid string ID")
  let desc := stringTable.1 + id * 16
  let offset := (← u64At manifest desc).toNat
  let bytes := (← u32At manifest (desc + 8)).toNat
  let dataStart ← okOr (checkedSum stringTable.1 offset) (usage "string offset overflows")
  let dataEnd ← okOr (checkedSum dataStart bytes) (usage "string length overflows")
  let data ← okOr (range? manifest dataStart dataEnd) (usage "string outside manifest")
  okOr (fromUtf8 data) (usage "invalid UTF-8")

/-! ## The header -/

/-- What is read from the header of a manifest. A table is given by where it
starts and where it ends. -/
structure ManifestHeader where
  flags : UInt32
  alignment : ℕ
  records : ℕ
  shards : ℕ
  strings : ℕ
  shardTable : ℕ × ℕ
  recordTable : ℕ × ℕ
  stringTable : ℕ × ℕ
deriving DecidableEq

/-- The source fingerprint that a manifest has. -/
def fingerprintOf : List UInt8 := slice manifest 112 32

/-- The first part of both `Package::open` and `verify_package`, which have the same
checks of the header, in the same order. -/
def readHeader (crc32c : List UInt8 → UInt32) (manifest : List UInt8) :
    Except FormatError ManifestHeader := do
  refuse (manifest.length < manifestHeaderBytes ∨ slice manifest 0 8 ≠ manifestMagic)
    (invalid "manifest magic/header is invalid")
  refuse ((← u16At manifest 8) ≠ 1 ∨ (← u16At manifest 10) ≠ 0 ∨
      (← u32At manifest 12).toNat ≠ manifestHeaderBytes)
    (invalid "manifest header size is invalid")
  let flags ← u32At manifest 16
  refuse (flags &&& 0xffff0000 ≠ 0) (invalid "manifest contains unknown required feature flags")
  let expectedCrc ← u32At manifest 144
  refuse (crc32c (put manifest 144 [0, 0, 0, 0]) ≠ expectedCrc)
    (invalid "manifest CRC32C does not match")
  let alignment := (← u32At manifest 24).toNat
  refuse (!isPowerOfTwo alignment ∨ ¬(4096 ≤ alignment ∧ alignment ≤ 1024 * 1024))
    (invalid "manifest record alignment is outside COLI v1 limits")
  let records := (← u64At manifest 32).toNat
  let shards := (← u32At manifest 40).toNat
  let strings := (← u32At manifest 28).toNat
  let shardTable ← region manifest 48 56 (shards * 64) "shard table"
  let recordBytes ← okOr (checkedProduct records 96) (usage "record table overflows")
  let recordTable ← region manifest 64 72 recordBytes "record table"
  let stringTable ← variableRegion manifest 80 88 "string table"
  let stringDescBytes ← okOr (checkedProduct strings 16)
    (usage "string descriptor table overflows")
  refuse (stringDescBytes > stringTable.2 - stringTable.1)
    (invalid "string table is shorter than its descriptor array")
  pure { flags, alignment, records, shards, strings, shardTable, recordTable, stringTable }

/-- That the manifest is flagged to have a source fingerprint exactly if it has one. -/
def checkFingerprint (h : ManifestHeader) (manifest : List UInt8) : Except FormatError Unit :=
  refuse (decide (h.flags &&& 1 ≠ 0) ≠ (fingerprintOf manifest).any fun b => b ≠ 0)
    (invalid "manifest source fingerprint validity flag disagrees with bytes")

/-! ## Records -/

/-- `RecordInfo`. The layer and the expert, which are signed, are given by their bits. -/
structure RecordInfo where
  id : UInt64
  kind : UInt16
  codec : UInt16
  mathFormat : UInt16
  scaleFormat : UInt16
  layout : UInt16
  flags : UInt16
  shardId : UInt32
  name : Option String
  layer : UInt32
  expert : UInt32
  offset : UInt64
  stored : UInt64
  decoded : UInt64
  storedCrc : UInt32
  logicalCrc : UInt32
deriving DecidableEq

/-- The name of a record, whose string is validated before it is read. -/
def openName (h : ManifestHeader) (nameId : UInt32) :
    Except FormatError (Option String) :=
  if nameId.toNat = u32Max then pure none
  else do
    validateStringId manifest h.stringTable h.strings nameId.toNat
    some <$> stringAt manifest h.stringTable h.strings nameId.toNat

/-- The part of the loop over the records in which the descriptor is read. -/
def openRecord (h : ManifestHeader) (index : ℕ) :
    Except FormatError RecordInfo := do
  let desc := h.recordTable.1 + index * 96
  let id ← u64At manifest desc
  let kind ← u16At manifest (desc + 8)
  let codec ← u16At manifest (desc + 10)
  let layout ← u16At manifest (desc + 16)
  refuse (layout ≠ layoutNone ∧ ¬layoutRegistered layout)
    (invalid "record uses an unregistered execution layout")
  let name ← openName manifest h (← u32At manifest (desc + 24))
  let mathFormat ← u16At manifest (desc + 12)
  let scaleFormat ← u16At manifest (desc + 14)
  let flags ← u16At manifest (desc + 18)
  let shardId ← u32At manifest (desc + 20)
  let layer ← i32At manifest (desc + 28)
  let expert ← i32At manifest (desc + 32)
  let offset ← u64At manifest (desc + 40)
  let stored ← u64At manifest (desc + 48)
  let decoded ← u64At manifest (desc + 56)
  let storedCrc ← u32At manifest (desc + 64)
  let logicalCrc ← u32At manifest (desc + 68)
  pure { id, kind, codec, mathFormat, scaleFormat, layout, flags, shardId, name, layer, expert,
         offset, stored, decoded, storedCrc, logicalCrc }

/-- That a range starts at a multiple of the alignment, and does not end beyond its shard. -/
def checkRange (alignment size offset stored : ℕ) : Except FormatError Unit :=
  refuse (offset % alignment ≠ 0 ∨ (checkedSum offset stored).all fun stop => stop > size)
    (invalid "record range is invalid")

/-- The records read so far, with the maps from their identifiers, their names
and, for experts, their layers and numbers. -/
structure RecordIndex where
  records : List RecordInfo
  byId : UInt64 → Option ℕ
  byName : String → Option ℕ
  byExpert : UInt32 × UInt32 → List ℕ

namespace RecordIndex

def empty : RecordIndex := ⟨[], fun _ => none, fun _ => none, fun _ => []⟩

/-- One more record is indexed. -/
def push (ix : RecordIndex) (info : RecordInfo) : RecordIndex :=
  let index := ix.records.length
  { records := ix.records ++ [info]
    byId := Function.update ix.byId info.id (some index)
    byName := info.name.elim ix.byName fun name => Function.update ix.byName name (some index)
    byExpert :=
      if info.kind = 2 then
        let key := (info.layer, info.expert)
        Function.update ix.byExpert key (ix.byExpert key ++ [index])
      else ix.byExpert }

/-- The part of the loop over the records in which the record is checked and indexed. -/
def add (alignment : ℕ) (sizes : List ℕ) (ix : RecordIndex) (info : RecordInfo) :
    Except FormatError RecordIndex := do
  refuse (info.id = 0 ∨ (ix.byId info.id).isSome ∨ info.shardId.toNat ≥ sizes.length)
    (invalid "record ID or shard reference is invalid")
  checkRange alignment (sizes.getD info.shardId.toNat 0) info.offset.toNat info.stored.toNat
  refuse (info.name.any fun name => (ix.byName name).isSome)
    (invalid "record name is not unique")
  pure (ix.push info)

end RecordIndex

/-! ## Opening -/

/-- `Package` -/
structure Package where
  manifest : List UInt8
  alignment : ℕ
  profile : String
  compiler : String
  fingerprint : List UInt8
  index : RecordIndex
  shardFiles : List (List UInt8)

/-- One shard: its file is there, with the size that the manifest has. -/
def openShard (d : Directory) (manifest : List UInt8) (h : ManifestHeader) (shardId : ℕ) :
    Except FormatError (List UInt8) := do
  let desc := h.shardTable.1 + shardId * 64
  refuse ((← u32At manifest desc).toNat ≠ shardId) (invalid "shard IDs are not contiguous")
  validateStringId manifest h.stringTable h.strings (← u32At manifest (desc + 8)).toNat
  let fileBytes := (← u64At manifest (desc + 16)).toNat
  let file ← okOr (d.shard shardId) (.io (shardName shardId))
  refuse (file.length ≠ fileBytes) (invalid "shard file size does not match manifest")
  pure file

/-- `Package::open` -/
def openPackage (crc32c : List UInt8 → UInt32) (d : Directory) : Except FormatError Package := do
  let manifest ← okOr d.manifest (.io "manifest.coli")
  let h ← readHeader crc32c manifest
  let profile ← stringAt manifest h.stringTable h.strings (← u32At manifest 148).toNat
  let compiler ← stringAt manifest h.stringTable h.strings (← u32At manifest 152).toNat
  checkFingerprint h manifest
  let shardFiles ← (List.range h.shards).mapM (openShard d manifest h)
  let index ← (List.range h.records).foldlM (fun ix i =>
      openRecord manifest h i >>= RecordIndex.add h.alignment (shardFiles.map List.length) ix)
    RecordIndex.empty
  pure { manifest, alignment := h.alignment, profile, compiler
         fingerprint := fingerprintOf manifest, index, shardFiles }

namespace Package

/-- The records of a package, in their order. -/
def records (p : Package) : List RecordInfo := p.index.records

/-- `record_by_id` -/
def recordById (p : Package) (id : UInt64) : Option RecordInfo :=
  (p.index.byId id).bind fun i => p.records[i]?

/-- `expert_records` -/
def expertRecords (p : Package) (layer expert : UInt32) : List RecordInfo :=
  (p.index.byExpert (layer, expert)).filterMap fun i => p.records[i]?

end Package

end Format

end Logan
