import Logan.Util.Fields
import Logan.Util.Search

/-!
# The manifest of a `.logan` artifact

A manifest is a fixed header, a table of sections, a table of files, the
payloads of the sections, and a trailer. Every place and every count is read
from the bytes, so a reader has to check them: `Manifest.parse` returns a
manifest, or an error that says which check has failed. The sections of a
manifest are strictly ordered by their kind, and its files are numbered from
zero on.

A `ManifestBuilder` collects sections and external files, and lays out the
manifest of these. Its invariants – no two sections of one kind, the files
numbered from one on – are fields, so that every builder has them.

The host has 64-bit addresses, so that a `u64` is a `usize`. CRC32C is a
function `crc32c` of bytes.
-/

namespace Logan

namespace Artifact

open Result

/-- `MANIFEST_MAGIC` -/
def manifestMagic : List UInt8 := [0x4c, 0x4f, 0x47, 0x41, 0x4e, 0x4d, 0x4f, 0x44, 0x45, 0x4c]

/-- `TRAILER_MAGIC` -/
def trailerMagic : List UInt8 := [0x4c, 0x4f, 0x47, 0x41, 0x4e, 0x45, 0x4e, 0x44]

def formatMajor : UInt16 := 1
def formatMinor : UInt16 := 0
def headerBytes : ℕ := 64
def sectionEntryBytes : ℕ := 32
def fileEntryBytes : ℕ := 24
def trailerBytes : ℕ := 16

/-- `file_kind::MANIFEST` -/
def manifestKind : UInt32 := 0

/-- `file_kind::PROVENANCE`, the last of the kinds. -/
def provenanceKind : UInt32 := 4

inductive ArtifactError where
  | truncated (what : String)
  | invalid (what : String)
  | invalidDetail (what : String)
deriving DecidableEq

structure ManifestHeader where
  formatMajor : UInt16
  formatMinor : UInt16
  minReaderMajor : UInt16
  minReaderMinor : UInt16
  flags : UInt32
  generation : UInt64
  sectionCount : UInt32
  fileCount : UInt32
  sectionTableOffset : UInt64
  fileTableOffset : UInt64
deriving DecidableEq

structure SectionEntry where
  kind : UInt16
  entryFlags : UInt16
  offset : UInt64
  length : UInt64
  crc32c : UInt32
deriving DecidableEq

structure FileEntry where
  fileId : UInt32
  nameId : UInt32
  fileBytes : UInt64
  fileKind : UInt32
deriving DecidableEq

structure Manifest where
  header : ManifestHeader
  sections : List SectionEntry
  files : List FileEntry
  bytes : List UInt8
deriving DecidableEq

/-! ## Reading -/

/-- `take`: some bytes at a place. -/
def take (n : ℕ) (bytes : List UInt8) (start : ℕ) (what : String) :
    Except ArtifactError (List UInt8) := do
  let stop ← okOr (checkedSum start n) (.invalid "offset overflow")
  okOr (range? bytes start stop) (.truncated what)

def u16At (bytes : List UInt8) (start : ℕ) (what : String) : Except ArtifactError UInt16 :=
  u16OfBytes <$> take 2 bytes start what

def u32At (bytes : List UInt8) (start : ℕ) (what : String) : Except ArtifactError UInt32 :=
  u32OfBytes <$> take 4 bytes start what

def u64At (bytes : List UInt8) (start : ℕ) (what : String) : Except ArtifactError UInt64 :=
  u64OfBytes <$> take 8 bytes start what

section Fields

variable {bytes : List UInt8} {start : ℕ} {what : String}

theorem take_of_slice {n : ℕ} {v : List UInt8} (h : slice bytes start n = v)
    (hn : v.length = n) (hpos : 0 < n) (hfit : bytes.length ≤ usizeMax) :
    take n bytes start what = .ok v := by
  have hle := le_length_of_slice h hn hpos
  rw [take, checkedSum_of_le (le_trans hle hfit), okOr_some, ok_bind,
    range?_of_slice h hn hpos, okOr_some]

theorem u16At_of_slice {x : UInt16} (h : slice bytes start 2 = u16Bytes x)
    (hfit : bytes.length ≤ usizeMax) : u16At bytes start what = .ok x := by
  rw [u16At, take_of_slice h (length_u16Bytes x) (by decide) hfit]
  exact congrArg Except.ok (u16OfBytes_u16Bytes x)

theorem u32At_of_slice {x : UInt32} (h : slice bytes start 4 = u32Bytes x)
    (hfit : bytes.length ≤ usizeMax) : u32At bytes start what = .ok x := by
  rw [u32At, take_of_slice h (length_u32Bytes x) (by decide) hfit]
  exact congrArg Except.ok (u32OfBytes_u32Bytes x)

theorem u64At_of_slice {x : UInt64} (h : slice bytes start 8 = u64Bytes x)
    (hfit : bytes.length ≤ usizeMax) : u64At bytes start what = .ok x := by
  rw [u64At, take_of_slice h (length_u64Bytes x) (by decide) hfit]
  exact congrArg Except.ok (u64OfBytes_u64Bytes x)

end Fields

/-- `start..stop` -/
structure Span where
  start : ℕ
  stop : ℕ
deriving DecidableEq

/-- `ranges_overlap` -/
def rangesOverlap (a b : Span) : Prop := a.start < b.stop ∧ b.start < a.stop

instance (a b : Span) : Decidable (rangesOverlap a b) := inferInstanceAs (Decidable (_ ∧ _))

/-- `checked_table`: where a table is, if it is inside the bytes. -/
def checkedTable (bytesLen : ℕ) (offset : UInt64) (count : UInt32) (entryBytes : ℕ)
    (what : String) : Except ArtifactError Span := do
  let len ← okOr (checkedProduct count.toNat entryBytes) (.invalid "table size overflow")
  let stop ← okOr (checkedSum offset.toNat len) (.invalid "table end overflow")
  refuse (stop > bytesLen) (.truncated what)
  pure ⟨offset.toNat, stop⟩

/-- `{value:#010x}` -/
def hexWord (x : UInt32) : String := "0x" ++ hexEncode (u32Bytes x).reverse

/-- `{value:#06x}` -/
def hexHalf (x : UInt16) : String := "0x" ++ hexEncode (u16Bytes x).reverse

variable (crc32c : List UInt8 → UInt32)

/-- The fixed header, with the checks that need nothing else. -/
def parseHeader (bytes : List UInt8) :
    Except ArtifactError ManifestHeader := do
  refuse (bytes.length < headerBytes + trailerBytes) (.truncated "manifest")
  refuse (range? bytes 0 manifestMagic.length ≠ some manifestMagic) (.invalid "manifest magic")
  let major ← u16At bytes 10 "format major"
  let minor ← u16At bytes 12 "format minor"
  let size ← u32At bytes 14 "header size"
  let minReaderMajor ← u16At bytes 18 "minimum reader major"
  let minReaderMinor ← u16At bytes 20 "minimum reader minor"
  let flags ← u32At bytes 22 "flags"
  let generation ← u64At bytes 26 "generation"
  let sectionCount ← u32At bytes 34 "section count"
  let fileCount ← u32At bytes 38 "file count"
  let sectionTableOffset ← u64At bytes 42 "section table offset"
  let fileTableOffset ← u64At bytes 50 "file table offset"
  let expectedCrc ← u32At bytes 58 "header crc"
  let reserved ← u16At bytes 62 "header reserved"
  refuse (major ≠ formatMajor) (.invalidDetail s!"unsupported .logan major version {major.toNat}")
  refuse (size.toNat ≠ headerBytes) (.invalid "manifest header size")
  refuse (minReaderMajor > formatMajor ∨
      (minReaderMajor = formatMajor ∧ minReaderMinor > formatMinor))
    (.invalidDetail s!".logan requires reader {minReaderMajor.toNat}.{minReaderMinor.toNat}")
  refuse (generation = 0) (.invalid "zero generation")
  refuse (reserved ≠ 0) (.invalid "manifest header reserved field")
  refuse (crc32c (slice bytes 0 58) ≠ expectedCrc)
    (.invalidDetail ("manifest header CRC32C mismatch: stored " ++ hexWord expectedCrc ++
      ", computed " ++ hexWord (crc32c (slice bytes 0 58))))
  pure { formatMajor := major, formatMinor := minor, minReaderMajor, minReaderMinor, flags,
         generation, sectionCount, fileCount, sectionTableOffset, fileTableOffset }

/-- The trailer, which is the last bytes. -/
def checkTrailer (bytes : List UInt8) (trailerAt : ℕ) : Except ArtifactError Unit := do
  refuse (range? bytes trailerAt (trailerAt + 8) ≠ some trailerMagic)
    (.invalid "manifest trailer magic")
  let reserved ← u32At bytes (trailerAt + 12) "trailer reserved"
  refuse (reserved ≠ 0) (.invalid "manifest trailer reserved field")

/-- **A header is accepted** that has these fields, with their checksum. -/
theorem parseHeader_of_fields {crc32c : List UInt8 → UInt32} {bytes : List UInt8}
    {h : ManifestHeader} (hlen : headerBytes + trailerBytes ≤ bytes.length)
    (hfit : bytes.length ≤ usizeMax) (hmag : slice bytes 0 manifestMagic.length = manifestMagic)
    (hmaj : slice bytes 10 2 = u16Bytes h.formatMajor)
    (hmin : slice bytes 12 2 = u16Bytes h.formatMinor)
    (hsiz : slice bytes 14 4 = u32Bytes (UInt32.ofNat headerBytes))
    (hmnr : slice bytes 18 2 = u16Bytes h.minReaderMajor)
    (hmin' : slice bytes 20 2 = u16Bytes h.minReaderMinor)
    (hfl : slice bytes 22 4 = u32Bytes h.flags) (hgen : slice bytes 26 8 = u64Bytes h.generation)
    (hsec : slice bytes 34 4 = u32Bytes h.sectionCount)
    (hfil : slice bytes 38 4 = u32Bytes h.fileCount)
    (hsct : slice bytes 42 8 = u64Bytes h.sectionTableOffset)
    (hflt : slice bytes 50 8 = u64Bytes h.fileTableOffset)
    (hcrc : slice bytes 58 4 = u32Bytes (crc32c (slice bytes 0 58)))
    (hres : slice bytes 62 2 = u16Bytes 0) (hver : h.formatMajor = formatMajor)
    (hrdr : ¬ (h.minReaderMajor > formatMajor ∨
      (h.minReaderMajor = formatMajor ∧ h.minReaderMinor > formatMinor)))
    (hzer : h.generation ≠ 0) : parseHeader crc32c bytes = .ok h := by
  have hlen' : manifestMagic.length ≤ bytes.length := le_trans (by decide) hlen
  unfold parseHeader
  rw [refuse_of_not (not_lt.mpr hlen), ok_bind,
    range?_of_le (Nat.zero_le _) hlen', Nat.sub_zero, hmag,
    refuse_of_not (not_not_intro rfl), ok_bind, u16At_of_slice hmaj hfit, ok_bind,
    u16At_of_slice hmin hfit, ok_bind, u32At_of_slice hsiz hfit, ok_bind,
    u16At_of_slice hmnr hfit, ok_bind, u16At_of_slice hmin' hfit, ok_bind,
    u32At_of_slice hfl hfit, ok_bind, u64At_of_slice hgen hfit, ok_bind,
    u32At_of_slice hsec hfit, ok_bind, u32At_of_slice hfil hfit, ok_bind,
    u64At_of_slice hsct hfit, ok_bind, u64At_of_slice hflt hfit, ok_bind,
    u32At_of_slice hcrc hfit, ok_bind, u16At_of_slice hres hfit, ok_bind,
    refuse_of_not (not_not_intro hver), ok_bind,
    refuse_of_not (not_not_intro (by decide)), ok_bind, refuse_of_not hrdr, ok_bind,
    refuse_of_not hzer, ok_bind, refuse_of_not (not_not_intro rfl), ok_bind,
    refuse_of_not (not_not_intro rfl), ok_bind]
  rfl

/-- One entry of the section table, after an entry of kind `lastKind`. -/
def parseSection (bytes : List UInt8)
    (sectionRange fileRange : Span) (trailerAt i : ℕ) (lastKind : Option UInt16) :
    Except ArtifactError SectionEntry := do
  let start := sectionRange.start + i * sectionEntryBytes
  let kind ← u16At bytes start "section kind"
  let entryFlags ← u16At bytes (start + 2) "section flags"
  let reserved ← u32At bytes (start + 4) "section reserved"
  refuse (reserved ≠ 0) (.invalid "section reserved field")
  let reserved2 ← u32At bytes (start + 28) "section reserved2"
  refuse (reserved2 ≠ 0) (.invalid "section reserved field")
  refuse (lastKind.any fun previous => kind ≤ previous)
    (.invalid "section table must be strictly ordered by kind")
  let offset ← u64At bytes (start + 8) "section offset"
  let length ← u64At bytes (start + 16) "section length"
  let crc ← u32At bytes (start + 24) "section crc"
  let stop ← okOr (checkedSum offset.toNat length.toNat) (.invalid "section range overflow")
  refuse (stop > trailerAt) (.truncated "section payload")
  refuse (rangesOverlap ⟨offset.toNat, stop⟩ sectionRange ∨
      rangesOverlap ⟨offset.toNat, stop⟩ fileRange ∨ offset.toNat < headerBytes)
    (.invalid "section overlaps metadata")
  refuse (crc32c (slice bytes offset.toNat (stop - offset.toNat)) ≠ crc)
    (.invalidDetail ("section " ++ hexHalf kind ++ " CRC32C mismatch: stored " ++ hexWord crc ++
      ", computed " ++ hexWord (crc32c (slice bytes offset.toNat (stop - offset.toNat)))))
  pure { kind, entryFlags, offset, length, crc32c := crc }

/-- `n` entries of the section table, from entry `i` on. -/
def parseSections (crc32c : List UInt8 → UInt32) (bytes : List UInt8)
    (sectionRange fileRange : Span) (trailerAt : ℕ) :
    ℕ → ℕ → Option UInt16 → Except ArtifactError (List SectionEntry)
  | 0, _, _ => pure []
  | n + 1, i, lastKind => do
    let entry ← parseSection crc32c bytes sectionRange fileRange trailerAt i lastKind
    let rest ← parseSections crc32c bytes sectionRange fileRange trailerAt n (i + 1)
      (some entry.kind)
    pure (entry :: rest)

/-- One entry of the file table. -/
def parseFile (bytes : List UInt8) (fileRange : Span) (i : ℕ) :
    Except ArtifactError FileEntry := do
  let start := fileRange.start + i * fileEntryBytes
  let fileId ← u32At bytes start "file id"
  refuse (fileId ≠ UInt32.ofNat i) (.invalid "file table must be ordered densely by file_id")
  let nameId ← u32At bytes (start + 4) "file name id"
  let fileBytes ← u64At bytes (start + 8) "file bytes"
  let fileKind ← u32At bytes (start + 16) "file kind"
  let reserved ← u32At bytes (start + 20) "file reserved"
  refuse (reserved ≠ 0) (.invalid "file reserved field")
  refuse (fileKind > provenanceKind) (.invalid "unknown file kind")
  pure { fileId, nameId, fileBytes, fileKind }

/-- `n` entries of the file table, from entry `i` on. -/
def parseFiles (bytes : List UInt8) (fileRange : Span) :
    ℕ → ℕ → Except ArtifactError (List FileEntry)
  | 0, _ => pure []
  | n + 1, i => do
    let entry ← parseFile bytes fileRange i
    let rest ← parseFiles bytes fileRange n (i + 1)
    pure (entry :: rest)

/-- The size of the manifest that a file table gives is that of the bytes. -/
def checkSelf (bytes : List UInt8) (files : List FileEntry) : Except ArtifactError Unit :=
  match files.find? fun entry => entry.fileKind = manifestKind with
  | none => .ok ()
  | some selfFile =>
    refuse (selfFile.fileBytes ≠ UInt64.ofNat bytes.length)
      (.invalid "manifest file table size does not match actual file")

/-- `Manifest::parse` -/
def Manifest.parse (bytes : List UInt8) :
    Except ArtifactError Manifest := do
  let header ← parseHeader crc32c bytes
  let sectionRange ← checkedTable bytes.length header.sectionTableOffset header.sectionCount
    sectionEntryBytes "section table"
  let fileRange ← checkedTable bytes.length header.fileTableOffset header.fileCount
    fileEntryBytes "file table"
  refuse (sectionRange.start < headerBytes ∨ fileRange.start < headerBytes)
    (.invalid "table overlaps fixed header")
  let trailerAt := bytes.length - trailerBytes
  checkTrailer bytes trailerAt
  let sections ← parseSections crc32c bytes sectionRange fileRange trailerAt
    header.sectionCount.toNat 0 none
  let files ← parseFiles bytes fileRange header.fileCount.toNat 0
  checkSelf bytes files
  pure { header, sections, files, bytes }

/-- `Manifest::section` -/
def Manifest.section (m : Manifest) (kind : UInt16) : Option (List UInt8) := do
  let entry ← m.sections.find? fun entry => entry.kind = kind
  let stop ← checkedSum entry.offset.toNat entry.length.toNat
  range? m.bytes entry.offset.toNat stop

end Artifact

end Logan
