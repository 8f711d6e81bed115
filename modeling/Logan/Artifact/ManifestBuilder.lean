import Logan.Artifact.Manifest

/-!
# Building a manifest

Sections and files are added to a builder one at a time; what cannot be part
of a manifest is refused when it is added. `encode` then computes where
everything is to go – tables after the header, payloads after the tables –
and writes it there, in a buffer of zeros. What it has written it parses,
before it returns it.
-/

namespace Logan

open List

namespace Artifact

open Result

/-- A section that has been added. -/
structure BuilderSection where
  kind : UInt16
  entryFlags : UInt16
  payload : List UInt8
deriving DecidableEq

/-- **A builder of manifests.** -/
structure ManifestBuilder where
  flags : UInt32
  generation : UInt64
  minReader : UInt16 × UInt16
  sections : List BuilderSection
  files : List FileEntry
  generation_ne_zero : generation ≠ 0
  /-- No two sections are of one kind. -/
  kinds_nodup : (sections.map BuilderSection.kind).Nodup
  /-- Files are numbered from one on. -/
  files_numbered : ∀ p ∈ files.zipIdx, p.1.fileId.toNat = p.2 + 1
  /-- None of the files is the manifest. -/
  files_external : ∀ f ∈ files, f.fileKind ≠ manifestKind ∧ f.fileKind ≤ provenanceKind

namespace ManifestBuilder

/-- `ManifestBuilder::new` -/
def new (generation : UInt64) : Except ArtifactError ManifestBuilder :=
  if h : generation = 0 then .error (.invalid "zero generation")
  else .ok {
    flags := 0, generation, minReader := (formatMajor, formatMinor), sections := [], files := [],
    generation_ne_zero := h
    kinds_nodup := nodup_nil
    files_numbered := fun _ hp => absurd hp not_mem_nil
    files_external := fun _ hf => absurd hf not_mem_nil }

variable (b : ManifestBuilder)

/-- `ManifestBuilder::flags` -/
def setFlags (flags : UInt32) : ManifestBuilder := { b with flags }

/-- `ManifestBuilder::min_reader` -/
def setMinReader (major minor : UInt16) : ManifestBuilder :=
  { b with minReader := (major, minor) }

/-- `ManifestBuilder::add_section` -/
def addSection (kind entryFlags : UInt16) (payload : List UInt8) :
    Except ArtifactError ManifestBuilder :=
  if h : kind ∈ b.sections.map BuilderSection.kind then
    .error (.invalid "duplicate section kind")
  else .ok { b with
    sections := b.sections ++ [⟨kind, entryFlags, payload⟩]
    kinds_nodup := by
      rw [List.map_append, map_singleton]
      exact b.kinds_nodup.append (nodup_singleton _) (disjoint_singleton.mpr h) }

/-- `ManifestBuilder::add_file`. The manifest itself is file 0. -/
def addFile (nameId : UInt32) (fileBytes : UInt64) (fileKind : UInt32) :
    Except ArtifactError (UInt32 × ManifestBuilder) :=
  if hkind : fileKind = manifestKind ∨ fileKind > provenanceKind then
    .error (.invalid "invalid external file kind")
  else if hcount : b.files.length + 1 > u32Max then .error (.invalid "too many files")
  else
    let fileId := UInt32.ofNat (b.files.length + 1)
    .ok (fileId, { b with
      files := b.files ++ [⟨fileId, nameId, fileBytes, fileKind⟩]
      files_numbered := fun p hp => by
        rw [zipIdx_append, mem_append] at hp
        rcases hp with hp | hp
        · exact b.files_numbered p hp
        · rw [zipIdx_singleton, mem_singleton, zero_add] at hp
          subst hp
          show (UInt32.ofNat (b.files.length + 1)).toNat = b.files.length + 1
          rw [UInt32.toNat_ofNat', Nat.mod_eq_of_lt]
          unfold u32Max at hcount
          omega
      files_external := fun f hf => by
        rcases mem_append.mp hf with hf | hf
        · exact b.files_external f hf
        · rw [mem_singleton.mp hf]
          exact ⟨fun h => hkind (Or.inl h), UInt32.not_lt.mp fun h => hkind (Or.inr h)⟩ })

/-! ## Layout -/

/-- The sections in the order of their kinds. -/
def sorted : List BuilderSection :=
  sortBy (fun s => [s.kind.toNat]) b.sections

/-- The fields of the fixed header, except for its checksum. -/
def headerWrites (fileTableOffset : ℕ) : List (Write UInt8) :=
  [(0, manifestMagic), (10, u16Bytes formatMajor), (12, u16Bytes formatMinor),
   (14, u32Bytes (UInt32.ofNat headerBytes)), (18, u16Bytes b.minReader.1),
   (20, u16Bytes b.minReader.2), (22, u32Bytes b.flags), (26, u64Bytes b.generation),
   (34, u32Bytes (UInt32.ofNat b.sections.length)),
   (38, u32Bytes (UInt32.ofNat (b.files.length + 1))),
   (42, u64Bytes (UInt64.ofNat headerBytes)), (50, u64Bytes (UInt64.ofNat fileTableOffset)),
   (62, u16Bytes 0)]

/-- The loop over the sections: an entry of the table, then the payload. -/
def sectionWrites (crc32c : List UInt8 → UInt32) :
    ℕ → ℕ → List BuilderSection → List (Write UInt8)
  | _, _, [] => []
  | i, payloadAt, s :: rest =>
    let start := headerBytes + i * sectionEntryBytes
    [(start, u16Bytes s.kind), (start + 2, u16Bytes s.entryFlags),
     (start + 8, u64Bytes (UInt64.ofNat payloadAt)),
     (start + 16, u64Bytes (UInt64.ofNat s.payload.length)),
     (start + 24, u32Bytes (crc32c s.payload)), (payloadAt, s.payload)] ++
    sectionWrites crc32c (i + 1) (payloadAt + s.payload.length) rest

/-- `put_file_entry` -/
def fileEntryWrites (start : ℕ) (entry : FileEntry) : List (Write UInt8) :=
  [(start, u32Bytes entry.fileId), (start + 4, u32Bytes entry.nameId),
   (start + 8, u64Bytes entry.fileBytes), (start + 16, u32Bytes entry.fileKind),
   (start + 20, u32Bytes 0)]

/-- The file table: the manifest itself, then the files that have been added. -/
def fileTable (total : ℕ) : List FileEntry :=
  ⟨0, 0, UInt64.ofNat total, manifestKind⟩ :: b.files

/-- The writes of the file table. -/
def fileWrites (fileTableOffset total : ℕ) : List (Write UInt8) :=
  (b.fileTable total).zipIdx.flatMap fun p =>
    fileEntryWrites (fileTableOffset + p.2 * fileEntryBytes) p.1

/-- The checksum of the header, and the trailer. -/
def closingWrites (headerCrc : UInt32) (trailerAt : ℕ) : List (Write UInt8) :=
  [(58, u32Bytes headerCrc), (trailerAt, trailerMagic), (trailerAt + 8, u32Bytes 0),
   (trailerAt + 12, u32Bytes 0)]

/-- `ManifestBuilder::encode` -/
def encode (crc32c : List UInt8 → UInt32) (b : ManifestBuilder) :
    Except ArtifactError (List UInt8) := do
  refuse (b.sorted.length > u32Max) (.invalid "too many sections")
  refuse (b.files.length + 1 > u32Max) (.invalid "too many files")
  let sectionTableBytes ← okOr (checkedProduct b.sorted.length sectionEntryBytes)
    (.invalid "section table size overflow")
  let fileTableOffset ← okOr (checkedSum headerBytes sectionTableBytes)
    (.invalid "file table offset overflow")
  let fileTableBytes ← okOr (checkedProduct (b.files.length + 1) fileEntryBytes)
    (.invalid "file table size overflow")
  let payloadAt ← okOr (checkedSum fileTableOffset fileTableBytes)
    (.invalid "payload offset overflow")
  let payloadBytes ← okOr (b.sorted.foldlM (fun sum s => checkedSum sum s.payload.length) 0)
    (.invalid "manifest payload size overflow")
  let total ← okOr (do checkedSum (← checkedSum payloadAt payloadBytes) trailerBytes)
    (.invalid "manifest size overflow")
  let out := puts (List.replicate total 0)
    (b.headerWrites fileTableOffset ++ sectionWrites crc32c 0 payloadAt b.sorted ++
      b.fileWrites fileTableOffset total)
  let out := puts out (closingWrites (crc32c (slice out 0 58)) (total - trailerBytes))
  -- Self-check: what cannot be parsed is not returned.
  let _ ← Manifest.parse crc32c out
  pure out

/-! ## Sequences of calls -/

/-- A call that adds to a builder, or changes it. -/
inductive Call where
  | flags (flags : UInt32)
  | minReader (major minor : UInt16)
  | addSection (kind entryFlags : UInt16) (payload : List UInt8)
  | addFile (nameId : UInt32) (fileBytes : UInt64) (fileKind : UInt32)
deriving DecidableEq

/-- What a call makes of a builder. -/
def call : Call → Except ArtifactError ManifestBuilder
  | .flags flags => .ok (b.setFlags flags)
  | .minReader major minor => .ok (b.setMinReader major minor)
  | .addSection kind entryFlags payload => b.addSection kind entryFlags payload
  | .addFile nameId fileBytes fileKind => Prod.snd <$> b.addFile nameId fileBytes fileKind

/-- A new builder, after some calls none of which has failed. -/
def build (generation : UInt64) (calls : List Call) : Except ArtifactError ManifestBuilder := do
  calls.foldlM call (← new generation)

/-- The reader that the call asks for, if any, is at most reader 1.0. -/
def Call.Supported : Call → Prop
  | .minReader major minor =>
    ¬ (major > formatMajor ∨ (major = formatMajor ∧ minor > formatMinor))
  | _ => True

end ManifestBuilder

end Artifact

end Logan
