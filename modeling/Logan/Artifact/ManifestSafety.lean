import Logan.Artifact.ManifestExtents
import Logan.Util.Follows

/-!
# The parser of manifests is safe

`Manifest.parse` once more, with everything that could stop it: the sums and
products that it does not check, the slices that it takes without asking, and
the memory that it requests. On any bytes it does the same as the parser that
ignores all that, and it never requests more than the length of its input: a
count is only believed when a table with as many entries is inside the bytes.

An entry of the vector of sections has 24 bytes, as has one of the vector of
files. As many entries are pushed as have been reserved. The texts of errors are
short, and are not counted.
-/

namespace Logan

open Metered.Follows (orPanic_bind returns_bind)

namespace Artifact

open Result

/-- The bytes of a `SectionEntry` in memory. -/
def sectionEntrySize : ℕ := 24

/-- The bytes of a `FileEntry` in memory. -/
def fileEntrySize : ℕ := 24

namespace Guarded

open Metered

/-- `take`, where the slice has to be an array of `n` bytes. -/
def take (n : ℕ) (bytes : List UInt8) (start : ℕ) (what : String) :
    Metered ArtifactError (List UInt8) := do
  let src ← returns (Artifact.take n bytes start what)
  orPanic (if src.length = n then some src else none)

def u16At (bytes : List UInt8) (start : ℕ) (what : String) : Metered ArtifactError UInt16 :=
  u16OfBytes <$> take 2 bytes start what

def u32At (bytes : List UInt8) (start : ℕ) (what : String) : Metered ArtifactError UInt32 :=
  u32OfBytes <$> take 4 bytes start what

def u64At (bytes : List UInt8) (start : ℕ) (what : String) : Metered ArtifactError UInt64 :=
  u64OfBytes <$> take 8 bytes start what

/-- The fixed header, with the checks that need nothing else. -/
def parseHeader (crc32c : List UInt8 → UInt32) (bytes : List UInt8) :
    Metered ArtifactError ManifestHeader := do
  returns (refuse (bytes.length < headerBytes + trailerBytes) (.truncated "manifest"))
  returns (refuse (range? bytes 0 manifestMagic.length ≠ some manifestMagic)
    (.invalid "manifest magic"))
  let major ← u16At bytes 10 "format major"
  let minor ← u16At bytes 12 "format minor"
  let size ← u32At bytes 14 "header size"
  let minReaderMajor ← u16At bytes 18 "minimum reader major"
  let minReaderMinor ← u16At bytes 20 "minimum reader minor"
  let flags ← u32At bytes 22 "flags"
  let generation ← u64At bytes 26 "generation"
  let sectionCount ← u32At bytes 34 "section count"
  let fileCount ← u32At bytes 38 "file count"
  let sectionTableOffset ← u64At bytes 42 "section table offset"
  let fileTableOffset ← u64At bytes 50 "file table offset"
  let expectedCrc ← u32At bytes 58 "header crc"
  let reserved ← u16At bytes 62 "header reserved"
  returns (refuse (major ≠ formatMajor)
    (.invalidDetail s!"unsupported .logan major version {major.toNat}"))
  returns (refuse (size.toNat ≠ headerBytes) (.invalid "manifest header size"))
  returns (refuse (minReaderMajor > formatMajor ∨
      (minReaderMajor = formatMajor ∧ minReaderMinor > formatMinor))
    (.invalidDetail s!".logan requires reader {minReaderMajor.toNat}.{minReaderMinor.toNat}"))
  returns (refuse (generation = 0) (.invalid "zero generation"))
  returns (refuse (reserved ≠ 0) (.invalid "manifest header reserved field"))
  let fields ← orPanic (range? bytes 0 58)
  returns (refuse (crc32c fields ≠ expectedCrc)
    (.invalidDetail ("manifest header CRC32C mismatch: stored " ++ hexWord expectedCrc ++
      ", computed " ++ hexWord (crc32c fields))))
  pure { formatMajor := major, formatMinor := minor, minReaderMajor, minReaderMinor, flags,
         generation, sectionCount, fileCount, sectionTableOffset, fileTableOffset }

/-- The trailer, which is the last bytes. -/
def checkTrailer (bytes : List UInt8) (trailerAt : ℕ) : Metered ArtifactError Unit := do
  let stop ← orPanic (checkedSum trailerAt 8)
  returns (refuse (range? bytes trailerAt stop ≠ some trailerMagic)
    (.invalid "manifest trailer magic"))
  let place ← orPanic (checkedSum trailerAt 12)
  let reserved ← u32At bytes place "trailer reserved"
  returns (refuse (reserved ≠ 0) (.invalid "manifest trailer reserved field"))

/-- One entry of the section table, after an entry of kind `lastKind`. -/
def parseSection (crc32c : List UInt8 → UInt32) (bytes : List UInt8)
    (sectionRange fileRange : Span) (trailerAt i : ℕ) (lastKind : Option UInt16) :
    Metered ArtifactError SectionEntry := do
  let skipped ← orPanic (checkedProduct i sectionEntryBytes)
  let start ← orPanic (checkedSum sectionRange.start skipped)
  let kind ← u16At bytes start "section kind"
  let entryFlags ← u16At bytes (← orPanic (checkedSum start 2)) "section flags"
  let reserved ← u32At bytes (← orPanic (checkedSum start 4)) "section reserved"
  returns (refuse (reserved ≠ 0) (.invalid "section reserved field"))
  let reserved2 ← u32At bytes (← orPanic (checkedSum start 28)) "section reserved2"
  returns (refuse (reserved2 ≠ 0) (.invalid "section reserved field"))
  returns (refuse (lastKind.any fun previous => kind ≤ previous)
    (.invalid "section table must be strictly ordered by kind"))
  let offset ← u64At bytes (← orPanic (checkedSum start 8)) "section offset"
  let length ← u64At bytes (← orPanic (checkedSum start 16)) "section length"
  let crc ← u32At bytes (← orPanic (checkedSum start 24)) "section crc"
  let stop ← returns (okOr (checkedSum offset.toNat length.toNat)
    (.invalid "section range overflow"))
  returns (refuse (stop > trailerAt) (.truncated "section payload"))
  returns (refuse (rangesOverlap ⟨offset.toNat, stop⟩ sectionRange ∨
      rangesOverlap ⟨offset.toNat, stop⟩ fileRange ∨ offset.toNat < headerBytes)
    (.invalid "section overlaps metadata"))
  let payload ← orPanic (range? bytes offset.toNat stop)
  returns (refuse (crc32c payload ≠ crc)
    (.invalidDetail ("section " ++ hexHalf kind ++ " CRC32C mismatch: stored " ++ hexWord crc ++
      ", computed " ++ hexWord (crc32c payload))))
  pure { kind, entryFlags, offset, length, crc32c := crc }

/-- `n` entries of the section table, from entry `i` on. -/
def parseSections (crc32c : List UInt8 → UInt32) (bytes : List UInt8)
    (sectionRange fileRange : Span) (trailerAt : ℕ) :
    ℕ → ℕ → Option UInt16 → Metered ArtifactError (List SectionEntry)
  | 0, _, _ => pure []
  | n + 1, i, lastKind => do
    let entry ← parseSection crc32c bytes sectionRange fileRange trailerAt i lastKind
    let rest ← parseSections crc32c bytes sectionRange fileRange trailerAt n (i + 1)
      (some entry.kind)
    pure (entry :: rest)

/-- One entry of the file table. -/
def parseFile (bytes : List UInt8) (fileRange : Span) (i : ℕ) :
    Metered ArtifactError FileEntry := do
  let skipped ← orPanic (checkedProduct i fileEntryBytes)
  let start ← orPanic (checkedSum fileRange.start skipped)
  let fileId ← u32At bytes start "file id"
  returns (refuse (fileId ≠ UInt32.ofNat i)
    (.invalid "file table must be ordered densely by file_id"))
  let nameId ← u32At bytes (← orPanic (checkedSum start 4)) "file name id"
  let fileBytes ← u64At bytes (← orPanic (checkedSum start 8)) "file bytes"
  let fileKind ← u32At bytes (← orPanic (checkedSum start 16)) "file kind"
  let reserved ← u32At bytes (← orPanic (checkedSum start 20)) "file reserved"
  returns (refuse (reserved ≠ 0) (.invalid "file reserved field"))
  returns (refuse (fileKind > provenanceKind) (.invalid "unknown file kind"))
  pure { fileId, nameId, fileBytes, fileKind }

/-- `n` entries of the file table, from entry `i` on. -/
def parseFiles (bytes : List UInt8) (fileRange : Span) :
    ℕ → ℕ → Metered ArtifactError (List FileEntry)
  | 0, _ => pure []
  | n + 1, i => do
    let entry ← parseFile bytes fileRange i
    let rest ← parseFiles bytes fileRange n (i + 1)
    pure (entry :: rest)

/-- **`Manifest::parse`**, with all that could stop it. -/
def parse (crc32c : List UInt8 → UInt32) (bytes : List UInt8) :
    Metered ArtifactError Manifest := do
  let header ← parseHeader crc32c bytes
  let sectionRange ← returns (checkedTable bytes.length header.sectionTableOffset
    header.sectionCount sectionEntryBytes "section table")
  let fileRange ← returns (checkedTable bytes.length header.fileTableOffset header.fileCount
    fileEntryBytes "file table")
  returns (refuse (sectionRange.start < headerBytes ∨ fileRange.start < headerBytes)
    (.invalid "table overlaps fixed header"))
  let trailerAt ← orPanic (Fault.difference bytes.length trailerBytes)
  checkTrailer bytes trailerAt
  reserve (sectionEntrySize * header.sectionCount.toNat)
  let sections ← parseSections crc32c bytes sectionRange fileRange trailerAt
    header.sectionCount.toNat 0 none
  reserve (fileEntrySize * header.fileCount.toNat)
  let files ← parseFiles bytes fileRange header.fileCount.toNat 0
  returns (checkSelf bytes files)
  let copy ← collect 1 bytes
  pure { header, sections, files, bytes := copy.toList }

/-! ## Each part follows the plain one -/

section Parts

variable {crc32c : List UInt8 → UInt32} {bytes : List UInt8} {k start : ℕ} {what : String}

theorem take_follows (n : ℕ) :
    Follows k (take n bytes start what) (Artifact.take n bytes start what) := by
  have hbin : Follows k (take n bytes start what)
      (Artifact.take n bytes start what >>= fun src => .ok src) := by
    refine returns_bind fun src hsrc => ?_
    obtain ⟨rfl, hle⟩ := take_eq_ok hsrc
    rw [if_pos (length_slice hle)]
    exact follows_pure _
  cases h : Artifact.take n bytes start what <;> rw [h] at hbin <;> exact hbin

theorem u16At_follows : Follows k (u16At bytes start what) (Artifact.u16At bytes start what) :=
  (take_follows 2).map _

theorem u32At_follows : Follows k (u32At bytes start what) (Artifact.u32At bytes start what) :=
  (take_follows 4).map _

theorem u64At_follows : Follows k (u64At bytes start what) (Artifact.u64At bytes start what) :=
  (take_follows 8).map _

theorem parseHeader_follows :
    Follows k (parseHeader crc32c bytes) (Artifact.parseHeader crc32c bytes) := by
  refine returns_bind fun _ hlen => returns_bind fun _ _ => ?_
  refine u16At_follows.bind fun _ _ => u16At_follows.bind fun _ _ => ?_
  refine u32At_follows.bind fun _ _ => u16At_follows.bind fun _ _ => ?_
  refine u16At_follows.bind fun _ _ => u32At_follows.bind fun _ _ => ?_
  refine u64At_follows.bind fun _ _ => u32At_follows.bind fun _ _ => ?_
  refine u32At_follows.bind fun _ _ => u64At_follows.bind fun _ _ => ?_
  refine u64At_follows.bind fun _ _ => u32At_follows.bind fun _ _ => ?_
  refine u16At_follows.bind fun _ _ => ?_
  refine returns_bind fun _ _ => returns_bind fun _ _ => ?_
  refine returns_bind fun _ _ => returns_bind fun _ _ => ?_
  refine returns_bind fun _ _ => ?_
  -- the fields are there, as the length has been checked
  have hfld : range? bytes 0 58 = some (slice bytes 0 58) := by
    rw [refuse_eq_ok, not_lt] at hlen
    exact range?_of_le (Nat.zero_le _) (le_trans (by decide) hlen)
  refine orPanic_bind hfld ?_
  exact returns_bind fun _ _ => follows_pure _

theorem checkTrailer_follows {trailerAt : ℕ} (h : trailerAt + 12 ≤ usizeMax) :
    Follows k (checkTrailer bytes trailerAt) (Artifact.checkTrailer bytes trailerAt) := by
  refine orPanic_bind (checkedSum_of_le (le_trans (by omega) h)) ?_
  refine returns_bind fun _ _ => ?_
  refine orPanic_bind (checkedSum_of_le h) ?_
  exact u32At_follows.bind fun _ _ => follows_returns _

/-- An entry of a table: the places of its fields are numbers. -/
theorem entry_fits {first count size stop i field : ℕ} (hi : i < count)
    (hst : first + count * size ≤ stop) (hfit : stop ≤ isizeMax) (hfld : field ≤ size) :
    i * size ≤ usizeMax ∧ first + i * size + field ≤ usizeMax := by
  have hent : i * size + size ≤ count * size := by
    rw [← Nat.succ_mul]
    exact Nat.mul_le_mul_right size hi
  have hmax : isizeMax ≤ usizeMax := by decide
  omega

variable {sectionRange fileRange : Span} {trailerAt : ℕ}

theorem parseSection_follows {i count : ℕ} {lastKind : Option UInt16} (hi : i < count)
    (hst : sectionRange.start + count * sectionEntryBytes ≤ bytes.length)
    (hfit : bytes.length ≤ isizeMax) (htr : trailerAt ≤ bytes.length) :
    Follows k (parseSection crc32c bytes sectionRange fileRange trailerAt i lastKind)
      (Artifact.parseSection crc32c bytes sectionRange fileRange trailerAt i lastKind) := by
  have hpl {field : ℕ} (hfld : field ≤ sectionEntryBytes) :=
    entry_fits hi hst hfit hfld
  refine orPanic_bind (checkedProduct_of_le (hpl (Nat.zero_le _)).1) ?_
  refine orPanic_bind (checkedSum_of_le (hpl (Nat.zero_le _)).2) ?_
  refine u16At_follows.bind fun _ _ => ?_
  refine orPanic_bind (checkedSum_of_le (hpl (by decide)).2) ?_
  refine u16At_follows.bind fun _ _ => ?_
  refine orPanic_bind (checkedSum_of_le (hpl (by decide)).2) ?_
  refine u32At_follows.bind fun _ _ => returns_bind fun _ _ => ?_
  refine orPanic_bind (checkedSum_of_le (hpl (by decide)).2) ?_
  refine u32At_follows.bind fun _ _ => returns_bind fun _ _ => ?_
  refine returns_bind fun _ _ => ?_
  refine orPanic_bind (checkedSum_of_le (hpl (by decide)).2) ?_
  refine u64At_follows.bind fun offset _ => ?_
  refine orPanic_bind (checkedSum_of_le (hpl (by decide)).2) ?_
  refine u64At_follows.bind fun length _ => ?_
  refine orPanic_bind (checkedSum_of_le (hpl (by decide)).2) ?_
  refine u32At_follows.bind fun _ _ => returns_bind fun stop hsum => ?_
  refine returns_bind fun _ hend => returns_bind fun _ _ => ?_
  -- the payload is inside the bytes
  have hpay : range? bytes offset.toNat stop
      = some (slice bytes offset.toNat (stop - offset.toNat)) := by
    obtain ⟨rfl, -⟩ := checkedSum_eq_some.mp (okOr_eq_ok.mp hsum)
    exact range?_of_le (Nat.le_add_right _ _) ((not_lt.mp (refuse_eq_ok.mp hend)).trans htr)
  refine orPanic_bind hpay ?_
  exact returns_bind fun _ _ => follows_pure _

theorem parseSections_follows {n i count : ℕ} {lastKind : Option UInt16} (hn : i + n ≤ count)
    (hst : sectionRange.start + count * sectionEntryBytes ≤ bytes.length)
    (hfit : bytes.length ≤ isizeMax) (htr : trailerAt ≤ bytes.length) :
    Follows k (parseSections crc32c bytes sectionRange fileRange trailerAt n i lastKind)
      (Artifact.parseSections crc32c bytes sectionRange fileRange trailerAt n i lastKind) := by
  induction n generalizing i lastKind with
  | zero => exact follows_pure []
  | succ n ih =>
    refine (parseSection_follows (by omega) hst hfit htr).bind fun entry _ => ?_
    exact (ih (by omega)).bind fun rest _ => follows_pure _

theorem parseFile_follows {i count : ℕ} (hi : i < count)
    (hst : fileRange.start + count * fileEntryBytes ≤ bytes.length)
    (hfit : bytes.length ≤ isizeMax) :
    Follows k (parseFile bytes fileRange i) (Artifact.parseFile bytes fileRange i) := by
  have hpl {field : ℕ} (hfld : field ≤ fileEntryBytes) := entry_fits hi hst hfit hfld
  refine orPanic_bind (checkedProduct_of_le (hpl (Nat.zero_le _)).1) ?_
  refine orPanic_bind (checkedSum_of_le (hpl (Nat.zero_le _)).2) ?_
  refine u32At_follows.bind fun _ _ => returns_bind fun _ _ => ?_
  refine orPanic_bind (checkedSum_of_le (hpl (by decide)).2) ?_
  refine u32At_follows.bind fun _ _ => ?_
  refine orPanic_bind (checkedSum_of_le (hpl (by decide)).2) ?_
  refine u64At_follows.bind fun _ _ => ?_
  refine orPanic_bind (checkedSum_of_le (hpl (by decide)).2) ?_
  refine u32At_follows.bind fun _ _ => ?_
  refine orPanic_bind (checkedSum_of_le (hpl (by decide)).2) ?_
  refine u32At_follows.bind fun _ _ => returns_bind fun _ _ => ?_
  exact returns_bind fun _ _ => follows_pure _

theorem parseFiles_follows {n i count : ℕ} (hn : i + n ≤ count)
    (hst : fileRange.start + count * fileEntryBytes ≤ bytes.length)
    (hfit : bytes.length ≤ isizeMax) :
    Follows k (parseFiles bytes fileRange n i) (Artifact.parseFiles bytes fileRange n i) := by
  induction n generalizing i with
  | zero => exact follows_pure []
  | succ n ih =>
    refine (parseFile_follows (by omega) hst hfit).bind fun entry _ => ?_
    exact (ih (by omega)).bind fun rest _ => follows_pure _

end Parts

/-- **The parser does what the plain one does**, and requests no more than there
are bytes. -/
theorem parse_follows (crc32c : List UInt8 → UInt32) {bytes : List UInt8}
    (hfit : bytes.length ≤ isizeMax) :
    Follows bytes.length (parse crc32c bytes) (Manifest.parse crc32c bytes) := by
  have hmax : isizeMax ≤ usizeMax := by decide
  refine parseHeader_follows.bind fun header hhdr => ?_
  refine returns_bind fun sectionRange hsec => ?_
  refine returns_bind fun fileRange hfil => ?_
  refine returns_bind fun _ _ => ?_
  obtain ⟨rfl, hsct⟩ := checkedTable_eq_ok hsec
  obtain ⟨rfl, hfls⟩ := checkedTable_eq_ok hfil
  have hlen := (parseHeader_eq_ok hhdr).1
  unfold headerBytes trailerBytes at hlen
  dsimp only at hsct hfls
  refine orPanic_bind (Fault.difference_of_le (by unfold trailerBytes; omega)) ?_
  refine (checkTrailer_follows (by unfold trailerBytes; omega)).bind fun _ _ => ?_
  -- a table with as many entries is inside the bytes
  have hsect : sectionEntrySize * header.sectionCount.toNat ≤ bytes.length := by
    unfold sectionEntryBytes at hsct
    unfold sectionEntrySize
    omega
  have hfileS : fileEntrySize * header.fileCount.toNat ≤ bytes.length := by
    unfold fileEntryBytes at hfls
    unfold fileEntrySize
    omega
  refine Follows.reserve_bind (hsect.trans hfit) hsect ?_
  refine (parseSections_follows (Nat.zero_add _).le hsct hfit
    (Nat.sub_le _ _)).bind fun sections _ => ?_
  refine Follows.reserve_bind (hfileS.trans hfit) hfileS ?_
  refine (parseFiles_follows (Nat.zero_add _).le hfls hfit).bind fun files _ => ?_
  refine returns_bind fun _ _ => ?_
  refine Follows.collect_bind ((Nat.one_mul _).trans_le hfit) (Nat.one_mul _).le fun v hv => ?_
  rw [hv]
  exact follows_pure _

end Guarded

/-! ## What is accepted -/

/-- **A manifest is sound** for the bytes that it has been parsed from: it keeps
them; the payload of each section is after the header and before the trailer,
and has the checksum that its entry stores; the kinds of the sections strictly
increase, and the files are numbered from zero on. -/
structure Manifest.Sound (crc32c : List UInt8 → UInt32) (bytes : List UInt8) (m : Manifest) :
    Prop where
  whole : m.bytes = bytes
  inside : ∀ entry ∈ m.sections, headerBytes ≤ entry.offset.toNat ∧
    entry.offset.toNat + entry.length.toNat ≤ bytes.length - trailerBytes
  checksum : ∀ entry ∈ m.sections,
    crc32c (slice bytes entry.offset.toNat entry.length.toNat) = entry.crc32c
  ordered : m.sections.Pairwise fun s t => s.kind < t.kind
  numbered : ∀ i (hi : i < m.files.length), (m.files[i].fileId).toNat = i

section Accepting

variable {crc32c : List UInt8 → UInt32} {bytes : List UInt8} {sectionRange fileRange : Span}
  {trailerAt : ℕ}

/-- The entry that is accepted has the checksum of its payload, and a kind after
the last. -/
theorem parseSection_eq_ok {i : ℕ} {lastKind : Option UInt16} {entry : SectionEntry}
    (h : parseSection crc32c bytes sectionRange fileRange trailerAt i lastKind = .ok entry) :
    crc32c (slice bytes entry.offset.toNat entry.length.toNat) = entry.crc32c ∧
      ∀ previous ∈ lastKind, previous < entry.kind := by
  unfold parseSection at h
  simp only [bind_eq_ok, refuse_eq_ok, okOr_eq_ok, checkedSum_eq_some] at h
  -- the kind, the flags, the reserved fields, and the order; then the extent and the checks
  obtain ⟨_, -, _, -, _, -, _, -, _, -, _, -, _, hord, h⟩ := h
  obtain ⟨_, -, _, -, _, -, _, ⟨rfl, -⟩, _, -, _, -, _, hcrc, heq⟩ := h
  cases heq
  rw [Nat.add_sub_cancel_left, not_not] at hcrc
  refine ⟨hcrc, fun previous hpr => ?_⟩
  rw [Option.mem_def.mp hpr, Option.any_some, decide_eq_true_iff] at hord
  exact UInt16.not_le.mp hord

/-- **The sections that are accepted** have the checksums of their payloads; each
comes after the ones before. -/
theorem parseSections_eq_ok {n i : ℕ} {lastKind : Option UInt16} {l : List SectionEntry}
    (h : parseSections crc32c bytes sectionRange fileRange trailerAt n i lastKind = .ok l) :
    (∀ entry ∈ l, crc32c (slice bytes entry.offset.toNat entry.length.toNat) = entry.crc32c ∧
      ∀ previous ∈ lastKind, previous < entry.kind) ∧ l.Pairwise fun s t => s.kind < t.kind := by
  induction n generalizing i lastKind l with
  | zero =>
    obtain rfl := Except.ok.inj h
    exact ⟨fun entry hent => absurd hent List.not_mem_nil, List.Pairwise.nil⟩
  | succ n ih =>
    obtain ⟨entry, hent, h⟩ := bind_eq_ok.mp h
    obtain ⟨rest, hres, h⟩ := bind_eq_ok.mp h
    cases h
    obtain ⟨hcrc, hkin⟩ := parseSection_eq_ok hent
    obtain ⟨hres, hord⟩ := ih hres
    have haft (t : SectionEntry) (ht : t ∈ rest) : entry.kind < t.kind :=
      (hres t ht).2 entry.kind rfl
    refine ⟨fun t ht => ?_, List.pairwise_cons.mpr ⟨haft, hord⟩⟩
    rcases List.mem_cons.mp ht with rfl | ht
    · exact ⟨hcrc, hkin⟩
    · exact ⟨(hres t ht).1, fun previous hpr =>
        UInt16.lt_trans (hkin previous hpr) (haft t ht)⟩

theorem parseFile_eq_ok {i : ℕ} {entry : FileEntry} (h : parseFile bytes fileRange i = .ok entry) :
    entry.fileId = UInt32.ofNat i := by
  unfold parseFile at h
  simp only [bind_eq_ok, refuse_eq_ok] at h
  obtain ⟨_, -, _, hid, _, -, _, -, _, -, _, -, _, -, _, -, heq⟩ := h
  cases heq
  exact not_not.mp hid

/-- The files that are accepted have the numbers of their entries. -/
theorem parseFiles_eq_ok {n i : ℕ} {l : List FileEntry}
    (h : parseFiles bytes fileRange n i = .ok l) :
    l.length = n ∧ ∀ k (hk : k < l.length), l[k].fileId = UInt32.ofNat (i + k) := by
  induction n generalizing i l with
  | zero =>
    obtain rfl := Except.ok.inj h
    exact ⟨rfl, fun k hk => absurd hk (Nat.not_lt_zero k)⟩
  | succ n ih =>
    obtain ⟨entry, hent, h⟩ := bind_eq_ok.mp h
    obtain ⟨rest, hres, h⟩ := bind_eq_ok.mp h
    cases h
    obtain ⟨hlen, hids⟩ := ih hres
    refine ⟨congrArg Nat.succ hlen, fun k hk => ?_⟩
    cases k with
    | zero => exact parseFile_eq_ok hent
    | succ k =>
      rw [List.getElem_cons_succ, hids k (Nat.lt_of_succ_lt_succ hk), Nat.add_right_comm,
        Nat.add_assoc]

/-- **Manifests that are accepted are sound.** -/
theorem sound_of_parse {m : Manifest} (h : Manifest.parse crc32c bytes = .ok m) :
    m.Sound crc32c bytes := by
  have hacc := accepted_of_parse h
  unfold Manifest.parse at h
  simp only [bind_eq_ok] at h
  obtain ⟨header, -, _, -, _, -, _, -, _, -, sections, hsec, files, hfil, _, -, heq⟩ := h
  cases heq
  obtain ⟨hsec, hord⟩ := parseSections_eq_ok hsec
  obtain ⟨hcount, hids⟩ := parseFiles_eq_ok hfil
  refine ⟨rfl, fun entry hent => ?_, fun entry hent => (hsec entry hent).1, hord, fun i hi => ?_⟩
  · obtain ⟨k, hk, rfl⟩ := List.getElem_of_mem hent
    exact ⟨(hacc.checked k hk).header, (hacc.checked k hk).trailer⟩
  · -- there are fewer files than numbers
    have hlt : i < 2 ^ 32 := lt_of_lt_of_le hi (hcount.trans_le header.fileCount.toNat_lt.le)
    rw [hids i hi, zero_add]
    exact UInt32.toNat_ofNat_of_lt' hlt

end Accepting

/-- **The parser is safe.** Whatever a slice of bytes contains, `Manifest::parse`
returns a manifest or an error: no sum or product overflows, no slice is out of
its range, and no request for memory is larger than the bytes. It is the plain
parser that it computes, and a manifest that it accepts is sound. -/
theorem parse_safe (crc32c : List UInt8 → UInt32) (bytes : Vec 1 UInt8) :
    (Guarded.parse crc32c bytes.toList).Harmless bytes.toList.length ∧
      (∀ m, (Guarded.parse crc32c bytes.toList).result = .ok m ↔
        Manifest.parse crc32c bytes.toList = .ok m) ∧
      ∀ m, (Guarded.parse crc32c bytes.toList).result = .ok m → m.Sound crc32c bytes.toList := by
  have hfit : bytes.toList.length ≤ isizeMax := by
    have h := bytes.fits
    rwa [Nat.one_mul] at h
  have hfol := Guarded.parse_follows crc32c hfit
  exact ⟨hfol.harmless, fun m => hfol.eq_ok, fun m hm => sound_of_parse (hfol.eq_ok.mp hm)⟩

end Artifact

end Logan
