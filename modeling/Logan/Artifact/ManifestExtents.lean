import Logan.Artifact.Manifest
import Logan.Util.Crc

/-!
# The extents of a manifest

A manifest that has been parsed consists of its header, its two tables, the
payloads of its sections and its trailer, and these should have no byte in
common. The parser compares a payload with the header, with both tables and
with the trailer, and a table with the header. It compares neither two
payloads with each other, nor the two tables, nor a table with the trailer:
an accepted manifest is **structured** exactly if the extents that are stored
in its bytes happen to be **separate** in these respects.
-/

namespace Logan

open List

namespace Artifact

open Result

/-! ## Extents that are stored in the bytes -/

namespace Span

variable {a b : Span}

/-- A place inside a span. -/
def Has (a : Span) (i : ℕ) : Prop := a.start ≤ i ∧ i < a.stop

/-- No place is inside both. -/
def Disjoint (a b : Span) : Prop := ∀ i, ¬ (a.Has i ∧ b.Has i)

theorem Disjoint.symm (h : a.Disjoint b) : b.Disjoint a := fun i hi => h i ⟨hi.2, hi.1⟩

/-- **Spans are disjoint** if they do not overlap, or one of them is empty. -/
theorem disjoint_iff :
    a.Disjoint b ↔ a.start < a.stop → b.start < b.stop → ¬ rangesOverlap a b := by
  constructor
  · intro h ha hb hov
    obtain ⟨hab, hba⟩ := hov
    exact h (max a.start b.start) ⟨⟨le_max_left _ _, max_lt ha hba⟩, le_max_right _ _,
      max_lt hab hb⟩
  · rintro h i ⟨⟨ha, ha'⟩, hb, hb'⟩
    exact h (lt_of_le_of_lt ha ha') (lt_of_le_of_lt hb hb')
      ⟨lt_of_le_of_lt ha hb', lt_of_le_of_lt hb ha'⟩

theorem disjoint_of_le (h : a.stop ≤ b.start) : a.Disjoint b := by
  rintro i ⟨⟨_, ha⟩, hb, _⟩
  omega

end Span

/-- The number that some bytes at a place are. -/
def stored (bytes : List UInt8) (start n : ℕ) : ℕ := leNat (slice bytes start n)

/-- The section table that the header of these bytes stores. -/
def storedSectionTable (bytes : List UInt8) : Span :=
  ⟨stored bytes 42 8, stored bytes 42 8 + stored bytes 34 4 * sectionEntryBytes⟩

/-- The file table that the header of these bytes stores. -/
def storedFileTable (bytes : List UInt8) : Span :=
  ⟨stored bytes 50 8, stored bytes 50 8 + stored bytes 38 4 * fileEntryBytes⟩

/-- The payload that entry `i` of the section table stores. -/
def storedPayload (bytes : List UInt8) (i : ℕ) : Span :=
  let entry := (storedSectionTable bytes).start + i * sectionEntryBytes
  ⟨stored bytes (entry + 8) 8, stored bytes (entry + 8) 8 + stored bytes (entry + 16) 8⟩

/-- The last sixteen bytes. -/
def trailerSpan (bytes : List UInt8) : Span := ⟨bytes.length - trailerBytes, bytes.length⟩

/-- **The stored extents are separate**, where the parser does not look: the
tables from each other and from the trailer, and the payloads from each
other. -/
structure Separate (bytes : List UInt8) : Prop where
  tables : (storedSectionTable bytes).Disjoint (storedFileTable bytes)
  sectionTable : (storedSectionTable bytes).Disjoint (trailerSpan bytes)
  fileTable : (storedFileTable bytes).Disjoint (trailerSpan bytes)
  payloads : ∀ i j, i < j → j < stored bytes 34 4 →
    (storedPayload bytes i).Disjoint (storedPayload bytes j)

/-! ## Extents of a parsed manifest -/

namespace Manifest

/-- Where the section table is. -/
def sectionTable (m : Manifest) : Span :=
  ⟨m.header.sectionTableOffset.toNat,
    m.header.sectionTableOffset.toNat + m.header.sectionCount.toNat * sectionEntryBytes⟩

/-- Where the file table is. -/
def fileTable (m : Manifest) : Span :=
  ⟨m.header.fileTableOffset.toNat,
    m.header.fileTableOffset.toNat + m.header.fileCount.toNat * fileEntryBytes⟩

/-- Where the payload of a section is. -/
def payload (entry : SectionEntry) : Span :=
  ⟨entry.offset.toNat, entry.offset.toNat + entry.length.toNat⟩

/-- What the manifest consists of: the header, both tables, the trailer, and
the payloads. -/
def regions (m : Manifest) : List Span :=
  ⟨0, headerBytes⟩ :: m.sectionTable :: m.fileTable :: trailerSpan m.bytes ::
    m.sections.map payload

/-- **The regions of the manifest are inside it, and pairwise disjoint.** -/
structure Structured (m : Manifest) : Prop where
  inside : ∀ r ∈ m.regions, r.stop ≤ m.bytes.length
  disjoint : m.regions.Pairwise Span.Disjoint

end Manifest

/-! ## What the parser has checked -/

section Reading

variable {bytes : List UInt8} {start : ℕ} {what : String}

theorem take_eq_ok {n : ℕ} {v : List UInt8} (h : take n bytes start what = .ok v) :
    slice bytes start n = v ∧ start + n ≤ bytes.length := by
  obtain ⟨stop, hst, h⟩ := bind_eq_ok.mp h
  obtain ⟨rfl, -⟩ := checkedSum_eq_some.mp (okOr_eq_ok.mp hst)
  obtain ⟨-, hle, rfl⟩ := range?_eq_some.mp (okOr_eq_ok.mp h)
  rw [Nat.add_sub_cancel_left]
  exact ⟨rfl, hle⟩

theorem u32At_eq_ok {x : UInt32} (h : u32At bytes start what = .ok x) :
    x.toNat = stored bytes start 4 := by
  obtain ⟨v, hv, rfl⟩ := map_eq_ok h
  obtain ⟨rfl, hle⟩ := take_eq_ok hv
  have hlt := leNat_lt (slice bytes start 4)
  rw [length_slice hle] at hlt
  rw [u32OfBytes, UInt32.toNat_ofNat']
  exact Nat.mod_eq_of_lt hlt

theorem u64At_eq_ok {x : UInt64} (h : u64At bytes start what = .ok x) :
    x.toNat = stored bytes start 8 := by
  obtain ⟨v, hv, rfl⟩ := map_eq_ok h
  obtain ⟨rfl, hle⟩ := take_eq_ok hv
  have hlt := leNat_lt (slice bytes start 8)
  rw [length_slice hle] at hlt
  rw [u64OfBytes, UInt64.toNat_ofNat']
  exact Nat.mod_eq_of_lt hlt

end Reading

section Parsing

variable {crc32c : List UInt8 → UInt32} {bytes : List UInt8}

/-- The places and counts in the header are those stored in the bytes. -/
theorem parseHeader_eq_ok {header : ManifestHeader} (h : parseHeader crc32c bytes = .ok header) :
    headerBytes + trailerBytes ≤ bytes.length ∧ header.sectionCount.toNat = stored bytes 34 4 ∧
      header.fileCount.toNat = stored bytes 38 4 ∧
      header.sectionTableOffset.toNat = stored bytes 42 8 ∧
      header.fileTableOffset.toNat = stored bytes 50 8 := by
  unfold parseHeader at h
  simp only [bind_eq_ok, refuse_eq_ok] at h
  -- the length, the magic, and seven fields; four fields of interest; the checks
  obtain ⟨_, hlen, _, -, _, -, _, -, _, -, _, -, _, -, _, -, _, -, h⟩ := h
  obtain ⟨_, hsec, _, hfil, _, hsct, _, hflt, h⟩ := h
  obtain ⟨_, -, _, -, _, -, _, -, _, -, _, -, _, -, _, -, heq⟩ := h
  cases heq
  exact ⟨not_lt.mp hlen, u32At_eq_ok hsec, u32At_eq_ok hfil, u64At_eq_ok hsct, u64At_eq_ok hflt⟩

theorem checkedTable_eq_ok {n entryBytes : ℕ} {offset : UInt64} {count : UInt32} {what : String}
    {r : Span} (h : checkedTable n offset count entryBytes what = .ok r) :
    r = ⟨offset.toNat, offset.toNat + count.toNat * entryBytes⟩ ∧ r.stop ≤ n := by
  obtain ⟨len, hlen, h⟩ := bind_eq_ok.mp h
  obtain ⟨stop, hst, h⟩ := bind_eq_ok.mp h
  obtain ⟨_, hle, h⟩ := bind_eq_ok.mp h
  obtain ⟨rfl, -⟩ := checkedProduct_eq_some.mp (okOr_eq_ok.mp hlen)
  obtain ⟨rfl, -⟩ := checkedSum_eq_some.mp (okOr_eq_ok.mp hst)
  cases h
  exact ⟨rfl, not_lt.mp (refuse_eq_ok.mp hle)⟩

variable {sectionRange fileRange : Span} {trailerAt : ℕ}

/-- **What is known of a section that is accepted**: its payload is the one
stored in its entry, ends before the trailer, and overlaps neither the
header nor a table. -/
structure Checked (bytes : List UInt8) (sectionRange fileRange : Span) (trailerAt i : ℕ)
    (entry : SectionEntry) : Prop where
  offset : entry.offset.toNat
    = stored bytes (sectionRange.start + i * sectionEntryBytes + 8) 8
  length : entry.length.toNat
    = stored bytes (sectionRange.start + i * sectionEntryBytes + 16) 8
  trailer : (Manifest.payload entry).stop ≤ trailerAt
  header : headerBytes ≤ (Manifest.payload entry).start
  sectionTable : ¬ rangesOverlap (Manifest.payload entry) sectionRange
  fileTable : ¬ rangesOverlap (Manifest.payload entry) fileRange

theorem checked_of_parseSection {i : ℕ} {lastKind : Option UInt16} {entry : SectionEntry}
    (h : parseSection crc32c bytes sectionRange fileRange trailerAt i lastKind = .ok entry) :
    Checked bytes sectionRange fileRange trailerAt i entry := by
  unfold parseSection at h
  simp only [bind_eq_ok, refuse_eq_ok, okOr_eq_ok, checkedSum_eq_some] at h
  -- the kind, the flags, and the checks on them; the extent; the checks on it
  obtain ⟨_, -, _, -, _, -, _, -, _, -, _, -, _, -, h⟩ := h
  obtain ⟨_, hoff, _, hlen, _, -, _, ⟨rfl, -⟩, h⟩ := h
  obtain ⟨_, htr, _, hmet, _, -, heq⟩ := h
  cases heq
  obtain ⟨hsec, hmet⟩ := not_or.mp hmet
  obtain ⟨hfil, hhdr⟩ := not_or.mp hmet
  exact ⟨u64At_eq_ok hoff, u64At_eq_ok hlen, not_lt.mp htr, not_lt.mp hhdr, hsec, hfil⟩

/-- Every section of the table has been checked. -/
theorem checked_of_parseSections {n i : ℕ} {lastKind : Option UInt16} {l : List SectionEntry}
    (h : parseSections crc32c bytes sectionRange fileRange trailerAt n i lastKind = .ok l) :
    l.length = n ∧ ∀ k (hk : k < l.length),
      Checked bytes sectionRange fileRange trailerAt (i + k) l[k] := by
  induction n generalizing i lastKind l with
  | zero =>
    obtain rfl := Except.ok.inj h
    exact ⟨rfl, fun k hk => absurd hk (Nat.not_lt_zero k)⟩
  | succ n ih =>
    obtain ⟨entry, hent, h⟩ := bind_eq_ok.mp h
    obtain ⟨rest, hres, h⟩ := bind_eq_ok.mp h
    cases h
    obtain ⟨hlen, hch⟩ := ih hres
    refine ⟨by rw [length_cons, hlen], fun k hk => ?_⟩
    cases k with
    | zero => exact checked_of_parseSection hent
    | succ k =>
      rw [length_cons] at hk
      have hk' := hch k (Nat.lt_of_succ_lt_succ hk)
      rwa [show i + 1 + k = i + (k + 1) by omega] at hk'

/-- **What is known of a manifest that is accepted.** -/
structure Accepted (bytes : List UInt8) (m : Manifest) : Prop where
  whole : m.bytes = bytes
  sectionTable : m.sectionTable = storedSectionTable bytes
  fileTable : m.fileTable = storedFileTable bytes
  length : headerBytes + trailerBytes ≤ bytes.length
  tables_inside : m.sectionTable.stop ≤ bytes.length ∧ m.fileTable.stop ≤ bytes.length
  tables_header : headerBytes ≤ m.sectionTable.start ∧ headerBytes ≤ m.fileTable.start
  count : m.sections.length = stored bytes 34 4
  checked : ∀ k (hk : k < m.sections.length),
    Checked bytes m.sectionTable m.fileTable (bytes.length - trailerBytes) k m.sections[k]

theorem accepted_of_parse {m : Manifest} (h : Manifest.parse crc32c bytes = .ok m) :
    Accepted bytes m := by
  obtain ⟨header, hhdr, h⟩ := bind_eq_ok.mp h
  obtain ⟨sectionRange, hsec, h⟩ := bind_eq_ok.mp h
  obtain ⟨fileRange, hfil, h⟩ := bind_eq_ok.mp h
  obtain ⟨_, hst, h⟩ := bind_eq_ok.mp h
  obtain ⟨_, -, h⟩ := bind_eq_ok.mp h
  obtain ⟨sections, hsct, h⟩ := bind_eq_ok.mp h
  obtain ⟨files, -, h⟩ := bind_eq_ok.mp h
  obtain ⟨_, -, h⟩ := bind_eq_ok.mp h
  cases h
  obtain ⟨hlen, hcount, hfls, hsect, hflt⟩ := parseHeader_eq_ok hhdr
  obtain ⟨rfl, hsectionStop⟩ := checkedTable_eq_ok hsec
  obtain ⟨rfl, hfileS⟩ := checkedTable_eq_ok hfil
  obtain ⟨hn, hch⟩ := checked_of_parseSections hsct
  obtain ⟨hst, hst'⟩ := not_or.mp (refuse_eq_ok.mp hst)
  exact {
    whole := rfl
    sectionTable := by
      rw [Manifest.sectionTable, storedSectionTable, ← hsect, ← hcount]
    fileTable := by
      rw [Manifest.fileTable, storedFileTable, ← hflt, ← hfls]
    length := hlen
    tables_inside := ⟨hsectionStop, hfileS⟩
    tables_header := ⟨not_lt.mp hst, not_lt.mp hst'⟩
    count := hn.trans hcount
    checked := fun k hk => by
      have := hch k hk
      rw [zero_add] at this
      exact this }

theorem Accepted.payload {m : Manifest} (h : Accepted bytes m) {k : ℕ}
    (hk : k < m.sections.length) : Manifest.payload m.sections[k] = storedPayload bytes k := by
  have hch := h.checked k hk
  rw [Manifest.payload, storedPayload, hch.offset, hch.length, h.sectionTable]

/-- **The extents of an accepted manifest are inside it and pairwise
disjoint** exactly if the stored extents are separate where the parser does
not look. -/
theorem structured_iff_separate {m : Manifest} (h : Manifest.parse crc32c bytes = .ok m) :
    m.Structured ↔ Separate bytes := by
  have ha := accepted_of_parse h
  have hmet : ∀ r ∈ m.sections.map Manifest.payload,
      headerBytes ≤ r.start ∧ r.stop ≤ bytes.length - trailerBytes ∧
        m.sectionTable.Disjoint r ∧ m.fileTable.Disjoint r := by
    intro r hr
    obtain ⟨entry, hent, rfl⟩ := mem_map.mp hr
    obtain ⟨k, hk, rfl⟩ := getElem_of_mem hent
    have hc := ha.checked k hk
    exact ⟨hc.header, hc.trailer,
      Span.Disjoint.symm (Span.disjoint_iff.mpr fun _ _ => hc.sectionTable),
      Span.Disjoint.symm (Span.disjoint_iff.mpr fun _ _ => hc.fileTable)⟩
  have hprs : (m.sections.map Manifest.payload).Pairwise Span.Disjoint ↔
      ∀ i j, i < j → j < stored bytes 34 4 →
        (storedPayload bytes i).Disjoint (storedPayload bytes j) := by
    rw [pairwise_map, pairwise_iff_getElem, ← ha.count]
    constructor
    · intro hp i j hij hj
      have := hp i j (lt_trans hij hj) hj hij
      rwa [ha.payload, ha.payload] at this
    · intro hp i j hi hj hij
      rw [ha.payload, ha.payload]
      exact hp i j hij hj
  constructor
  · rintro ⟨-, hdis⟩
    rw [Manifest.regions, ha.whole] at hdis
    simp only [pairwise_cons, mem_cons, forall_eq_or_imp] at hdis
    obtain ⟨-, ⟨htab, hsec, -⟩, ⟨hfil, -⟩, -, hpay⟩ := hdis
    rw [ha.sectionTable] at htab hsec
    rw [ha.fileTable] at htab hfil
    exact ⟨htab, hsec, hfil, hprs.mp hpay⟩
  · rintro ⟨htab, hsec, hfil, hpay⟩
    rw [← ha.sectionTable] at htab hsec
    rw [← ha.fileTable] at htab hfil
    have hlen := ha.length
    refine ⟨fun r hr => ?_, ?_⟩
    · rw [Manifest.regions, ha.whole] at hr
      simp only [mem_cons] at hr
      rw [ha.whole]
      rcases hr with rfl | rfl | rfl | rfl | hr
      · exact le_trans (Nat.le_add_right _ _) hlen
      · exact ha.tables_inside.1
      · exact ha.tables_inside.2
      · exact le_refl _
      · exact le_trans (hmet r hr).2.1 (Nat.sub_le _ _)
    · rw [Manifest.regions, ha.whole]
      simp only [pairwise_cons, mem_cons, forall_eq_or_imp]
      refine ⟨⟨Span.disjoint_of_le ha.tables_header.1, Span.disjoint_of_le ha.tables_header.2,
        Span.disjoint_of_le (Nat.le_sub_of_add_le hlen),
        fun r hr => Span.disjoint_of_le (hmet r hr).1⟩,
        ⟨htab, hsec, fun r hr => (hmet r hr).2.2.1⟩,
        ⟨hfil, fun r hr => (hmet r hr).2.2.2⟩,
        fun r hr => (Span.disjoint_of_le (hmet r hr).2.1).symm, hprs.mpr hpay⟩

end Parsing

/-! ## A file table that reaches into the trailer -/

/-- The header of a manifest without sections and with one file: 58 bytes. -/
def oneFileHeader : List UInt8 :=
  manifestMagic ++ u16Bytes 1 ++ u16Bytes 0 ++ u32Bytes 64 ++ u16Bytes 1 ++ u16Bytes 0 ++
    u32Bytes 0 ++ u64Bytes 1 ++ u32Bytes 0 ++ u32Bytes 1 ++ u64Bytes 64 ++ u64Bytes 64

/-- A manifest of 88 bytes, whose only entry of the file table is its last 24
bytes. Its size and its kind are the trailer's magic and checksum. -/
def oneFileManifest (crc32c : List UInt8 → UInt32) : List UInt8 :=
  oneFileHeader ++ (u32Bytes (crc32c oneFileHeader) ++ u16Bytes 0 ++ u32Bytes 0 ++ u32Bytes 0 ++
    trailerMagic ++ u32Bytes 1 ++ u32Bytes 0)

/-- The manifest is accepted, with its file table up to its end. -/
theorem parse_oneFileManifest (crc32c : List UInt8 → UInt32) :
    ∃ m, Manifest.parse crc32c (oneFileManifest crc32c) = .ok m ∧ m.fileTable = ⟨64, 88⟩ ∧
      m.bytes.length = 88 := by
  have hsl : slice (oneFileManifest crc32c) 0 58 = oneFileHeader :=
    slice_append_left (le_of_eq rfl)
  have hfld : ∀ {i n v}, i + n ≤ 58 → slice oneFileHeader i n = v →
      slice (oneFileManifest crc32c) i n = v := fun hle hv => by
    rw [← hv, ← hsl, slice_slice hle, zero_add]
  have hhdr : parseHeader crc32c (oneFileManifest crc32c)
      = .ok ⟨1, 0, 1, 0, 0, 1, 0, 1, 64, 64⟩ := by
    refine parseHeader_of_fields (by decide : 80 ≤ 88) (by decide : 88 ≤ usizeMax)
      (hfld (by decide) (by decide)) (hfld (by decide) (by decide))
      (hfld (by decide) (by decide)) (hfld (by decide) (by decide))
      (hfld (by decide) (by decide)) (hfld (by decide) (by decide))
      (hfld (by decide) (by decide)) (hfld (by decide) (by decide))
      (hfld (by decide) (by decide)) (hfld (by decide) (by decide))
      (hfld (by decide) (by decide)) (hfld (by decide) (by decide))
      ?_ rfl rfl (by decide) (by decide)
    rw [hsl]
    rfl
  refine ⟨⟨⟨1, 0, 1, 0, 0, 1, 0, 1, 64, 64⟩, [], [⟨0, 0, u64OfBytes trailerMagic, 1⟩],
    oneFileManifest crc32c⟩, ?_, rfl, rfl⟩
  unfold Manifest.parse
  rw [hhdr]
  rfl

/-- The manifest is not structured, and its stored extents are not separate. -/
theorem structured_iff_separate_oneFile :
    ∃ m, Manifest.parse Logan.crc32c (oneFileManifest Logan.crc32c) = .ok m ∧
      (m.Structured ↔ Separate (oneFileManifest Logan.crc32c)) := by
  obtain ⟨m, hpar, -⟩ := parse_oneFileManifest Logan.crc32c
  exact ⟨m, hpar, structured_iff_separate hpar⟩

/-- A manifest can be accepted although it is not structured, whatever the
checksum is. -/
theorem not_forall_structured : ¬ ∃ crc32c : List UInt8 → UInt32,
    ∀ bytes m, Manifest.parse crc32c bytes = .ok m → m.Structured := by
  rintro ⟨crc32c, h⟩
  obtain ⟨m, hpar, htab, hlen⟩ := parse_oneFileManifest crc32c
  have hdis := (h _ m hpar).disjoint
  rw [Manifest.regions, trailerSpan, hlen, htab] at hdis
  simp only [pairwise_cons, mem_cons, forall_eq_or_imp] at hdis
  exact hdis.2.2.1.1 80 ⟨⟨by decide, by decide⟩, by decide, by decide⟩

end Artifact

end Logan
