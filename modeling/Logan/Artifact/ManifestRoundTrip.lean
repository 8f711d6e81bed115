import Logan.Artifact.ManifestBuilder
import Logan.Util.Crc

/-!
# What is encoded is parsed

`encode` and `parse` compute every place on their own. All writes of the
encoder are apart from each other, and so the manifest holds them all, and
zeros between them; the parser reads them where they are, and none of its
checks fails.

There is one builder that cannot be encoded although everything has been
accepted that was added to it. A builder numbers its files from one on, and
takes files as long as their number is a `u32`; the file table has one more
entry, for the manifest itself, and the count of its entries is to be a `u32`
as well.
-/

namespace Logan

open List
open Nat (add_assoc le_add_right zero_le)
open UInt64 (ofNat)

namespace Artifact

open Result

namespace ManifestBuilder

variable {crc32c : List UInt8 → UInt32} {b : ManifestBuilder}

/-! ## The layout -/

/-- The bytes of all payloads. -/
def payloadTotal (l : List BuilderSection) : ℕ := (l.map fun s => s.payload.length).sum

/-- Where the file table is. -/
def fileTableAt (b : ManifestBuilder) : ℕ := headerBytes + b.sections.length * sectionEntryBytes

/-- Where the payloads are. -/
def payloadsAt (b : ManifestBuilder) : ℕ :=
  b.fileTableAt + (b.files.length + 1) * fileEntryBytes

/-- Where the trailer is. -/
def trailerAt (b : ManifestBuilder) : ℕ := b.payloadsAt + payloadTotal b.sections

/-- **The size of the manifest.** -/
def totalBytes (b : ManifestBuilder) : ℕ := b.trailerAt + trailerBytes

theorem sorted_perm (b : ManifestBuilder) : b.sorted.Perm b.sections :=
  perm_insertionSort _ _

theorem length_sorted (b : ManifestBuilder) : b.sorted.length = b.sections.length :=
  b.sorted_perm.length_eq

theorem payloadTotal_sorted (b : ManifestBuilder) :
    payloadTotal b.sorted = payloadTotal b.sections :=
  (b.sorted_perm.map _).sum_eq

/-- The reserved fields of entry `i` of the section table, which are not written. -/
def entryPads (i : ℕ) : List (Write UInt8) :=
  [(headerBytes + i * sectionEntryBytes + 4, u32Bytes 0),
   (headerBytes + i * sectionEntryBytes + 28, u32Bytes 0)]

/-- The reserved fields of `n` entries, from entry `i` on. -/
def sectionPads : ℕ → ℕ → List (Write UInt8)
  | _, 0 => []
  | i, n + 1 => entryPads i ++ sectionPads (i + 1) n

/-- The entries of the section table, each with its reserved fields. -/
def entryWrites (crc32c : List UInt8 → UInt32) : ℕ → ℕ → List BuilderSection → List (Write UInt8)
  | _, _, [] => []
  | i, payloadAt, s :: rest =>
    let start := headerBytes + i * sectionEntryBytes
    [(start, u16Bytes s.kind), (start + 2, u16Bytes s.entryFlags), (start + 4, u32Bytes 0),
     (start + 8, u64Bytes (ofNat payloadAt)),
     (start + 16, u64Bytes (ofNat s.payload.length)),
     (start + 24, u32Bytes (crc32c s.payload)), (start + 28, u32Bytes 0)] ++
    entryWrites crc32c (i + 1) (payloadAt + s.payload.length) rest

/-- The payloads, one after the other. -/
def payloadWrites : ℕ → List BuilderSection → List (Write UInt8)
  | _, [] => []
  | payloadAt, s :: rest =>
    (payloadAt, s.payload) :: payloadWrites (payloadAt + s.payload.length) rest

/-- The loop over the sections writes entries and payloads. -/
theorem sectionWrites_perm (crc32c : List UInt8 → UInt32) (i payloadAt : ℕ)
    (l : List BuilderSection) :
    (sectionWrites crc32c i payloadAt l ++ sectionPads i l.length).Perm
      (entryWrites crc32c i payloadAt l ++ payloadWrites payloadAt l) := by
  induction l generalizing i payloadAt with
  | nil => exact List.Perm.refl _
  | cons s l ih =>
    have hres := perm_iff_count.mp (ih (i + 1) (payloadAt + s.payload.length))
    refine perm_iff_count.mpr fun w => ?_
    have hw := hres w
    simp only [sectionWrites, sectionPads, entryPads, entryWrites, payloadWrites,
      length_cons, count_append, count_cons, count_nil] at hw ⊢
    omega

theorem laid_entryWrites (crc32c : List UInt8 → UInt32) (i payloadAt : ℕ)
    (l : List BuilderSection) :
    Laid (headerBytes + i * sectionEntryBytes) (headerBytes + (i + l.length) * sectionEntryBytes)
      (entryWrites crc32c i payloadAt l) := by
  induction l generalizing i payloadAt with
  | nil => exact Laid.nil
  | cons s l ih =>
    have hres := ih (i + 1) (payloadAt + s.payload.length)
    have hend : i + 1 + l.length = i + (s :: l).length := by rw [length_cons]; omega
    rw [hend] at hres
    have hnex : headerBytes + (i + 1) * sectionEntryBytes
        = headerBytes + i * sectionEntryBytes + 32 := by
      rw [Nat.add_mul, one_mul, ← add_assoc]
      rfl
    refine Laid.append ?_ hres ?_ ?_
    · rw [hnex]
      exact Laid.of_inOrder (by simp [Laid.InOrder])
    · exact Nat.add_le_add_left (Nat.mul_le_mul_right _ (Nat.le_succ i)) _
    · refine Nat.add_le_add_left (Nat.mul_le_mul_right _ ?_) _
      rw [length_cons]
      omega

theorem laid_payloadWrites (payloadAt : ℕ) (l : List BuilderSection) :
    Laid payloadAt (payloadAt + payloadTotal l) (payloadWrites payloadAt l) := by
  induction l generalizing payloadAt with
  | nil => exact Laid.nil
  | cons s l ih =>
    have htot : payloadAt + payloadTotal (s :: l)
        = payloadAt + s.payload.length + payloadTotal l := by
      rw [payloadTotal, map_cons, sum_cons, ← add_assoc]
      rfl
    rw [htot]
    exact Laid.cons le_rfl le_rfl (ih _) (le_add_right _ _)

theorem laid_fileEntryWrites (start : ℕ) (entry : FileEntry) :
    Laid start (start + 24) (fileEntryWrites start entry) := by
  exact Laid.of_inOrder (by simp [fileEntryWrites, Laid.InOrder])

theorem laid_fileWrites (b : ManifestBuilder) (start total : ℕ) :
    Laid start (start + (b.files.length + 1) * fileEntryBytes) (b.fileWrites start total) := by
  have hent : ∀ (entry : FileEntry) (k : ℕ), (entry, k) ∈ (b.fileTable total).zipIdx 0 →
      Laid (start + k * fileEntryBytes) (start + (k + 1) * fileEntryBytes)
        (fileEntryWrites (start + k * fileEntryBytes) entry) := by
    intro entry k _
    have hnex : start + (k + 1) * fileEntryBytes = start + k * fileEntryBytes + 24 := by
      rw [Nat.add_mul, one_mul, ← add_assoc]
      rfl
    rw [hnex]
    exact laid_fileEntryWrites _ entry
  have h := Laid.table (f := fun p => fileEntryWrites (start + p.2 * fileEntryBytes) p.1)
    (b.fileTable total) 0 hent
  rwa [zero_mul, add_zero, zero_add] at h

theorem laid_header (b : ManifestBuilder) (fileTableOffset : ℕ) (crc : UInt32) :
    Laid 0 headerBytes (b.headerWrites fileTableOffset ++ [(58, u32Bytes crc)]) := by
  have h : Laid 0 headerBytes ((b.headerWrites fileTableOffset).take 12 ++
      [(58, u32Bytes crc), (62, u16Bytes 0)]) :=
    Laid.of_inOrder (by simp [headerWrites, headerBytes, manifestMagic, Laid.InOrder])
  refine h.perm ((List.Perm.append_left _ (List.Perm.swap _ _ [])).trans ?_)
  rw [← singleton_append, ← append_assoc]
  exact List.Perm.refl _

theorem laid_trailer (start : ℕ) :
    Laid start (start + 16) [(start, trailerMagic), (start + 8, u32Bytes 0),
      (start + 12, u32Bytes 0)] := by
  exact Laid.of_inOrder (by simp [trailerMagic, Laid.InOrder])

/-! ## The bytes of a manifest -/

/-- The buffer before its checksum and its trailer are written. -/
def body (crc32c : List UInt8 → UInt32) (b : ManifestBuilder) : List UInt8 :=
  puts (List.replicate b.totalBytes 0)
    (b.headerWrites b.fileTableAt ++ sectionWrites crc32c 0 b.payloadsAt b.sorted ++
      b.fileWrites b.fileTableAt b.totalBytes)

/-- **The bytes that are written.** -/
def image (crc32c : List UInt8 → UInt32) (b : ManifestBuilder) : List UInt8 :=
  puts (body crc32c b) (closingWrites (crc32c (slice (body crc32c b) 0 58)) b.trailerAt)

variable {l : List BuilderSection}

/-- Sizes are added up without an overflow. -/
theorem foldlM_checkedSum {sum : ℕ} (h : sum + payloadTotal l ≤ usizeMax) :
    l.foldlM (fun sum s => checkedSum sum s.payload.length) sum = some (sum + payloadTotal l) := by
  induction l generalizing sum with
  | nil => rfl
  | cons s l ih =>
    have hcon : sum + payloadTotal (s :: l) = sum + s.payload.length + payloadTotal l := by
      rw [payloadTotal, map_cons, sum_cons, ← add_assoc]
      rfl
    rw [hcon] at h ⊢
    rw [foldlM_cons, checkedSum_of_le (le_trans (le_add_right _ _) h)]
    exact ih h

theorem length_sorted_le (b : ManifestBuilder) : b.sorted.length ≤ u32Max := by
  have hnd : (b.sections.map fun s => s.kind.toNat).Nodup := by
    have h := b.kinds_nodup.map (f := UInt16.toNat) fun _ _ => UInt16.toNat_inj.mp
    rwa [map_map] at h
  have hsub : (b.sections.map fun s => s.kind.toNat) ⊆ List.range (2 ^ 16) := fun k hk => by
    obtain ⟨s, -, rfl⟩ := mem_map.mp hk
    exact mem_range.mpr s.kind.toNat_lt
  have hle := (subperm_of_subset hnd hsub).length_le
  rw [length_map, length_range] at hle
  rw [b.length_sorted]
  exact le_trans hle (by decide)

/-- **The encoder writes the manifest**, and parses it, unless it has too many files. -/
theorem encode_eq (hsiz : b.totalBytes ≤ usizeMax) (hfil : b.files.length + 1 ≤ u32Max) :
    encode crc32c b
      = Manifest.parse crc32c (image crc32c b) >>= fun _ => pure (image crc32c b) := by
  have htot : b.totalBytes = headerBytes + b.sorted.length * sectionEntryBytes +
      (b.files.length + 1) * fileEntryBytes + payloadTotal b.sorted + trailerBytes := by
    rw [b.length_sorted, payloadTotal_sorted]
    rfl
  rw [htot] at hsiz
  have htr : b.totalBytes - trailerBytes = b.trailerAt := Nat.add_sub_cancel _ _
  unfold encode
  rw [refuse_of_not (not_lt.mpr b.length_sorted_le), ok_bind,
    refuse_of_not (not_lt.mpr hfil), ok_bind,
    checkedProduct_of_le (by omega), okOr_some, ok_bind,
    checkedSum_of_le (by omega), okOr_some, ok_bind,
    checkedProduct_of_le (by omega), okOr_some, ok_bind,
    checkedSum_of_le (by omega), okOr_some, ok_bind,
    foldlM_checkedSum (by omega), okOr_some, ok_bind, zero_add,
    checkedSum_of_le (by omega), Option.bind_eq_bind, Option.bind_some,
    checkedSum_of_le (by omega), okOr_some, ok_bind, ← htot, htr, b.length_sorted]
  rfl

theorem encode_of_too_many (hfil : u32Max < b.files.length + 1) :
    encode crc32c b = .error (.invalid "too many files") := by
  unfold encode
  rw [refuse_of_not (not_lt.mpr b.length_sorted_le), ok_bind, refuse_of hfil]
  rfl

/-! ## What the manifest holds -/

/-- All that is written, with the reserved fields that are not. -/
def contents (crc32c : List UInt8 → UInt32) (b : ManifestBuilder) : List (Write UInt8) :=
  (b.headerWrites b.fileTableAt ++ sectionWrites crc32c 0 b.payloadsAt b.sorted ++
    b.fileWrites b.fileTableAt b.totalBytes ++
    closingWrites (crc32c (slice (body crc32c b) 0 58)) b.trailerAt) ++
  sectionPads 0 b.sorted.length

/-- **No two writes of the encoder overlap**, and all are inside the manifest. -/
theorem laid_contents (crc32c : List UInt8 → UInt32) (b : ManifestBuilder) :
    Laid 0 b.totalBytes (contents crc32c b) := by
  generalize hcrc : crc32c (slice (body crc32c b) 0 58) = crc
  have hents : Laid headerBytes b.fileTableAt (entryWrites crc32c 0 b.payloadsAt b.sorted) := by
    have h := laid_entryWrites crc32c 0 b.payloadsAt b.sorted
    rwa [zero_mul, add_zero, zero_add, b.length_sorted] at h
  have hpay : Laid b.payloadsAt b.trailerAt (payloadWrites b.payloadsAt b.sorted) := by
    have h := laid_payloadWrites b.payloadsAt b.sorted
    rwa [payloadTotal_sorted] at h
  have hle : headerBytes ≤ b.fileTableAt := le_add_right _ _
  have hle' : b.fileTableAt ≤ b.payloadsAt := le_add_right _ _
  have hle'' : b.payloadsAt ≤ b.trailerAt := le_add_right _ _
  have hld := ((((laid_header b b.fileTableAt crc).append hents (zero_le _) hle).append
    (laid_fileWrites b b.fileTableAt b.totalBytes) (zero_le _) hle').append hpay
    (zero_le _) hle'').append (laid_trailer b.trailerAt) (zero_le _)
    (le_add_right _ trailerBytes)
  refine hld.perm (perm_iff_count.mpr fun w => ?_)
  have hsec := perm_iff_count.mp (sectionWrites_perm crc32c 0 b.payloadsAt b.sorted) w
  rw [contents, hcrc]
  simp only [closingWrites, count_append, count_cons, count_nil] at hsec ⊢
  omega

theorem length_image (crc32c : List UInt8 → UInt32) (b : ManifestBuilder) :
    (image crc32c b).length = b.totalBytes := by
  have h := laid_contents crc32c b
  unfold image body
  rw [← puts_append, length_puts, length_replicate]
  intro w hw
  rw [length_replicate]
  exact (h.within w (mem_append_left _ hw)).2

/-- **The manifest holds all that is written**, and zeros between. -/
theorem holds_image (crc32c : List UInt8 → UInt32) (b : ManifestBuilder) :
    HasWrites (image crc32c b) (contents crc32c b) := by
  have h := laid_contents crc32c b
  unfold image body at *
  rw [← puts_append]
  refine holds_puts_replicate h fun z hz => ?_
  have hpad : ∀ i n, ∀ z ∈ sectionPads i n, z.2 = List.replicate z.2.length 0 := by
    intro i n
    induction n generalizing i with
    | zero => exact fun z hz => absurd hz not_mem_nil
    | succ n ih =>
      intro z hz
      rcases mem_append.mp hz with hz | hz
      · simp only [entryPads, mem_cons, not_mem_nil, or_false] at hz
        rcases hz with rfl | rfl <;> rfl
      · exact ih (i + 1) z hz
  exact hpad 0 _ z hz

/-- The checksum of the header is over what is there in the end. -/
theorem slice_image_header (crc32c : List UInt8 → UInt32) (b : ManifestBuilder) :
    slice (image crc32c b) 0 58 = slice (body crc32c b) 0 58 := by
  have h := laid_contents crc32c b
  have hbod : (body crc32c b).length = b.totalBytes := by
    unfold body
    rw [length_puts, length_replicate]
    intro w hw
    rw [length_replicate]
    exact (h.within w (mem_append_left _ (mem_append_left _ hw))).2
  have hle : 58 ≤ b.trailerAt := by
    have : headerBytes ≤ b.trailerAt :=
      le_trans (le_add_right _ _) (le_trans (le_add_right _ _) (le_add_right _ _))
    exact le_trans (by decide) this
  refine slice_puts_of_apart (fun w hw => ?_) fun w hw => ?_
  · rw [hbod]
    exact (h.within w (mem_append_left _ (mem_append_right _ hw))).2
  · simp only [closingWrites, mem_cons, not_mem_nil, or_false] at hw
    rcases hw with rfl | rfl | rfl | rfl <;> exact Or.inr (by omega)

/-! ## What the parser finds -/

/-- The entries of the section table. -/
def entries (crc32c : List UInt8 → UInt32) : ℕ → List BuilderSection → List SectionEntry
  | _, [] => []
  | payloadAt, s :: rest =>
    ⟨s.kind, s.entryFlags, ofNat payloadAt, ofNat s.payload.length,
      crc32c s.payload⟩ :: entries crc32c (payloadAt + s.payload.length) rest

/-- **The manifest** that the bytes are. -/
def manifest (crc32c : List UInt8 → UInt32) (b : ManifestBuilder) : Manifest where
  header :=
    { formatMajor, formatMinor, minReaderMajor := b.minReader.1, minReaderMinor := b.minReader.2,
      flags := b.flags, generation := b.generation,
      sectionCount := UInt32.ofNat b.sections.length,
      fileCount := UInt32.ofNat (b.files.length + 1),
      sectionTableOffset := ofNat headerBytes,
      fileTableOffset := ofNat b.fileTableAt }
  sections := entries crc32c b.payloadsAt b.sorted
  files := b.fileTable b.totalBytes
  bytes := image crc32c b

theorem toNat_ofNat_usize {n : ℕ} (h : n ≤ usizeMax) : (ofNat n).toNat = n := by
  rw [UInt64.toNat_ofNat']
  exact Nat.mod_eq_of_lt (Nat.lt_of_le_of_lt h (by decide))

theorem toNat_ofNat_u32 {n : ℕ} (h : n ≤ u32Max) : (UInt32.ofNat n).toNat = n := by
  rw [UInt32.toNat_ofNat']
  exact Nat.mod_eq_of_lt (Nat.lt_of_le_of_lt h (by decide))

section Parsing

variable {bytes : List UInt8}

/-- **The section table is read** where the encoder has written it: the
induction is on the sections, with the place of the next payload. -/
theorem parseSections_of_holds {sectionRange fileRange : Span} {trailerAt i payloadAt : ℕ}
    {lastKind : Option UInt16} (hfit : bytes.length ≤ usizeMax)
    (hst : sectionRange.start = headerBytes)
    (htab : sectionRange.stop ≤ payloadAt ∧ fileRange.stop ≤ payloadAt)
    (hhdr : headerBytes ≤ payloadAt) (htr : payloadAt + payloadTotal l ≤ trailerAt)
    (hins : trailerAt ≤ bytes.length) (hord : l.Pairwise fun s t => s.kind < t.kind)
    (hlas : ∀ k ∈ lastKind, ∀ s ∈ l, k < s.kind)
    (h : HasWrites bytes (sectionWrites crc32c i payloadAt l ++ sectionPads i l.length)) :
    parseSections crc32c bytes sectionRange fileRange trailerAt l.length i lastKind
      = .ok (entries crc32c payloadAt l) := by
  induction l generalizing i payloadAt lastKind with
  | nil => rfl
  | cons s l ih =>
    have htot : payloadAt + payloadTotal (s :: l)
        = payloadAt + s.payload.length + payloadTotal l := by
      rw [payloadTotal, map_cons, sum_cons, ← add_assoc]
      rfl
    rw [htot] at htr
    -- this entry, and the rest of the table
    have hent := h.left.left
    have hpad := h.right.left
    have hres : HasWrites bytes (sectionWrites crc32c (i + 1) (payloadAt + s.payload.length) l ++
        sectionPads (i + 1) l.length) := h.left.right.append h.right.right
    set start := headerBytes + i * sectionEntryBytes with hat
    have hkin : u16At bytes start "section kind" = .ok s.kind :=
      u16At_of_slice (hent (_, _) (.head _)) hfit
    have hfl : u16At bytes (start + 2) "section flags" = .ok s.entryFlags :=
      u16At_of_slice (hent (_, _) (.tail _ (.head _))) hfit
    have hoff : u64At bytes (start + 8) "section offset" = .ok (ofNat payloadAt) :=
      u64At_of_slice (hent (_, _) (.tail _ (.tail _ (.head _)))) hfit
    have hlng : u64At bytes (start + 16) "section length" = .ok (ofNat s.payload.length) :=
      u64At_of_slice (hent (_, _) (.tail _ (.tail _ (.tail _ (.head _))))) hfit
    have hcrc : u32At bytes (start + 24) "section crc" = .ok (crc32c s.payload) :=
      u32At_of_slice (hent (_, _) (.tail _ (.tail _ (.tail _ (.tail _ (.head _)))))) hfit
    have hpay : slice bytes payloadAt s.payload.length = s.payload :=
      hent (_, _) (.tail _ (.tail _ (.tail _ (.tail _ (.tail _ (.head _))))))
    have hrsr : u32At bytes (start + 4) "section reserved" = .ok 0 :=
      u32At_of_slice (hpad (_, _) (.head _)) hfit
    have hres2 : u32At bytes (start + 28) "section reserved2" = .ok 0 :=
      u32At_of_slice (hpad (_, _) (.tail _ (.head _))) hfit
    have hpl : (ofNat payloadAt).toNat = payloadAt := toNat_ofNat_usize (by omega)
    have hlen : (ofNat s.payload.length).toNat = s.payload.length :=
      toNat_ofNat_usize (by omega)
    have hsec : parseSection crc32c bytes sectionRange fileRange trailerAt i lastKind
        = .ok ⟨s.kind, s.entryFlags, ofNat payloadAt, ofNat s.payload.length,
            crc32c s.payload⟩ := by
      have hknd : ¬ (lastKind.any fun previous => s.kind ≤ previous) = true := by
        cases lastKind with
        | none => exact Bool.false_ne_true
        | some k =>
          have hk := hlas k rfl s mem_cons_self
          rw [Option.any_some, decide_eq_true_eq]
          exact UInt16.not_le.mpr hk
      have hov : ¬ (rangesOverlap ⟨payloadAt, payloadAt + s.payload.length⟩ sectionRange ∨
          rangesOverlap ⟨payloadAt, payloadAt + s.payload.length⟩ fileRange ∨
          payloadAt < headerBytes) := by
        rintro (⟨hlt, -⟩ | ⟨hlt, -⟩ | hlt)
        · exact absurd hlt (not_lt.mpr htab.1)
        · exact absurd hlt (not_lt.mpr htab.2)
        · exact absurd hlt (not_lt.mpr hhdr)
      unfold parseSection
      dsimp only
      rw [hst, ← hat, hkin, ok_bind, hfl, ok_bind, hrsr, ok_bind,
        refuse_of_not (not_not_intro rfl), ok_bind, hres2, ok_bind,
        refuse_of_not (not_not_intro rfl), ok_bind, refuse_of_not hknd, ok_bind, hoff,
        ok_bind, hlng, ok_bind, hcrc, ok_bind, hpl, hlen, checkedSum_of_le (by omega),
        okOr_some, ok_bind, refuse_of_not (by omega), ok_bind, refuse_of_not hov, ok_bind,
        Nat.add_sub_cancel_left, hpay, refuse_of_not (not_not_intro rfl), ok_bind]
      rfl
    obtain ⟨hsm, hord⟩ := pairwise_cons.mp hord
    rw [length_cons]
    unfold parseSections
    rw [hsec, ok_bind, ih (by omega) (by omega) htr hord
      (fun k hk t ht => by rw [← Option.some.inj hk]; exact hsm t ht) hres, ok_bind]
    rfl

/-- **The file table is read** where the encoder has written it. -/
theorem parseFiles_of_holds {fileRange : Span} {i : ℕ} {l : List FileEntry}
    (hfit : bytes.length ≤ usizeMax) (hcount : i + l.length ≤ u32Max)
    (hnum : ∀ p ∈ l.zipIdx i, p.1.fileId.toNat = p.2)
    (hkin : ∀ f ∈ l, f.fileKind ≤ provenanceKind)
    (h : HasWrites bytes ((l.zipIdx i).flatMap fun p =>
      fileEntryWrites (fileRange.start + p.2 * fileEntryBytes) p.1)) :
    parseFiles bytes fileRange l.length i = .ok l := by
  induction l generalizing i with
  | nil => rfl
  | cons f l ih =>
    rw [zipIdx_cons, flatMap_cons] at h
    rw [length_cons] at hcount
    have hent : HasWrites bytes (fileEntryWrites (fileRange.start + i * fileEntryBytes) f) := h.left
    set start := fileRange.start + i * fileEntryBytes with hat
    have hid : u32At bytes start "file id" = .ok f.fileId :=
      u32At_of_slice (hent (_, _) (.head _)) hfit
    have hnam : u32At bytes (start + 4) "file name id" = .ok f.nameId :=
      u32At_of_slice (hent (_, _) (.tail _ (.head _))) hfit
    have hbytes : u64At bytes (start + 8) "file bytes" = .ok f.fileBytes :=
      u64At_of_slice (hent (_, _) (.tail _ (.tail _ (.head _)))) hfit
    have hknd : u32At bytes (start + 16) "file kind" = .ok f.fileKind :=
      u32At_of_slice (hent (_, _) (.tail _ (.tail _ (.tail _ (.head _))))) hfit
    have hres : u32At bytes (start + 20) "file reserved" = .ok 0 :=
      u32At_of_slice (hent (_, _) (.tail _ (.tail _ (.tail _ (.tail _ (.head _)))))) hfit
    have hnmb : f.fileId = UInt32.ofNat i := by
      refine UInt32.toNat_inj.mp ?_
      rw [toNat_ofNat_u32 (by omega)]
      exact hnum (f, i) (by rw [zipIdx_cons]; exact mem_cons_self)
    have hfil : parseFile bytes fileRange i = .ok f := by
      unfold parseFile
      dsimp only
      rw [← hat, hid, ok_bind, refuse_of_not (not_not_intro hnmb), ok_bind, hnam, ok_bind, hbytes,
        ok_bind, hknd, ok_bind, hres, ok_bind, refuse_of_not (not_not_intro rfl), ok_bind,
        refuse_of_not (UInt32.not_lt.mpr (hkin f mem_cons_self)), ok_bind]
      rfl
    rw [length_cons]
    unfold parseFiles
    rw [hfil, ok_bind, ih (by omega) (fun p hp => hnum p (by
        rw [zipIdx_cons]
        exact mem_cons_of_mem _ hp))
      (fun g hg => hkin g (mem_cons_of_mem _ hg)) h.right, ok_bind]
    rfl

end Parsing

/-- The reader that a builder asks for is at most reader 1.0. -/
def Supported (b : ManifestBuilder) : Prop :=
  ¬ (b.minReader.1 > formatMajor ∨ (b.minReader.1 = formatMajor ∧ b.minReader.2 > formatMinor))

theorem sorted_ordered (b : ManifestBuilder) : b.sorted.Pairwise fun s t => s.kind < t.kind := by
  have hnd : (b.sorted.map BuilderSection.kind).Nodup :=
    (b.sorted_perm.map _).nodup_iff.mpr b.kinds_nodup
  have hle : b.sorted.Pairwise fun s t => s.kind ≤ t.kind :=
    pairwise_sortBy.imp fun {s t} hst => by
      refine UInt16.le_iff_toNat_le.mpr (not_lt.mp fun hlt => ?_)
      exact absurd (keyLe_iff.mp hst) (not_le.mpr (List.Lex.rel hlt))
  exact (hle.and (pairwise_map.mp hnd)).imp fun {s t} h =>
    UInt16.lt_of_le_of_ne h.1 h.2

/-- **What has been encoded is parsed.** -/
theorem parse_image (crc32c : List UInt8 → UInt32) (hsiz : b.totalBytes ≤ usizeMax)
    (hfil : b.files.length + 1 ≤ u32Max)
    (hrdr : b.Supported) : Manifest.parse crc32c (image crc32c b) = .ok (manifest crc32c b) := by
  have hhol := holds_image crc32c b
  have hlen := length_image crc32c b
  have hfit : (image crc32c b).length ≤ usizeMax := hlen ▸ hsiz
  have hwr := hhol.left
  have hhdr := hwr.left.left.left
  have hcl := hwr.right
  have hhea : headerBytes ≤ b.fileTableAt := le_add_right _ _
  have hfll : b.fileTableAt ≤ b.payloadsAt := le_add_right _ _
  have hpay : b.payloadsAt ≤ b.trailerAt := le_add_right _ _
  have htr : b.trailerAt ≤ b.totalBytes := le_add_right _ _
  have hlnt : (image crc32c b).length - trailerBytes = b.trailerAt := by
    rw [hlen]
    exact Nat.add_sub_cancel _ _
  have htab : (ofNat b.fileTableAt).toNat = b.fileTableAt :=
    toNat_ofNat_usize (by omega)
  have hsec : (UInt32.ofNat b.sections.length).toNat = b.sections.length :=
    toNat_ofNat_u32 (b.length_sorted ▸ b.length_sorted_le)
  have hflc : (UInt32.ofNat (b.files.length + 1)).toNat = b.files.length + 1 :=
    toNat_ofNat_u32 hfil
  have hpar : parseHeader crc32c (image crc32c b) = .ok (manifest crc32c b).header := by
    refine parseHeader_of_fields (by rw [hlen]; exact Nat.add_le_add_right (by omega) _) hfit
      (hhdr (0, manifestMagic) ?_) (hhdr (10, u16Bytes _) ?_) (hhdr (12, u16Bytes _) ?_)
      (hhdr (14, u32Bytes _) ?_) (hhdr (18, u16Bytes _) ?_) (hhdr (20, u16Bytes _) ?_)
      (hhdr (22, u32Bytes _) ?_) (hhdr (26, u64Bytes _) ?_) (hhdr (34, u32Bytes _) ?_)
      (hhdr (38, u32Bytes _) ?_) (hhdr (42, u64Bytes _) ?_) (hhdr (50, u64Bytes _) ?_)
      ?_ (hhdr (62, u16Bytes 0) ?_) rfl hrdr b.generation_ne_zero
    rotate_left 12
    · rw [slice_image_header]
      exact hcl (58, u32Bytes _) (.head _)
    all_goals simp [headerWrites, manifest]
  have hsct : checkedTable (image crc32c b).length (ofNat headerBytes)
      (UInt32.ofNat b.sections.length) sectionEntryBytes "section table"
      = .ok ⟨headerBytes, b.fileTableAt⟩ := by
    unfold checkedTable
    rw [hsec, toNat_ofNat_usize (by decide), checkedProduct_of_le, okOr_some, ok_bind,
      checkedSum_of_le, okOr_some, ok_bind, refuse_of_not, ok_bind]
    · rfl
    · rw [hlen]
      exact not_lt.mpr (le_trans hfll (le_trans hpay htr))
    · exact le_trans (le_trans hfll (le_trans hpay htr)) hsiz
    · exact le_trans (Nat.le_add_left _ _) (le_trans (le_trans hfll (le_trans hpay htr)) hsiz)
  have hflt : checkedTable (image crc32c b).length (ofNat b.fileTableAt)
      (UInt32.ofNat (b.files.length + 1)) fileEntryBytes "file table"
      = .ok ⟨b.fileTableAt, b.payloadsAt⟩ := by
    unfold checkedTable
    rw [hflc, htab, checkedProduct_of_le, okOr_some, ok_bind,
      checkedSum_of_le, okOr_some, ok_bind, refuse_of_not, ok_bind]
    · rfl
    · rw [hlen]
      exact not_lt.mpr (le_trans hpay htr)
    · exact le_trans (le_trans hpay htr) hsiz
    · exact le_trans (Nat.le_add_left _ _) (le_trans (le_trans hpay htr) hsiz)
  have htrl : checkTrailer (image crc32c b) b.trailerAt = .ok () := by
    have hmag : range? (image crc32c b) b.trailerAt (b.trailerAt + 8) = some trailerMagic :=
      range?_of_slice (hcl (b.trailerAt, trailerMagic) (.tail _ (.head _))) rfl (by decide)
    have hres : u32At (image crc32c b) (b.trailerAt + 12) "trailer reserved" = .ok 0 :=
      u32At_of_slice (hcl (b.trailerAt + 12, u32Bytes 0)
        (.tail _ (.tail _ (.tail _ (.head _))))) hfit
    unfold checkTrailer
    rw [hmag, refuse_of_not (not_not_intro rfl), ok_bind, hres, ok_bind,
      refuse_of_not (not_not_intro rfl)]
  have hsect : parseSections crc32c (image crc32c b) ⟨headerBytes, b.fileTableAt⟩
      ⟨b.fileTableAt, b.payloadsAt⟩ b.trailerAt b.sections.length 0 none
      = .ok (entries crc32c b.payloadsAt b.sorted) := by
    rw [← b.length_sorted]
    refine parseSections_of_holds hfit rfl ⟨hfll, le_rfl⟩ (le_trans hhea hfll) ?_
      (by omega) b.sorted_ordered (fun k hk => (by cases hk))
      (hwr.left.left.right.append hhol.right)
    rw [payloadTotal_sorted]
    rfl
  have hfls : parseFiles (image crc32c b) ⟨b.fileTableAt, b.payloadsAt⟩
      (b.files.length + 1) 0 = .ok (b.fileTable b.totalBytes) := by
    refine parseFiles_of_holds (l := b.fileTable b.totalBytes) hfit
      (by rw [zero_add]; exact hfil) ?_ ?_ hwr.left.right
    · intro p hp
      rw [fileTable, zipIdx_cons] at hp
      rcases mem_cons.mp hp with rfl | hp
      · rfl
      · rw [zipIdx_succ, mem_map] at hp
        obtain ⟨⟨f, k⟩, hk, rfl⟩ := hp
        exact b.files_numbered (f, k) hk
    · intro f hf
      rcases mem_cons.mp hf with rfl | hf
      · exact (by decide : manifestKind ≤ provenanceKind)
      · exact (b.files_external f hf).2
  have hsel : checkSelf (image crc32c b) (b.fileTable b.totalBytes) = .ok () := by
    have hfin : (b.fileTable b.totalBytes).find? (fun entry => entry.fileKind = manifestKind)
        = some ⟨0, 0, ofNat b.totalBytes, manifestKind⟩ :=
      List.find?_cons_of_pos (decide_eq_true rfl)
    rw [checkSelf, hfin]
    refine refuse_of_not (not_not_intro ?_)
    rw [hlen]
  unfold Manifest.parse
  rw [hpar, ok_bind]
  dsimp only [manifest]
  rw [hsct, ok_bind, hflt, ok_bind, refuse_of_not, ok_bind, hlnt, htrl,
    ok_bind, hsec, hsect, ok_bind, hflc, hfls, ok_bind, hsel, ok_bind]
  · rfl
  · rintro (hlt | hlt)
    · exact absurd hlt (lt_irrefl _)
    · exact absurd hlt (not_lt.mpr hhea)

/-! ## The round trip -/

/-- The section that an entry of the section table describes. -/
def described (bytes : List UInt8) (entry : SectionEntry) : BuilderSection :=
  ⟨entry.kind, entry.entryFlags, slice bytes entry.offset.toNat entry.length.toNat⟩

/-- **A manifest has what the builder had**: the flags, the generation and the
reader; the sections in the order of their kinds, each found by its kind;
and the files, after the manifest itself. -/
structure RoundTrips (b : ManifestBuilder) (bytes : List UInt8) (m : Manifest) : Prop where
  flags : m.header.flags = b.flags
  generation : m.header.generation = b.generation
  minReader : (m.header.minReaderMajor, m.header.minReaderMinor) = b.minReader
  sections : (m.sections.map (described bytes)).Perm b.sections
  ordered : m.sections.Pairwise fun s t => s.kind < t.kind
  section_added : ∀ s ∈ b.sections, m.section s.kind = some s.payload
  section_other : ∀ kind ∉ b.sections.map BuilderSection.kind, m.section kind = none
  files : m.files = ⟨0, 0, ofNat bytes.length, manifestKind⟩ :: b.files

/-- Entries describe the sections, as their payloads are where the entries say. -/
theorem described_entries (crc32c : List UInt8 → UInt32) {bytes : List UInt8} {payloadAt : ℕ}
    (hfit : payloadAt + payloadTotal l ≤ usizeMax)
    (h : HasWrites bytes (payloadWrites payloadAt l)) :
    (entries crc32c payloadAt l).map (described bytes) = l ∧ ∀ e ∈ entries crc32c payloadAt l,
        e.offset.toNat + e.length.toNat ≤ payloadAt + payloadTotal l := by
  induction l generalizing payloadAt with
  | nil => exact ⟨rfl, fun e he => absurd he not_mem_nil⟩
  | cons s l ih =>
    have htot : payloadAt + payloadTotal (s :: l)
        = payloadAt + s.payload.length + payloadTotal l := by
      rw [payloadTotal, map_cons, sum_cons, ← add_assoc]
      rfl
    rw [htot] at hfit ⊢
    obtain ⟨hmap, hins⟩ := ih hfit fun w hw => h w (mem_cons_of_mem _ hw)
    have hpl : (ofNat payloadAt).toNat = payloadAt := toNat_ofNat_usize (by omega)
    have hlen : (ofNat s.payload.length).toNat = s.payload.length :=
      toNat_ofNat_usize (by omega)
    refine ⟨?_, fun e he => ?_⟩
    · rw [entries, map_cons, hmap, described, hpl, hlen, h (payloadAt, s.payload) mem_cons_self]
    · rcases mem_cons.mp he with rfl | he
      · show (ofNat payloadAt).toNat + (ofNat s.payload.length).toNat ≤ _
        rw [hpl, hlen]
        exact le_add_right _ _
      · exact hins e he

/-- **The manifest has what the builder has.** -/
theorem roundTrips_manifest (crc32c : List UInt8 → UInt32) (hsiz : b.totalBytes ≤ usizeMax) :
    RoundTrips b (image crc32c b) (manifest crc32c b) := by
  have hlen := length_image crc32c b
  have hfit : b.payloadsAt + payloadTotal b.sorted ≤ (image crc32c b).length := by
    rw [payloadTotal_sorted, hlen]
    exact le_add_right _ _
  have hpay : HasWrites (image crc32c b) (payloadWrites b.payloadsAt b.sorted) := by
    have hhol := holds_image crc32c b
    refine (hhol.left.left.left.right.append hhol.right).subset fun w hw => ?_
    exact (sectionWrites_perm crc32c 0 b.payloadsAt b.sorted).mem_iff.mpr (mem_append_right _ hw)
  obtain ⟨hmap, hins⟩ :=
    described_entries crc32c (le_trans hfit (hlen ▸ hsiz)) hpay
  -- a section is found by its kind among the entries as it is in the builder
  have hfin : ∀ k, ((entries crc32c b.payloadsAt b.sorted).find? fun e => e.kind = k).map
      (described (image crc32c b)) = b.sorted.find? fun s => s.kind = k := by
    intro k
    conv_rhs => rw [← hmap]
    rw [List.find?_map]
    rfl
  refine ⟨rfl, rfl, rfl, ?_, ?_, fun s hs => ?_, fun k hk => ?_, ?_⟩
  · show ((entries crc32c b.payloadsAt b.sorted).map _).Perm _
    rw [hmap]
    exact b.sorted_perm
  · have h := b.sorted_ordered
    rwa [← hmap, pairwise_map] at h
  · have hsor : (b.sorted.find? fun t => t.kind = s.kind) = some s := by
      have hmem := b.sorted_perm.mem_iff.mpr hs
      cases ht : b.sorted.find? fun t => t.kind = s.kind with
      | none =>
        have hnon := List.find?_eq_none.mp ht s hmem
        exact absurd (decide_eq_true rfl) hnon
      | some t =>
        have hkin : t.kind = s.kind := by simpa using List.find?_some ht
        have hinj := inj_on_of_nodup_map b.kinds_nodup
        rw [hinj (b.sorted_perm.mem_iff.mp (List.mem_of_find?_eq_some ht)) hs hkin]
    obtain ⟨e, he, hdes⟩ := Option.map_eq_some_iff.mp ((hfin s.kind).trans hsor)
    have hle := le_trans (hins e (List.mem_of_find?_eq_some he)) hfit
    have hpyl : slice (image crc32c b) e.offset.toNat e.length.toNat = s.payload :=
      congrArg BuilderSection.payload hdes
    have hsum : checkedSum e.offset.toNat e.length.toNat = some (e.offset.toNat + e.length.toNat) :=
      checkedSum_of_le (le_trans hle (hlen ▸ hsiz))
    unfold Manifest.section
    rw [show (manifest crc32c b).sections.find? _ = some e from he, Option.bind_eq_bind,
      Option.bind_some, hsum, Option.bind_eq_bind, Option.bind_some,
      show (manifest crc32c b).bytes = image crc32c b from rfl,
      range?_of_le (le_add_right _ _) hle, Nat.add_sub_cancel_left, hpyl]
  · have hnon : (b.sorted.find? fun t => t.kind = k) = none := by
      refine List.find?_eq_none.mpr fun t ht hkin => hk ?_
      rw [← of_decide_eq_true hkin]
      exact mem_map_of_mem (b.sorted_perm.mem_iff.mp ht)
    have he := Option.map_eq_none_iff.mp ((hfin k).trans hnon)
    unfold Manifest.section
    rw [show (manifest crc32c b).sections.find? _ = none from he]
    rfl
  · rw [hlen]
    rfl

/-! ## Sequences of calls -/

/-- A call that adds a section. -/
def Call.isSection : Call → Bool
  | .addSection .. => true
  | _ => false

/-- **The same calls but for the order of the sections**: those that add a
section are permuted, and the others come in the same order. -/
structure SameSections (calls calls' : List Call) : Prop where
  sections : (calls.filter Call.isSection).Perm (calls'.filter Call.isSection)
  others : calls.filter (fun c => !c.isSection) = calls'.filter fun c => !c.isSection

/-- The section that a call adds. -/
def Call.section? : Call → Option BuilderSection
  | .addSection kind entryFlags payload => some ⟨kind, entryFlags, payload⟩
  | _ => none

/-- What is not about sections. -/
structure Frame where
  flags : UInt32
  generation : UInt64
  minReader : UInt16 × UInt16
  files : List FileEntry

/-- What a builder has besides its sections. -/
def frame (b : ManifestBuilder) : Frame := ⟨b.flags, b.generation, b.minReader, b.files⟩

/-- What a call makes of this. -/
def Frame.call (f : Frame) : Call → Frame
  | .flags flags => { f with flags }
  | .minReader major minor => { f with minReader := (major, minor) }
  | .addSection .. => f
  | .addFile nameId fileBytes fileKind =>
    { f with files := f.files ++
        [⟨UInt32.ofNat (f.files.length + 1), nameId, fileBytes, fileKind⟩] }

variable {b' : ManifestBuilder}

theorem addSection_eq_ok {kind entryFlags : UInt16} {payload : List UInt8}
    (h : b.addSection kind entryFlags payload = .ok b') :
    b'.sections = b.sections ++ [⟨kind, entryFlags, payload⟩] ∧ b'.frame = b.frame := by
  unfold addSection at h
  split_ifs at h
  cases h
  exact ⟨rfl, rfl⟩

theorem addFile_eq_ok {nameId fileKind id : UInt32} {fileBytes : UInt64}
    (h : b.addFile nameId fileBytes fileKind = .ok (id, b')) : b'.sections = b.sections ∧
      b'.frame = b.frame.call (.addFile nameId fileBytes fileKind) := by
  unfold addFile at h
  split_ifs at h
  obtain rfl := congrArg Prod.snd (Except.ok.inj h)
  exact ⟨rfl, rfl⟩

/-- **What one call does**: it adds its section, if it has one, or changes the rest. -/
theorem call_eq_ok {c : Call} (h : b.call c = .ok b') :
    b'.sections = b.sections ++ c.section?.toList ∧ b'.frame = b.frame.call c := by
  cases c with
  | flags =>
    obtain rfl := Except.ok.inj h
    exact ⟨(List.append_nil _).symm, rfl⟩
  | minReader =>
    obtain rfl := Except.ok.inj h
    exact ⟨(List.append_nil _).symm, rfl⟩
  | addSection =>
    obtain ⟨hsec, hfr⟩ := addSection_eq_ok h
    exact ⟨hsec, hfr⟩
  | addFile =>
    obtain ⟨⟨id, b₁⟩, hfil, rfl⟩ := map_eq_ok h
    obtain ⟨hsec, hfr⟩ := addFile_eq_ok hfil
    exact ⟨hsec.trans (List.append_nil _).symm, hfr⟩

variable {calls : List Call}

/-- What several calls do. -/
theorem calls_eq_ok (h : calls.foldlM call b = .ok b') :
    b'.sections = b.sections ++ (calls.filter Call.isSection).filterMap Call.section? ∧
      b'.frame = (calls.filter fun c => !c.isSection).foldl Frame.call b.frame := by
  induction calls generalizing b with
  | nil =>
    obtain rfl := Except.ok.inj h
    exact ⟨(List.append_nil _).symm, rfl⟩
  | cons c calls ih =>
    rw [foldlM_cons] at h
    obtain ⟨b₁, hc, h⟩ := bind_eq_ok.mp h
    obtain ⟨hsec, hfr⟩ := call_eq_ok hc
    obtain ⟨hsec', hfr'⟩ := ih h
    rw [hsec', hfr', hsec, hfr, append_assoc]
    cases c <;> exact ⟨rfl, rfl⟩

/-- Sections in another order make the same manifest. -/
theorem encode_of_perm (hsec : b.sections.Perm b'.sections)
    (hfr : b.frame = b'.frame) : encode crc32c b = encode crc32c b' := by
  have hsor : b.sorted = b'.sorted := by
    refine sortBy_perm (fun s hs t ht hst => ?_) hsec
    refine inj_on_of_nodup_map b.kinds_nodup hs ht (UInt16.toNat_inj.mp ?_)
    exact (List.cons.inj hst).1
  have hlen := hsec.length_eq
  obtain ⟨flags, generation, minReader, sections, files, _, _, _, _⟩ := b
  obtain ⟨flags', generation', minReader', sections', files', _, _, _, _⟩ := b'
  obtain ⟨rfl, rfl, rfl, rfl⟩ := Frame.mk.inj hfr
  unfold encode headerWrites fileWrites fileTable
  rw [hsor]
  simp only at hlen ⊢
  rw [hlen]

/-- **Adding the same sections in another order gives the same bytes.** -/
theorem encode_of_sameSections {generation : UInt64} {calls' : List Call}
    (h : build generation calls = .ok b) (h' : build generation calls' = .ok b')
    (hsam : SameSections calls calls') : encode crc32c b = encode crc32c b' := by
  obtain ⟨b₀, hnew, h⟩ := bind_eq_ok.mp h
  obtain ⟨b₀', hnew', h'⟩ := bind_eq_ok.mp h'
  obtain rfl : b₀ = b₀' := Except.ok.inj (hnew.symm.trans hnew')
  obtain ⟨hsec, hfr⟩ := calls_eq_ok h
  obtain ⟨hsec', hfr'⟩ := calls_eq_ok h'
  refine encode_of_perm ?_ ?_
  · rw [hsec, hsec']
    exact (hsam.sections.filterMap _).append_left _
  · rw [hfr, hfr', hsam.others]

/-- No call asks for more than reader 1.0, so neither does the builder. -/
theorem supported_of_calls (h : calls.foldlM call b = .ok b') (hcal : ∀ c ∈ calls, c.Supported)
    (hb : b.Supported) :
    b'.Supported := by
  induction calls generalizing b with
  | nil => exact Except.ok.inj h ▸ hb
  | cons c calls ih =>
    rw [foldlM_cons] at h
    obtain ⟨b₁, hc, h⟩ := bind_eq_ok.mp h
    refine ih h (fun c' hc' => hcal c' (mem_cons_of_mem _ hc')) ?_
    have hrdr : b₁.minReader = (b.frame.call c).minReader :=
      congrArg Frame.minReader (call_eq_ok hc).2
    have hsup := hcal c mem_cons_self
    unfold Supported at hb ⊢
    rw [hrdr]
    cases c with
    | minReader => exact hsup
    | flags | addSection | addFile => exact hb

theorem supported_of_build {generation : UInt64} (h : build generation calls = .ok b)
    (hcal : ∀ c ∈ calls, c.Supported) :
    b.Supported := by
  obtain ⟨b₀, hnew, h⟩ := bind_eq_ok.mp h
  refine supported_of_calls h hcal ?_
  unfold new at hnew
  split_ifs at hnew
  cases hnew
  exact (by decide : ¬ (formatMajor > formatMajor ∨
    (formatMajor = formatMajor ∧ formatMinor > formatMinor)))

/-- **A builder is encoded, and its manifest has all that the builder has** –
the same bytes, in whatever order the sections were added – exactly if the
manifest itself can still be counted among the files. -/
theorem roundTrips_iff {generation : UInt64} {calls : List Call}
    (h : build generation calls = .ok b) (hcalls : ∀ c ∈ calls, c.Supported)
    (hsize : b.totalBytes < usizeMax) :
    ((∃ bytes m, encode crc32c b = .ok bytes ∧ Manifest.parse crc32c bytes = .ok m ∧
        RoundTrips b bytes m) ∧
      ∀ calls' b', SameSections calls calls' → build generation calls' = .ok b' →
        encode crc32c b' = encode crc32c b) ↔ b.files.length < u32Max := by
  constructor
  · rintro ⟨⟨bytes, m, hbytes, -, -⟩, -⟩
    by_contra hfil
    rw [encode_of_too_many (Nat.lt_succ_of_le (not_lt.mp hfil))] at hbytes
    cases hbytes
  · intro hfil
    have hpar := parse_image crc32c (le_of_lt hsize) hfil (supported_of_build h hcalls)
    refine ⟨⟨image crc32c b, manifest crc32c b, ?_, hpar,
      roundTrips_manifest crc32c (le_of_lt hsize)⟩, fun calls' b' hsam h' => ?_⟩
    · rw [encode_eq (le_of_lt hsize) hfil, hpar]
      rfl
    · exact (encode_of_sameSections h h' hsam).symm

/-- Two sections, the second of which comes first, and a file. -/
def twoSections : List Call :=
  [.addSection 7 0 [1, 2, 3, 4, 5, 6], .minReader 1 0, .addSection 1 0 [], .addFile 1 4096 1]

/-- The builder of two sections is encoded. -/
theorem roundTrips_iff_twoSections : ∃ b : ManifestBuilder, build 1 twoSections = .ok b ∧
      (((∃ bytes m, encode Logan.crc32c b = .ok bytes ∧
          Manifest.parse Logan.crc32c bytes = .ok m ∧ RoundTrips b bytes m) ∧
        ∀ calls' b', SameSections twoSections calls' → build 1 calls' = .ok b' →
          encode Logan.crc32c b' = encode Logan.crc32c b) ↔ b.files.length < u32Max) := by
  refine ⟨⟨0, 1, (1, 0), [⟨7, 0, [1, 2, 3, 4, 5, 6]⟩, ⟨1, 0, []⟩], [⟨1, 1, 4096, 1⟩], by decide,
    by decide, by decide, by decide⟩, rfl, roundTrips_iff (rfl : build 1 twoSections = _) ?_ ?_⟩
  · intro c hc
    simp only [twoSections, mem_cons, not_mem_nil, or_false] at hc
    rcases hc with rfl | rfl | rfl | rfl
    · exact trivial
    · exact (by decide : ¬ ((1 : UInt16) > formatMajor ∨
        ((1 : UInt16) = formatMajor ∧ (0 : UInt16) > formatMinor)))
    · exact trivial
    · exact trivial
  · exact (by decide : 64 + 2 * 32 + (1 + 1) * 24 + (6 + 0) + 16 < usizeMax)

/-! ## Too many files -/

/-- Files can be added as long as their number is a `u32`. -/
theorem exists_build_files {b : ManifestBuilder} (n : ℕ) (hn : b.files.length + n ≤ u32Max) :
    ∃ b', (List.replicate n (Call.addFile 1 4096 1)).foldlM call b = .ok b' ∧
      b'.files.length = b.files.length + n ∧ b'.sections = b.sections := by
  induction n generalizing b with
  | zero => exact ⟨b, rfl, rfl, rfl⟩
  | succ n ih =>
    have hkin : ¬ ((1 : UInt32) = manifestKind ∨ (1 : UInt32) > provenanceKind) := by decide
    have hadd : ∃ b₁, b.addFile 1 4096 1 = .ok (UInt32.ofNat (b.files.length + 1), b₁) := by
      unfold addFile
      rw [dif_neg hkin, dif_neg (by omega)]
      exact ⟨_, rfl⟩
    obtain ⟨b₁, hb₁⟩ := hadd
    obtain ⟨hsec, hfr⟩ := addFile_eq_ok hb₁
    have hlen : b₁.files.length = b.files.length + 1 := by
      rw [show b₁.files = (b.frame.call (.addFile 1 4096 1)).files from congrArg Frame.files hfr]
      exact length_append
    obtain ⟨b', hb', hlen', hsec'⟩ := ih (b := b₁) (by rw [hlen]; omega)
    refine ⟨b', ?_, by rw [hlen', hlen]; omega, hsec'.trans hsec⟩
    rw [replicate_succ, foldlM_cons]
    show (Prod.snd <$> b.addFile 1 4096 1 >>= fun b => _) = _
    rwa [hb₁]

/-- A builder can be filled up with files so that it is not encoded, although
the manifest would not be too large. -/
theorem not_forall_encode : ¬ ∃ crc32c : List UInt8 → UInt32, ∀ generation calls b,
    build generation calls = .ok b → (∀ c ∈ calls, c.Supported) → b.totalBytes < usizeMax →
      ∃ bytes, encode crc32c b = .ok bytes := by
  rintro ⟨crc32c, h⟩
  obtain ⟨b₀, hnew, hfil, hsec⟩ :
      ∃ b₀, new 1 = .ok b₀ ∧ b₀.files.length = 0 ∧ b₀.sections = [] := ⟨_, rfl, rfl, rfl⟩
  obtain ⟨n, hn⟩ : ∃ n, n = u32Max := ⟨_, rfl⟩
  obtain ⟨b, hb, hlen, hb'⟩ := exists_build_files (b := b₀) n (by rw [hfil, hn, zero_add])
  have hbld : build 1 (List.replicate n (Call.addFile 1 4096 1)) = .ok b := by
    unfold build
    rwa [hnew]
  have htot : b.totalBytes < usizeMax := by
    show headerBytes + b.sections.length * sectionEntryBytes +
      (b.files.length + 1) * fileEntryBytes + (b.sections.map fun s => s.payload.length).sum +
      trailerBytes < usizeMax
    rw [hb', hsec, hlen, hfil, hn]
    decide
  obtain ⟨bytes, hbytes⟩ := h 1 _ b hbld (fun c hc => by
    rw [eq_of_mem_replicate hc]
    exact trivial) htot
  rw [encode_of_too_many (by rw [hlen, hfil, hn]; omega)] at hbytes
  cases hbytes

end ManifestBuilder

end Artifact

end Logan
