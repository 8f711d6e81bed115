import Logan.Prefix.Disk
import Logan.Prefix.ContainerCodec

/-!
# What a cache file can make the process request

The readers of cache files take lengths from the files. Most of them are
looked at before anything is allocated: bytes are taken from what is there,
and only then copied. Four are not. The page table and the pages of a
sparse state, and the tokens and the snapshot of a container, are given
room as the file announces them, before the file turns out to be shorter.

So the readers are harmless on a file if and only if it does not announce
more than a vector can hold, or than its size allows – and this only as far
as they come to read the announcement. The sections of a snapshot are the
exception that is not one: their number is that of bytes that are there, but
a section has 24 bytes in memory and 17 in the file.
-/

namespace Logan

open List Metered SsdPrefixStore Reader StateSnapshot

open ByteCursor

/-- Room for `k` bytes can be requested: a vector can have them, and they are
below the bound. -/
def Grantable (n k : ℕ) : Prop := k ≤ isizeMax ∧ k ≤ n

/-! ## Causal states -/

section CausalState

variable {bytes : Vec 1 UInt8} {n : ℕ}

theorem frugal_appendOnly (h : bytes.toList.length ≤ n) :
    Frugal n (readAppendOnly : Reader (ByteCursor bytes) String _) :=
  frugal_usize.bind fun _ => frugal_usize.bind fun _ => frugal_usize.bind fun _ =>
    (frugal_f32Vec h).bind fun _ => (frugal_f32Vec h).bind fun _ => Frugal.pure _

theorem frugal_ring (h : bytes.toList.length ≤ n) :
    Frugal n (readRing : Reader (ByteCursor bytes) String _) :=
  frugal_usize.bind fun _ => frugal_usize.bind fun _ => frugal_usize.bind fun _ =>
    frugal_usize.bind fun _ => (frugal_f32Vec h).bind fun _ => Frugal.pure _

theorem frugal_mutableFixed (h : bytes.toList.length ≤ n) :
    Frugal n (readMutableFixed : Reader (ByteCursor bytes) String _) :=
  frugal_usize.bind fun _ => frugal_usize.bind fun _ => (frugal_flag _).bind fun _ =>
    (frugal_f32Vec h).bind fun _ => Frugal.pure _

theorem frugal_pageEntry : Frugal n (readPageEntry : Reader (ByteCursor bytes) String _) := by
  refine frugal_u8.bind fun tag => ?_
  split
  · exact Frugal.pure _
  · split
    · exact frugal_u64.bind fun _ => Frugal.pure _
    · exact Frugal.fail _

theorem frugal_collect {A : Type} {size k : ℕ} {l : List A} (hfit : size * l.length ≤ k)
    (hk : k ≤ bytes.toList.length) (h : bytes.toList.length ≤ n) :
    Frugal (S := ByteCursor bytes) n (lift (collect size l : Metered String (Vec size A))) := by
  have hbytes := length_lt_usize bytes
  exact Frugal.lift (harmless_collect (by omega) (by omega))

theorem frugal_opaque (h : bytes.toList.length ≤ n) :
    Frugal n (readOpaque : Reader (ByteCursor bytes) String _) := by
  refine frugal_usize.bind fun len => frugal_takeOr_bind fun raw hlen hle => ?_
  exact (frugal_collect (by rw [one_mul, hlen]) hle h).bind fun _ => Frugal.pure _

/-- **A sparse state announces** no more pages, and entries of the page table,
than there can be room for. The pages are only come to behind a page table
that is there as announced. -/
def SparseGranted (n : ℕ) (w : List UInt8) : Prop :=
  ∀ pageEntries maxPages pinned tableLen w',
    w = u64Bytes pageEntries ++ (u64Bytes maxPages ++ ([flagByte pinned] ++
      (u64Bytes tableLen ++ w'))) →
    Grantable n (16 * tableLen.toNat) ∧
    ∀ (table : List (Option UInt64)) pageCount w'', table.length = tableLen.toNat →
      w' = table.flatMap pageEntryBytes ++ (u64Bytes pageCount ++ w'') →
      Grantable n (24 * pageCount.toNat)

/-- **A sparse state is read without harm** just if it announces no more than
there can be room for. -/
theorem harmless_sparsePaged (h : bytes.toList.length ≤ n) (c : ByteCursor bytes) :
    (readSparsePaged c).Harmless n ↔ SparseGranted n (rest c) := by
  unfold readSparsePaged SparseGranted
  simp only [frugal_usize.harmless_bind_reads reads_usize,
    (frugal_flag _).harmless_bind_reads (reads_flag _)]
  constructor
  · intro hrd pageEntries maxPages pinned tableLen w' hw
    obtain ⟨c₁, h₁⟩ := Source.advance c _ _ hw
    obtain ⟨c₂, h₂⟩ := Source.advance c₁ _ _ h₁
    obtain ⟨c₃, h₃⟩ := Source.advance c₂ _ _ h₂
    obtain ⟨c₄, h₄⟩ := Source.advance c₃ _ _ h₃
    have hlat := hrd pageEntries _ c₁ rfl (by rw [hw, h₁]) maxPages _ c₂ rfl (by rw [h₁, h₂])
      pinned _ c₃ rfl (by rw [h₂, h₃]) tableLen _ c₄ rfl (by rw [h₃, h₄])
    rw [harmless_bind_reader] at hlat
    have htab := (Frugal.harmless_vec frugal_pageEntry).mp hlat.1
    refine ⟨htab, fun table pageCount w'' hlen hw' => ?_⟩
    obtain ⟨c₅, h₅⟩ := Source.advance c₄ _ _ (h₄.trans hw')
    obtain ⟨c₆, h₆⟩ := Source.advance c₅ _ _ h₅
    have hfit : 16 * table.length ≤ isizeMax := hlen ▸ htab.1
    have hres := hlat.2 ⟨table, hfit⟩ c₅
      ((Reads.vec reads_pageEntry _ _ _ _).mpr ⟨_, ⟨hlen, rfl⟩, by rw [h₄, hw', h₅]⟩)
    rw [frugal_usize.harmless_bind_reads reads_usize] at hres
    have hpag := hres pageCount _ c₆ rfl (by rw [h₅, h₆])
    exact (Frugal.harmless_vec (frugal_f32Vec h)).mp (harmless_bind_reader.mp hpag).1
  · intro hgr pageEntries _ c₁ hw₁ h₁ maxPages _ c₂ hw₂ h₂ pinned _ c₃ hw₃ h₃ tableLen _ c₄ hw₄ h₄
    subst hw₁ hw₂ hw₃ hw₄
    obtain ⟨htab, hpag⟩ := hgr pageEntries maxPages pinned tableLen (rest c₄)
      (by rw [h₁, h₂, h₃, h₄])
    rw [harmless_bind_reader]
    refine ⟨(Frugal.harmless_vec frugal_pageEntry).mpr htab, fun table c₅ h₅ => ?_⟩
    obtain ⟨_, ⟨hlen, rfl⟩, h₅⟩ := (Reads.vec reads_pageEntry _ _ _ _).mp h₅
    rw [frugal_usize.harmless_bind_reads reads_usize]
    intro pageCount _ c₆ hw₆ h₆
    subst hw₆
    rw [harmless_bind_reader]
    refine ⟨(Frugal.harmless_vec (frugal_f32Vec h)).mpr ?_, fun _ _ _ => harmless_pure _⟩
    exact hpag table.toList pageCount (rest c₆) hlen (by rw [h₅, h₆])

/-- **A causal state announces** no more than there can be room for. -/
def StateGranted (n : ℕ) (b : Vec 1 UInt8) : Prop :=
  ∀ w, b.toList = statePayloadMagic ++ (3 :: w) → SparseGranted n w

/-- **A causal state is decoded without harm** just if it announces no more
than there can be room for. -/
theorem harmless_decodeCausalState (h : bytes.toList.length ≤ n) :
    (decodeCausalState bytes).Harmless n ↔ StateGranted n bytes := by
  unfold decodeCausalState readCausalState StateGranted
  rw [harmless_complete, (frugal_take 4).harmless_bind_reads (reads_take 4)]
  constructor
  · intro hrd w hw
    obtain ⟨c₁, h₁⟩ := Source.advance (start bytes) _ _ hw
    obtain ⟨c₂, h₂⟩ := Source.advance c₁ [3] w h₁
    have hlat := hrd statePayloadMagic _ c₁ ⟨rfl, rfl⟩ (by rw [h₁]; exact hw)
    rw [if_neg (not_not.mpr rfl), frugal_u8.harmless_bind_reads reads_u8] at hlat
    have hsp := (harmless_sparsePaged h c₂).mp (hlat 3 _ c₂ rfl (by rw [h₁, h₂]; rfl))
    rwa [h₂] at hsp
  · rintro hgr magic _ c₁ ⟨-, hw₁⟩ h₁
    subst hw₁
    split
    · exact harmless_fail _
    · rename_i hmag
      rw [not_not] at hmag
      rw [frugal_u8.harmless_bind_reads reads_u8]
      intro tag _ c₂ hw₂ h₂
      subst hw₂ hmag
      unfold readKind
      split_ifs with h0 h1' h2' h3 h4
      · exact frugal_appendOnly h c₂
      · exact frugal_ring h c₂
      · exact frugal_mutableFixed h c₂
      · rw [harmless_sparsePaged h]
        refine hgr (rest c₂) ?_
        rw [← rest_start, h₁, h₂, h3]
        rfl
      · exact frugal_opaque h c₂
      · exact Frugal.fail _ c₂

end CausalState

/-! ## Snapshots -/

section Snapshot

variable {bytes : Vec 1 UInt8} {n : ℕ}

theorem harmless_toEngine {raw : List UInt8} (hfit : raw.length ≤ isizeMax)
    (hn : raw.length ≤ n) : (toEngine raw).Harmless n := by
  unfold toEngine
  cases fromUtf8 raw with
  | none => exact harmless_fail _
  | some =>
    exact harmless_bind.mpr ⟨harmless_reserve.mpr ⟨hfit, hn⟩, fun _ _ => harmless_pure _⟩

theorem frugal_fields (h : bytes.toList.length ≤ n) :
    Frugal n (readFields : Reader (ByteCursor bytes) String _) := by
  have hbytes := length_lt_usize bytes
  refine frugal_u32.bind fun len => frugal_takeOr_bind fun raw hlen hle => ?_
  refine (Frugal.lift (harmless_toEngine (by omega) (by omega))).bind fun _ => ?_
  refine frugal_u32.bind fun _ => frugal_u32.bind fun _ => frugal_usize.bind fun _ =>
    frugal_u64.bind fun _ => frugal_u64.bind fun _ => frugal_u8.bind fun _ =>
    frugal_usize.bind fun len' => frugal_takeOr_bind fun raw' hlen' hle' => ?_
  exact (frugal_collect (by rw [one_mul, hlen']) hle' h).bind fun _ =>
    frugal_arrayOr.bind fun _ => Frugal.pure _

theorem frugal_snapshotFields (h : bytes.toList.length ≤ n) :
    Frugal n (readSnapshotFields : Reader (ByteCursor bytes) String _) :=
  (frugal_take 8).bind fun _ => Frugal.guard
    (frugal_u32.bind fun _ => Frugal.guard (frugal_fields h))

theorem frugal_section : Frugal n (readSection : Reader (ByteCursor bytes) String _) := by
  refine frugal_u8.bind fun tag => (Frugal.lift ?_).bind fun _ => frugal_usize.bind fun _ =>
    frugal_usize.bind fun _ => Frugal.pure _
  unfold toSectionKind
  cases SectionKind.fromTag tag with
  | none => exact harmless_fail _
  | some => exact harmless_pure _

/-- **Sections are decoded without harm** just if there can be room for them.
The loop over them ends, as each takes 17 bytes. -/
theorem harmless_decodeSections (v : Vec 1 UInt8) : (decodeSections v).Harmless n ↔
      (v.toList.length % 17 = 0 → Grantable n (24 * (v.toList.length / 17))) := by
  unfold decodeSections
  by_cases hlen : v.toList.length % 17 ≠ 0
  · rw [if_pos hlen]
    exact iff_of_true (harmless_fail _) fun h => absurd h hlen
  · rw [if_neg hlen, harmless_bind]
    rw [not_not] at hlen
    have hcount : (rest (start v)).length = 17 * (v.toList.length / 17) := by
      rw [rest_start]
      omega
    have hfuel : v.toList.length / 17 < v.toList.length + 1 :=
      Nat.lt_succ_of_le (Nat.div_le_self _ _)
    rw [readSections_eq_times hfuel (start v) hcount]
    constructor
    · exact fun h _ => harmless_reserve.mp h.1
    · intro h
      refine ⟨harmless_reserve.mpr (h hlen), fun _ _ => ?_⟩
      refine harmless_bind.mpr ⟨Frugal.times frugal_section _ _, ?_⟩
      rintro ⟨l, c⟩ hl
      refine harmless_bind.mpr ⟨harmless_lift_ofList ?_, fun _ _ => harmless_pure _⟩
      rw [length_of_times hl]
      exact (h hlen).1

/-- **The sections of a snapshot** – if it has sections – are not more than a
vector can hold, with 24 bytes for each 17 in the file. -/
def SnapshotGranted (b : Vec 1 UInt8) : Prop :=
  ∀ f : SnapshotFields, (utf8 f.schemaId.engine).length < 2 ^ 32 → b.toList = f.encoded →
    f.payloadKind = 1 → f.payloadBytes.toList.length % 17 = 0 →
    24 * (f.payloadBytes.toList.length / 17) ≤ isizeMax

theorem length_payload_le (f : SnapshotFields) :
    f.payloadBytes.toList.length ≤ f.encoded.length := by
  simp only [SnapshotFields.encoded, encoded, length_append]
  omega

theorem harmless_validated (sha256 : List UInt8 → Bytes 32) (s : StateSnapshot) :
    (s.validated sha256).Harmless n := by
  unfold validated
  cases s.validate sha256 with
  | error => exact harmless_fail _
  | ok => exact harmless_pure _

/-- **A snapshot is read without harm** just if there can be room for its
sections. Twice the bytes of the file are enough for all that is requested. -/
theorem harmless_fromBytes (sha256 : List UInt8 → Bytes 32) (h : 2 * bytes.toList.length ≤ n) :
    (fromBytes sha256 bytes).Harmless n ↔ SnapshotGranted bytes := by
  have hle : bytes.toList.length ≤ n := by omega
  have hcpl : (readSnapshotFields.complete isDone "trailing bytes after state snapshot"
      (start bytes)).Harmless n := harmless_complete.mpr (frugal_snapshotFields hle _)
  unfold fromBytes
  rw [harmless_bind, and_iff_right hcpl]
  simp only [reads_snapshotFields.complete_eq_ok isDone_iff, rest_start]
  unfold SnapshotGranted decodePayload
  constructor
  · intro hrd f heng hbytes hkin hdvd
    have hdec := (harmless_bind.mp (hrd f ⟨heng, hbytes⟩)).1
    rw [hkin, if_neg (by decide), if_pos rfl, harmless_decodeSections] at hdec
    exact (hdec hdvd).1
  · rintro hgr f ⟨heng, hbytes⟩
    refine harmless_bind.mpr ⟨?_, fun p _ => harmless_bind.mpr
      ⟨harmless_validated sha256 _, fun _ _ => harmless_pure _⟩⟩
    split_ifs with h0 h1
    · exact harmless_pure _
    · rw [harmless_decodeSections]
      have hpay := length_payload_le f
      rw [← hbytes] at hpay
      exact fun hdvd => ⟨hgr f heng hbytes h1 hdvd, by omega⟩
    · exact harmless_fail _

end Snapshot

/-! ## Containers -/

section Container

variable {n : ℕ} (sha256 : List UInt8 → Bytes 32)

theorem frugal_exact {k : ℕ} (hk : k ≤ isizeMax) : Frugal n (readExact k) := by
  intro s
  unfold readExact
  split
  · refine harmless_bind.mpr ⟨harmless_lift_ofList ?_, fun _ _ => harmless_pure _⟩
    rw [one_mul, length_take]
    omega
  · exact harmless_fail _

theorem frugal_headerArray {bytes : Vec 1 UInt8} (k : ℕ) :
    Frugal n (headerArray k : Reader (ByteCursor bytes) String _) := frugal_arrayOr

theorem frugal_header {bytes : Vec 1 UInt8} :
    Frugal n (readHeader : Reader (ByteCursor bytes) String _) :=
  (frugal_headerArray _).bind fun _ => (frugal_u32From (frugal_headerArray _)).bind fun _ =>
    (frugal_u32From (frugal_headerArray _)).bind fun _ => (frugal_headerArray _).bind fun _ =>
    (frugal_headerArray _).bind fun _ => (frugal_headerArray _).bind fun _ =>
    (frugal_headerArray _).bind fun _ => (frugal_u64From (frugal_headerArray _)).bind fun _ =>
    (frugal_u64From (frugal_headerArray _)).bind fun _ =>
    (frugal_u64From (frugal_headerArray _)).bind fun _ =>
    (frugal_u32From (frugal_headerArray _)).bind fun _ =>
    (frugal_headerArray _).bind fun _ => Frugal.pure _

theorem harmless_headerFromBytes (b : Vec 1 UInt8) : (ContainerHeader.fromBytes b).Harmless n := by
  unfold ContainerHeader.fromBytes
  split
  · exact harmless_fail _
  · exact harmless_complete.mpr (frugal_header _)

/-- **A container announces** no longer snapshot than there can be room for;
and if the snapshot is there, with the right checksum, then it does no harm
itself. -/
def PayloadGranted (n : ℕ) (header : ContainerHeader) (tokenBytes w : List UInt8) : Prop :=
  Grantable n header.payloadSize.toNat ∧
  ∀ (v : Vec 1 UInt8) w', v.toList.length = header.payloadSize.toNat → w = v.toList ++ w' →
    containerChecksum sha256 tokenBytes v.toList = header.checksum → SnapshotGranted v

/-- **A container announces** no more tokens, and no longer snapshot, than
there can be room for. The number of tokens only matters if the header is
one of this format, and their bytes can be counted; the length of the
snapshot, if the tokens are there, with the right hash. -/
def ContainerGranted (n : ℕ) (file : List UInt8) : Prop :=
  ∀ (header : ContainerHeader) w, file = header.toBytes ++ w →
    header.magic.val = containerMagic → header.version = containerVersion →
    header.stateAbiVersion = stateAbiVersion → header.prefixLen.toNat * 4 ≤ usizeMax →
    Grantable n (header.prefixLen.toNat * 4) ∧
    ∀ (tokens : Vec 4 UInt32) w', tokens.toList.length = header.prefixLen.toNat →
      w = wordsBytes tokens.toList ++ w' →
      hashTokens sha256 tokens.toList = header.prefixTokenHash →
      PayloadGranted sha256 n header (wordsBytes tokens.toList) w'

/-- The snapshot in a container is read without harm just if it is announced
so. -/
theorem harmless_state {header : ContainerHeader} {key : PrefixKey}
    {tokenBytes s : List UInt8} (hs : 2 * s.length ≤ n) :
    (readState sha256 header key tokenBytes s).Harmless n ↔
      PayloadGranted sha256 n header tokenBytes s := by
  unfold readState PayloadGranted
  rw [harmless_bind_reader]
  constructor
  · rintro ⟨hres, hrd⟩
    have hrm := harmless_reserve.mp (harmless_bind.mp hres).1
    refine ⟨hrm, fun v w' hlen hw hsum => ?_⟩
    have hlat := hrd () s (lift_eq_ok.mpr ⟨reserve_eq_ok.mpr hrm.1, rfl⟩)
    rw [(frugal_exact hrm.1).harmless_bind_reads (reads_exact _)] at hlat
    have hstt := hlat v _ w' ⟨hlen, rfl⟩ hw
    rw [if_neg (not_not.mpr hsum), harmless_bind_reader] at hstt
    have hsn := harmless_mapError.mp (harmless_bind.mp hstt.1).1
    refine (harmless_fromBytes sha256 ?_).mp hsn
    rw [hw, length_append] at hs
    omega
  · rintro ⟨hrm, hsn⟩
    refine ⟨Frugal.lift (harmless_reserve.mpr hrm) s, fun _ s' hs' => ?_⟩
    rw [(lift_eq_ok.mp hs').2, (frugal_exact hrm.1).harmless_bind_reads (reads_exact _)]
    rintro v _ t ⟨hlen, rfl⟩ ht
    have hst : s = v.toList ++ t := ht
    split
    · exact harmless_fail _
    · rename_i hsum
      rw [not_not] at hsum
      refine (Frugal.lift (harmless_mapError.mpr ?_)).bind (fun _ => ?_) t
      · refine (harmless_fromBytes sha256 ?_).mpr (hsn v t hlen hst hsum)
        rw [hst, length_append] at hs
        omega
      · exact Frugal.guard (Frugal.pure _)

/-- The tokens, and what follows them, are read without harm just if they are
announced so. -/
theorem harmless_body {header : ContainerHeader} {s : List UInt8} (hs : 2 * s.length ≤ n) :
    (readBody sha256 header s).Harmless n ↔ (header.prefixLen.toNat * 4 ≤ usizeMax →
        Grantable n (header.prefixLen.toNat * 4) ∧
        ∀ (tokens : Vec 4 UInt32) w', tokens.toList.length = header.prefixLen.toNat →
          s = wordsBytes tokens.toList ++ w' →
          hashTokens sha256 tokens.toList = header.prefixTokenHash →
          PayloadGranted sha256 n header (wordsBytes tokens.toList) w') := by
  unfold readBody
  by_cases hov : usizeMax < header.prefixLen.toNat * 4
  · rw [if_pos hov]
    exact iff_of_true (harmless_fail _) fun h => absurd h (Nat.not_le.mpr hov)
  · rw [if_neg hov, imp_iff_right (Nat.not_lt.mp hov), harmless_bind_reader]
    constructor
    · rintro ⟨hres, hrd⟩
      have hrm := harmless_reserve.mp (harmless_bind.mp hres).1
      refine ⟨hrm, fun tokens w' hlen hw hhas => ?_⟩
      have hlat := hrd () s (lift_eq_ok.mpr ⟨reserve_eq_ok.mpr hrm.1, rfl⟩)
      rw [(frugal_exact hrm.1).harmless_bind_reads (reads_exact _)] at hlat
      have hcount : (wordsBytes tokens.toList).length = header.prefixLen.toNat * 4 := by
        rw [length_wordsBytes, hlen, mul_comm]
      have htok := hlat ⟨wordsBytes tokens.toList, by rw [one_mul, hcount]; exact hrm.1⟩
        _ w' ⟨hcount, rfl⟩ hw
      rw [harmless_bind_reader] at htok
      have hkey := htok.2 tokens w' (lift_eq_ok.mpr
        ⟨collect_eq_ok.mpr (wordsOfBytes_wordsBytes _), rfl⟩)
      rw [harmless_bind_reader] at hkey
      have hstt := hkey.2 (header.keyWith sha256 tokens) w' (lift_eq_ok.mpr
        ⟨(keyForTokens_eq_ok sha256).mpr ⟨hlen, hhas, rfl⟩, rfl⟩)
      refine (harmless_state sha256 ?_).mp hstt
      rw [hw, length_append] at hs
      omega
    · rintro ⟨hrm, hrst⟩
      refine ⟨Frugal.lift (harmless_reserve.mpr hrm) s, fun _ s' hs' => ?_⟩
      rw [(lift_eq_ok.mp hs').2, (frugal_exact hrm.1).harmless_bind_reads (reads_exact _)]
      rintro v _ t ⟨hlen, rfl⟩ ht
      have hst : s = v.toList ++ t := ht
      have hfr := four_mul_length_wordsOfBytes hlen
      rw [harmless_bind_reader]
      refine ⟨Frugal.lift (harmless_collect ?_ ?_) t, fun tokens t' ht' => ?_⟩
      · rw [hfr, hlen]
        exact hrm.1
      · rw [hfr, hlen]
        exact hrm.2
      obtain ⟨htok, rfl⟩ := lift_eq_ok.mp ht'
      have htok := collect_eq_ok.mp htok
      have hwor : wordsBytes tokens.toList = v.toList := by
        rw [← htok, wordsBytes_wordsOfBytes (hlen.trans (mul_comm _ _))]
      rw [harmless_bind_reader]
      constructor
      · refine Frugal.lift ⟨?_, fun _ h => absurd h not_mem_nil⟩ t'
        cases header.keyForTokens sha256 tokens with
        | error => exact Or.inr ⟨_, rfl⟩
        | ok => exact Or.inl ⟨_, rfl⟩
      · intro key t'' ht''
        obtain ⟨hkey, rfl⟩ := lift_eq_ok.mp ht''
        obtain ⟨hcount, hhas, rfl⟩ := (keyForTokens_eq_ok sha256).mp hkey
        rw [← hwor]
        refine (harmless_state sha256 ?_).mpr (hrst tokens t'' hcount (hwor ▸ hst) hhas)
        rw [hst, length_append] at hs
        omega

/-- **A container is read without harm** just if it announces no more than
there can be room for. -/
theorem harmless_readSnapshot {file : List UInt8} (h : 2 * file.length ≤ n) :
    (readSnapshot sha256 file).Harmless n ↔ ContainerGranted sha256 n file := by
  have hhdr : headerLength ≤ isizeMax := by decide
  have hsh : ∀ w t : List UInt8, file = w ++ t → 2 * t.length ≤ n := by
    intro w t hw
    rw [hw, length_append] at h
    omega
  unfold readSnapshot ContainerGranted
  rw [(frugal_exact hhdr).harmless_bind_reads (reads_exact _)]
  constructor
  · intro hrd header w hw hmag hver habi
    have hlat := hrd ⟨header.toBytes, by rw [one_mul, header.length_toBytes]; exact hhdr⟩
      _ w ⟨header.length_toBytes, rfl⟩ hw
    rw [harmless_bind_reader] at hlat
    have hch := hlat.2 header w (lift_eq_ok.mpr
      ⟨mapError_eq_ok.mpr (ContainerHeader.fromBytes_eq_ok.mpr rfl), rfl⟩)
    unfold readChecked at hch
    rw [if_neg (not_not.mpr hmag), if_neg (not_not.mpr hver), if_neg (not_not.mpr habi)] at hch
    exact (harmless_body sha256 (hsh _ w hw)).mp hch
  · rintro hgr raw _ t ⟨-, rfl⟩ ht
    have hft : file = raw.toList ++ t := ht
    rw [harmless_bind_reader]
    refine ⟨Frugal.lift (harmless_mapError.mpr (harmless_headerFromBytes raw)) t,
      fun header t' ht' => ?_⟩
    obtain ⟨hrd, rfl⟩ := lift_eq_ok.mp ht'
    have hraw := ContainerHeader.fromBytes_eq_ok.mp (mapError_eq_ok.mp hrd)
    rw [hraw] at hft
    unfold readChecked
    split_ifs with hmag hver habi
    · exact harmless_fail _
    · exact harmless_fail _
    · exact harmless_fail _
    · rw [not_not] at hmag hver habi
      exact (harmless_body sha256 (hsh _ t' hft)).mpr (hgr header t' hft hmag hver habi)

end Container

/-! ## Cache files -/

/-- **A file of 30 bytes stops the process**: a causal state that announces a
page table with 2^63 entries. There is no constant by which the size of a
file bounds what it makes the process request. -/
theorem decodeCausalState_not_harmless :
    ¬ ∃ C : ℕ, ∀ b : Vec 1 UInt8, (decodeCausalState b).Harmless (C * b.toList.length) := by
  rintro ⟨C, h⟩
  have hfit : 1 * (statePayloadMagic ++ (3 :: (u64Bytes 0 ++ (u64Bytes 0 ++
      ([flagByte false] ++ (u64Bytes 0x8000000000000000 ++ [])))))).length ≤ isizeMax := by
    simp [statePayloadMagic, isizeMax]
  have hrd := (h ⟨_, hfit⟩).mono (Nat.mul_le_mul_right _ (Nat.le_succ C))
  have hgr := (harmless_decodeCausalState (Nat.le_mul_of_pos_left _ (Nat.succ_pos C))).mp hrd
  have htab := (hgr _ rfl 0 0 false 0x8000000000000000 [] rfl).1.1
  exact absurd htab (by simp [isizeMax])

section Scan

variable (sha256 : List UInt8 → Bytes 32)

/-- Trying does no harm where the reader does none, and passes over its
errors. -/
theorem attempt_of_returns {E F A : Type} {x : Metered E A} (h : x.Returns) :
    ∃ o, (x.attempt : Metered F (Option A)).result = .ok o ∧
      ∀ a, o = some a ↔ x.result = .ok a := by
  unfold attempt
  rcases h with ⟨a, ha⟩ | ⟨e, he⟩
  · refine ⟨some a, by rw [ha], fun a' => ?_⟩
    rw [ha, Option.some.injEq, Except.ok.injEq]
  · refine ⟨none, by rw [he], fun a' => ?_⟩
    rw [he]
    exact iff_of_false nofun nofun

theorem readFile_returns {content : List UInt8} {n : ℕ}
    (h : (readSnapshot sha256 content).Harmless n) : (readFile sha256 content).Returns :=
  (harmless_bind.mpr ⟨h, fun _ _ => harmless_pure _⟩).1

/-- **The scan passes over what is corrupted**: if no file is read with harm,
it finds the entries of the files that can be read, and no others. -/
theorem scanEntries_of_returns {files : List (String × Option (List UInt8))}
    (h : ∀ name content, (name, some content) ∈ files → hasExtension name = true →
      (readFile sha256 content).Returns) :
    ∃ entries, (scanEntries sha256 files).result = .ok entries ∧
      ∀ e, e ∈ entries ↔ ∃ name content, (name, some content) ∈ files ∧
        hasExtension name = true ∧ (readFile sha256 content).result = .ok e := by
  induction files with
  | nil => exact ⟨[], rfl, fun e => iff_of_false not_mem_nil (by rintro ⟨_, _, ⟨⟩, -⟩)⟩
  | cons file files ih =>
    obtain ⟨entries, hents, hmem⟩ := ih fun name content hfil =>
      h name content (mem_cons_of_mem _ hfil)
    obtain ⟨name, _ | content⟩ := file
    · -- the file cannot be opened
      refine ⟨entries, by rw [scanEntries]; exact hents, fun e => ?_⟩
      rw [hmem e]
      simp only [mem_cons, Prod.mk.injEq, reduceCtorEq, and_false, false_or]
    · by_cases hext : hasExtension name = true
      · obtain ⟨o, ho, hsom⟩ := attempt_of_returns (F := IoError)
          (h name content mem_cons_self hext)
        refine ⟨o.toList ++ entries, ?_, fun e => ?_⟩
        · rw [scanEntries, if_pos hext]
          exact bind_eq_ok.mpr ⟨o, ho, bind_eq_ok.mpr ⟨entries, hents, rfl⟩⟩
        · rw [mem_append, Option.mem_toList, hsom e, hmem e]
          constructor
          · rintro (he | ⟨name', content', hfil, he⟩)
            · exact ⟨name, content, mem_cons_self, hext, he⟩
            · exact ⟨name', content', mem_cons_of_mem _ hfil, he⟩
          · rintro ⟨name', content', hfil, he⟩
            rcases mem_cons.mp hfil with heq | hfil
            · cases heq
              exact Or.inl he.2
            · exact Or.inr ⟨name', content', hfil, he⟩
      · -- the file is not one of the store
        refine ⟨entries, by rw [scanEntries, if_neg hext]; exact hents,
          fun e => ?_⟩
        rw [hmem e]
        constructor
        · rintro ⟨name', content', hfil, he⟩
          exact ⟨name', content', mem_cons_of_mem _ hfil, he⟩
        · rintro ⟨name', content', hfil, he⟩
          rcases mem_cons.mp hfil with heq | hfil
          · cases heq
            exact absurd he.1 hext
          · exact ⟨name', content', hfil, he⟩

/-- **When cache files do no harm.** Below any bound of at least twice its
size, a file is read without harm – as a snapshot, as a causal state, or as a
container – if and only if it announces no more than there can be room for;
and if this is so for all files of the store, its scan finds the entries of
those that can be read, and passes over the others. -/
theorem cacheFiles_harmless_iff (C : ℕ) (hC : 2 ≤ C) :
    (∀ b : Vec 1 UInt8, (fromBytes sha256 b).Harmless (C * b.toList.length) ↔ SnapshotGranted b) ∧
    (∀ b : Vec 1 UInt8, (decodeCausalState b).Harmless (C * b.toList.length) ↔
      StateGranted (C * b.toList.length) b) ∧
    (∀ file : List UInt8, (readSnapshot sha256 file).Harmless (C * file.length) ↔
      ContainerGranted sha256 (C * file.length) file) ∧
    (∀ files : List (String × Option (List UInt8)),
      (∀ name content, (name, some content) ∈ files → hasExtension name = true →
        ContainerGranted sha256 (C * content.length) content) →
      ∃ entries, (scanEntries sha256 files).result = .ok entries ∧
        ∀ e, e ∈ entries ↔ ∃ name content, (name, some content) ∈ files ∧
          hasExtension name = true ∧ (readFile sha256 content).result = .ok e) := by
  refine ⟨?_, ?_, ?_, ?_⟩
  · intro b
    exact harmless_fromBytes sha256 (Nat.mul_le_mul_right _ hC)
  · intro b
    exact harmless_decodeCausalState (Nat.le_mul_of_pos_left _ (Nat.lt_of_lt_of_le Nat.two_pos hC))
  · intro file
    exact harmless_readSnapshot sha256 (Nat.mul_le_mul_right _ hC)
  · intro files h
    refine scanEntries_of_returns sha256 fun name content hfil hext => ?_
    exact readFile_returns sha256
      ((harmless_readSnapshot sha256 (Nat.mul_le_mul_right _ hC)).mpr (h name content hfil hext))

/-- A sparse state with a page table of two entries, and one page. -/
def pagedState : CausalState :=
  .sparsePaged ⟨⟨[some 0, none], by decide⟩, ⟨[⟨[], by decide⟩], by decide⟩, 4, 2, true⟩

/-- The state in bytes. -/
def pagedFile : Vec 1 UInt8 := ⟨causalStateBytes pagedState, by decide +kernel⟩

/-- What it announces has room within twice its size, and it is read. -/
theorem cacheFiles_harmless_iff_of_two : (decodeCausalState pagedFile).result = .ok pagedState ∧
    StateGranted (2 * pagedFile.toList.length) pagedFile := by
  have hrd : (decodeCausalState pagedFile).result = .ok pagedState := by decide +kernel
  have hhar : (decodeCausalState pagedFile).Harmless (2 * pagedFile.toList.length) :=
    ⟨Or.inl ⟨_, hrd⟩, by decide +kernel⟩
  exact ⟨hrd, ((cacheFiles_harmless_iff (fun _ => ⟨List.replicate 32 0, rfl⟩) 2
    le_rfl).2.1 _).mp hhar⟩

end Scan

end Logan
