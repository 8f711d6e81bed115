import Logan.Prefix.Container
import Logan.State.SnapshotCodec

/-!
# What a container that is accepted says

A container says some things more than once: the number of tokens and their
hash are in the header and in the snapshot, and they could be told from the
tokens; the length of the snapshot is in the header, and could be told from
the snapshot. The reader accepts a container only if all of them agree, and
this is `Container`: a container that has been written is accepted, and one
that is accepted is of this form.
-/

namespace Logan

open List ContainerHeader Metered StateSnapshot

open ByteCursor
open Reads (bind_written fail guard lift)

/-! ## The header -/

section Header

variable {bytes : Vec 1 UInt8}

theorem reads_headerArray (n : ℕ) :
    Reads (headerArray n : Reader (ByteCursor bytes) String _) (fun a w => w = a.val) :=
  reads_arrayOr (fail _)

theorem reads_headerU32 :
    Reads (headerU32 : Reader (ByteCursor bytes) String _) (fun x w => w = u32Bytes x) :=
  reads_u32From (reads_headerArray 4)

theorem reads_headerU64 :
    Reads (headerU64 : Reader (ByteCursor bytes) String _) (fun x w => w = u64Bytes x) :=
  reads_u64From (reads_headerArray 8)

/-- **The header is read as it is written.** -/
theorem reads_header :
    Reads (readHeader : Reader (ByteCursor bytes) String _) (fun h w => w = h.toBytes) := by
  refine (bind_written (reads_headerArray 8) fun magic => bind_written
    reads_headerU32 fun version => bind_written reads_headerU32 fun stateAbiVersion =>
    bind_written (reads_headerArray 32) fun modelFingerprint => bind_written
    (reads_headerArray 32) fun tokenizerFingerprint => bind_written (reads_headerArray 32)
    fun stateSchemaFingerprint => bind_written (reads_headerArray 32)
    fun planFingerprint => bind_written reads_headerU64 fun prefixTokenHash =>
    bind_written reads_headerU64 fun prefixLen => bind_written reads_headerU64
    fun payloadSize => bind_written reads_headerU32 fun sectionCount =>
    Reads.map_written (reads_headerArray 32)).congr fun h w => ?_
  constructor
  · rintro ⟨magic, _, ⟨version, _, ⟨stateAbiVersion, _, ⟨modelFingerprint, _,
      ⟨tokenizerFingerprint, _, ⟨stateSchemaFingerprint, _, ⟨planFingerprint, _,
      ⟨prefixTokenHash, _, ⟨prefixLen, _, ⟨payloadSize, _, ⟨sectionCount, _, ⟨checksum, rfl, rfl⟩,
      rfl⟩, rfl⟩, rfl⟩, rfl⟩, rfl⟩, rfl⟩, rfl⟩, rfl⟩, rfl⟩, rfl⟩, rfl⟩
    rfl
  · rintro rfl
    exact ⟨h.magic, _, ⟨h.version, _, ⟨h.stateAbiVersion, _, ⟨h.modelFingerprint, _,
      ⟨h.tokenizerFingerprint, _, ⟨h.stateSchemaFingerprint, _, ⟨h.planFingerprint, _,
      ⟨h.prefixTokenHash, _, ⟨h.prefixLen, _, ⟨h.payloadSize, _, ⟨h.sectionCount, _,
      ⟨h.checksum, rfl, rfl⟩, rfl⟩, rfl⟩, rfl⟩, rfl⟩, rfl⟩, rfl⟩, rfl⟩, rfl⟩, rfl⟩, rfl⟩, rfl⟩

end Header

namespace ContainerHeader

theorem length_toBytes (h : ContainerHeader) : h.toBytes.length = headerLength := by
  simp only [toBytes, length_append, length_u32Bytes, length_u64Bytes, h.magic.property,
    h.modelFingerprint.property, h.tokenizerFingerprint.property,
    h.stateSchemaFingerprint.property, h.planFingerprint.property, h.checksum.property,
    headerLength]

theorem fromBytes_eq_ok {b : Vec 1 UInt8} {h : ContainerHeader} :
    (fromBytes b).result = .ok h ↔ b.toList = h.toBytes := by
  unfold fromBytes
  by_cases hlen : b.toList.length ≠ headerLength
  · rw [if_pos hlen]
    refine iff_of_false nofun fun hb => ?_
    rw [hb, length_toBytes] at hlen
    exact hlen rfl
  · rw [if_neg hlen, reads_header.complete_eq_ok isDone_iff, rest_start]

theorem toBytes_injective {h h' : ContainerHeader} (heq : h.toBytes = h'.toBytes) : h = h' := by
  have hfit : 1 * h.toBytes.length ≤ isizeMax := by
    rw [h.length_toBytes]
    decide
  have hrd : (fromBytes ⟨h.toBytes, hfit⟩).result = .ok h := fromBytes_eq_ok.mpr rfl
  have hrd' : (fromBytes ⟨h.toBytes, hfit⟩).result = .ok h' := fromBytes_eq_ok.mpr heq
  exact Except.ok.inj (hrd.symm.trans hrd')

end ContainerHeader

/-- **A filled buffer** has any bytes of its length. -/
theorem reads_exact (n : ℕ) :
    Reads (readExact n) (fun v w => v.toList.length = n ∧ w = v.toList) := by
  intro s v s'
  unfold readExact
  constructor
  · intro h
    split at h
    · obtain ⟨v', hv', h⟩ := bind_eq_ok.mp h
      have hlis := Vec.ofList_eq_ok.mp hv'
      cases h
      refine ⟨_, ⟨?_, rfl⟩, ?_⟩
      · rw [← hlis, length_take]
        omega
      · rw [← hlis]
        exact (take_append_drop n s).symm
    · cases h
  · rintro ⟨_, ⟨rfl, rfl⟩, hres⟩
    have hs : s = v.toList ++ s' := hres
    subst hs
    rw [if_pos (by rw [length_append]; omega), take_left, drop_left]
    exact bind_eq_ok.mpr ⟨v, Vec.ofList_eq_ok.mpr rfl, rfl⟩

section Sha

variable (sha256 : List UInt8 → Bytes 32)

/-- **A container in which all agrees**: its header, with the key and the
snapshot that are in it, and the bytes of the snapshot. -/
structure Container (header : ContainerHeader) (key : PrefixKey) (snapshot : StateSnapshot)
    (snapshotBytes : Vec 1 UInt8) : Prop where
  magic : header.magic.val = containerMagic
  version : header.version = containerVersion
  abi : header.stateAbiVersion = stateAbiVersion
  key_eq : key = header.keyWith sha256 key.prefixTokens
  count : key.prefixTokens.toList.length = header.prefixLen.toNat
  hash : key.prefixTokenHash = header.prefixTokenHash
  size : snapshotBytes.toList.length = header.payloadSize.toNat
  checksum : containerChecksum sha256 (wordsBytes key.prefixTokens.toList) snapshotBytes.toList
    = header.checksum
  payload : (fromBytes sha256 snapshotBytes).result = .ok snapshot
  stateLen : snapshot.prefixLen = key.prefixLen
  stateHash : snapshot.prefixHash = key.prefixTokenHash

variable {key : PrefixKey}

theorem keyForTokens_eq_ok {h : ContainerHeader} {tokens : Vec 4 UInt32} :
    (h.keyForTokens sha256 tokens).mapError (fun e => Failure.error (invalidData e)) = .ok key ↔
      tokens.toList.length = h.prefixLen.toNat ∧ key.prefixTokenHash = h.prefixTokenHash ∧
      key = h.keyWith sha256 tokens := by
  unfold keyForTokens
  split_ifs with hlen hhas
  · exact iff_of_false nofun fun h => hlen h.1
  · refine iff_of_false nofun fun h => hhas ?_
    rw [← h.2.1, h.2.2]
  · rw [not_not] at hlen hhas
    constructor
    · intro h
      cases h
      exact ⟨hlen, hhas, rfl⟩
    · rintro ⟨-, -, rfl⟩
      rfl

/-- **The snapshot is read** behind the tokens. -/
theorem reads_state (header : ContainerHeader) (key : PrefixKey) (tokenBytes : List UInt8) :
    Reads (readState sha256 header key tokenBytes)
      (fun r w => ∃ v : Vec 1 UInt8, v.toList.length = header.payloadSize.toNat ∧
        containerChecksum sha256 tokenBytes v.toList = header.checksum ∧
        (fromBytes sha256 v).result = .ok r.2.2 ∧
        r.2.2.prefixLen = key.prefixLen ∧ r.2.2.prefixHash = key.prefixTokenHash ∧
        r.1 = header ∧ r.2.1 = key ∧ w = v.toList) := by
  refine (Reads.bind lift fun _ => Reads.bind (reads_exact _) fun v => guard
    (Reads.bind lift fun snapshot => guard (Reads.pure _))).congr fun r w => ?_
  constructor
  · rintro ⟨_, _, _, ⟨-, rfl⟩, ⟨v, _, _, ⟨hlen, rfl⟩, ⟨hsum, snapshot, _, _, ⟨hsn, rfl⟩,
      ⟨hid, rfl, rfl⟩, rfl⟩, rfl⟩, rfl⟩
    rw [not_not] at hsum
    rw [not_or, not_not, not_not] at hid
    exact ⟨v, hlen, hsum, mapError_eq_ok.mp hsn, hid.1, hid.2, rfl, rfl, List.append_nil _⟩
  · obtain ⟨head', key', snapshot⟩ := r
    rintro ⟨v, hlen, hsum, hsn, hidL, hidH, rfl, rfl, rfl⟩
    have hfit := v.fits
    rw [one_mul, hlen] at hfit
    exact ⟨(), [], _, ⟨reserve_eq_ok.mpr hfit, rfl⟩, ⟨v, _, [], ⟨hlen, rfl⟩,
      ⟨not_not.mpr hsum, snapshot, [], [], ⟨mapError_eq_ok.mpr hsn, rfl⟩,
        ⟨not_or.mpr ⟨not_not.mpr hidL, not_not.mpr hidH⟩, rfl, rfl⟩, rfl⟩,
      (List.append_nil _).symm⟩, rfl⟩

/-- **Only containers in which all agrees are accepted**, and all of these
are. -/
theorem reads_snapshot : Reads (readSnapshot sha256)
      (fun r w => ∃ v, Container sha256 r.1 r.2.1 r.2.2 v ∧
        w = r.1.toBytes ++ (wordsBytes r.2.1.prefixTokens.toList ++ v.toList)) := by
  refine (Reads.bind (reads_exact _) fun raw => Reads.bind lift fun header =>
    guard (guard (guard (guard (Reads.bind lift fun _ => Reads.bind
    (reads_exact _) fun tokenBytes => Reads.bind lift fun tokens => Reads.bind lift
    fun key => reads_state sha256 header key tokenBytes.toList))))).congr fun r w => ?_
  obtain ⟨header, key, snapshot⟩ := r
  constructor
  · rintro ⟨raw, _, _, ⟨-, rfl⟩, ⟨_, _, _, ⟨hhdr, rfl⟩, ⟨hmag, hver, habi, -,
      _, _, _, ⟨-, rfl⟩, ⟨tokenBytes, _, _, ⟨hlen, rfl⟩, ⟨tokens, _, _, ⟨htok, rfl⟩,
      ⟨_, _, _, ⟨hkey, rfl⟩, ⟨v, hsiz, hsum, hsn, hid, hidH, rfl, rfl, rfl⟩, rfl⟩, rfl⟩,
      rfl⟩, rfl⟩, rfl⟩, rfl⟩
    dsimp only at *
    have hhdr := fromBytes_eq_ok.mp (mapError_eq_ok.mp hhdr)
    have htok := collect_eq_ok.mp htok
    obtain ⟨hcount, hhas, hkey⟩ := (keyForTokens_eq_ok sha256).mp hkey
    have hwor : wordsBytes key.prefixTokens.toList = tokenBytes.toList := by
      rw [hkey]
      show wordsBytes tokens.toList = _
      rw [← htok, wordsBytes_wordsOfBytes (hlen.trans (mul_comm _ _))]
    have hown : key.prefixTokens = tokens := by rw [hkey]; rfl
    rw [not_not] at hmag hver habi
    refine ⟨v, ⟨hmag, hver, habi, hown ▸ hkey, hown ▸ hcount, hhas, hsiz, ?_, hsn, hid, hidH⟩, ?_⟩
    · rwa [hwor]
    · rw [hwor, hhdr]
      rfl
  · rintro ⟨v, h, rfl⟩
    obtain ⟨hmag, hver, habi, hkey, hcount, hhas, hsiz, hsum, hsn, hid, hidH⟩ := h
    dsimp only at *
    have hfit := key.prefixTokens.fits
    rw [hcount, mul_comm] at hfit
    have hno : ¬ usizeMax < header.prefixLen.toNat * 4 := by
      unfold usizeMax
      unfold isizeMax at hfit
      omega
    have hhea : 1 * header.toBytes.length ≤ isizeMax := by
      rw [header.length_toBytes]
      decide
    have htkn : (wordsBytes key.prefixTokens.toList).length = header.prefixLen.toNat * 4 := by
      rw [length_wordsBytes, hcount, mul_comm]
    have htoken : 1 * (wordsBytes key.prefixTokens.toList).length ≤ isizeMax := by
      rwa [one_mul, htkn]
    refine ⟨⟨header.toBytes, hhea⟩, _, _, ⟨header.length_toBytes, rfl⟩,
      ⟨header, [], _, ⟨mapError_eq_ok.mpr (fromBytes_eq_ok.mpr rfl), rfl⟩,
      ⟨not_not.mpr hmag, not_not.mpr hver, not_not.mpr habi, hno, (), [], _,
      ⟨reserve_eq_ok.mpr hfit, rfl⟩,
      ⟨⟨wordsBytes key.prefixTokens.toList, htoken⟩, _, _, ⟨htkn, rfl⟩,
      ⟨key.prefixTokens, [], _, ⟨collect_eq_ok.mpr (wordsOfBytes_wordsBytes _), rfl⟩,
      ⟨key, [], _, ⟨(keyForTokens_eq_ok sha256).mpr ⟨hcount, hhas, hkey⟩, rfl⟩,
      ⟨v, hsiz, hsum, hsn, hid, hidH, rfl, rfl, rfl⟩, rfl⟩, rfl⟩, rfl⟩, rfl⟩, rfl⟩, ?_⟩
    rfl

/-! ## Writing and reading -/

variable {s : StateSnapshot} {file : List UInt8}

/-- What is written, for a snapshot with the identity of the key. -/
theorem writeSnapshot_eq_ok : writeSnapshot sha256 key s = .ok file ↔
      (s.prefixLen = key.prefixLen ∧ s.prefixHash = key.prefixTokenHash) ∧
      ∃ v, s.toBytes sha256 = .ok v ∧
        file = (headerFor sha256 key (wordsBytes key.prefixTokens.toList) v.toList).toBytes ++
          (wordsBytes key.prefixTokens.toList ++ v.toList) := by
  unfold writeSnapshot
  by_cases hid : s.prefixLen ≠ key.prefixLen ∨ s.prefixHash ≠ key.prefixTokenHash
  · rw [if_pos hid]
    refine iff_of_false nofun ?_
    rintro ⟨⟨hlen, hhas⟩, -⟩
    exact hid.elim (fun h => h hlen) (fun h => h hhas)
  · rw [if_neg hid, Result.bind_eq_ok]
    rw [not_or, not_not, not_not] at hid
    rw [and_iff_right hid]
    cases s.toBytes sha256 with
    | error => exact iff_of_false (by rintro ⟨_, ⟨⟩, -⟩) (by rintro ⟨_, ⟨⟩, -⟩)
    | ok v =>
      constructor
      · rintro ⟨v', hv', h⟩
        obtain rfl := Except.ok.inj hv'
        exact ⟨v, rfl, (Except.ok.inj h).symm⟩
      · rintro ⟨v', hv', rfl⟩
        cases hv'
        exact ⟨v, rfl, rfl⟩

/-- **What is written is a container in which all agrees.** -/
theorem container_of_write (hkey : key.prefixTokenHash = hashTokens sha256 key.prefixTokens.toList)
    (h : writeSnapshot sha256 key s = .ok file) :
    ∃ v, Container sha256 (headerFor sha256 key (wordsBytes key.prefixTokens.toList) v.toList)
        key s v ∧
      file = (headerFor sha256 key (wordsBytes key.prefixTokens.toList) v.toList).toBytes ++
        (wordsBytes key.prefixTokens.toList ++ v.toList) := by
  obtain ⟨hid, v, hbytes, hfil⟩ := (writeSnapshot_eq_ok sha256).mp h
  refine ⟨v, ?_, hfil⟩
  exact
    { magic := rfl
      version := rfl
      abi := rfl
      key_eq := by
        unfold keyWith PrefixKey.new headerFor
        rw [← hkey]
      count := key.toNat_prefixLen.symm
      hash := rfl
      size := (toNat_ofNat_length v Nat.one_pos).symm
      checksum := rfl
      payload := ((toBytes_eq_fromBytes sha256).mp hbytes)
      stateLen := hid.1
      stateHash := hid.2 }

/-- **What is written is read.** -/
theorem read_of_write (hkey : key.prefixTokenHash = hashTokens sha256 key.prefixTokens.toList)
    (h : writeSnapshot sha256 key s = .ok file) :
    ∃ header, (readSnapshot sha256 file).result = .ok ((header, key, s), []) := by
  obtain ⟨v, hcon, hfil⟩ := container_of_write sha256 hkey h
  refine ⟨_, (reads_snapshot sha256 file (_, key, s) []).mpr ⟨file, ⟨v, hcon, hfil⟩, ?_⟩⟩
  exact (List.append_nil file).symm

/-- **Nothing but what was written is read** from what was written, whether
or not the hash in the key is right. -/
theorem eq_of_read_write {key' : PrefixKey} {s' : StateSnapshot} {header : ContainerHeader}
    {after : List UInt8} (h : writeSnapshot sha256 key s = .ok file)
    (hrd : (readSnapshot sha256 file).result = .ok ((header, key', s'), after)) :
    key' = key ∧ s' = s := by
  obtain ⟨-, v, hbytes, hfil⟩ := (writeSnapshot_eq_ok sha256).mp h
  obtain ⟨_, ⟨v', hc, rfl⟩, hres⟩ := (reads_snapshot sha256 file (header, key', s') after).mp hrd
  dsimp only at hc hres
  have hsam := hfil.symm.trans hres
  rw [append_assoc] at hsam
  obtain ⟨hhdr, hbod⟩ := append_inj hsam ((length_toBytes _).trans header.length_toBytes.symm)
  obtain rfl := toBytes_injective hhdr
  have hcount := hc.count.trans key.toNat_prefixLen
  have hlen : (wordsBytes key.prefixTokens.toList).length =
      (wordsBytes key'.prefixTokens.toList).length := by
    rw [length_wordsBytes, length_wordsBytes, hcount]
  rw [append_assoc] at hbod
  obtain ⟨hwor, hpay⟩ := append_inj hbod hlen
  have htok : key'.prefixTokens = key.prefixTokens := by
    refine Vec.ext ?_
    rw [← wordsOfBytes_wordsBytes key'.prefixTokens.toList, ← hwor, wordsOfBytes_wordsBytes]
  have hsiz : v.toList.length = v'.toList.length := by
    rw [hc.size]
    exact (toNat_ofNat_length v Nat.one_pos).symm
  have hv : v = v' := by
    refine Vec.ext (append_inj_left (?_ : v.toList ++ [] = v'.toList ++ rest after) hsiz)
    rwa [List.append_nil]
  constructor
  · have hkey := hc.key_eq
    exact PrefixKey.ext ((congrArg PrefixKey.modelFingerprint hkey).trans rfl)
      ((congrArg PrefixKey.stateSchemaFingerprint hkey).trans rfl)
      ((congrArg PrefixKey.tokenizerFingerprint hkey).trans rfl)
      ((congrArg PrefixKey.planFingerprint hkey).trans rfl) htok hc.hash
  · subst hv
    have hok := hc.payload
    rw [(toBytes_eq_fromBytes sha256).mp hbytes] at hok
    exact (Except.ok.inj hok).symm

/-- A valid snapshot with the identity of the key is written, unless it is
longer than a vector can be. -/
theorem write_of_valid (hlen : s.prefixLen = key.prefixLen)
    (hhas : s.prefixHash = key.prefixTokenHash) (hval : s.Valid sha256)
    (hfit : s.fields.encoded.length ≤ isizeMax) :
    ∃ file, writeSnapshot sha256 key s = .ok file := by
  have hbytes : s.toBytes sha256 = .ok ⟨s.fields.encoded, by rwa [one_mul]⟩ :=
    (toBytes_eq_ok sha256).mpr ⟨hval, rfl⟩
  unfold writeSnapshot
  rw [if_neg (not_or.mpr ⟨not_not.mpr hlen, not_not.mpr hhas⟩), hbytes]
  exact ⟨_, rfl⟩

/-- **A container is read back, and can be trusted to agree with itself.**
What `writeSnapshot` writes for a key and a snapshot with its identity is
read as that key and that snapshot. In whatever is read, the hash of the key
is that of its tokens, and the header tells their number; the fingerprints
of the key are those of the header; and the snapshot has the length and the
hash of the key. -/
theorem readSnapshot_sound : (∀ model schema tokenizer plan tokens (s : StateSnapshot),
      s.prefixLen = (PrefixKey.new sha256 model schema tokenizer plan tokens).prefixLen →
      s.prefixHash = (PrefixKey.new sha256 model schema tokenizer plan tokens).prefixTokenHash →
      (∀ file, writeSnapshot sha256 (PrefixKey.new sha256 model schema tokenizer plan tokens) s =
          .ok file → ∃ header, (readSnapshot sha256 file).result =
          .ok ((header, PrefixKey.new sha256 model schema tokenizer plan tokens, s), [])) ∧
      (s.Valid sha256 → s.fields.encoded.length ≤ isizeMax → ∃ file,
        writeSnapshot sha256 (PrefixKey.new sha256 model schema tokenizer plan tokens) s =
          .ok file)) ∧
    (∀ file header key s after, (readSnapshot sha256 file).result = .ok ((header, key, s), after) →
      key.prefixTokenHash = hashTokens sha256 key.prefixTokens.toList ∧
      header.prefixTokenHash = key.prefixTokenHash ∧
      header.prefixLen.toNat = key.prefixTokens.toList.length ∧ header.prefixLen = key.prefixLen ∧
      s.prefixLen = key.prefixLen ∧ s.prefixHash = key.prefixTokenHash ∧
      key.modelFingerprint = ⟨header.modelFingerprint⟩ ∧
      key.stateSchemaFingerprint = ⟨header.stateSchemaFingerprint⟩ ∧
      key.tokenizerFingerprint = ⟨header.tokenizerFingerprint⟩ ∧
      key.planFingerprint = ⟨header.planFingerprint⟩ ∧ s.validate sha256 = .ok ()) := by
  constructor
  · intro model schema tokenizer plan tokens s hlen hhas
    refine ⟨fun file hfil => ?_, fun hval hfit => write_of_valid sha256 hlen hhas hval hfit⟩
    exact read_of_write sha256 rfl hfil
  · intro file header key s after h
    obtain ⟨_, ⟨v, hc, -⟩, -⟩ := (reads_snapshot sha256 file (header, key, s) after).mp h
    dsimp only at hc
    have hkey := hc.key_eq
    have hsam : header.prefixLen = key.prefixLen := by
      refine UInt64.toNat_inj.mp ?_
      rw [← hc.count, key.toNat_prefixLen]
    refine ⟨?_, hc.hash.symm, hc.count.symm, hsam, hc.stateLen, hc.stateHash, ?_, ?_, ?_, ?_,
      ((fromBytes_eq_ok sha256).mp hc.payload).1.1⟩
    · exact congrArg PrefixKey.prefixTokenHash hkey
    · exact congrArg PrefixKey.modelFingerprint hkey
    · exact congrArg PrefixKey.stateSchemaFingerprint hkey
    · exact congrArg PrefixKey.tokenizerFingerprint hkey
    · exact congrArg PrefixKey.planFingerprint hkey

end Sha

end Logan
