import Logan.Coding.Apple8RoundTrip
import Logan.Util.Crc

/-!
# Coding an expert is lossless

A canonical record that has been coded, in either mode, is restored byte for
byte. What can be said of a matrix is what can be said of its coded record: it
exists if its size can be counted with 32 bits, and is decoded if no nibble owns
all slots or the matrix is not too long.
-/

namespace Logan

open List

namespace Apple8

open Result Rans256

section Canonical

variable {crc32c : List UInt8 → UInt32} {raw : List UInt8} {spans : List MatrixSpan}

/-- What has been parsed has three matrices, as their descriptors say. -/
theorem parseRaw_eq_ok (h : parseRaw raw = .ok spans) :
    prefixBytes ≤ raw.length ∧ range? raw 0 8 = some expertMagic ∧ spans.length = matrixCount ∧
      ∀ i (hi : i < spans.length), parseSpan raw i = .ok spans[i] := by
  obtain ⟨_, hlen, h⟩ := bind_eq_ok.mp h
  obtain ⟨_, hmag, h⟩ := bind_eq_ok.mp h
  obtain ⟨_, -, h⟩ := bind_eq_ok.mp h
  obtain ⟨_, -, h⟩ := bind_eq_ok.mp h
  obtain ⟨_, -, h⟩ := bind_eq_ok.mp h
  obtain ⟨_, -, h⟩ := bind_eq_ok.mp h
  obtain ⟨_, -, h⟩ := bind_eq_ok.mp h
  obtain ⟨_, -, h⟩ := bind_eq_ok.mp h
  obtain ⟨_, -, h⟩ := bind_eq_ok.mp h
  obtain ⟨_, -, h⟩ := bind_eq_ok.mp h
  obtain ⟨_, -, h⟩ := bind_eq_ok.mp h
  obtain ⟨_, -, h⟩ := bind_eq_ok.mp h
  exact ⟨not_lt.mp (refuse_eq_ok.mp hlen), not_not.mp (refuse_eq_ok.mp hmag), mapM_range_eq_ok.mp h⟩

variable (h : Canonical crc32c raw spans)

include h

theorem Canonical.length_head : (raw.take prefixBytes).length = prefixBytes := by
  rw [length_take]
  exact Nat.min_eq_left (parseRaw_eq_ok h.parsed).1

/-- **A canonical record**, divided. -/
theorem Canonical.eq_append :
    raw = raw.take prefixBytes ++ bodyFrom [] (spans.map fun m => m.payload raw) := by
  have heq := h.follows.eq_bodyFrom
  rwa [← List.append_nil (raw.take prefixBytes), bodyFrom_append h.length_head] at heq

theorem Canonical.holds_head : HasWrites (raw.take prefixBytes)
    (storedWrites 0 prefixBytes (spans.map fun m => rawStored (m.payload raw))) := by
  obtain ⟨-, -, hcount, hsp⟩ := parseRaw_eq_ok h.parsed
  intro w hw
  have hwit := storedWrites_within (by rw [length_map]; omega) hw
  have hhel := h.follows.holds (by simpa only [Nat.zero_add] using hsp) w hw
  rw [← take_append_drop prefixBytes raw, slice_append_left
    (hwit.trans_eq h.length_head.symm)] at hhel
  exact hhel

theorem Canonical.sum_le : (spans.map fun m => (m.payload raw).length).sum ≤ raw.length := by
  have hle := le_length_bodyFrom [] (spans.map fun m => m.payload raw)
  have hlen := congrArg List.length h.eq_append
  rw [length_append] at hlen
  rw [map_map] at hle
  have heq : (spans.map (List.length ∘ fun m => m.payload raw)).sum
      = (spans.map fun m => (m.payload raw).length).sum := rfl
  rw [heq] at hle
  omega

end Canonical

/-! ## How long a coded matrix is -/

variable {t : Table}

/-- A record is short enough for 33 bits. -/
theorem length_encodeBytes_le (h : t.validate = .ok ()) {input record : List UInt8}
    (henc : encodeBytes input t = .ok record) : record.length ≤ 2 ^ 33 := by
  obtain ⟨-, -, streams, -, hcnt, hrec⟩ := (encodeBytes_eq_ok h).mp henc
  have hrnd := Rans256.round16_lt (payloadBytes streams)
  rw [hrec.size, headerBytes_eq]
  unfold u32Max at hcnt
  omega

theorem StoredBy.length_le (h : t.validate = .ok ()) {payload : List UInt8} {x : Stored}
    (hx : StoredBy t payload x) : x.bytes.length ≤ payload.length + 2 ^ 34 := by
  obtain ⟨encoded, henc, rfl | rfl⟩ := hx
  · have hle := length_encodeBytes_le h henc
    show (encoded ++ List.replicate readableSlack 0).length ≤ _
    rw [length_append, length_replicate]
    unfold readableSlack
    omega
  · exact Nat.le_add_right _ _

variable {spans : List MatrixSpan}

theorem sum_stored_le {raw : List UInt8} (h : t.validate = .ok ()) {xs : List Stored}
    (hxs : List.Forall₂ (fun m x => StoredBy t (MatrixSpan.payload m raw) x) spans xs) :
    ((xs.map Stored.bytes).map fun x => x.length + 15).sum
      ≤ (spans.map fun m => (m.payload raw).length).sum + spans.length * 2 ^ 35 := by
  induction hxs with
  | nil => exact Nat.zero_le _
  | cons hx =>
    have hle := hx.length_le h
    simp only [map_cons, sum_cons, length_cons]
    omega

/-! ## There and back -/

/-- A matrix is coded so that it can be decoded. -/
def Decodable (t : Table) (payload : List UInt8) : Prop :=
  payload.length ≤ 2 ^ 27 ∨ ∀ i < payload.length * 2, t.freq (nibbleAt payload i) ≠ scale

theorem StoredBy.readable (h : t.validate = .ok ()) {payload : List UInt8} {x : Stored}
    (hx : StoredBy t payload x) (hfew : Decodable t payload) : x.Readable t := by
  obtain ⟨encoded, henc, rfl | rfl⟩ := hx
  · exact Or.inr ⟨encoded, rfl, decodeBytes_of_encode h henc hfew⟩
  · exact Or.inl rfl

theorem map_payload_eq {raw : List UInt8} {xs : List Stored}
    (hxs : List.Forall₂ (fun m x => StoredBy t (MatrixSpan.payload m raw) x) spans xs) :
    xs.map Stored.payload = spans.map fun m => m.payload raw := by
  induction hxs with
  | nil => rfl
  | cons hx _ ih => rw [map_cons, map_cons, hx.payload_eq, ih]

/-- **What has been coded is restored**, byte for byte. -/
theorem decodeToRaw_of_encode {crc32c : List UInt8 → UInt32} {raw : List UInt8}
    (hcan : Canonical crc32c raw spans) (hsiz : raw.length < 2 ^ 63)
    (hval : t.validate = .ok ()) (hfew : ∀ m ∈ spans, Decodable t (m.payload raw)) {mode : Mode}
    {e : EncodedExpert}
    (h : encodeExpert raw t mode = .ok e) : decodeToRaw crc32c e.bytes t = .ok raw := by
  obtain ⟨-, hmag, hcount, hsp⟩ := parseRaw_eq_ok hcan.parsed
  have hhd := hcan.length_head
  unfold encodeExpert at h
  rw [hcan.parsed, ok_bind] at h
  obtain ⟨xs, hxs, hbytes⟩ := bytes_of_encode (by omega) hhd (List.append_nil _).symm h
  have hlen := hxs.length_eq
  have hpay := map_payload_eq hxs
  rw [length_nil, Nat.add_zero] at hbytes
  set enc := puts (raw.take prefixBytes) (storedWrites 0 prefixBytes xs) with hencd
  have hidx : 0 + xs.length ≤ matrixCount := by omega
  have henc : enc.length = prefixBytes :=
    (length_puts fun w hw => (storedWrites_within hidx hw).trans_eq hhd.symm).trans hhd
  have hld : ∀ ys : List Stored, ys.length = xs.length →
      Laid 0 (raw.take prefixBytes).length (storedWrites 0 prefixBytes ys) := by
    intro ys hys
    refine (laid_storedWrites 0 prefixBytes ys).mono (Nat.zero_le _) ?_
    rw [hhd, hys, Nat.zero_add, ← hlen, hcount]
    exact le_of_eq prefixBytes_eq.symm
  -- the record that is read is short enough, and so is the one that is written
  have hraw := hcan.sum_le
  have hbnd := (length_bodyFrom_le [] (xs.map Stored.bytes)).trans
    (Nat.add_le_add_left (sum_stored_le hval hxs) _)
  rw [length_nil, Nat.zero_add, hcount] at hbnd
  have hpr : prefixBytes = 448 := rfl
  have hthr : matrixCount = 3 := rfl
  have hmax : (enc ++ bodyFrom [] (xs.map Stored.bytes)).length ≤ usizeMax := by
    rw [length_append, henc]
    unfold usizeMax
    omega
  have hout : (enc ++ bodyFrom [] (xs.map Stored.payload)).length + 15 ≤ usizeMax := by
    have heq := congrArg List.length hcan.eq_append
    rw [length_append, hhd] at heq
    rw [length_append, henc, hpay, ← heq]
    unfold usizeMax
    omega
  have hcrc : ∀ i (hi : i < xs.length),
      slice enc (descriptorAt (0 + i) + 96) 4 = u32Bytes (crc32c xs[i].payload) := by
    intro i hi
    have hi' : i < spans.length := hlen ▸ hi
    have hfld := slice_of_u32At? (hcan.checksums i hi')
    have hsam : xs[i].payload = spans[i].payload raw := by
      have := congrArg (fun l => l[i]?) hpay
      simpa only [List.getElem?_map, List.getElem?_eq_getElem hi, List.getElem?_eq_getElem hi',
        Option.map_some, Option.some.injEq] using this
    have hin : descriptorAt i + 96 + 4 ≤ (raw.take prefixBytes).length := by
      rw [hhd]
      unfold descriptorAt descBytes
      omega
    rw [Nat.zero_add, hencd, slice_puts_storedWrites hhd hidx (Or.inr ⟨i, rfl, rfl⟩), hsam, ← hfld]
    conv_rhs => rw [← take_append_drop prefixBytes raw, slice_append_left hin]
  have hdec := bytes_of_decode hidx henc hmax
    (holds_puts (hld xs rfl)) hcrc (fun x hx => by
      obtain ⟨i, hi, rfl⟩ := getElem_of_mem hx
      have hi' : i < spans.length := hlen ▸ hi
      have hst := hxs.get hi' hi
      exact hst.readable hval (hfew _ (getElem_mem hi'))) henc hout
  unfold decodeToRaw
  dsimp only
  rw [hbytes, refuse_of_not (by rw [length_append, henc]; omega), ok_bind]
  have hfr : range? (enc ++ bodyFrom [] (xs.map Stored.bytes)) 0 8 = some expertMagic := by
    obtain ⟨-, -, hsl⟩ := range?_eq_some.mp hmag
    rw [range?_of_le (Nat.zero_le _) (by rw [length_append, henc]; omega),
      slice_append_left (by rw [henc]; omega), hencd,
      slice_puts_storedWrites hhd hidx (Or.inl (by omega)), ← hsl]
    conv_rhs => rw [← take_append_drop prefixBytes raw, slice_append_left (by omega)]
  rw [refuse_of_not (not_not.mpr hfr), ok_bind, take_append_of_le_length henc.ge,
    take_of_length_le henc.le]
  have hrng : List.range matrixCount = List.range' 0 xs.length := by
    rw [← hlen, hcount]
    rfl
  rw [hrng]
  rw [List.append_nil, length_nil, Nat.add_zero] at hdec
  rw [hdec]
  -- the descriptors are those that the record had
  have hmap : (xs.map fun x => rawStored x.payload)
      = spans.map fun m => rawStored (m.payload raw) := by
    have := congrArg (List.map rawStored) hpay
    rwa [map_map, map_map] at this
  have hres : puts enc (storedWrites 0 prefixBytes (xs.map fun x => rawStored x.payload))
      = raw.take prefixBytes := by
    rw [hmap]
    exact puts_restore (hld _ (by rw [length_map, hlen]))
      (extents_storedWrites 0 _ _ (by rw [length_map, hlen])) hcan.holds_head
  rw [hres, hpay, ← hcan.eq_append]

/-! ## When a record is coded -/

/-- **Sizes that are far from an overflow.** -/
structure Small (most : ℕ) (e : EncodedExpert) : Prop where
  head : prefixBytes ≤ e.bytes.length
  bytes : e.bytes.length ≤ most
  compressed : e.compressedMatrices ≤ most
  raw : e.rawMatrixBytes ≤ most
  stored : e.storedMatrixBytes ≤ most

/-- More than a matrix can take, besides its own bytes. -/
def roomBytes : ℕ := 2 ^ 34

theorem le_roomBytes : 2 ^ 33 + 80 ≤ roomBytes := by
  norm_num [roomBytes]

/-- A matrix is stored, if it can be coded. -/
theorem exists_encodeMatrix {raw : List UInt8} (h : t.validate = .ok ()) {mode : Mode}
    {e : EncodedExpert} {m : MatrixSpan} {index most : ℕ} (hidx : index < matrixCount)
    {encoded : List UInt8} (henc : encodeBytes (m.payload raw) t = .ok encoded)
    (hsm : Small most e) (hmax : most + (m.payload raw).length + roomBytes ≤ usizeMax) :
    ∃ e', encodeMatrix raw t mode e (m, index) = .ok e' ∧
      Small (most + (m.payload raw).length + roomBytes) e' := by
  obtain ⟨hhd, hbytes, hcom, hraw, hst⟩ := hsm
  have hsh := length_encodeBytes_le h henc
  have hrnd := round16_lt e.bytes.length
  have hrnd' := le_round16 e.bytes.length
  have hsl : readableSlack = 64 := rfl
  have hput : ∀ codec table offset stored decoded, (puts (align e.bytes)
      (descriptorWrites index codec table offset stored decoded)).length
        = round16 e.bytes.length := by
    intro codec table offset stored decoded
    refine (length_puts fun w hw => ?_).trans (length_align _)
    rw [length_align]
    exact (descriptorWrites_within hidx hw).trans (hhd.trans hrnd')
  have hrm : 2 ^ 33 + 80 ≤ roomBytes := le_roomBytes
  unfold encodeMatrix
  dsimp only
  rw [henc, ok_bind, alignVec_eq_ok.mpr ⟨by omega, rfl⟩, ok_bind]
  unfold storeMatrix
  cases useCodec mode (m.payload raw).length encoded.length with
  | true =>
    rw [if_pos rfl]
    dsimp only
    rw [length_append, hput, checkedSum_of_le (by omega), okOr_some, ok_bind,
      checkedSum_of_le (by omega), okOr_some, ok_bind, checkedSum_of_le (by omega), okOr_some,
      ok_bind, pure_eq, ok_bind, checkedSum_of_le (by omega), okOr_some, ok_bind]
    have hlen : (puts (align e.bytes) (descriptorWrites index codecId tableId
        (align e.bytes).length encoded.length (m.payload raw).length) ++ encoded ++
        List.replicate readableSlack 0).length
          = round16 e.bytes.length + encoded.length + readableSlack := by
      rw [length_append, length_append, hput, length_replicate]
    exact ⟨_, rfl, by dsimp only; omega, by dsimp only; omega, by dsimp only; omega,
      by dsimp only; omega, by dsimp only; omega⟩
  | false =>
    rw [if_neg Bool.false_ne_true]
    rw [checkedSum_of_le (by omega), okOr_some, ok_bind, pure_eq, ok_bind,
      checkedSum_of_le (by omega), okOr_some, ok_bind]
    have hlen : (puts (align e.bytes) (descriptorWrites index 0 0 (align e.bytes).length
        (m.payload raw).length (m.payload raw).length) ++ m.payload raw).length
          = round16 e.bytes.length + (m.payload raw).length := by
      rw [length_append, hput]
    exact ⟨_, rfl, by dsimp only; omega, by dsimp only; omega, by dsimp only; omega,
      by dsimp only; omega, by dsimp only; omega⟩

/-- All matrices are stored, if each can be coded. -/
theorem exists_encode {raw : List UInt8} (h : t.validate = .ok ()) {mode : Mode} {index most : ℕ}
    (hidx : index + spans.length ≤ matrixCount) {e : EncodedExpert}
    (henc : ∀ m ∈ spans, ∃ encoded,
      encodeBytes (MatrixSpan.payload m raw) t = .ok encoded) (hsm : Small most e)
    (hmax : most + (spans.map fun m => (m.payload raw).length).sum + spans.length * roomBytes
      ≤ usizeMax) : ∃ e', (spans.zipIdx index).foldlM (encodeMatrix raw t mode) e = .ok e' := by
  induction spans generalizing index most e with
  | nil => exact ⟨e, rfl⟩
  | cons m rest ih =>
    rw [map_cons, sum_cons, length_cons, Nat.succ_mul] at hmax
    rw [length_cons] at hidx
    obtain ⟨encoded, hm⟩ := henc m mem_cons_self
    have hfst : index < matrixCount := by omega
    have hnex : most + (m.payload raw).length + roomBytes ≤ usizeMax := by
      refine le_trans ?_ hmax
      omega
    obtain ⟨mid, hmid, hsm'⟩ : ∃ mid, encodeMatrix raw t mode e (m, index) = .ok mid ∧
        Small (most + (m.payload raw).length + roomBytes) mid :=
      exists_encodeMatrix h hfst hm hsm hnex
    have hidx' : index + 1 + rest.length ≤ matrixCount := by omega
    obtain ⟨e', he'⟩ := ih hidx' (fun m' hm' => henc m' (mem_cons_of_mem _ hm'))
      hsm' (le_trans (le_of_eq (by ring)) hmax)
    exact ⟨e', by rw [zipIdx_cons, foldlM_cons, hmid, ok_bind, he']⟩

/-- **The codec of experts is lossless.** A canonical record whose matrices the
table covers is coded exactly if 32 bits can count the bytes of the streams of
each matrix; and what has been coded is restored byte for byte, if each matrix
has at most 2^27 bytes or no nibble in it owns all slots. -/
theorem decodeToRaw_encodeExpert {crc32c : List UInt8 → UInt32} {raw : List UInt8}
    {spans : List MatrixSpan} (hcanon : Canonical crc32c raw spans) (hsize : raw.length < 2 ^ 63)
    {t : Table} (hcovers : ∀ m ∈ spans, t.Covers (m.payload raw)) (mode : Mode) :
    ((∃ e, encodeExpert raw t mode = .ok e) ↔ ∀ m ∈ spans, ∃ streams,
        encodeStreams (m.payload raw) t ((m.payload raw).length * 2) = .ok streams ∧
        payloadBytes streams ≤ u32Max) ∧ ∀ e, encodeExpert raw t mode = .ok e →
        (∀ m ∈ spans, (m.payload raw).length ≤ 2 ^ 27 ∨ ∀ i < (m.payload raw).length * 2,
          t.freq (nibbleAt (m.payload raw) i) ≠ scale) →
        decodeToRaw crc32c e.bytes t = .ok raw := by
  obtain ⟨-, -, hcount, hsp⟩ := parseRaw_eq_ok hcanon.parsed
  have hthr : spans.length = 3 := hcount
  have hval : t.validate = .ok () :=
    (hcovers _ (getElem_mem (show 0 < spans.length by omega))).valid
  have hfit : ∀ m ∈ spans, m.payload raw ≠ [] ∧ (m.payload raw).length * 2 ≤ usizeMax := by
    intro m hm
    obtain ⟨i, hi, rfl⟩ := getElem_of_mem hm
    have hbnd := (holds_of_parseSpan (hsp i hi)).2
    have hlen := length_payload hbnd
    have hpos := hcanon.follows.bytes_ne_zero _ hm
    refine ⟨fun hnil => hpos ?_, ?_⟩
    · rw [← hlen, hnil, length_nil]
    · rw [hlen]
      unfold usizeMax
      omega
  refine ⟨⟨?_, fun hall => ?_⟩, fun e he hfew => decodeToRaw_of_encode hcanon hsize hval hfew he⟩
  · rintro ⟨e, he⟩ m hm
    unfold encodeExpert at he
    rw [hcanon.parsed, ok_bind] at he
    obtain ⟨xs, hxs, -⟩ := bytes_of_encode (by omega) hcanon.length_head
      (List.append_nil _).symm he
    obtain ⟨i, hi, rfl⟩ := getElem_of_mem hm
    obtain ⟨encoded, henc, -⟩ := hxs.get hi (hxs.length_eq ▸ hi)
    obtain ⟨-, -, streams, hstr, hcnt, -⟩ := (encodeBytes_eq_ok hval).mp henc
    exact ⟨streams, hstr, hcnt⟩
  · have henc : ∀ m ∈ spans, ∃ encoded, encodeBytes (m.payload raw) t = .ok encoded := by
      intro m hm
      obtain ⟨streams, hstr, hle⟩ := hall m hm
      obtain ⟨hne, hmax⟩ := hfit m hm
      exact ((hcovers m hm).exists_record_iff hne hmax hstr).mpr hle
    have hsum := hcanon.sum_le
    have hhd := hcanon.length_head
    have hpr : prefixBytes = 448 := rfl
    have hsm : Small prefixBytes ⟨raw.take prefixBytes, 0, 0, 0⟩ :=
      ⟨hhd.ge, hhd.le, Nat.zero_le _, Nat.zero_le _, Nat.zero_le _⟩
    have hmax : prefixBytes + (spans.map fun m => (m.payload raw).length).sum
        + spans.length * roomBytes ≤ usizeMax := by
      unfold usizeMax roomBytes
      omega
    obtain ⟨e, he⟩ : ∃ e, (spans.zipIdx 0).foldlM (encodeMatrix raw t mode)
        ⟨raw.take prefixBytes, 0, 0, 0⟩ = .ok e :=
      exists_encode hval (by omega) henc hsm hmax
    exact ⟨e, by unfold encodeExpert; rw [hcanon.parsed, ok_bind, he]⟩

/-! ## The record of given matrices -/

/-- The fields of the header. -/
def headerWrites : List (Write UInt8) :=
  [(0, expertMagic), (8, u16Bytes 1), (12, u32Bytes 64), (24, u16Bytes 3), (28, u32Bytes 128),
   (40, u64Bytes (UInt64.ofNat prefixBytes))]

/-- The descriptors of matrices that are not coded, with their checksums. -/
def rawWrites (crc32c : List UInt8 → UInt32) : ℕ → ℕ → List (List UInt8) → List (Write UInt8)
  | _, _, [] => []
  | index, stop, x :: rest =>
    descriptorWrites index 0 0 (round16 stop) x.length x.length ++
    [(descriptorAt index + 96, u32Bytes (crc32c x))] ++
    rawWrites crc32c (index + 1) (round16 stop + x.length) rest

/-- The first bytes of a record. -/
def rawHead (crc32c : List UInt8 → UInt32) (xs : List (List UInt8)) : List UInt8 :=
  puts (List.replicate prefixBytes 0) (headerWrites ++ rawWrites crc32c 0 prefixBytes xs)

/-- **The record of some matrices.** -/
def rawRecord (crc32c : List UInt8 → UInt32) (xs : List (List UInt8)) : List UInt8 :=
  rawHead crc32c xs ++ bodyFrom [] xs

/-- Where its matrices are. -/
def spansFrom : ℕ → List (List UInt8) → List MatrixSpan
  | _, [] => []
  | stop, x :: rest => ⟨round16 stop, x.length⟩ :: spansFrom (round16 stop + x.length) rest

theorem laid_rawWrites (crc32c : List UInt8 → UInt32) (index stop : ℕ) (xs : List (List UInt8)) :
    Laid (descriptorAt index) (descriptorAt (index + xs.length))
      (rawWrites crc32c index stop xs) := by
  induction xs generalizing index stop with
  | nil => exact Laid.nil
  | cons x rest ih =>
    refine laid_descriptors (Laid.of_inOrder ?_) (ih (index + 1) _)
    simp only [descriptorWrites, cons_append, nil_append, Laid.InOrder,
      length_u16Bytes, length_u32Bytes, length_u64Bytes]
    unfold descriptorAt descBytes
    omega

section Raw

variable {crc32c : List UInt8 → UInt32} {xs : List (List UInt8)} (hcount : xs.length = matrixCount)

include hcount

/-- The first bytes hold the header and the descriptors. -/
theorem holds_rawHead : (rawHead crc32c xs).length = prefixBytes ∧
    HasWrites (rawHead crc32c xs) (headerWrites ++ rawWrites crc32c 0 prefixBytes xs) := by
  have hraw := laid_rawWrites crc32c 0 prefixBytes xs
  rw [Nat.zero_add, hcount, ← prefixBytes_eq] at hraw
  have hhdr : Laid 0 (descriptorAt 0) headerWrites := by
    refine Laid.of_inOrder ?_
    simp only [headerWrites, Laid.InOrder, length_u16Bytes, length_u32Bytes, length_u64Bytes]
    decide
  have hld : Laid 0 (List.replicate prefixBytes (0 : UInt8)).length
      (headerWrites ++ rawWrites crc32c 0 prefixBytes xs) := by
    rw [length_replicate]
    exact hhdr.append hraw (by decide) (by decide)
  exact ⟨(length_puts fun w hw => (hld.within w hw).2).trans length_replicate, holds_puts hld⟩

omit hcount in
/-- The matrices are where the spans say. -/
theorem follows_spansFrom {head b : List UInt8} (hhd : head.length = prefixBytes)
    {ys : List (List UInt8)} (hne : ∀ y ∈ ys, y ≠ []) :
    Follows (head ++ bodyFrom b ys) (prefixBytes + b.length)
      (spansFrom (prefixBytes + b.length) ys) := by
  induction ys generalizing b with
  | nil => exact (length_append).trans (by rw [hhd]; rfl)
  | cons y rest ih =>
    have hrnd : round16 (prefixBytes + b.length) = prefixBytes + round16 b.length := by
      unfold round16 prefixBytes
      omega
    have hres := ih (b := align b ++ y) fun z hz => hne z (mem_cons_of_mem _ hz)
    rw [length_append, length_align, ← Nat.add_assoc, ← hrnd] at hres
    refine ⟨rfl, fun hzer => hne y mem_cons_self (length_eq_zero_iff.mp hzer), ?_, hres⟩
    obtain ⟨tail, htl⟩ := bodyFrom_prefix (align b ++ y) rest
    have hgap : round16 (prefixBytes + b.length) - (prefixBytes + b.length)
        = round16 b.length - b.length := by
      rw [hrnd]
      omega
    rw [hgap, bodyFrom, htl, align, slice_append_right (by omega), hhd,
      Nat.add_sub_cancel_left, append_assoc, append_assoc,
      slice_append_right le_rfl, Nat.sub_self,
      slice_append_left (by rw [length_replicate]; omega)]
    have hall := slice_all (List.replicate (round16 b.length - b.length) (0 : UInt8))
    rwa [length_replicate] at hall

omit hcount in
/-- The matrices that the spans find. -/
theorem map_payload_spansFrom {head b : List UInt8} (hhd : head.length = prefixBytes)
    (ys : List (List UInt8)) : (spansFrom (prefixBytes + b.length) ys).map
      (fun m => m.payload (head ++ bodyFrom b ys)) = ys := by
  induction ys generalizing b with
  | nil => rfl
  | cons y rest ih =>
    have hrnd : round16 (prefixBytes + b.length) = prefixBytes + round16 b.length := by
      unfold round16 prefixBytes
      omega
    have hres := ih (b := align b ++ y)
    rw [length_append, length_align, ← Nat.add_assoc, ← hrnd] at hres
    rw [spansFrom, map_cons]
    refine congrArg₂ List.cons ?_ hres
    show slice _ (round16 (prefixBytes + b.length)) y.length = y
    rw [hrnd]
    exact slice_body hhd rest (List.append_nil y).symm rfl

omit hcount in
/-- What the descriptors say. -/
theorem holds_spansFrom {raw : List UInt8} {index stop : ℕ} {ys : List (List UInt8)}
    (h : HasWrites raw (rawWrites crc32c index stop ys)) (i : ℕ)
    (hi : i < (spansFrom stop ys).length) : ∃ hy : i < ys.length,
      (spansFrom stop ys)[i].bytes = ys[i].length ∧
      HasWrites raw (descriptorWrites (index + i) 0 0 (spansFrom stop ys)[i].offset
        (spansFrom stop ys)[i].bytes (spansFrom stop ys)[i].bytes) ∧
      slice raw (descriptorAt (index + i) + 96) 4 = u32Bytes (crc32c ys[i]) := by
  induction ys generalizing index stop i with
  | nil => exact absurd hi (Nat.not_lt_zero _)
  | cons y rest ih =>
    cases i with
    | zero =>
      refine ⟨Nat.zero_lt_succ _, rfl, h.left.left, ?_⟩
      have hcrc := h.left.right _ (mem_singleton_self _)
      rwa [length_u32Bytes] at hcrc
    | succ i =>
      obtain ⟨hy, hbytes, hwr, hcrc⟩ := ih h.right i (Nat.lt_of_succ_lt_succ hi)
      rw [show index + 1 + i = index + (i + 1) by omega] at hwr hcrc
      exact ⟨Nat.succ_lt_succ hy, hbytes, hwr, hcrc⟩

omit hcount in
@[simp] theorem length_spansFrom (stop : ℕ) (ys : List (List UInt8)) :
    (spansFrom stop ys).length = ys.length := by
  induction ys generalizing stop with
  | nil => rfl
  | cons y rest ih => exact congrArg (· + 1) (ih _)

omit hcount in
theorem Follows.within {raw : List UInt8} {stop : ℕ} (h : Follows raw stop spans) :
    ∀ m ∈ spans, stop ≤ m.offset ∧ m.offset + m.bytes ≤ raw.length := by
  induction spans generalizing stop with
  | nil => exact fun _ hm => absurd hm not_mem_nil
  | cons m rest ih =>
    intro m' hm'
    have hrnd := le_round16 stop
    have hoff := h.1
    rcases mem_cons.mp hm' with rfl | hm'
    · exact ⟨by omega, h.2.2.2.le⟩
    · obtain ⟨hlo, hhi⟩ := ih h.2.2.2 m' hm'
      exact ⟨by omega, hhi⟩

/-- **A record of three matrices is canonical** if its first bytes hold the header and the
descriptors. -/
theorem canonical_of_head {head raw : List UInt8} (hraw : raw = head ++ bodyFrom [] xs)
    (hhd : head.length = prefixBytes) (hfld : HasWrites head headerWrites)
    (hmat : HasWrites head (rawWrites crc32c 0 prefixBytes xs)) (hne : ∀ x ∈ xs, x ≠ [])
    (hmax : raw.length ≤ usizeMax) : Canonical crc32c raw (spansFrom prefixBytes xs) ∧
      (spansFrom prefixBytes xs).map (fun m => m.payload raw) = xs := by
  have hfol : Follows raw prefixBytes (spansFrom prefixBytes xs) :=
    hraw ▸ follows_spansFrom hhd hne
  have hpay : (spansFrom prefixBytes xs).map (fun m => m.payload raw) = xs :=
    hraw ▸ map_payload_spansFrom hhd xs
  have hidx := laid_rawWrites crc32c 0 prefixBytes xs
  rw [Nat.zero_add, hcount, ← prefixBytes_eq] at hidx
  have hhel : HasWrites raw (rawWrites crc32c 0 prefixBytes xs) :=
    hraw ▸ holds_append hmat fun w hw => ((hidx.within w hw).2).trans_eq hhd.symm
  have hhdr : HasWrites raw headerWrites := by
    rw [hraw]
    refine holds_append hfld fun w hw => ?_
    rw [hhd]
    simp only [headerWrites, mem_cons, not_mem_nil, or_false] at hw
    rcases hw with rfl | rfl | rfl | rfl | rfl | rfl <;>
      simp only [length_u16Bytes, length_u32Bytes, length_u64Bytes] <;> decide
  have hlen : prefixBytes ≤ raw.length := hfol.le
  have hsp : ∀ i (hi : i < (spansFrom prefixBytes xs).length),
      parseSpan raw i = .ok (spansFrom prefixBytes xs)[i] := by
    intro i hi
    obtain ⟨hy, hbytes, hwr, -⟩ := holds_spansFrom hhel i hi
    rw [Nat.zero_add] at hwr
    obtain ⟨hlo, hhi⟩ := hfol.within _ (getElem_mem hi)
    generalize (spansFrom prefixBytes xs)[i] = m at hwr hlo hhi
    obtain ⟨offset, hoff, hoffs⟩ := u64At_of_holds hwr (n := m.offset) (i := descriptorAt i + 48)
      (by simp only [descriptorWrites, mem_cons, true_or, or_true]) (by omega)
    obtain ⟨stored, hst, hstr⟩ := u64At_of_holds hwr (n := m.bytes) (i := descriptorAt i + 56)
      (by simp only [descriptorWrites, mem_cons, true_or, or_true]) (by omega)
    obtain ⟨decoded, hdec, hdcd⟩ := u64At_of_holds hwr (n := m.bytes) (i := descriptorAt i + 64)
      (by simp only [descriptorWrites, mem_cons, true_or, or_true]) (by omega)
    unfold parseSpan
    dsimp only
    rw [u16At_of_holds hwr (x := 0) mem_cons_self, ok_bind,
      u32At_of_holds hwr (x := 0) (mem_cons_of_mem _ mem_cons_self), ok_bind,
      hoff, ok_bind, hst, ok_bind, hdec, ok_bind, hoffs, hstr, hdcd,
      checkedSum_of_le (by omega), okOr_some, ok_bind, refuse_of_not (by
        simp only [ne_eq, not_true_eq_false, false_or, not_or, not_lt, gt_iff_lt]
        exact ⟨hlo, hhi⟩)]
    rfl
  have hpar : parseRaw raw = .ok (spansFrom prefixBytes xs) := by
    have hmag : range? raw 0 8 = some expertMagic :=
      range?_of_slice (n := 8) (hhdr (0, expertMagic) mem_cons_self) rfl (by decide)
    obtain ⟨size, hsiz, hszn⟩ := u64At_of_holds hhdr (n := prefixBytes) (i := 40)
      (by simp only [headerWrites, mem_cons, true_or, or_true]) (by omega)
    unfold parseRaw
    dsimp only
    rw [refuse_of_not (not_lt.mpr hlen), ok_bind, refuse_of_not (not_not.mpr hmag), ok_bind,
      u16At_of_holds hhdr (i := 8) (x := 1)
        (by simp only [headerWrites, mem_cons, true_or, or_true]), ok_bind,
      refuse_of_not (not_not.mpr rfl), ok_bind,
      u32At_of_holds hhdr (i := 12) (x := 64)
        (by simp only [headerWrites, mem_cons, true_or, or_true]), ok_bind,
      refuse_of_not (not_not.mpr rfl), ok_bind,
      u16At_of_holds hhdr (i := 24) (x := 3)
        (by simp only [headerWrites, mem_cons, true_or, or_true]), ok_bind,
      refuse_of_not (not_not.mpr rfl), ok_bind,
      u32At_of_holds hhdr (i := 28) (x := 128)
        (by simp only [headerWrites, mem_cons, true_or, or_true]), ok_bind,
      refuse_of_not (not_not.mpr rfl), ok_bind, hsiz, ok_bind,
      refuse_of_not (not_not.mpr hszn), ok_bind]
    exact mapM_range_eq_ok.mpr ⟨(length_spansFrom _ _).trans hcount, hsp⟩
  refine ⟨⟨hpar, hfol, fun i hi => ?_⟩, hpay⟩
  obtain ⟨hy, -, -, hcrc⟩ := holds_spansFrom hhel i hi
  rw [Nat.zero_add] at hcrc
  have hsam : (spansFrom prefixBytes xs)[i].payload raw = xs[i] := by
    have := congrArg (fun l => l[i]?) hpay
    simpa only [List.getElem?_map, List.getElem?_eq_getElem hi, List.getElem?_eq_getElem hy,
      Option.map_some, Option.some.injEq] using this
  rw [hsam]
  exact u32At?_of_slice hcrc

/-- **The record of three matrices is canonical.** -/
theorem canonical_rawRecord (hne : ∀ x ∈ xs, x ≠ [])
    (hmax : (rawRecord crc32c xs).length ≤ usizeMax) :
    Canonical crc32c (rawRecord crc32c xs) (spansFrom prefixBytes xs) ∧
      (spansFrom prefixBytes xs).map (fun m => m.payload (rawRecord crc32c xs)) = xs := by
  obtain ⟨hhd, hhol⟩ := @holds_rawHead crc32c xs hcount
  exact canonical_of_head hcount rfl hhd hhol.left hhol.right hne hmax

end Raw

theorem length_rawRecord_le (crc32c : List UInt8 → UInt32) {xs : List (List UInt8)}
    (hcount : xs.length = matrixCount) :
    (rawRecord crc32c xs).length ≤ prefixBytes + (xs.map fun x => x.length + 15).sum := by
  have hle := length_bodyFrom_le [] xs
  rw [rawRecord, length_append, (holds_rawHead hcount).1]
  rw [length_nil, Nat.zero_add] at hle
  omega

/-- Three matrices, of different sizes. -/
def threeMatrices : List (List UInt8) := [manyBytes, [1, 2, 3], [4]]

/-- Their record is restored. -/
theorem decodeToRaw_encodeExpert_three :
    ∃ e, encodeExpert (rawRecord crc32c threeMatrices) evenTable .force = .ok e ∧
      decodeToRaw crc32c e.bytes evenTable = .ok (rawRecord crc32c threeMatrices) := by
  have hle : (rawRecord crc32c threeMatrices).length ≤ 627 :=
    (length_rawRecord_le crc32c (rfl : threeMatrices.length = matrixCount)).trans_eq
      (by decide +kernel)
  obtain ⟨hcan, hpay⟩ := @canonical_rawRecord crc32c threeMatrices rfl (by decide)
    (hle.trans (by decide))
  have hmem (m : MatrixSpan) (hm : m ∈ spansFrom prefixBytes threeMatrices) :
      m.payload (rawRecord crc32c threeMatrices) ∈ threeMatrices := by
    have hmem := mem_map_of_mem (f := fun m : MatrixSpan =>
      m.payload (rawRecord crc32c threeMatrices)) hm
    rwa [hpay] at hmem
  have hcnt : ∀ x ∈ threeMatrices, x.length ≤ 2 ^ 27 ∧
      (encodeStreams x evenTable (x.length * 2)).map (fun s => decide (payloadBytes s ≤ u32Max)) =
        .ok true := by decide +kernel
  have hlos := decodeToRaw_encodeExpert hcan (hle.trans_lt (by norm_num))
    (fun m _ => evenTable_covers (m.payload _)) .force
  obtain ⟨e, he⟩ := hlos.1.mpr fun m hm => by
    obtain ⟨streams, hstr⟩ :=
      (evenTable_covers (m.payload (rawRecord crc32c threeMatrices))).exists_streams
    have hle := (hcnt _ (hmem m hm)).2
    rw [hstr] at hle
    exact ⟨streams, hstr, of_decide_eq_true (Except.ok.inj hle)⟩
  exact ⟨e, he, hlos.2 e he fun m hm => Or.inl (hcnt _ (hmem m hm)).1⟩

/-- A record with a matrix of 2^31 zero bytes is not coded, although each nibble
owns a slot. -/
theorem not_forall_decodeToRaw_encodeExpert : ¬ ∀ (raw : List UInt8) (spans : List MatrixSpan)
    (t : Table) (mode : Mode), Canonical crc32c raw spans →
      (∀ m ∈ spans, t.Covers (m.payload raw)) →
      ∃ e, encodeExpert raw t mode = .ok e ∧ decodeToRaw crc32c e.bytes t = .ok raw := by
  intro hall
  set xs : List (List UInt8) := List.replicate 3 (List.replicate (2 ^ 31) 0) with hxs
  have hcount : xs.length = matrixCount := length_replicate
  have hsum : (xs.map fun x => x.length + 15).sum = 3 * (2 ^ 31 + 15) := by
    rw [hxs, map_replicate, sum_replicate, length_replicate, smul_eq_mul]
  have hle := length_rawRecord_le crc32c hcount
  rw [hsum] at hle
  have hmax : (rawRecord crc32c xs).length ≤ usizeMax :=
    hle.trans (by norm_num [prefixBytes, usizeMax])
  have hne : ∀ x ∈ xs, x ≠ [] := by
    intro x hx
    rw [eq_of_mem_replicate hx, Ne, replicate_eq_nil_iff]
    norm_num
  obtain ⟨hcan, hpay⟩ := canonical_rawRecord hcount hne hmax
  have hzer : ∀ m ∈ spansFrom prefixBytes xs,
      m.payload (rawRecord crc32c xs) = List.replicate (2 ^ 31) 0 := by
    intro m hm
    have hmem := mem_map_of_mem (f := fun m : MatrixSpan =>
      m.payload (rawRecord crc32c xs)) hm
    rw [hpay] at hmem
    exact eq_of_mem_replicate hmem
  obtain ⟨e, he, -⟩ := hall _ _ rarestTable .force hcan fun m hm => by
    rw [hzer m hm]
    exact rarestTable_covers _
  unfold encodeExpert at he
  rw [hcan.parsed, ok_bind] at he
  have hsp : (spansFrom prefixBytes xs).length = 3 := (length_spansFrom _ _).trans hcount
  obtain ⟨ys, hys, -⟩ := bytes_of_encode (by rw [hsp]; exact le_rfl) hcan.length_head
    (List.append_nil _).symm he
  have hfst : 0 < (spansFrom prefixBytes xs).length := by omega
  obtain ⟨encoded, henc, -⟩ := hys.get hfst (hys.length_eq ▸ hfst)
  have hmat := hzer _ (getElem_mem hfst)
  rw [get_eq_getElem, hmat] at henc
  exact encodeBytes_zeros_ne encoded henc

end Apple8

end Logan
