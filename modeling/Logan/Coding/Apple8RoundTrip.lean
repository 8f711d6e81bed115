import Logan.Coding.Apple8Stored
import Logan.Coding.RansLossless

/-!
# Coding an expert and back

The record of an expert whose matrices follow one another is its first bytes and
its matrices. Coding replaces the matrices and writes the descriptors anew; the
way back decodes the matrices and writes the descriptors as they were. The loops
are followed matrix by matrix: whatever has been written is first bytes, with
some descriptors written, and a body.
-/

namespace Logan

open List

namespace Apple8

open Result Rans256

/-! ## The loop of the encoder -/

/-- **How the encoder may store a matrix.** -/
def StoredBy (t : Table) (payload : List UInt8) (x : Stored) : Prop :=
  ∃ encoded, encodeBytes payload t = .ok encoded ∧
    (x = codedStored payload encoded ∨ x = rawStored payload)

variable {t : Table}

theorem StoredBy.payload_eq {payload : List UInt8} {x : Stored}
    (h : StoredBy t payload x) : x.payload = payload := by
  obtain ⟨encoded, -, rfl | rfl⟩ := h <;> rfl

variable {b : List UInt8}

theorem alignVec_eq_ok {out : List UInt8} :
    alignVec b = .ok out ↔ b.length + 15 ≤ usizeMax ∧ out = align b := by
  unfold alignVec
  simp only [bind_eq_ok, okOr_eq_ok, checkedSum_eq_some]
  constructor
  · rintro ⟨_, ⟨rfl, hle⟩, heq⟩
    exact ⟨hle, (Except.ok.inj heq).symm⟩
  · rintro ⟨hle, rfl⟩
    exact ⟨_, ⟨rfl, hle⟩, rfl⟩

variable {head : List UInt8} {index : ℕ}

theorem puts_descriptor (hhd : head.length = prefixBytes) (hidx : index < matrixCount)
    (codec : UInt16) (table : UInt32) (offset stored decoded : ℕ) :
    puts (head ++ b) (descriptorWrites index codec table offset stored decoded)
      = puts head (descriptorWrites index codec table offset stored decoded) ++ b :=
  puts_append_left fun _ hw => (descriptorWrites_within hidx hw).trans_eq hhd.symm

theorem length_puts_descriptor (hhd : head.length = prefixBytes) (hidx : index < matrixCount)
    (codec : UInt16) (table : UInt32) (offset stored decoded : ℕ) :
    (puts head (descriptorWrites index codec table offset stored decoded)).length = prefixBytes :=
  (length_puts fun _ hw => (descriptorWrites_within hidx hw).trans_eq hhd.symm).trans hhd

variable {raw : List UInt8}

/-- **One matrix is stored**: its descriptor is written, and its bytes follow. -/
theorem bytes_of_encodeMatrix {mode : Mode} {e e' : EncodedExpert} {span : MatrixSpan}
    (hidx : index < matrixCount) (hhd : head.length = prefixBytes)
    (hbytes : e.bytes = head ++ b) (h : encodeMatrix raw t mode e (span, index) = .ok e') :
    ∃ x, StoredBy t (span.payload raw) x ∧
      e'.bytes = puts head (descriptorWrites index x.codec x.table (prefixBytes + round16 b.length)
        x.stored x.payload.length) ++ (align b ++ x.bytes) := by
  unfold encodeMatrix at h
  dsimp only at h
  obtain ⟨encoded, henc, h⟩ := bind_eq_ok.mp h
  obtain ⟨output, hout, h⟩ := bind_eq_ok.mp h
  obtain ⟨-, rfl⟩ := alignVec_eq_ok.mp hout
  obtain ⟨next, hnex, h⟩ := bind_eq_ok.mp h
  obtain ⟨_, -, h⟩ := bind_eq_ok.mp h
  cases h
  have hlen : (align e.bytes).length = prefixBytes + round16 b.length := by
    rw [hbytes, align_append hhd, length_append, hhd, length_align]
  unfold storeMatrix at hnex
  rw [hlen, hbytes, align_append hhd] at hnex
  split_ifs at hnex
  · obtain ⟨_, -, hnex⟩ := bind_eq_ok.mp hnex
    obtain ⟨_, -, hnex⟩ := bind_eq_ok.mp hnex
    obtain ⟨_, -, hnex⟩ := bind_eq_ok.mp hnex
    obtain rfl := Except.ok.inj hnex
    refine ⟨codedStored (span.payload raw) encoded, ⟨encoded, henc, Or.inl rfl⟩, ?_⟩
    rw [puts_descriptor hhd hidx, append_assoc, append_assoc]
    rfl
  · obtain ⟨_, -, hnex⟩ := bind_eq_ok.mp hnex
    obtain rfl := Except.ok.inj hnex
    refine ⟨rawStored (span.payload raw), ⟨encoded, henc, Or.inr rfl⟩, ?_⟩
    rw [puts_descriptor hhd hidx, append_assoc]
    rfl

variable {spans : List MatrixSpan}

/-- **All matrices are stored**, one after the other. -/
theorem bytes_of_encode {mode : Mode} (hidx : index + spans.length ≤ matrixCount)
    {e e' : EncodedExpert} (hhd : head.length = prefixBytes) (hbytes : e.bytes = head ++ b)
    (h : (spans.zipIdx index).foldlM (encodeMatrix raw t mode) e = .ok e') :
    ∃ xs, List.Forall₂ (fun span x => StoredBy t (MatrixSpan.payload span raw) x) spans xs ∧
      e'.bytes = puts head (storedWrites index (prefixBytes + b.length) xs)
        ++ bodyFrom b (xs.map Stored.bytes) := by
  induction spans generalizing index e head b with
  | nil =>
    obtain rfl := Except.ok.inj h
    exact ⟨[], List.Forall₂.nil, hbytes⟩
  | cons span spans ih =>
    rw [length_cons] at hidx
    obtain ⟨mid, hmid, hres⟩ := bind_eq_ok.mp h
    obtain ⟨x, hx, hmdb⟩ := bytes_of_encodeMatrix (by omega) hhd hbytes hmid
    obtain ⟨xs, hxs, hfin⟩ := ih (by omega)
      (length_puts_descriptor hhd (by omega) _ _ _ _ _) hmdb hres
    have hrnd : round16 (prefixBytes + b.length) = prefixBytes + round16 b.length := by
      unfold round16 prefixBytes
      omega
    refine ⟨x :: xs, List.Forall₂.cons hx hxs, ?_⟩
    rw [hfin, storedWrites, puts_append, hrnd, length_append, length_align, ← Nat.add_assoc]
    rfl

/-! ## The loop of the decoder -/

/-- **A matrix that can be read** where it is stored. -/
def Stored.Readable (t : Table) (x : Stored) : Prop :=
  x = rawStored x.payload ∨ ∃ encoded, x = codedStored x.payload encoded ∧
    decodeBytes encoded t x.payload.length = .ok x.payload

variable {ws : List (Write UInt8)}

theorem u16At_of_holds {i : ℕ} {x : UInt16} (h : HasWrites b ws)
    (hmem : (i, u16Bytes x) ∈ ws) : u16At b i = .ok x := by
  have hsl := h _ hmem
  rw [length_u16Bytes] at hsl
  exact okOr_eq_ok.mpr (u16At?_of_slice hsl)

theorem u32At_of_holds {i : ℕ} {x : UInt32} (h : HasWrites b ws)
    (hmem : (i, u32Bytes x) ∈ ws) : u32At b i = .ok x := by
  have hsl := h _ hmem
  rw [length_u32Bytes] at hsl
  exact okOr_eq_ok.mpr (u32At?_of_slice hsl)

theorem u64At_of_holds {i n : ℕ} (h : HasWrites b ws) (hmem : (i, u64Bytes (UInt64.ofNat n)) ∈ ws)
    (hn : n ≤ usizeMax) : ∃ x, u64At b i = .ok x ∧ x.toNat = n := by
  have hsl := h _ hmem
  rw [length_u64Bytes] at hsl
  exact ⟨_, okOr_eq_ok.mpr (u64At?_of_slice hsl), toNat_ofNat_of_le hn⟩

theorem holds_append (h : HasWrites head ws)
    (hin : ∀ w ∈ ws, w.1 + w.2.length ≤ head.length) : HasWrites (head ++ b) ws := fun w hw =>
  (slice_append_left (hin w hw)).trans (h w hw)

/-- The bytes of a matrix are where its descriptor says. -/
theorem slice_body (hhd : head.length = prefixBytes) (rest : List (List UInt8))
    {x part tail : List UInt8} (hx : x = part ++ tail) {n : ℕ} (hpar : part.length = n) :
    slice (head ++ bodyFrom b (x :: rest)) (prefixBytes + round16 b.length) n = part := by
  obtain ⟨after, haft⟩ := bodyFrom_prefix (align b ++ x) rest
  rw [bodyFrom, haft, hx, slice_append_right (by omega), hhd, Nat.add_sub_cancel_left,
    append_assoc, append_assoc, slice_append_right (by rw [length_align]),
    length_align, Nat.sub_self, slice_append_left (by omega), ← hpar, slice_all]

/-- **A matrix is read** from where it is stored. -/
theorem readMatrix_eq_ok {x : Stored} (hx : x.Readable t) (hhd : head.length = prefixBytes)
    (rest : List (List UInt8)) (hmax : (head ++ bodyFrom b (x.bytes :: rest)).length ≤ usizeMax) :
    ∃ source, checkedSum (prefixBytes + round16 b.length) x.stored
        = some (prefixBytes + round16 b.length + x.stored) ∧
      range? (head ++ bodyFrom b (x.bytes :: rest)) (prefixBytes + round16 b.length)
        (prefixBytes + round16 b.length + x.stored) = some source ∧
      readMatrix (head ++ bodyFrom b (x.bytes :: rest)) t x.codec x.table
        (prefixBytes + round16 b.length + x.stored) x.stored x.payload.length source
          = .ok x.payload := by
  have hlen : prefixBytes + round16 b.length + x.bytes.length
      ≤ (head ++ bodyFrom b (x.bytes :: rest)).length := by
    have hle := le_length_bodyFrom (align b ++ x.bytes) rest
    rw [length_append, length_align] at hle
    rw [length_append, hhd, bodyFrom]
    omega
  rcases hx with hraw | ⟨encoded, hcod, hdec⟩
  · have hbytes : x.bytes = x.payload := by rw [hraw]; rfl
    have hst : x.stored = x.payload.length := by rw [hraw]; rfl
    have hsl : slice (head ++ bodyFrom b (x.bytes :: rest)) (prefixBytes + round16 b.length)
        x.stored = x.payload :=
      slice_body hhd rest (hbytes.trans (List.append_nil _).symm) hst.symm
    have hbyt : x.bytes.length = x.payload.length := congrArg List.length hbytes
    refine ⟨x.payload, checkedSum_of_le (by omega), ?_, ?_⟩
    · rw [range?_of_le (Nat.le_add_right _ _) (by omega), Nat.add_sub_cancel_left, hsl]
    · have hcdc : x.codec = 0 := by rw [hraw]; rfl
      have htab : x.table = 0 := by rw [hraw]; rfl
      unfold readMatrix
      rw [if_pos hcdc, refuse_of_not (by
        rintro (h | h)
        · exact h htab
        · exact h hst)]
      rfl
  · have hbytes : x.bytes = encoded ++ List.replicate readableSlack 0 := by rw [hcod]; rfl
    have hst : x.stored = encoded.length := by rw [hcod]; rfl
    have hbyt : x.bytes.length = x.stored + readableSlack := by
      rw [hbytes, length_append, length_replicate, hst]
    have hsl : slice (head ++ bodyFrom b (x.bytes :: rest)) (prefixBytes + round16 b.length)
        x.stored = encoded := slice_body hhd rest hbytes hst.symm
    have hwh : slice (head ++ bodyFrom b (x.bytes :: rest)) (prefixBytes + round16 b.length)
        (x.stored + readableSlack) = x.bytes :=
      slice_body hhd rest (List.append_nil _).symm hbyt
    rw [slice_add, hsl] at hwh
    have hslc := append_cancel_left (hwh.trans hbytes)
    refine ⟨encoded, checkedSum_of_le (by omega), ?_, ?_⟩
    · rw [range?_of_le (Nat.le_add_right _ _) (by omega), Nat.add_sub_cancel_left, hsl]
    · have hcdc : x.codec = codecId := by rw [hcod]; rfl
      have htab : x.table = tableId := by rw [hcod]; rfl
      have hzer : allZero (List.replicate readableSlack 0) = true := by decide
      unfold readMatrix
      rw [if_neg (by rw [hcdc]; decide), if_pos ⟨hcdc, htab⟩,
        checkedSum_of_le (by omega), okOr_some, ok_bind,
        range?_of_le (Nat.le_add_right _ _) (by omega), Nat.add_sub_cancel_left, hslc,
        Option.all_some, hzer, refuse_of_not (by decide), ok_bind]
      exact hdec

/-- **One matrix is restored**: its descriptor is written, and it follows. -/
theorem decodeMatrix_eq_ok {crc32c : List UInt8 → UInt32} {x : Stored} (hx : x.Readable t)
    {enc : List UInt8} (henc : enc.length = prefixBytes) (rest : List (List UInt8))
    (hmax : (enc ++ bodyFrom b (x.bytes :: rest)).length ≤ usizeMax) (hidx : index < matrixCount)
    (hhol : HasWrites enc (descriptorWrites index x.codec x.table (prefixBytes + round16 b.length)
      x.stored x.payload.length))
    (hcrc : slice enc (descriptorAt index + 96) 4 = u32Bytes (crc32c x.payload))
    (hpay : x.payload.length ≤ usizeMax) {out : List UInt8}
    (hhd : head.length = prefixBytes) (hout : prefixBytes + out.length + 15 ≤ usizeMax) :
    decodeMatrix crc32c (enc ++ bodyFrom b (x.bytes :: rest)) t (head ++ out) index
      = .ok (puts head (descriptorWrites index 0 0 (prefixBytes + round16 out.length)
          x.payload.length x.payload.length) ++ (align out ++ x.payload)) := by
  obtain ⟨source, hend, hsource, hrd⟩ := readMatrix_eq_ok hx henc rest hmax
  have hhel : HasWrites (enc ++ bodyFrom b (x.bytes :: rest)) _ :=
    holds_append hhol fun w hw => (descriptorWrites_within hidx hw).trans_eq henc.symm
  obtain ⟨hoff, -⟩ := checkedSum_eq_some.mp hend
  have hbnd := (checkedSum_eq_some.mp hend).2
  have hcod := u16At_of_holds hhel (x := x.codec) mem_cons_self
  have htab := u32At_of_holds hhel (x := x.table) (mem_cons_of_mem _ mem_cons_self)
  obtain ⟨offset, hoff, hoffs⟩ := u64At_of_holds hhel
    (n := prefixBytes + round16 b.length) (i := descriptorAt index + 48)
    (by simp only [descriptorWrites, mem_cons, true_or, or_true]) (by omega)
  obtain ⟨stored, hst, hstr⟩ := u64At_of_holds hhel (n := x.stored) (i := descriptorAt index + 56)
    (by simp only [descriptorWrites, mem_cons, true_or, or_true]) (by omega)
  obtain ⟨decoded, hdec, hdcd⟩ := u64At_of_holds hhel (n := x.payload.length)
    (i := descriptorAt index + 64)
    (by simp only [descriptorWrites, mem_cons, true_or, or_true]) hpay
  have hcrc' : u32At (enc ++ bodyFrom b (x.bytes :: rest)) (descriptorAt index + 96)
      = .ok (crc32c x.payload) := by
    refine okOr_eq_ok.mpr (u32At?_of_slice ?_)
    have hin : descriptorAt index + 96 + 4 ≤ enc.length := by
      rw [henc]
      unfold descriptorAt descBytes prefixBytes
      unfold matrixCount at hidx
      omega
    rw [slice_append_left hin, hcrc]
  unfold decodeMatrix
  dsimp only
  rw [hcod, ok_bind, htab, ok_bind, hoff, ok_bind, hst, ok_bind, hdec, ok_bind,
    hoffs, hstr, hdcd, hend, okOr_some, ok_bind, hsource, okOr_some, ok_bind,
    hrd, ok_bind, hcrc', ok_bind, refuse_of_not (not_not.mpr rfl), ok_bind,
    alignVec_eq_ok.mpr ⟨by rw [length_append, hhd]; omega, rfl⟩, ok_bind,
    align_append hhd, length_append, hhd, length_align, puts_descriptor hhd hidx,
    append_assoc]
  rfl

/-- **All matrices are restored**, one after the other. The bytes that have been
coded stay the same throughout, and what has been written of the record grows. -/
theorem bytes_of_decode {crc32c : List UInt8 → UInt32} {xs : List Stored}
    (hidx : index + xs.length ≤ matrixCount) {enc : List UInt8}
    (henc : enc.length = prefixBytes)
    (hmax : (enc ++ bodyFrom b (xs.map Stored.bytes)).length ≤ usizeMax)
    (hhol : HasWrites enc (storedWrites index (prefixBytes + b.length) xs))
    (hcrc : ∀ i (h : i < xs.length),
      slice enc (descriptorAt (index + i) + 96) 4 = u32Bytes (crc32c xs[i].payload))
    (hxs : ∀ x ∈ xs, x.Readable t) {out : List UInt8} (hhd : head.length = prefixBytes)
    (hout : (head ++ bodyFrom out (xs.map Stored.payload)).length + 15 ≤ usizeMax) :
    (List.range' index xs.length).foldlM
        (decodeMatrix crc32c (enc ++ bodyFrom b (xs.map Stored.bytes)) t) (head ++ out)
      = .ok (puts head (storedWrites index (prefixBytes + out.length)
            (xs.map fun x => rawStored x.payload)) ++ bodyFrom out (xs.map Stored.payload)) := by
  induction xs generalizing index b head out with
  | nil => rfl
  | cons x rest ih =>
    rw [length_cons] at hidx
    have hrnd : ∀ n, round16 (prefixBytes + n) = prefixBytes + round16 n := by
      intro n
      unfold round16 prefixBytes
      omega
    have hnex : ∀ (a y : List UInt8), round16 (prefixBytes + a.length) + y.length
        = prefixBytes + (align a ++ y).length := by
      intro a y
      rw [hrnd, length_append, length_align, Nat.add_assoc]
    rw [storedWrites, hrnd] at hhol
    have hpay : prefixBytes + out.length + 15 ≤ usizeMax ∧ x.payload.length ≤ usizeMax := by
      have hle := le_length_bodyFrom out ((x :: rest).map Stored.payload)
      rw [map_cons, map_cons, sum_cons] at hle
      rw [length_append, hhd, map_cons] at hout
      omega
    have hfst := hcrc 0 (Nat.zero_lt_succ _)
    rw [length_cons, List.range'_succ, foldlM_cons, map_cons,
      decodeMatrix_eq_ok (hxs x mem_cons_self) henc _ hmax (by omega) hhol.left hfst
        hpay.2 hhd hpay.1, ok_bind]
    have hmax' : (enc ++ bodyFrom (align b ++ x.bytes) (rest.map Stored.bytes)).length
        ≤ usizeMax := hmax
    have hhol' : HasWrites enc (storedWrites (index + 1)
        (prefixBytes + (align b ++ x.bytes).length) rest) := by
      rw [← hnex, hrnd]
      exact hhol.right
    have hcrc' : ∀ i (h : i < rest.length), slice enc (descriptorAt (index + 1 + i) + 96) 4
        = u32Bytes (crc32c rest[i].payload) := by
      intro i hi
      rw [show index + 1 + i = index + (i + 1) by omega]
      exact hcrc (i + 1) (Nat.succ_lt_succ hi)
    have hhd' : (puts head (descriptorWrites index 0 0 (prefixBytes + round16 out.length)
        x.payload.length x.payload.length)).length = prefixBytes :=
      length_puts_descriptor hhd (by omega) _ _ _ _ _
    have hout' : (puts head (descriptorWrites index 0 0 (prefixBytes + round16 out.length)
        x.payload.length x.payload.length) ++ bodyFrom (align out ++ x.payload)
          (rest.map Stored.payload)).length + 15 ≤ usizeMax := by
      rw [length_append, hhd']
      rwa [length_append, hhd] at hout
    have hres := ih (by omega) hmax' hhol' hcrc'
      (fun y hy => hxs y (mem_cons_of_mem _ hy)) hhd' hout'
    rw [bodyFrom, hres, map_cons, map_cons, storedWrites, puts_append, bodyFrom, ← hnex, hrnd]
    rfl

/-! ## Canonical records -/

/-- **Matrices that follow one another**: each is aligned, none is empty, the
bytes between are zero, and nothing is left at the end. -/
def Follows (raw : List UInt8) : ℕ → List MatrixSpan → Prop
  | stop, [] => raw.length = stop
  | stop, m :: rest => m.offset = round16 stop ∧ m.bytes ≠ 0 ∧
    slice raw stop (m.offset - stop) = List.replicate (m.offset - stop) 0 ∧
    Follows raw (m.offset + m.bytes) rest

/-- **A canonical record**, with its matrices. -/
structure Canonical (crc32c : List UInt8 → UInt32) (raw : List UInt8) (spans : List MatrixSpan) :
    Prop where
  parsed : parseRaw raw = .ok spans
  follows : Follows raw prefixBytes spans
  checksums : ∀ i (h : i < spans.length),
    u32At? raw (descriptorAt i + 96) = some (crc32c (spans[i].payload raw))

theorem Follows.le {stop : ℕ} (h : Follows raw stop spans) : stop ≤ raw.length := by
  induction spans generalizing stop with
  | nil => exact le_of_eq (Eq.symm h)
  | cons m rest ih =>
    have hres := ih h.2.2.2
    have hrnd := le_round16 stop
    have hoff := h.1
    omega

theorem Follows.bytes_ne_zero {stop : ℕ}
    (h : Follows raw stop spans) : ∀ m ∈ spans, m.bytes ≠ 0 := by
  induction spans generalizing stop with
  | nil => exact fun _ hm => absurd hm not_mem_nil
  | cons m rest ih =>
    intro m' hm'
    rcases mem_cons.mp hm' with rfl | hm'
    · exact h.2.1
    · exact ih h.2.2.2 m' hm'

theorem take_add (b : List UInt8) (m n : ℕ) : b.take (m + n) = b.take m ++ slice b m n :=
  List.take_add

/-- **A canonical record is its first bytes and its matrices.** -/
theorem Follows.eq_bodyFrom {stop : ℕ} (h : Follows raw stop spans) :
    raw = bodyFrom (raw.take stop) (spans.map fun m => m.payload raw) := by
  induction spans generalizing stop with
  | nil => exact (take_of_length_le (le_of_eq h)).symm
  | cons m rest ih =>
    obtain ⟨hoff, -, hzer, hres⟩ := h
    have hrnd := le_round16 stop
    have hbnd := hres.le
    have hlen : (raw.take stop).length = stop := by
      rw [length_take]
      omega
    rw [map_cons, bodyFrom, align, hlen, ← hoff, ← hzer, ← take_add, Nat.add_sub_cancel' (by omega)]
    have hpay : raw.take m.offset ++ m.payload raw = raw.take (m.offset + m.bytes) :=
      (take_add _ _ _).symm
    rw [hpay]
    exact ih hres

theorem length_payload {m : MatrixSpan} (h : m.offset + m.bytes ≤ raw.length) :
    (m.payload raw).length = m.bytes := length_slice h

/-- A matrix that is found: its descriptor says that it is not coded. -/
theorem holds_of_parseSpan {m : MatrixSpan} (h : parseSpan raw index = .ok m) :
    HasWrites raw (descriptorWrites index 0 0 m.offset m.bytes m.bytes) ∧
      m.offset + m.bytes ≤ raw.length := by
  unfold parseSpan at h
  dsimp only at h
  obtain ⟨codec, hcod, h⟩ := bind_eq_ok.mp h
  obtain ⟨table, htab, h⟩ := bind_eq_ok.mp h
  obtain ⟨offset, hoff, h⟩ := bind_eq_ok.mp h
  obtain ⟨stored, hst, h⟩ := bind_eq_ok.mp h
  obtain ⟨decoded, hdec, h⟩ := bind_eq_ok.mp h
  obtain ⟨stop, hstp, h⟩ := bind_eq_ok.mp h
  obtain ⟨_, hch, h⟩ := bind_eq_ok.mp h
  cases h
  obtain ⟨hstp, -⟩ := checkedSum_eq_some.mp (okOr_eq_ok.mp hstp)
  have hch := refuse_eq_ok.mp hch
  simp only [not_or, not_not, not_lt] at hch
  obtain ⟨rfl, rfl, hsiz, -, hfit⟩ := hch
  refine ⟨fun w hw => ?_, by dsimp only; omega⟩
  simp only [descriptorWrites, mem_cons, not_mem_nil, or_false, UInt64.ofNat_toNat] at hw
  have hsam : stored = decoded := UInt64.toNat_inj.mp hsiz
  rcases hw with rfl | rfl | rfl | rfl | rfl
  · rw [length_u16Bytes]
    exact slice_of_u16At? (okOr_eq_ok.mp hcod)
  · rw [length_u32Bytes]
    exact slice_of_u32At? (okOr_eq_ok.mp htab)
  · rw [length_u64Bytes]
    exact slice_of_u64At? (okOr_eq_ok.mp hoff)
  · rw [length_u64Bytes, ← hsam]
    exact slice_of_u64At? (okOr_eq_ok.mp hst)
  · rw [length_u64Bytes]
    exact slice_of_u64At? (okOr_eq_ok.mp hdec)

/-- **The descriptors of a canonical record** are those of its matrices. -/
theorem Follows.holds {stop : ℕ} (h : Follows raw stop spans)
    (hsp : ∀ i (hi : i < spans.length), parseSpan raw (index + i) = .ok spans[i]) :
    HasWrites raw (storedWrites index stop (spans.map fun m => rawStored (m.payload raw))) := by
  induction spans generalizing stop index with
  | nil => exact fun _ hw => absurd hw not_mem_nil
  | cons m rest ih =>
    obtain ⟨hoff, -, -, hres⟩ := h
    have hfst := holds_of_parseSpan (hsp 0 (Nat.zero_lt_succ _))
    have hlen := length_payload hfst.2
    refine HasWrites.append ?_ ?_
    · show HasWrites raw (descriptorWrites index 0 0 (round16 stop) (m.payload raw).length
        (m.payload raw).length)
      rw [← hoff]
      change (m.payload raw).length = m.bytes at hlen
      rw [hlen]
      exact hfst.1
    · show HasWrites raw (storedWrites (index + 1) (round16 stop + (m.payload raw).length) _)
      change (m.payload raw).length = m.bytes at hlen
      rw [← hoff, hlen]
      refine ih hres fun i hi => ?_
      rw [show index + 1 + i = index + (i + 1) by omega]
      exact hsp (i + 1) (Nat.succ_lt_succ hi)

end Apple8

end Logan
