import Logan.Coding.RansNibbles
import Logan.Coding.RansStreams

/-!
# Records

A record is two counts, the places of the streams, a gap, the streams and zero
bytes up to a multiple of 16. Nothing is left open: the counts and the streams
determine each byte. So the encoder writes a record of its streams, and the
reader, which finds the streams again by their places, accepts nothing but
records.
-/

namespace Logan

open List
open UInt64 (ofNat ofNat_toNat)

namespace Rans256

open Result

/-! ## The layout -/

/-- The places where streams begin, and where the last one ends. -/
def offsetsFrom : ℕ → List (List UInt8) → List ℕ
  | cursor, [] => [cursor]
  | cursor, stream :: rest => cursor :: offsetsFrom (cursor + stream.length) rest

/-- The places, as they are in the header. -/
def offsetTiles : ℕ → List ℕ → List (Write UInt8)
  | _, [] => []
  | index, offset :: rest =>
    (16 + index * 4, u32Bytes (UInt32.ofNat offset)) :: offsetTiles (index + 1) rest

/-- The streams, one after the other. -/
def streamTiles : ℕ → List (List UInt8) → List (Write UInt8)
  | _, [] => []
  | cursor, stream :: rest =>
    (headerBytes + cursor, stream) :: streamTiles (cursor + stream.length) rest

/-- Zero bytes between two places. -/
def zeroTile (start stop : ℕ) : Write UInt8 := (start, List.replicate (stop - start) 0)

/-- The bytes of a record. -/
def recordTiles (nSymbols packedBytes : ℕ) (streams : List (List UInt8)) : List (Write UInt8) :=
  [(0, u64Bytes (ofNat nSymbols)), (8, u64Bytes (ofNat packedBytes))] ++
  offsetTiles 0 (offsetsFrom 0 streams) ++
  [zeroTile (16 + (nStreams + 1) * 4) headerBytes] ++
  streamTiles 0 streams ++
  [zeroTile (headerBytes + payloadBytes streams) (headerBytes + round16 (payloadBytes streams))]

/-- **A record** of two counts and 256 streams. -/
structure IsRecord (record : List UInt8) (nSymbols packedBytes : ℕ)
    (streams : List (List UInt8)) : Prop where
  count : streams.length = nStreams
  size : record.length = headerBytes + round16 (payloadBytes streams)
  holds : HasWrites record (recordTiles nSymbols packedBytes streams)

theorem headerBytes_eq : headerBytes = 1056 := by decide

theorem nStreams_eq : nStreams = 256 := rfl

theorem le_round16 (n : ℕ) : n ≤ round16 n := by
  unfold round16
  omega

theorem round16_lt (n : ℕ) : round16 n < n + 16 := by
  unfold round16
  omega

@[simp] theorem length_zeroTile (start stop : ℕ) :
    (zeroTile start stop).2.length = stop - start := length_replicate

/-! ## There is no gap -/

@[simp] theorem length_offsetsFrom (cursor : ℕ) (streams : List (List UInt8)) :
    (offsetsFrom cursor streams).length = streams.length + 1 := by
  induction streams generalizing cursor with
  | nil => rfl
  | cons stream rest ih => exact congrArg (· + 1) (ih _)

theorem payloadBytes_cons (stream : List UInt8) (rest : List (List UInt8)) :
    payloadBytes (stream :: rest) = stream.length + payloadBytes rest := sum_cons

theorem tiles_offsetTiles (index : ℕ) (offsets : List ℕ) :
    Tiles (16 + index * 4) (16 + (index + offsets.length) * 4) (offsetTiles index offsets) := by
  induction offsets generalizing index with
  | nil => rfl
  | cons offset rest ih =>
    refine ⟨rfl, ?_⟩
    have hnex := ih (index + 1)
    rw [show index + 1 + rest.length = index + (offset :: rest).length by
      rw [length_cons]; omega] at hnex
    rwa [length_u32Bytes, show 16 + index * 4 + 4 = 16 + (index + 1) * 4 by ring]

theorem tiles_streamTiles (cursor : ℕ) (streams : List (List UInt8)) :
    Tiles (headerBytes + cursor) (headerBytes + cursor + payloadBytes streams)
      (streamTiles cursor streams) := by
  induction streams generalizing cursor with
  | nil => rfl
  | cons stream rest ih =>
    refine ⟨rfl, ?_⟩
    rw [payloadBytes_cons, Nat.add_assoc headerBytes cursor stream.length,
      show headerBytes + cursor + (stream.length + payloadBytes rest)
        = headerBytes + (cursor + stream.length) + payloadBytes rest by ring]
    exact ih _

theorem tiles_zeroTile {start stop : ℕ} (h : start ≤ stop) :
    Tiles start stop [zeroTile start stop] := by
  refine ⟨rfl, ?_⟩
  show start + (zeroTile start stop).2.length = stop
  rw [length_zeroTile]
  omega

variable {nSymbols packedBytes : ℕ} {streams : List (List UInt8)}

/-- **A record has no gap.** -/
theorem tiles_recordTiles (hcount : streams.length = nStreams) :
    Tiles 0 (headerBytes + round16 (payloadBytes streams))
      (recordTiles nSymbols packedBytes streams) := by
  have hcnts : Tiles 0 16 [(0, u64Bytes (ofNat nSymbols)), (8, u64Bytes (ofNat packedBytes))] := by
    refine ⟨rfl, ?_, ?_⟩
    · rw [length_u64Bytes]
    · rw [length_u64Bytes, length_u64Bytes]
      rfl
  have hoff := tiles_offsetTiles 0 (offsetsFrom 0 streams)
  rw [length_offsetsFrom, hcount, Nat.zero_mul, Nat.add_zero, Nat.zero_add] at hoff
  have hstr := tiles_streamTiles 0 streams
  rw [Nat.add_zero] at hstr
  exact (((hcnts.append hoff).append (tiles_zeroTile (by decide))).append hstr).append
    (tiles_zeroTile (Nat.add_le_add_left (le_round16 _) _))

variable {record : List UInt8}

/-- **The counts and the streams determine a record.** -/
theorem IsRecord.unique {record' : List UInt8} (h : IsRecord record nSymbols packedBytes streams)
    (h' : IsRecord record' nSymbols packedBytes streams) : record = record' := by
  refine eq_of_tiles ?_ (h'.size.trans h.size.symm) h.holds h'.holds
  rw [h.size]
  exact tiles_recordTiles h.count

/-! ## What the encoder writes -/

/-- The writes of the encoder, by what they write. -/
theorem streamWrites_perm (index cursor : ℕ) (streams : List (List UInt8)) :
    (streamWrites index cursor streams ++ [(16 + (index + streams.length) * 4,
        u32Bytes (UInt32.ofNat (cursor + payloadBytes streams)))]).Perm
      (offsetTiles index (offsetsFrom cursor streams) ++ streamTiles cursor streams) := by
  induction streams generalizing index cursor with
  | nil => exact List.Perm.refl _
  | cons stream rest ih =>
    have hres := ih (index + 1) (cursor + stream.length)
    rw [show index + 1 + rest.length = index + (stream :: rest).length by
      rw [length_cons]; omega, Nat.add_assoc cursor, ← payloadBytes_cons] at hres
    refine List.Perm.cons _ (List.Perm.trans (List.Perm.cons _ hres) ?_)
    exact perm_middle.symm

/-- The record that the encoder writes. -/
def recordOf (nSymbols packedBytes : ℕ) (streams : List (List UInt8)) : List UInt8 :=
  puts (List.replicate (headerBytes + round16 (payloadBytes streams)) 0)
    ([(0, u64Bytes (ofNat nSymbols)), (8, u64Bytes (ofNat packedBytes))] ++
      streamWrites 0 0 streams ++
      [(16 + nStreams * 4, u32Bytes (UInt32.ofNat (payloadBytes streams)))])

/-- **The encoder writes a record.** -/
theorem isRecord_recordOf (hcount : streams.length = nStreams) :
    IsRecord (recordOf nSymbols packedBytes streams) nSymbols packedBytes streams := by
  set counts : List (Write UInt8) := [(0, u64Bytes (ofNat nSymbols)),
    (8, u64Bytes (ofNat packedBytes))] with hcnts
  set ws := counts ++ streamWrites 0 0 streams ++
    [(16 + nStreams * 4, u32Bytes (UInt32.ofNat (payloadBytes streams)))] with hws
  set zs := [zeroTile (16 + (nStreams + 1) * 4) headerBytes,
    zeroTile (headerBytes + payloadBytes streams)
      (headerBytes + round16 (payloadBytes streams))] with hzs
  have hper : (ws ++ zs).Perm (recordTiles nSymbols packedBytes streams) := by
    have hstr := streamWrites_perm 0 0 streams
    rw [hcount, Nat.zero_add, Nat.zero_add] at hstr
    have hwr : ws.Perm (counts ++ (offsetTiles 0 (offsetsFrom 0 streams) ++
        streamTiles 0 streams)) := by
      rw [hws, append_assoc]
      exact hstr.append_left _
    refine (hwr.append_right zs).trans ?_
    rw [recordTiles, hzs, ← hcnts]
    simp only [append_assoc]
    refine ((?_ : List.Perm _ _).append_left _).append_left _
    exact perm_middle
  have htil : Tiles 0 (headerBytes + round16 (payloadBytes streams))
      (recordTiles nSymbols packedBytes streams) := tiles_recordTiles hcount
  have hwit := htil.laid.perm hper.symm
  refine ⟨hcount, ?_, (holds_puts_replicate hwit fun z hz => ?_).subset fun w hw =>
    hper.mem_iff.mpr hw⟩
  · refine (length_puts fun w hw => ?_).trans length_replicate
    rw [length_replicate]
    exact (hwit.within w (mem_append_left _ hw)).2
  · rw [hzs, mem_cons, mem_singleton] at hz
    rcases hz with rfl | rfl <;> rw [length_zeroTile] <;> rfl

/-- Sizes that 32 bits can count are far from an overflow. -/
theorem recordBytes_le {payload : ℕ} (h : payload ≤ u32Max) :
    headerBytes + round16 payload ≤ usizeMax := by
  have hmax : u32Max + 16 + headerBytes ≤ usizeMax := by decide
  have hrnd := round16_lt payload
  omega

/-- **What is encoded**: the record of the streams of all symbols, if their
bytes can be counted with 32 bits. -/
theorem encodeBytes_eq_ok {t : Table} (h : t.validate = .ok ()) {input : List UInt8} :
    encodeBytes input t = .ok record ↔ input ≠ [] ∧ input.length * 2 ≤ usizeMax ∧
      ∃ streams, encodeStreams input t (input.length * 2) = .ok streams ∧
        payloadBytes streams ≤ u32Max ∧
        IsRecord record (input.length * 2) input.length streams := by
  have hcount : ∀ streams, encodeStreams input t (input.length * 2) = .ok streams →
      streams.length = nStreams := fun streams hstr => (mapM_range_eq_ok.mp hstr).1
  unfold encodeBytes
  rw [h, ok_bind]
  simp only [bind_eq_ok, refuse_eq_ok, okOr_eq_ok, not_lt]
  constructor
  · rintro ⟨-, hne, n, hn, streams, hstr, payload, hpay, -, hle, total, htot, heq⟩
    obtain ⟨rfl, hmax⟩ := checkedProduct_eq_some.mp hn
    obtain rfl := (Nat.zero_add _).symm.trans (sum_of_foldlM_checkedSum hpay)
    obtain ⟨rfl, -⟩ := checkedSum_eq_some.mp htot
    cases heq
    exact ⟨hne, hmax, streams, hstr, hle, isRecord_recordOf (hcount streams hstr)⟩
  · rintro ⟨hne, hmax, streams, hstr, hle, hrec⟩
    have htot := recordBytes_le hle
    have hpay : streams.foldlM (fun sum stream => checkedSum sum stream.length) 0
        = some (payloadBytes streams) := by
      have hsum : 0 + (streams.map List.length).sum ≤ usizeMax := by
        have hrnd := le_round16 (payloadBytes streams)
        change 0 + payloadBytes streams ≤ usizeMax
        omega
      exact (foldlM_checkedSum_of_le hsum).trans (congrArg some (Nat.zero_add _))
    refine ⟨(), hne, _, checkedProduct_of_le hmax, streams, hstr, _, hpay, (), hle, _,
      checkedSum_of_le htot, congrArg Except.ok ?_⟩
    exact (isRecord_recordOf (hcount streams hstr)).unique hrec

/-! ## What the reader finds -/

variable (cursor : ℕ)

theorem offsetsFrom_le (streams : List (List UInt8)) :
    ∀ i ∈ offsetsFrom cursor streams, i ≤ cursor + payloadBytes streams := by
  induction streams generalizing cursor with
  | nil =>
    intro i hi
    rw [mem_singleton.mp hi]
    exact Nat.le_add_right _ _
  | cons stream rest ih =>
    intro i hi
    rw [payloadBytes_cons]
    rcases mem_cons.mp hi with rfl | hi
    · exact Nat.le_add_right _ _
    · have := ih _ i hi
      omega

/-- The pieces of a byte string between places. -/
def cut (bytes : List UInt8) : List ℕ → List (List UInt8)
  | start :: stop :: rest => slice bytes start (stop - start) :: cut bytes (stop :: rest)
  | _ => []

/-- Each place is at least four after the one before. -/
def Spaced (offsets : List ℕ) : Prop := List.IsChain (fun a b => a + 4 ≤ b) offsets

variable {bytes : List UInt8} {rest : List ℕ}

/-- **Places that grow are those of the pieces** between them. -/
theorem offsetsFrom_cut {start : ℕ}
    (h : Spaced (start :: rest)) (hlas : ∀ i ∈ start :: rest, i ≤ bytes.length) :
    offsetsFrom start (cut bytes (start :: rest)) = start :: rest := by
  induction rest generalizing start with
  | nil => rfl
  | cons stop rest ih =>
    have hle : start + 4 ≤ stop := (isChain_cons_cons.mp h).1
    have hst := hlas stop (mem_cons_of_mem _ mem_cons_self)
    rw [cut, offsetsFrom, length_slice (by omega), Nat.add_sub_cancel' (by omega),
      ih (isChain_cons_cons.mp h).2 fun i hi => hlas i (mem_cons_of_mem _ hi)]

theorem length_cut (bytes : List UInt8) (start : ℕ) (rest : List ℕ) :
    (cut bytes (start :: rest)).length = rest.length := by
  induction rest generalizing start with
  | nil => rfl
  | cons stop rest ih => exact congrArg (· + 1) (ih stop)

theorem le_length_of_mem_cut {start : ℕ}
    (h : Spaced (start :: rest)) (hlas : ∀ i ∈ start :: rest, i ≤ bytes.length) :
    ∀ piece ∈ cut bytes (start :: rest), 4 ≤ piece.length := by
  induction rest generalizing start with
  | nil => exact fun _ hpc => absurd hpc not_mem_nil
  | cons stop rest ih =>
    intro piece hpc
    have hle : start + 4 ≤ stop := (isChain_cons_cons.mp h).1
    have hst := hlas stop (mem_cons_of_mem _ mem_cons_self)
    rcases mem_cons.mp hpc with rfl | hpc
    · rw [length_slice (by omega)]
      omega
    · exact ih (isChain_cons_cons.mp h).2 (fun i hi => hlas i (mem_cons_of_mem _ hi))
        piece hpc

/-- The check of neighbouring places. -/
theorem spaced_iff (offsets : List ℕ) :
    ((offsets.zip offsets.tail).any fun pair => decide (pair.2 < pair.1 ∨ pair.2 - pair.1 < 4))
      = false ↔ Spaced offsets := by
  induction offsets with
  | nil => exact iff_of_true rfl isChain_nil
  | cons a rest ih =>
    cases rest with
    | nil => exact iff_of_true rfl (isChain_singleton a)
    | cons =>
      rw [Spaced, isChain_cons_cons, ← Spaced, ← ih]
      rw [tail_cons, zip_cons_cons, any_cons, Bool.or_eq_false_iff, decide_eq_false_iff_not]
      exact and_congr_left fun _ => by dsimp only; omega

theorem spaced_offsetsFrom {cursor : ℕ}
    (h : ∀ stream ∈ streams, 4 ≤ stream.length) : Spaced (offsetsFrom cursor streams) := by
  induction streams generalizing cursor with
  | nil => exact isChain_singleton _
  | cons stream rest ih =>
    have hres : Spaced (offsetsFrom (cursor + stream.length) rest) :=
      ih fun s hs => h s (mem_cons_of_mem _ hs)
    have hstream := h stream mem_cons_self
    cases rest with
    | nil | cons => exact isChain_cons_cons.mpr ⟨by omega, hres⟩

variable {offsets : List ℕ}

theorem mem_offsetTiles {index : ℕ} {w : Write UInt8} :
    w ∈ offsetTiles index offsets ↔ ∃ i, ∃ h : i < offsets.length,
      w = (16 + (index + i) * 4, u32Bytes (UInt32.ofNat offsets[i])) := by
  induction offsets generalizing index with
  | nil => exact iff_of_false not_mem_nil fun ⟨_, h, _⟩ => absurd h (Nat.not_lt_zero _)
  | cons offset rest ih =>
    rw [offsetTiles, mem_cons, ih]
    constructor
    · rintro (rfl | ⟨i, hi, rfl⟩)
      · exact ⟨0, Nat.zero_lt_succ _, rfl⟩
      · exact ⟨i + 1, Nat.succ_lt_succ hi, by
          rw [Nat.add_assoc index 1 i, Nat.add_comm 1 i, getElem_cons_succ]⟩
    · rintro ⟨i, hi, rfl⟩
      cases i with
      | zero => exact Or.inl rfl
      | succ i =>
        exact Or.inr ⟨i, Nat.lt_of_succ_lt_succ hi, by
          rw [Nat.add_assoc index 1 i, Nat.add_comm 1 i, getElem_cons_succ]⟩

/-- The places of a record are read. -/
theorem mapM_u32At {n : ℕ} (hn : offsets.length = n)
    (hmax : ∀ i ∈ offsets, i ≤ u32Max) :
    ((List.range n).mapM fun stream => UInt32.toNat <$> u32At record (16 + stream * 4))
        = .ok offsets ↔ HasWrites record (offsetTiles 0 offsets) := by
  rw [mapM_range_eq_ok]
  constructor
  · rintro ⟨-, hall⟩ w hw
    obtain ⟨i, hi, rfl⟩ := mem_offsetTiles.mp hw
    obtain ⟨x, hx, heq⟩ := map_eq_ok (hall i hi)
    rw [length_u32Bytes, ← heq, UInt32.ofNat_toNat, Nat.zero_add]
    exact slice_of_u32At? (okOr_eq_ok.mp hx)
  · refine fun h => ⟨hn, fun i hi => ?_⟩
    have hsl := h _ (mem_offsetTiles.mpr ⟨i, hi, rfl⟩)
    rw [length_u32Bytes, Nat.zero_add] at hsl
    rw [u32At, u32At?_of_slice hsl]
    refine congrArg Except.ok ?_
    have hle := hmax _ (getElem_mem hi)
    have hlt : offsets[i] < 2 ^ 32 := by
      unfold u32Max at hle
      omega
    rw [UInt32.toNat_ofNat', Nat.mod_eq_of_lt hlt]

theorem allZero_iff :
    allZero bytes = true ↔ bytes = List.replicate bytes.length 0 := by
  unfold allZero
  rw [all_eq_true, eq_replicate_iff, and_iff_right rfl]
  exact forall₂_congr fun b _ => decide_eq_true_iff

theorem Spaced.le_last {n : ℕ} (h : Spaced offsets)
    (hn : offsets.length = n + 1) : ∀ i ∈ offsets, i ≤ offsets.getD n 0 := by
  have htr : IsTrans ℕ fun a b => a + 4 ≤ b := ⟨fun a b c hab hbc => by omega⟩
  have hprs := pairwise_iff_getElem.mp (isChain_iff_pairwise.mp h)
  intro i hi
  obtain ⟨k, hk, rfl⟩ := getElem_of_mem hi
  rw [getD_eq_getElem _ _ (show n < offsets.length by omega)]
  rcases Nat.lt_or_ge k n with hlt | hge
  · have := hprs k n hk (by omega) hlt
    omega
  · exact le_of_eq (by congr 1; omega)

theorem offsetsFrom_last (streams : List (List UInt8)) :
    (offsetsFrom cursor streams).getD streams.length 0 = cursor + payloadBytes streams := by
  induction streams generalizing cursor with
  | nil => rfl
  | cons stream rest ih =>
    rw [offsetsFrom, length_cons, getD_cons_succ, ih, payloadBytes_cons, Nat.add_assoc]

theorem offsetsFrom_head (streams : List (List UInt8)) :
    (offsetsFrom cursor streams).getD 0 0 = cursor := by
  cases streams <;> rfl

/-- A record has its pieces. -/
theorem holds_cut {payload start : ℕ} (h : Spaced (start :: rest))
    (hlas : ∀ i ∈ start :: rest, i ≤ payload) (hlen : headerBytes + payload ≤ record.length) :
    HasWrites record (streamTiles start (cut (slice record headerBytes payload) (start :: rest))) := by
  induction rest generalizing start with
  | nil => exact fun _ hw => absurd hw not_mem_nil
  | cons stop rest ih =>
    have hle : start + 4 ≤ stop := (isChain_cons_cons.mp h).1
    have hst := hlas stop (mem_cons_of_mem _ mem_cons_self)
    have hpc : (slice (slice record headerBytes payload) start (stop - start)).length
        = stop - start := length_slice (by rw [length_slice hlen]; omega)
    intro w hw
    rw [cut, streamTiles, mem_cons, hpc, Nat.add_sub_cancel' (by omega)] at hw
    rcases hw with rfl | hw
    · dsimp only
      rw [hpc, slice_slice (by omega)]
    · exact ih (isChain_cons_cons.mp h).2 (fun i hi => hlas i (mem_cons_of_mem _ hi))
        w hw

theorem map_snd_streamTiles (streams : List (List UInt8)) :
    (streamTiles cursor streams).map Prod.snd = streams := by
  induction streams generalizing cursor with
  | nil => rfl
  | cons stream rest ih => exact congrArg (stream :: ·) (ih _)

theorem IsRecord.payload (h : IsRecord record nSymbols packedBytes streams) :
    slice record headerBytes (payloadBytes streams) = streams.flatten := by
  have hstr : HasWrites record (streamTiles 0 streams) := h.holds.left.right
  have hsl := slice_eq_of_tiles (tiles_streamTiles 0 streams) hstr
  rwa [map_snd_streamTiles, Nat.add_zero, Nat.add_sub_cancel_left] at hsl

/-- **What the reader finds in a record.** -/
structure ParsedRecord.Reads (record : List UInt8) (parsed : ParsedRecord)
    (streams : List (List UInt8)) : Prop where
  isRecord : IsRecord record parsed.nSymbols parsed.packedBytes streams
  /-- Each stream has a state. -/
  long : ∀ stream ∈ streams, 4 ≤ stream.length
  counted : payloadBytes streams ≤ u32Max
  nonempty : parsed.nSymbols ≠ 0
  packed : parsed.packedBytes = parsed.nSymbols / 2 + parsed.nSymbols % 2
  bounded : parsed.nSymbols ≤ usizeMax
  amplified : parsed.nSymbols ≤ payloadBytes streams * 8 * 2 ^ 15
  offsets : parsed.offsets = offsetsFrom 0 streams
  payload : parsed.payload = streams.flatten

theorem toNat_ofNat_of_le {n : ℕ} (h : n ≤ usizeMax) : (ofNat n).toNat = n := by
  have hlt : n < 2 ^ 64 := by
    unfold usizeMax at h
    omega
  rw [UInt64.toNat_ofNat', Nat.mod_eq_of_lt hlt]

/-- The gap and the padding are zero. -/
theorem allZero_slice_iff {start stop : ℕ} (h : start ≤ stop)
    (h' : stop ≤ record.length) : allZero (slice record start (stop - start)) = true ↔
      HasWrites record [zeroTile start stop] := by
  rw [allZero_iff, length_slice (by omega)]
  constructor
  · intro heq w hw
    rwa [mem_singleton.mp hw, length_zeroTile]
  · intro hw
    have := hw _ mem_cons_self
    rwa [length_zeroTile] at this

theorem toNat_le_u32Max (x : UInt32) : x.toNat ≤ u32Max := by
  have := x.toNat_lt
  unfold u32Max
  omega

theorem toNat_le_usizeMax (x : UInt64) : x.toNat ≤ usizeMax := by
  have := x.toNat_lt
  unfold usizeMax
  omega

theorem drop_eq_slice (record : List UInt8) (start : ℕ) :
    record.drop start = slice record start (record.length - start) := by
  rw [slice, take_of_length_le (by rw [length_drop])]

/-- **The reader accepts records only**, and all records that have enough
bytes for their symbols. -/
theorem ParsedRecord.parse_eq_ok {parsed : ParsedRecord} :
    ParsedRecord.parse record = .ok parsed ↔ ∃ streams, parsed.Reads record streams := by
  have hgpp : 16 + (nStreams + 1) * 4 ≤ headerBytes := by decide
  unfold ParsedRecord.parse
  simp only [bind_eq_ok, refuse_eq_ok, not_lt, not_or, not_not, okOr_eq_ok,
    Bool.not_eq_true, Bool.not_eq_false, gt_iff_lt]
  constructor
  · rintro ⟨-, hlen, n, hn, packed, hpac, -, ⟨hne, hhal⟩, offsets, hoff, -, hfst, -,
      hsp, expected, hexp, -, ⟨hsiz, hfit⟩, -, ⟨hgap, hpad⟩, -, hamp, heq⟩
    cases heq
    obtain ⟨hcount, hrd⟩ := mapM_range_eq_ok.mp hoff
    have hsp := (spaced_iff offsets).mp hsp
    have hmax : ∀ i ∈ offsets, i ≤ u32Max := by
      intro i hi
      obtain ⟨k, hk, rfl⟩ := getElem_of_mem hi
      obtain ⟨x, -, hx⟩ := map_eq_ok (hrd k hk)
      rw [← hx]
      exact toNat_le_u32Max x
    have hlas := hsp.le_last hcount
    set payload := offsets.getD nStreams 0 with hpay
    obtain ⟨rfl, -⟩ := checkedSum_eq_some.mp hexp
    -- the streams are the pieces between the places
    obtain ⟨start, rest, rfl⟩ := exists_cons_of_length_eq_add_one hcount
    obtain rfl : start = 0 := hfst
    have hbytes : (slice record headerBytes payload).length = payload := length_slice hfit
    set streams := cut (slice record headerBytes payload) (0 :: rest) with hstr
    have hpl : offsetsFrom 0 streams = 0 :: rest :=
      offsetsFrom_cut hsp fun i hi => (hlas i hi).trans (le_of_eq hbytes.symm)
    have hlng : streams.length = nStreams :=
      (length_cut _ _ _).trans (Nat.succ.inj hcount)
    have htot : payloadBytes streams = payload := by
      have := offsetsFrom_last 0 streams
      rw [hpl, hlng, Nat.zero_add] at this
      exact this.symm
    have hrec : IsRecord record n.toNat packed.toNat streams := by
      refine ⟨hlng, by rw [htot, hsiz], ?_⟩
      rw [recordTiles, hpl, htot]
      refine HasWrites.append (HasWrites.append (HasWrites.append (HasWrites.append ?_ ?_) ?_) ?_) ?_
      · intro w hw
        rw [mem_cons, mem_singleton] at hw
        rcases hw with rfl | rfl
        · rw [length_u64Bytes, ofNat_toNat]
          exact slice_of_u64At? (okOr_eq_ok.mp hn)
        · rw [length_u64Bytes, ofNat_toNat]
          exact slice_of_u64At? (okOr_eq_ok.mp hpac)
      · exact (mapM_u32At hcount hmax).mp hoff
      · exact (allZero_slice_iff hgpp hlen).mp hgap
      · exact holds_cut hsp hlas hfit
      · rw [drop_eq_slice, ← hsiz] at hpad
        refine (allZero_slice_iff ?_ (le_of_eq hsiz)).mp hpad
        exact Nat.add_le_add_left (le_round16 _) _
    have hcnt : payload ≤ u32Max := by
      rw [hpay, getD_eq_getElem _ _ (by rw [hcount]; exact Nat.lt_succ_self _)]
      exact hmax _ (getElem_mem _)
    have hpcs := hrec.payload
    rw [htot] at hpcs
    refine ⟨streams, hrec, le_length_of_mem_cut hsp fun i hi =>
      (hlas i hi).trans (le_of_eq hbytes.symm), ?_, hne, hhal, toNat_le_usizeMax n, ?_,
      hpl.symm, hpcs⟩
    · rwa [htot]
    · rw [htot]
      exact hamp
  · rintro ⟨streams, h⟩
    have hrec := h.isRecord
    have hpac : parsed.packedBytes ≤ usizeMax := by
      have := h.bounded
      rw [h.packed]
      omega
    have hrnd := le_round16 (payloadBytes streams)
    have hsp : Spaced (offsetsFrom 0 streams) := spaced_offsetsFrom h.long
    have hlng : (offsetsFrom 0 streams).length = nStreams + 1 := by
      rw [length_offsetsFrom, hrec.count]
    have hlas : (offsetsFrom 0 streams).getD nStreams 0 = payloadBytes streams := by
      rw [← hrec.count, offsetsFrom_last, Nat.zero_add]
    have hmax : ∀ i ∈ offsetsFrom 0 streams, i ≤ u32Max := fun i hi =>
      (hsp.le_last hlng i hi).trans (hlas ▸ h.counted)
    have hcnts := hrec.holds.left.left.left.left
    have hn : u64At? record 0 = some (ofNat parsed.nSymbols) :=
      u64At?_of_slice (hcnts _ mem_cons_self)
    have hp : u64At? record 8 = some (ofNat parsed.packedBytes) :=
      u64At?_of_slice (hcnts _ (mem_cons_of_mem _ mem_cons_self))
    refine ⟨(), by rw [hrec.size]; omega, _, okOr_eq_ok.mpr hn, _, okOr_eq_ok.mpr hp, (), ?_,
      offsetsFrom 0 streams, (mapM_u32At hlng hmax).mpr hrec.holds.left.left.left.right,
      (), offsetsFrom_head 0 streams, (), (spaced_iff _).mpr hsp, ?_⟩
    · rw [toNat_ofNat_of_le h.bounded, toNat_ofNat_of_le hpac]
      exact ⟨h.nonempty, h.packed⟩
    rw [hlas, toNat_ofNat_of_le h.bounded, toNat_ofNat_of_le hpac]
    refine ⟨_, checkedSum_of_le (recordBytes_le h.counted), (), ⟨hrec.size.symm, ?_⟩, (), ⟨?_, ?_⟩,
      (), h.amplified, ?_⟩
    · rw [hrec.size]
      omega
    · exact (allZero_slice_iff hgpp (by rw [hrec.size]; omega)).mpr hrec.holds.left.left.right
    · rw [drop_eq_slice, hrec.size]
      refine (allZero_slice_iff ?_ (le_of_eq hrec.size.symm)).mpr hrec.holds.right
      omega
    · obtain ⟨n, packed, offsets, payload⟩ := parsed
      obtain rfl : offsets = offsetsFrom 0 streams := h.offsets
      obtain rfl : payload = streams.flatten := h.payload
      rw [hrec.payload]
      rfl

/-! ## What is decoded -/

theorem offsetsFrom_add {cursor i : ℕ} (h : i ≤ streams.length) :
    (offsetsFrom cursor streams).getD i 0 = cursor + (offsetsFrom 0 streams).getD i 0 := by
  induction streams generalizing cursor i with
  | nil =>
    obtain rfl := Nat.le_zero.mp h
    rfl
  | cons stream rest ih =>
    cases i with
    | zero => rfl
    | succ i =>
      rw [offsetsFrom, offsetsFrom, getD_cons_succ, getD_cons_succ,
        ih (Nat.le_of_succ_le_succ h), @ih (0 + stream.length) i (Nat.le_of_succ_le_succ h)]
      omega

/-- **The places of a stream** are where it is. -/
theorem slice_flatten {i : ℕ} (h : i < streams.length) :
    slice streams.flatten ((offsetsFrom 0 streams).getD i 0)
      ((offsetsFrom 0 streams).getD (i + 1) 0 - (offsetsFrom 0 streams).getD i 0)
        = streams.getD i [] := by
  induction streams generalizing i with
  | nil => exact absurd h (Nat.not_lt_zero _)
  | cons stream rest ih =>
    cases i with
    | zero =>
      rw [offsetsFrom, getD_cons_zero, getD_cons_succ, offsetsFrom_head,
        Nat.zero_add, Nat.sub_zero, flatten_cons,
        slice_append_left (by omega), slice_all, getD_cons_zero]
    | succ i =>
      have hi : i < rest.length := Nat.lt_of_succ_lt_succ h
      rw [offsetsFrom, getD_cons_succ, getD_cons_succ, getD_cons_succ, ← ih hi,
        offsetsFrom_add (le_of_lt hi), offsetsFrom_add hi, Nat.zero_add, flatten_cons,
        slice_append_right (by omega), Nat.add_sub_cancel_left, Nat.add_sub_add_left]

/-- One stream of a record is decoded and put back. -/
theorem decodeInto_eq_ok {output out : List UInt8} {parsed : ParsedRecord}
    (hrd : parsed.Reads record streams) {t : Table} {slots : ℕ → Nibble} {i : ℕ}
    (hi : i < nStreams) : decodeInto parsed t slots output i = .ok out ↔
      ∃ decoded, decodeStreamChecked (streams.getD i [])
          (streamSymbolCount parsed.nSymbols i) t slots = .ok decoded ∧
        scatter output i decoded = out := by
  have hpc : slice parsed.payload (parsed.offsets.getD i 0)
      (parsed.offsets.getD (i + 1) 0 - parsed.offsets.getD i 0) = streams.getD i [] := by
    rw [hrd.payload, hrd.offsets]
    exact slice_flatten (hi.trans_eq hrd.isRecord.count.symm)
  unfold decodeInto
  dsimp only
  rw [hpc, bind_eq_ok]
  exact exists_congr fun decoded => and_congr_right fun _ =>
    ⟨fun h => Except.ok.inj h, fun h => congrArg Except.ok h⟩

section Valid

variable {t : Table} (h : t.validate = .ok ())

include h

/-- **The streams up to one are put back**: they can be dealt out again. -/
theorem gather_of_foldlM {parsed : ParsedRecord} (hrd : parsed.Reads record streams) {n m : ℕ}
    (hm : m ≤ nStreams) (hn : parsed.nSymbols = n * 2) {output out : List UInt8}
    (hlen : output.length = n)
    (hout : (List.range m).foldlM (decodeInto parsed t t.slotSymbol) output = .ok out) :
    out.length = n ∧ ∀ i < m, decodeStreamChecked (streams.getD i [])
      (streamSymbolCount (n * 2) i) t t.slotSymbol = .ok (gather out (n * 2) (n * 2) i) := by
  induction m generalizing out with
  | zero =>
    obtain rfl := Except.ok.inj hout
    exact ⟨hlen, fun i hi => absurd hi (Nat.not_lt_zero _)⟩
  | succ m ih =>
    rw [range_succ, foldlM_append] at hout
    obtain ⟨before, hbef, hout⟩ := bind_eq_ok.mp hout
    obtain ⟨after, haft, hpur⟩ := bind_eq_ok.mp hout
    cases hpur
    obtain ⟨hbl, hall⟩ := ih (Nat.le_of_succ_le hm) hbef
    obtain ⟨decoded, hdec, rfl⟩ := (decodeInto_eq_ok hrd hm).mp haft
    rw [hn] at hdec
    have hdl := (freq_ne_zero_of_decode h hdec).1
    have hbl' : n * 2 = before.length * 2 := by rw [hbl]
    refine ⟨(length_scatter _ _ _).trans hbl, fun i hi => ?_⟩
    rcases Nat.lt_succ_iff_lt_or_eq.mp hi with hlt | rfl
    · rw [gather_scatter_of_ne hbl' hdl hm (hi.trans_le hm) (Nat.ne_of_lt hlt)]
      exact hall i hlt
    · rwa [gather_scatter_self hbl' hdl]

/-- **What is decoded**: the bytes whose symbols are those of the streams. -/
theorem decodeBytes_eq_ok {out : List UInt8} {n : ℕ} : decodeBytes record t n = .ok out ↔
      ∃ (parsed : ParsedRecord) (streams : List (List UInt8)), parsed.Reads record streams ∧
      parsed.packedBytes = n ∧ parsed.nSymbols = n * 2 ∧ out.length = n ∧
      ∀ i < nStreams, decodeStreamChecked (streams.getD i []) (streamSymbolCount (n * 2) i) t
        t.slotSymbol = .ok (gather out (n * 2) (n * 2) i) := by
  have hsl : t.slotToSymbol = .ok t.slotSymbol := by
    unfold Table.slotToSymbol
    rw [h]
    rfl
  unfold decodeBytes
  rw [h, ok_bind, hsl]
  simp only [bind_eq_ok, refuse_eq_ok, okOr_eq_ok, not_not]
  constructor
  · rintro ⟨parsed, hpar, -, hpac, _, htw, -, hn, slots, hsl, hout⟩
    obtain ⟨streams, hrd⟩ := ParsedRecord.parse_eq_ok.mp hpar
    obtain ⟨rfl, -⟩ := checkedProduct_eq_some.mp htw
    cases hsl
    obtain ⟨hlen, hall⟩ := gather_of_foldlM h hrd le_rfl hn length_replicate hout
    exact ⟨parsed, streams, hrd, hpac, hn, hlen, hall⟩
  · rintro ⟨parsed, streams, hrd, hpac, hn, hlen, hall⟩
    -- every stream is decoded, so there is an output, and its symbols are those of `out`
    have hrun : ∀ m ≤ nStreams, ∃ out', (List.range m).foldlM
        (decodeInto parsed t t.slotSymbol) (List.replicate n 0) = .ok out' := by
      intro m
      induction m with
      | zero => exact fun _ => ⟨_, rfl⟩
      | succ m ih =>
        intro hm
        obtain ⟨before, hbef⟩ := ih (Nat.le_of_succ_le hm)
        have hstream := hall m hm
        rw [← hn] at hstream
        obtain ⟨after, haft⟩ : ∃ after, decodeInto parsed t t.slotSymbol before m = .ok after :=
          ⟨_, (decodeInto_eq_ok hrd hm).mpr ⟨_, hstream, rfl⟩⟩
        refine ⟨after, ?_⟩
        rw [range_succ, foldlM_append, hbef, ok_bind, foldlM_cons, haft]
        rfl
    obtain ⟨out', hout'⟩ := hrun nStreams le_rfl
    obtain ⟨hlen', hall'⟩ := gather_of_foldlM h hrd le_rfl hn length_replicate hout'
    have hsam : out' = out := eq_of_gather (by rw [hlen']) (hlen'.trans hlen.symm) fun i hi =>
      Except.ok.inj ((hall' i hi).symm.trans (hall i hi))
    have hbnd := hrd.bounded
    rw [hn] at hbnd
    exact ⟨parsed, ParsedRecord.parse_eq_ok.mpr ⟨streams, hrd⟩, (), hpac, _,
      checkedProduct_of_le hbnd, (), hn, _, rfl, hsam ▸ hout'⟩

end Valid

end Rans256

end Logan
