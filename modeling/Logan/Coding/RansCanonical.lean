import Logan.Coding.RansRecords

/-!
# Which records are canonical

A record that is decoded has its streams where its header says, and nothing
else: its bytes are the record of its streams. So it is what the encoder
makes of the decoded bytes exactly if each stream is. That depends only on the
state that the stream begins with, of which the reader checks the lower bound
but not the upper one.
-/

namespace Logan

open List

namespace Rans256

open Result

/-! ## The streams of a record -/

/-- **A record has one division** into streams. -/
theorem IsRecord.streams_unique {record : List UInt8} {n n' p p' : ℕ}
    {streams streams' : List (List UInt8)} (h : IsRecord record n p streams)
    (h' : IsRecord record n' p' streams') (hle : payloadBytes streams ≤ u32Max)
    (hle' : payloadBytes streams' ≤ u32Max) : streams = streams' := by
  have hrd : ∀ {n p : ℕ} {streams : List (List UInt8)}, IsRecord record n p streams →
      payloadBytes streams ≤ u32Max →
      ((List.range (nStreams + 1)).mapM fun stream =>
        UInt32.toNat <$> u32At record (16 + stream * 4)) = .ok (offsetsFrom 0 streams) := by
    intro n p streams h hle
    have hlen : (offsetsFrom 0 streams).length = nStreams + 1 := by
      rw [length_offsetsFrom, h.count]
    refine (mapM_u32At hlen fun i hi => ?_).mpr h.holds.left.left.left.right
    have := offsetsFrom_le 0 streams i hi
    omega
  have hoff : offsetsFrom 0 streams = offsetsFrom 0 streams' :=
    Except.ok.inj ((hrd h hle).symm.trans (hrd h' hle'))
  have hpay : payloadBytes streams = payloadBytes streams' := by
    have hlas := offsetsFrom_last 0 streams
    have hlas' := offsetsFrom_last 0 streams'
    rw [h.count] at hlas
    rw [h'.count, ← hoff, hlas] at hlas'
    omega
  have hfl : streams.flatten = streams'.flatten := by
    rw [← h.payload, ← h'.payload, hpay]
  refine ext_getElem (h.count.trans h'.count.symm) fun i hi hi' => ?_
  rw [← getD_eq_getElem streams [] hi, ← getD_eq_getElem streams' [] hi',
    ← slice_flatten hi, ← slice_flatten hi', hoff, hfl]

theorem encodeStreams_eq_ok {input : List UInt8} {t : Table} {n : ℕ}
    {streams : List (List UInt8)} (hcount : streams.length = nStreams) :
    encodeStreams input t n = .ok streams ↔
      ∀ i < nStreams, encodeStream t (gather input n n i) = .ok (streams.getD i []) := by
  unfold encodeStreams
  rw [mapM_range_eq_ok, and_iff_right hcount]
  constructor
  · intro h i hi
    rw [getD_eq_getElem _ _ (hi.trans_eq hcount.symm)]
    exact h i _
  · intro h i hi
    rw [← getD_eq_getElem _ [] hi]
    exact h i (hi.trans_eq hcount)

/-! ## The states -/

/-- **Each stream of a record begins with a state** of 31 bits. -/
def StatesInRange (record : List UInt8) : Prop :=
  ∀ i < nStreams, ∀ offset, u32At? record (16 + i * 4) = some offset →
    initialState (slice record (headerBytes + offset.toNat) 4) < 2 ^ 31

theorem initialState_take (stream : List UInt8) :
    initialState (slice stream 0 4) = initialState stream := by
  rw [initialState, initialState, slice, drop_zero, take_take, Nat.min_self]

/-- The states are those of the streams. -/
theorem statesInRange_iff {record : List UInt8} {n p : ℕ} {streams : List (List UInt8)}
    (h : IsRecord record n p streams) (hlong : ∀ stream ∈ streams, 4 ≤ stream.length)
    (hle : payloadBytes streams ≤ u32Max) :
    StatesInRange record ↔ ∀ i < nStreams, initialState (streams.getD i []) < 2 ^ 31 := by
  refine forall₂_congr fun i hi => ?_
  have hlng : i < (offsetsFrom 0 streams).length := by
    rw [length_offsetsFrom, h.count]
    exact Nat.lt_succ_of_lt hi
  have hstr : i < streams.length := hi.trans_eq h.count.symm
  set offset := (offsetsFrom 0 streams)[i] with hoff
  have hoff' : (offsetsFrom 0 streams).getD i 0 = offset := getD_eq_getElem _ _ hlng
  have hfld : u32At? record (16 + i * 4) = some (UInt32.ofNat offset) := by
    refine u32At?_of_slice ?_
    have hhel := h.holds.left.left.left.right _ (mem_offsetTiles.mpr ⟨i, hlng, rfl⟩)
    rwa [length_u32Bytes, Nat.zero_add] at hhel
  have hmax := offsetsFrom_le 0 streams offset (getElem_mem hlng)
  have htnt : (UInt32.ofNat offset).toNat = offset := by
    have hlt : offset < 2 ^ 32 := by
      unfold u32Max at hle
      omega
    rw [UInt32.toNat_ofNat', Nat.mod_eq_of_lt hlt]
  -- the state of a stream is its first four bytes
  have hpc : slice (slice record headerBytes (payloadBytes streams)) offset
      ((offsetsFrom 0 streams).getD (i + 1) 0 - offset) = streams.getD i [] := by
    rw [h.payload, ← hoff']
    exact slice_flatten hstr
  have hfr : 4 ≤ (streams.getD i []).length := by
    rw [getD_eq_getElem _ _ hstr]
    exact hlong _ (getElem_mem hstr)
  have hnex : offset + 4 ≤ payloadBytes streams := by
    have hlen := congrArg List.length hpc
    rw [slice, length_take, length_drop, slice, length_take] at hlen
    omega
  have hgap : 4 ≤ (offsetsFrom 0 streams).getD (i + 1) 0 - offset := by
    have hlen := length_slice_le (slice record headerBytes (payloadBytes streams)) offset
      ((offsetsFrom 0 streams).getD (i + 1) 0 - offset)
    rw [hpc] at hlen
    omega
  have hst : initialState (slice record (headerBytes + offset) 4)
      = initialState (streams.getD i []) := by
    rw [← initialState_take (streams.getD i []), ← hpc, slice_slice (by omega),
      slice_slice (by omega), Nat.add_zero]
  rw [hfld]
  constructor
  · intro hall
    rw [← hst, ← htnt]
    exact hall _ rfl
  · intro hlt offset' heq
    cases heq
    rwa [htnt, hst]

/-! ## Encoding again -/

/-- **A record that is decoded is what the encoder makes of the bytes** exactly
if each of its streams begins with a state of 31 bits. -/
theorem encodeBytes_iff_of_decode {record x : List UInt8} {t : Table} {n : ℕ}
    (hdecode : decodeBytes record t n = .ok x) :
    encodeBytes x t = .ok record ↔ StatesInRange record := by
  have h : t.validate = .ok () := by
    obtain ⟨_, hval, -⟩ := bind_eq_ok.mp hdecode
    exact hval
  obtain ⟨parsed, streams, hrd, hpac, hn, rfl, hall⟩ := (decodeBytes_eq_ok h).mp hdecode
  have hrec := hrd.isRecord
  rw [hn, hpac] at hrec
  rw [statesInRange_iff hrec hrd.long hrd.counted, encodeBytes_eq_ok h]
  constructor
  · rintro ⟨-, -, streams', hstr', hcnt', hrec'⟩ i hi
    obtain rfl := hrec.streams_unique hrec' hrd.counted hcnt'
    exact (encodeStream_iff_of_decode h (hall i hi)).mp
      ((encodeStreams_eq_ok hrec.count).mp hstr' i hi)
  · intro hst
    have hbnd := hrd.bounded
    rw [hn] at hbnd
    refine ⟨fun hnil => hrd.nonempty ?_, hbnd, streams,
      (encodeStreams_eq_ok hrec.count).mpr fun i hi =>
        (encodeStream_iff_of_decode h (hall i hi)).mpr (hst i hi),
      hrd.counted, hrec⟩
    rw [hn, hnil]
    rfl

/-! ## A record that is not canonical -/

/-- A table in which the symbol 0 is rare. -/
def rareTable : Table where
  freq s := if s = 0 then 64 else if s = 1 then 16320 else 0
  start s := if s = 0 then 0 else if s = 1 then 64 else 16384

theorem rareTable_valid : rareTable.validate = .ok () := by decide

/-- The streams of the byte 0: two symbols, and then none. -/
def zeroStreams (stream : List UInt8) : List (List UInt8) :=
  List.replicate 2 stream ++ List.replicate 254 [0, 0x80, 0, 0]

/-- A record of the byte 0, by the stream of its two symbols. -/
def zeroRecord (stream : List UInt8) : List UInt8 := recordOf 2 1 (zeroStreams stream)

theorem getD_zeroStreams (stream : List UInt8) {i : ℕ} (hi : i < nStreams) :
    (zeroStreams stream).getD i [] = if i < 2 then stream else [0, 0x80, 0, 0] := by
  have hlt : i < 256 := hi
  rw [getD_eq_getElem?_getD, zeroStreams, List.getElem?_append, length_replicate]
  split_ifs with h
  · rw [List.getElem?_replicate, if_pos h, Option.getD_some]
  · rw [List.getElem?_replicate, if_pos (by omega), Option.getD_some]

section Zero

variable {stream : List UInt8} (hstream : stream.length = 4 ∨ stream.length = 5)

include hstream

/-- What the reader finds in a record of the byte 0. -/
theorem reads_zeroRecord : ParsedRecord.Reads (zeroRecord stream)
    ⟨2, 1, offsetsFrom 0 (zeroStreams stream), (zeroStreams stream).flatten⟩
    (zeroStreams stream) := by
  have hpay : payloadBytes (zeroStreams stream) = 2 * stream.length + 1016 := by
    rw [payloadBytes, zeroStreams, List.map_append, map_replicate, map_replicate,
      sum_append, sum_replicate, sum_replicate]
    rfl
  have hmax : 1026 ≤ u32Max := by decide
  have hmax' : 2 ≤ usizeMax := by decide
  have hcount : (zeroStreams stream).length = nStreams := by
    rw [zeroStreams, length_append, length_replicate, length_replicate]
    rfl
  refine ⟨isRecord_recordOf hcount, fun s hs => ?_, by omega, two_ne_zero,
    (by decide : 1 = 2 / 2 + 2 % 2), hmax', ?_,
    rfl, rfl⟩
  · rcases mem_append.mp hs with hs | hs
    · rw [eq_of_mem_replicate hs]
      omega
    · rw [eq_of_mem_replicate hs]
      exact le_rfl
  · rw [hpay]
    dsimp only
    omega

/-- The byte 0 is decoded, if its symbols are. -/
theorem decodeBytes_zeroRecord
    (hdec : decodeStreamChecked stream 1 rareTable rareTable.slotSymbol = .ok [0]) :
    decodeBytes (zeroRecord stream) rareTable 1 = .ok [0] := by
  refine (decodeBytes_eq_ok rareTable_valid).mpr
    ⟨_, _, reads_zeroRecord hstream, rfl, rfl, rfl, fun i hi => ?_⟩
  rw [getD_zeroStreams stream hi]
  rcases Nat.lt_or_ge i 2 with hlt | hge
  · rw [if_pos hlt]
    obtain rfl | rfl : i = 0 ∨ i = 1 := by omega
    · exact hdec
    · exact hdec
  · have hnon : streamSymbolCount (1 * 2) i = 0 := if_pos hge
    rw [if_neg (not_lt.mpr hge), gather_eq, hnon]
    exact (by decide : decodeStreamChecked [0, 0x80, 0, 0] 0 rareTable rareTable.slotSymbol
      = .ok [])

theorem statesInRange_zeroRecord :
    StatesInRange (zeroRecord stream) ↔ initialState stream < 2 ^ 31 := by
  have hrd := reads_zeroRecord hstream
  rw [statesInRange_iff hrd.isRecord hrd.long hrd.counted]
  constructor
  · intro hall
    have hfst := hall 0 (by decide)
    rwa [getD_zeroStreams stream (by decide), if_pos (by decide)] at hfst
  · intro hlt i hi
    rw [getD_zeroStreams stream hi]
    split_ifs
    · exact hlt
    · exact lt_of_lt_of_le (show initialState [0, 0x80, 0, 0] < 2 ^ 24 by decide) (by norm_num)

end Zero

/-- **Two records of one byte**: in the first each symbol has spilled a byte,
as the encoder does it, and in the second the state is too large for that. -/
theorem encodeBytes_iff_of_decode_zero :
    encodeBytes [0] rareTable = .ok (zeroRecord [0, 0x80, 0, 0, 0]) := by
  have hdec : decodeBytes (zeroRecord [0, 0x80, 0, 0, 0]) rareTable 1 = .ok [0] :=
    decodeBytes_zeroRecord (Or.inr rfl) (by decide)
  refine (encodeBytes_iff_of_decode hdec).mpr ((statesInRange_zeroRecord (Or.inr rfl)).mpr ?_)
  exact lt_of_lt_of_le (show initialState [0, 0x80, 0, 0, 0] < 2 ^ 24 by decide) (by norm_num)

/-- A record is decoded that the encoder does not make: the states are 2^31. -/
theorem not_forall_encodeBytes_of_decode : ¬ ∀ (record x : List UInt8) (t : Table) (n : ℕ),
    decodeBytes record t n = .ok x → encodeBytes x t = .ok record := by
  intro hall
  have hdec : decodeBytes (zeroRecord [0x80, 0, 0, 0]) rareTable 1 = .ok [0] :=
    decodeBytes_zeroRecord (Or.inl rfl) (by decide)
  have hst := (encodeBytes_iff_of_decode hdec).mp (hall _ _ _ _ hdec)
  have hlt := (statesInRange_zeroRecord (Or.inl rfl)).mp hst
  have hstt : initialState [0x80, 0, 0, 0] = 2147483648 := by decide
  rw [hstt] at hlt
  exact absurd hlt (by norm_num)

end Rans256

end Logan
