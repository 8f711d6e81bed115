import Logan.Coding.RansRecords
import Logan.Util.Follows

/-!
# The decoder of records is safe

`decode_bytes` once more, with everything that could stop it. The state of a
stream is a word of 32 bits, which is multiplied by a frequency and shifted; the
record, the slots and the output are indexed; and memory is requested for the
offsets, for the slots, for the output and for the symbols of each stream.

The state that a stream begins with is any word that is not below the lower
bound of the coder. To take a symbol out of it never makes it larger, as the
frequencies sum up to the scale, and a byte only enters when it is below the
bound: so it stays a word, however large it was.

What is requested before the amplification bound is known to hold is the vector
of offsets, which has the same size for every record. The texts of errors are
not counted.
-/

namespace Logan

open List Fault Option
open Metered.Follows (orPanic_bind reserve_bind returns_bind)

namespace Rans256

open Result

/-! ## Where the streams of a record are -/

/-- **Where a stream of a record is**: after the bytes of those before it. -/
theorem getD_offsetsFrom {streams : List (List UInt8)} {i : ℕ} (hi : i ≤ streams.length) :
    (offsetsFrom 0 streams).getD i 0 = (streams.take i).flatten.length := by
  induction streams generalizing i with
  | nil =>
    rw [Nat.le_zero.mp hi]
    rfl
  | cons stream rest ih =>
    cases i with
    | zero => rfl
    | succ =>
      have hi := Nat.le_of_succ_le_succ hi
      rw [offsetsFrom, getD_cons_succ, offsetsFrom_add hi, ih hi, take_succ_cons,
        flatten_cons, length_append, Nat.zero_add]

section Reads

variable {record : List UInt8} {parsed : ParsedRecord} {streams : List (List UInt8)}
  (h : parsed.Reads record streams)

include h

/-- A record has an offset for each stream, and one for the end. -/
theorem ParsedRecord.Reads.getElem?_offsets {i : ℕ} (hi : i ≤ nStreams) :
    parsed.offsets[i]? = some (parsed.offsets.getD i 0) := by
  have hlt : i < parsed.offsets.length := by
    rw [h.offsets, length_offsetsFrom, h.isRecord.count]
    exact Nat.lt_succ_of_le hi
  rw [getD_eq_getElem _ _ hlt, List.getElem?_eq_getElem hlt]

/-- **A stream is a piece of the payload.** -/
theorem ParsedRecord.Reads.inside {i : ℕ} (hi : i < nStreams) :
    parsed.offsets.getD i 0 ≤ parsed.offsets.getD (i + 1) 0 ∧
      parsed.offsets.getD (i + 1) 0 ≤ parsed.payload.length := by
  have hcount : i < streams.length := hi.trans_eq h.isRecord.count.symm
  rw [h.offsets, h.payload, getD_offsetsFrom hcount.le, getD_offsetsFrom hcount]
  exact ⟨(take_sublist_take_left (Nat.le_succ i)).flatten.length_le,
    (take_sublist _ _).flatten.length_le⟩

theorem ParsedRecord.Reads.payload_le : payloadBytes streams ≤ record.length := by
  rw [h.isRecord.size]
  exact (le_round16 _).trans (Nat.le_add_left _ _)

end Reads

namespace Guarded

open Metered

/-! ## Streams -/

/-- One symbol out of the state: the slot of the state is looked up, and
`freq * (state >> SCALE_BITS) + slot - start` is computed in 32 bits. -/
def pop (t : Table) (slots : ℕ → Nibble) (state : ℕ) : Option (Nibble × ℕ) := do
  let slot := state % scale
  let symbol ← (fitting (scale - 1) slot).map slots
  let product ← fitting u32Max (t.freq symbol * (state / scale))
  let sum ← fitting u32Max (product + slot)
  let next ← difference sum (t.start symbol)
  pure (symbol, next)

/-- `while state < RANS_L && cursor < stream.len()`, with the state in 32 bits. -/
def refill : ℕ → List UInt8 → Option (ℕ × List UInt8)
  | state, [] => some (state, [])
  | state, byte :: rest =>
    if state < ransL then do
      let next ← fitting u32Max (state * 256 + byte.toNat)
      refill next rest
    else some (state, byte :: rest)

/-- The loop of `decode_stream_checked`. -/
def decodeSymbols (t : Table) (slots : ℕ → Nibble) :
    ℕ → ℕ → List UInt8 → Option (List Nibble × ℕ × List UInt8)
  | 0, state, bytes => some ([], state, bytes)
  | n + 1, state, bytes => do
    let popped ← pop t slots state
    let next ← refill popped.2 bytes
    let rest ← decodeSymbols t slots n next.1 next.2
    pure (popped.1 :: rest.1, rest.2)

/-- `decode_stream_checked` -/
def decodeStreamChecked (stream : List UInt8) (symbols : ℕ) (t : Table) (slots : ℕ → Nibble) :
    Metered ColicError (List Nibble) := do
  returns (refuse (stream.length < 4) (.usage "rANS stream is shorter than its state"))
  let head ← orPanic (range? stream 0 4)
  let state := leNat head.reverse
  returns (refuse (state < ransL) (.usage "rANS initial state is out of range"))
  reserve symbols
  let decoded ← orPanic (decodeSymbols t slots symbols state (stream.drop 4))
  returns (refuse (decoded.2.2 ≠ []) (.usage "rANS stream has trailing bytes"))
  returns (refuse (decoded.2.1 ≠ ransL) (.usage "rANS stream final state is invalid"))
  pure decoded.1

/-- `stream_symbol_count` -/
def streamSymbolCount (total stream : ℕ) : Option ℕ :=
  if stream ≥ total then some 0
  else do
    let last ← difference total 1
    let after ← difference last stream
    pure (after / nStreams + 1)

/-- The decoded symbols of a stream go where they belong, each into a byte of the
output. -/
def scatter (output : List UInt8) (stream : ℕ) (decoded : List Nibble) : Option (List UInt8) :=
  decoded.zipIdx.foldlM (fun output p => do
    let skipped ← checkedProduct p.2 nStreams
    let logical ← checkedSum stream skipped
    let _ ← output[logical / 2]?
    pure (setNibble output logical p.1)) output

/-! ## Records -/

/-- The slots of each symbol are a range of all the slots. -/
def slotRanges (t : Table) : Option (List ℕ) :=
  (List.finRange 16).mapM fun s => fitting scale (t.start s + t.freq s)

/-- `slot_to_symbol`: a slot has two bytes. -/
def slotToSymbol (t : Table) : Metered ColicError (ℕ → Nibble) := do
  returns t.validate
  reserve (2 * scale)
  let _ ← orPanic (slotRanges t)
  pure t.slotSymbol

/-- The size of the vector of offsets. -/
def offsetBytes : ℕ := 4 * (nStreams + 1)

/-- `ParsedRecord::parse`. Differences of offsets are taken where their order has
just been checked. -/
def parse (record : List UInt8) : Metered ColicError ParsedRecord := do
  returns (refuse (record.length < headerBytes) (.usage "truncated rANS record"))
  let nSymbols := (← returns (u64At record 0)).toNat
  let packedBytes := (← returns (u64At record 8)).toNat
  returns (refuse (nSymbols = 0 ∨ packedBytes ≠ nSymbols / 2 + nSymbols % 2)
    (.usage "invalid rANS symbol/byte counts"))
  reserve offsetBytes
  let offsets ← returns ((List.range (nStreams + 1)).mapM fun stream =>
    UInt32.toNat <$> u32At record (16 + stream * 4))
  let first ← orPanic offsets[0]?
  returns (refuse (first ≠ 0) (.usage "rANS first stream offset is nonzero"))
  returns (refuse ((offsets.zip offsets.tail).any fun pair => pair.2 < pair.1 ∨ pair.2 - pair.1 < 4)
    (.usage "rANS stream offsets are malformed"))
  let payload ← orPanic offsets[nStreams]?
  let _ ← orPanic (checkedSum payload 15)
  let expected ← returns (okOr (checkedSum headerBytes (round16 payload))
    (.usage "rANS record length overflows"))
  let stop ← orPanic (checkedSum headerBytes payload)
  returns (refuse (expected ≠ record.length ∨ stop > record.length)
    (.usage "rANS record length mismatch"))
  let padding ← orPanic (range? record (16 + (nStreams + 1) * 4) headerBytes)
  let tail ← orPanic (range? record stop record.length)
  returns (refuse (¬ allZero padding ∨ ¬ allZero tail) (.usage "rANS record padding is nonzero"))
  returns (refuse (nSymbols > payload * 8 * 2 ^ 15)
    (.usage "rANS record exceeds amplification bound"))
  let streams ← orPanic (range? record headerBytes stop)
  pure { nSymbols, packedBytes, offsets, payload := streams }

/-- One stream of the loop in `decode_bytes`. -/
def decodeInto (parsed : ParsedRecord) (t : Table) (slots : ℕ → Nibble)
    (output : List UInt8) (stream : ℕ) : Metered ColicError (List UInt8) := do
  let start ← orPanic parsed.offsets[stream]?
  let stop ← orPanic parsed.offsets[stream + 1]?
  let symbols ← orPanic (streamSymbolCount parsed.nSymbols stream)
  let bytes ← orPanic (range? parsed.payload start stop)
  let decoded ← decodeStreamChecked bytes symbols t slots
  orPanic (scatter output stream decoded)

/-- **`decode_bytes`**, with all that could stop it. -/
def decodeBytes (record : List UInt8) (t : Table) (expectedBytes : ℕ) :
    Metered ColicError (List UInt8) := do
  returns t.validate
  let parsed ← parse record
  let mismatch := ColicError.usage "rANS decoded length does not match matrix descriptor"
  returns (refuse (parsed.packedBytes ≠ expectedBytes) mismatch)
  let twice ← returns (okOr (checkedProduct expectedBytes 2)
    (.usage "expected rANS symbol count overflows usize"))
  returns (refuse (parsed.nSymbols ≠ twice) mismatch)
  let slots ← slotToSymbol t
  reserve expectedBytes
  (List.range nStreams).foldlM (decodeInto parsed t slots) (List.replicate expectedBytes 0)

/-! ## The state stays a word -/

theorem initialState_le {stream : List UInt8} (h : 4 ≤ stream.length) :
    initialState stream ≤ u32Max := by
  have hlt := leNat_lt (stream.take 4).reverse
  rw [length_reverse, length_take, Nat.min_eq_left h] at hlt
  exact Nat.le_of_lt_succ (hlt.trans_le (by decide))

theorem refill_eq_some {state : ℕ} {bytes : List UInt8} (h : state ≤ u32Max) :
    refill state bytes = some (Slots.refill ransL state bytes) ∧
      (Slots.refill ransL state bytes).1 ≤ u32Max := by
  induction bytes generalizing state with
  | nil => exact ⟨rfl, h⟩
  | cons byte rest ih =>
    rw [refill, Slots.refill]
    split_ifs with hlow
    · -- a byte enters below the bound: the state is still a word
      have hword : state * 256 + byte.toNat ≤ u32Max := by
        calc state * 256 + byte.toNat ≤ state * 256 + 256 :=
              Nat.add_le_add_left (le_of_lt byte.toNat_lt) _
          _ = (state + 1) * 256 := (Nat.succ_mul _ _).symm
          _ ≤ ransL * 256 := Nat.mul_le_mul_right _ hlow
          _ ≤ u32Max := by norm_num [ransL, u32Max]
      rw [fitting_of_le hword]
      exact ih hword
    · exact ⟨rfl, h⟩

section Valid

variable {t : Table} (h : t.validate = .ok ())

include h

/-- **A symbol that is taken out does not make the state larger**: the product is
no more than the state without its slot, as no frequency is above the scale. And
the slot of the state is not below the first of its symbol. -/
theorem pop_le (state : ℕ) :
    t.freq (t.slotSymbol (state % scale)) * (state / scale) + state % scale ≤ state ∧
      t.start (t.slotSymbol (state % scale)) ≤ state % scale := by
  refine ⟨?_, ((slots h).mem_symbolAt (state % scale) (Nat.mod_lt _ scale_pos)).1⟩
  calc t.freq (t.slotSymbol (state % scale)) * (state / scale) + state % scale
      ≤ scale * (state / scale) + state % scale :=
        Nat.add_le_add_right (Nat.mul_le_mul_right _ (freq_le h _)) _
    _ = state := Nat.div_add_mod _ _

theorem pop_eq_some {state : ℕ} (hst : state ≤ u32Max) :
    pop t t.slotSymbol state = some (t.slotSymbol (state % scale),
      t.freq (t.slotSymbol (state % scale)) * (state / scale) + state % scale
        - t.start (t.slotSymbol (state % scale))) := by
  obtain ⟨hle, hstr⟩ := pop_le h state
  have hsl : state % scale ≤ scale - 1 := Nat.le_sub_one_of_lt (Nat.mod_lt _ scale_pos)
  have hsum := hle.trans hst
  unfold pop
  simp only [bind_eq_bind, bind_some, map_some, fitting_of_le hsl,
    fitting_of_le ((Nat.le_add_right _ _).trans hsum), fitting_of_le hsum,
    difference_of_le (hstr.trans (Nat.le_add_left _ _))]
  rfl

/-- **The symbols of a stream** are decoded, with the state in 32 bits. -/
theorem decodeSymbols_eq_some (n : ℕ) {state : ℕ} {bytes : List UInt8} (hst : state ≤ u32Max) :
    decodeSymbols t t.slotSymbol n state bytes
      = some (Rans256.decodeSymbols t t.slotSymbol n state bytes) := by
  induction n generalizing state bytes with
  | zero => rfl
  | succ n ih =>
    have hnex := (Nat.sub_le _ (t.start (t.slotSymbol (state % scale)))).trans
      ((pop_le h state).1.trans hst)
    obtain ⟨href, hword⟩ := @refill_eq_some _ bytes hnex
    rw [decodeSymbols, pop_eq_some h hst, bind_eq_bind, bind_some, href,
      bind_eq_bind, bind_some, ih hword]
    rfl

/-- **A stream is decoded**, whatever word it begins with. -/
theorem decodeStreamChecked_follows {n symbols : ℕ} (stream : List UInt8)
    (hfit : symbols ≤ isizeMax) (hn : symbols ≤ n) :
    Follows n (decodeStreamChecked stream symbols t t.slotSymbol)
      (Rans256.decodeStreamChecked stream symbols t t.slotSymbol) := by
  refine returns_bind fun _ hlen => ?_
  have hfr := not_lt.mp (refuse_eq_ok.mp hlen)
  have hhd : range? stream 0 4 = some (stream.take 4) := range?_of_le (by decide) hfr
  refine orPanic_bind hhd ?_
  refine returns_bind fun _ _ => reserve_bind hfit hn ?_
  refine orPanic_bind (decodeSymbols_eq_some h symbols (initialState_le hfr)) ?_
  exact returns_bind fun _ _ => returns_bind fun _ _ => follows_pure _

/-- The slots of each symbol are slots. -/
theorem slotRanges_eq_some :
    slotRanges t = some ((List.finRange 16).map fun s => t.start s + t.freq s) := by
  have hins (s : Nibble) : fitting scale (t.start s + t.freq s)
      = pure (t.start s + t.freq s) := fitting_of_le ((slots h).inside s)
  rw [slotRanges, funext hins, mapM_pure]
  rfl

theorem slotToSymbol_follows {n : ℕ} (hn : 2 * scale ≤ n) :
    Follows n (slotToSymbol t) t.slotToSymbol := by
  refine returns_bind fun _ _ => reserve_bind (by decide) hn ?_
  exact orPanic_bind (slotRanges_eq_some h) (follows_pure _)

end Valid

/-! ## Streams are where the offsets say -/

/-- The number of symbols of a stream is found without going below zero. -/
theorem streamSymbolCount_eq_some (total stream : ℕ) :
    streamSymbolCount total stream = some (Rans256.streamSymbolCount total stream) := by
  unfold streamSymbolCount Rans256.streamSymbolCount
  split_ifs with h
  · rfl
  · rw [not_le] at h
    rw [difference_of_le (Nat.one_le_of_lt h), bind_eq_bind, bind_some,
      difference_of_le (Nat.le_sub_one_of_lt h)]
    rfl

/-- **Symbols are written into the output**, when it has a place for all that
there are. -/
theorem scatter_eq_some {output : List UInt8} {n stream : ℕ} {decoded : List Nibble}
    (hn : n ≤ output.length * 2) (hfit : n ≤ usizeMax)
    (hlen : decoded.length = Rans256.streamSymbolCount n stream) :
    scatter output stream decoded = some (Rans256.scatter output stream decoded) := by
  refine foldlM_eq_some (fun o : List UInt8 => o.length = output.length) (fun o ho p hp => ?_) rfl
  have hidx : p.2 < decoded.length := by
    simpa using snd_lt_of_mem_zipIdx hp
  have hpl : stream + p.2 * nStreams < n :=
    lt_of_lt_streamSymbolCount (hidx.trans_eq hlen)
  have hlt : (stream + p.2 * nStreams) / 2 < o.length := by
    rw [ho]
    exact Nat.div_lt_of_lt_mul ((hpl.trans_le hn).trans_eq (Nat.mul_comm _ _))
  have hsum := hpl.le.trans hfit
  refine ⟨?_, (length_setNibble _ _ _).trans ho⟩
  rw [checkedProduct_of_le ((Nat.le_add_left _ _).trans hsum), bind_eq_bind,
    bind_some, checkedSum_of_le hsum, bind_eq_bind, bind_some,
    List.getElem?_eq_getElem hlt]
  rfl

/-- **The streams of a record are decoded and put back**, one after the other, if what decodes
one of them can. -/
theorem streams_follow {E : Type} {n : ℕ} {record : List UInt8} {parsed : ParsedRecord}
    {streams : List (List UInt8)} (hrd : parsed.Reads record streams)
    (hsym : parsed.nSymbols = parsed.packedBytes * 2)
    {decode : List UInt8 → ℕ → Metered E (List Nibble)}
    {plain : List UInt8 → ℕ → Except E (List Nibble)}
    (hdec : ∀ bytes symbols, symbols ≤ parsed.nSymbols →
      Follows n (decode bytes symbols) (plain bytes symbols))
    (hlen : ∀ bytes symbols decoded, plain bytes symbols = .ok decoded →
      decoded.length = symbols) :
    Follows n
      ((List.range nStreams).foldlM (fun output stream => do
        let start ← orPanic parsed.offsets[stream]?
        let stop ← orPanic parsed.offsets[stream + 1]?
        let symbols ← orPanic (streamSymbolCount parsed.nSymbols stream)
        let bytes ← orPanic (range? parsed.payload start stop)
        let decoded ← decode bytes symbols
        orPanic (scatter output stream decoded)) (List.replicate parsed.packedBytes 0))
      ((List.range nStreams).foldlM (fun output stream => do
        let start := parsed.offsets.getD stream 0
        let decoded ← plain (slice parsed.payload start
          (parsed.offsets.getD (stream + 1) 0 - start))
          (Rans256.streamSymbolCount parsed.nSymbols stream)
        pure (Rans256.scatter output stream decoded)) (List.replicate parsed.packedBytes 0)) := by
  refine Follows.foldlM (fun output => output.length = parsed.packedBytes)
    (fun output houtp stream hstream => ?_)
    (fun output houtp stream hstream out hout => ?_) length_replicate
  · have hs := mem_range.mp hstream
    obtain ⟨hle, hins⟩ := hrd.inside hs
    refine orPanic_bind (hrd.getElem?_offsets hs.le) ?_
    refine orPanic_bind (hrd.getElem?_offsets hs) ?_
    refine orPanic_bind (streamSymbolCount_eq_some _ _) ?_
    refine orPanic_bind (range?_of_le hle hins) ?_
    refine (hdec _ _ (streamSymbolCount_le _ _)).bind fun decoded hdec => ?_
    rw [scatter_eq_some (by rw [houtp, hsym]) hrd.bounded (hlen _ _ _ hdec)]
    exact follows_pure _
  · obtain ⟨decoded, -, hout⟩ := Result.bind_eq_ok.mp hout
    rw [← Except.ok.inj hout, ← houtp]
    exact length_scatter output stream decoded

/-! ## Records -/

/-- **The most that is requested at once**: the slots, or as many symbols as the
bytes of the record can have. -/
def limit (record : List UInt8) : ℕ := 2 * scale + record.length * 2 ^ 18

/-- Offsets that are read are there, and the last one is a word if all are. -/
theorem offsets_of_mapM {E : Type} {read : ℕ → Except E ℕ} {offsets : List ℕ}
    (h : (List.range (nStreams + 1)).mapM read = .ok offsets)
    (hword : ∀ i n, read i = .ok n → n ≤ u32Max) :
    offsets[0]? = some (offsets.getD 0 0) ∧
      offsets[nStreams]? = some (offsets.getD nStreams 0) ∧
      offsets.getD nStreams 0 ≤ u32Max := by
  obtain ⟨hcount, hrd⟩ := mapM_range_eq_ok.mp h
  have hget (i : ℕ) (hi : i < offsets.length) : offsets[i]? = some (offsets.getD i 0) := by
    rw [getD_eq_getElem _ _ hi, List.getElem?_eq_getElem hi]
  have hlt : nStreams < offsets.length := by omega
  refine ⟨hget 0 (by omega), hget _ hlt, hword nStreams _ ?_⟩
  rw [getD_eq_getElem _ _ hlt]
  exact hrd nStreams hlt

/-- **A record is parsed**: its offsets are words, and its parts are inside. -/
theorem parse_follows {n : ℕ} (record : List UInt8) (hn : 2 * scale ≤ n) :
    Follows n (parse record) (ParsedRecord.parse record) := by
  have hhdr : headerBytes = 1056 := by decide
  have hsm : u32Max + 1056 ≤ usizeMax := by norm_num [u32Max, usizeMax]
  refine returns_bind fun _ hlong => returns_bind fun _ _ => ?_
  refine returns_bind fun _ _ => returns_bind fun _ _ => ?_
  refine reserve_bind (by decide) (le_trans (by decide) hn) ?_
  refine returns_bind fun offsets hoff => ?_
  have hlong := not_lt.mp (refuse_eq_ok.mp hlong)
  obtain ⟨hfst, hlast, hword⟩ := offsets_of_mapM hoff fun i offset hi => by
    obtain ⟨offset, -, rfl⟩ := map_eq_ok hi
    exact Nat.le_of_lt_succ offset.toNat_lt
  refine orPanic_bind hfst ?_
  refine returns_bind fun _ _ => returns_bind fun _ _ => ?_
  refine orPanic_bind hlast ?_
  refine orPanic_bind (checkedSum_of_le (by omega)) ?_
  refine returns_bind fun _ _ => ?_
  refine orPanic_bind (checkedSum_of_le (by omega)) ?_
  refine returns_bind fun _ hlen => ?_
  have hins := not_lt.mp (not_or.mp (refuse_eq_ok.mp hlen)).2
  refine orPanic_bind (range?_of_le (by decide) hlong) ?_
  refine orPanic_bind (range?_of_le hins le_rfl) ?_
  rw [← drop_eq_slice]
  refine returns_bind fun _ _ => returns_bind fun _ _ => ?_
  refine orPanic_bind (range?_of_le (Nat.le_add_right _ _) hins) ?_
  rw [Nat.add_sub_cancel_left]
  exact follows_pure _

/-- **A record that is parsed has few symbols**: no more than the bytes of its
payload can have, whose number is a word. -/
theorem symbols_le {record : List UInt8} {parsed : ParsedRecord} {streams : List (List UInt8)}
    (hrd : parsed.Reads record streams) :
    parsed.nSymbols ≤ isizeMax ∧ parsed.nSymbols ≤ limit record := by
  have hpay := hrd.payload_le
  have hcnt := hrd.counted
  have hamp := hrd.amplified
  have hword : u32Max * 8 * 2 ^ 15 ≤ isizeMax := by norm_num [u32Max, isizeMax]
  unfold limit
  exact ⟨by omega, by omega⟩

/-- **A record is decoded** as by the decoder that ignores what could stop it,
and never requests more than the limit. -/
theorem decodeBytes_follows {t : Table} (h : t.validate = .ok ()) (record : List UInt8)
    (expectedBytes : ℕ) : Follows (limit record) (decodeBytes record t expectedBytes)
      (Rans256.decodeBytes record t expectedBytes) := by
  have hsl : 2 * scale ≤ limit record := Nat.le_add_right _ _
  refine returns_bind fun _ _ => (parse_follows record hsl).bind fun parsed hpar => ?_
  refine returns_bind fun _ hpac => returns_bind fun twice htw => ?_
  refine returns_bind fun _ hsym => ?_
  refine (slotToSymbol_follows h hsl).bind fun slots hsl => ?_
  obtain ⟨_, -, hsl⟩ := Result.bind_eq_ok.mp hsl
  cases hsl
  obtain ⟨streams, hrd⟩ := ParsedRecord.parse_eq_ok.mp hpar
  obtain rfl := not_not.mp (refuse_eq_ok.mp hpac)
  obtain ⟨rfl, -⟩ := checkedProduct_eq_some.mp (okOr_eq_ok.mp htw)
  have hsym := not_not.mp (refuse_eq_ok.mp hsym)
  obtain ⟨hfit, hn⟩ := symbols_le hrd
  refine reserve_bind (by omega) (by omega) ?_
  exact streams_follow hrd hsym
    (fun stream _ hs => decodeStreamChecked_follows h stream (hs.trans hfit) (hs.trans hn))
    fun _ _ _ hdec => (freq_ne_zero_of_decode h hdec).1

/-! ## What is requested before the bound is known -/

/-- **The amplification bound**, on what the header of a record stores: it has no
more symbols than its payload can have. -/
def AmplificationBound (record : List UInt8) : Prop :=
  leNat (slice record 0 8) ≤ leNat (slice record (16 + nStreams * 4) 4) * 8 * 2 ^ 15

/-- **A record that is parsed meets the bound.** -/
theorem amplificationBound_of_parse {record : List UInt8} {parsed : ParsedRecord}
    (h : ParsedRecord.parse record = .ok parsed) : AmplificationBound record := by
  unfold ParsedRecord.parse at h
  simp only [Result.bind_eq_ok, refuse_eq_ok, okOr_eq_ok, not_lt] at h
  obtain ⟨_, -, n, hn, _, -, _, -, offsets, hoff, h⟩ := h
  obtain ⟨_, -, _, -, _, -, _, -, _, -, _, hamp, -⟩ := h
  obtain ⟨hcount, hrd⟩ := mapM_range_eq_ok.mp hoff
  have hlt : nStreams < offsets.length := by omega
  obtain ⟨x, hx, hlas⟩ := map_eq_ok (hrd nStreams hlt)
  rw [getD_eq_getElem _ _ hlt, ← hlas] at hamp
  unfold AmplificationBound
  rw [slice_of_u64At? (okOr_eq_ok.mp hn), slice_of_u32At? (okOr_eq_ok.mp hx), u64Bytes, u32Bytes,
    leNat_leBytes n.toNat_lt, leNat_leBytes x.toNat_lt]
  exact hamp

/-- A record is parsed with one request, for its offsets. -/
theorem parse_asks (record : List UInt8) : Asks [offsetBytes] (parse record) := by
  refine asks_returns_bind fun _ _ => asks_returns_bind fun _ _ => ?_
  refine asks_returns_bind fun _ _ => asks_returns_bind fun _ _ => asks_reserve_bind ?_
  refine asks_returns_bind fun _ _ => asks_orPanic_bind fun _ _ => ?_
  refine asks_returns_bind fun _ _ => asks_returns_bind fun _ _ => ?_
  refine asks_orPanic_bind fun _ _ => asks_orPanic_bind fun _ _ => ?_
  refine asks_returns_bind fun _ _ => asks_orPanic_bind fun _ _ => ?_
  refine asks_returns_bind fun _ _ => asks_orPanic_bind fun _ _ => ?_
  refine asks_orPanic_bind fun _ _ => asks_returns_bind fun _ _ => ?_
  refine asks_returns_bind fun _ _ => asks_orPanic_bind fun _ _ => ?_
  exact asks_pure _ _

/-- **Unless the amplification bound holds, only the offsets are requested.** -/
theorem decodeBytes_asks (record : List UInt8) (t : Table) (expectedBytes : ℕ) :
    AmplificationBound record ∨ Asks [offsetBytes] (decodeBytes record t expectedBytes) := by
  by_cases hbnd : AmplificationBound record
  · exact Or.inl hbnd
  · refine Or.inr (asks_returns_bind fun _ _ => (parse_asks record).bind_of_ne fun parsed hpar =>
      hbnd ?_)
    exact amplificationBound_of_parse ((parse_follows record le_rfl).eq_ok.mp hpar)

end Guarded

end Rans256

end Logan
