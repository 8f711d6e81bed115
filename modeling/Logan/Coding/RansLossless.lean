import Logan.Coding.RansCanonical
import Logan.Coding.RansHistogram

/-!
# What is encoded is decoded

A byte string whose nibbles all own slots is divided into streams, and each
stream is encoded. The record of the streams exists if their bytes can be
counted with 32 bits, and then the reader finds the byte string again – unless
it refuses the record because it has too many symbols for its bytes, which only
happens when a nibble owns all slots, and so takes no bytes.
-/

namespace Logan

open List

namespace Rans256

open Result

/-- **A table covers a byte string**: it is valid, and each nibble of the byte
string owns slots. -/
structure Table.Covers (t : Table) (input : List UInt8) : Prop where
  valid : t.validate = .ok ()
  owns : ∀ i < input.length * 2, t.freq (nibbleAt input i) ≠ 0

variable {input : List UInt8}

/-- A byte string has a table, that of its histogram. -/
theorem exists_covers (hne : input ≠ [])
    (hlen : input.length * 2 ≤ usizeMax) : ∃ hist t, histogramBytes [input] = .ok hist ∧
      Table.fromHistogram hist = .ok t ∧ t.Covers input := by
  have hpos := length_pos_iff.mpr hne
  obtain ⟨hist, hhis, hsum, hown⟩ := histogramBytes_eq_ok hlen
  obtain ⟨t, ht, hval, hfr⟩ := @Table.fromHistogram_eq_ok hist (by omega) (by omega)
  exact ⟨hist, t, hhis, ht, hval, fun i hi => hfr _ (hown i hi)⟩

theorem mem_gather {n i : ℕ} {s : Nibble} (h : s ∈ gather input n n i) :
    ∃ k < n, nibbleAt input k = s := by
  rw [gather_eq, mem_map] at h
  obtain ⟨j, hj, rfl⟩ := h
  exact ⟨_, lt_of_lt_streamSymbolCount (mem_range.mp hj), rfl⟩

theorem Table.Covers.exists_streams {t : Table} (h : t.Covers input) :
    ∃ streams, encodeStreams input t (input.length * 2) = .ok streams := by
  refine exists_mapM_eq_ok fun i _ => ⟨_, (encodeStream_eq_ok h.valid).mpr ⟨fun s hs => ?_, rfl⟩⟩
  obtain ⟨k, hk, rfl⟩ := mem_gather hs
  exact h.owns k hk

/-! ## Enough bytes -/

variable {streams : List (List UInt8)}

theorem le_payloadBytes {k c : ℕ} (h : ∀ stream ∈ streams, k ≤ c * stream.length) :
    streams.length * k ≤ c * payloadBytes streams := by
  induction streams with
  | nil => exact (Nat.zero_mul k).le.trans (Nat.zero_le _)
  | cons stream rest ih =>
    have hstream := h stream mem_cons_self
    have hres := ih fun s hs => h s (mem_cons_of_mem _ hs)
    rw [payloadBytes_cons, length_cons, Nat.mul_add, Nat.succ_mul]
    omega

theorem div_le_streamSymbolCount {n i : ℕ} (hi : i < nStreams) :
    n / nStreams ≤ streamSymbolCount n i := by
  unfold streamSymbolCount
  unfold nStreams at hi ⊢
  split_ifs <;> omega

/-- **The encoder never makes more symbols of a byte than the reader takes**,
unless a nibble owns all slots and there are many. -/
theorem symbols_le_payload {t : Table} (h : t.validate = .ok ())
    (hstr : encodeStreams input t (input.length * 2) = .ok streams)
    (hfew : input.length ≤ 2 ^ 27 ∨ ∀ i < input.length * 2, t.freq (nibbleAt input i) ≠ scale) :
    input.length * 2 ≤ payloadBytes streams * 8 * 2 ^ 15 := by
  obtain ⟨hcount, hall⟩ := mapM_range_eq_ok.mp hstr
  have hbytes : (∀ stream ∈ streams, 4 ≤ 1 * stream.length) := by
    intro stream hmem
    obtain ⟨i, hi, rfl⟩ := getElem_of_mem hmem
    have := (initialState_encodeStream h (hall i hi)).1
    omega
  have hlst := le_payloadBytes hbytes
  rw [hcount, nStreams_eq] at hlst
  rcases hfew with hfew | hnon
  · omega
  · -- each stream has a byte for every 2^18 of its symbols
    have hsh : ∀ stream ∈ streams, input.length * 2 / nStreams + 1 ≤ 2 ^ 18 * stream.length := by
      intro stream hmem
      obtain ⟨i, hi, rfl⟩ := getElem_of_mem hmem
      have hlt := length_lt_encodeStream h (hall i hi) fun s hs => by
        obtain ⟨k, hk, rfl⟩ := mem_gather hs
        exact hnon k hk
      rw [length_gather] at hlt
      have hle : input.length * 2 / nStreams ≤ streamSymbolCount (input.length * 2) i :=
        div_le_streamSymbolCount (hi.trans_eq hcount)
      omega
    have hsum := le_payloadBytes hsh
    rw [hcount, nStreams_eq] at hsum
    omega

/-! ## There and back -/

/-- **What is encoded is decoded.** -/
theorem decodeBytes_of_encode {t : Table} (h : t.validate = .ok ()) {record : List UInt8}
    (henc : encodeBytes input t = .ok record) (hfew : input.length ≤ 2 ^ 27 ∨
      ∀ i < input.length * 2, t.freq (nibbleAt input i) ≠ scale) :
    decodeBytes record t input.length = .ok input := by
  obtain ⟨hne, hmax, streams, hstr, hcnt, hrec⟩ := (encodeBytes_eq_ok h).mp henc
  have hpos := length_pos_iff.mpr hne
  have hall := (encodeStreams_eq_ok hrec.count).mp hstr
  have hrd : ParsedRecord.Reads record
      ⟨input.length * 2, input.length, offsetsFrom 0 streams, streams.flatten⟩ streams := by
    refine ⟨hrec, fun stream hmem => ?_, hcnt, by dsimp only; omega, by dsimp only; omega,
      hmax, symbols_le_payload h hstr hfew, rfl, rfl⟩
    obtain ⟨i, hi, rfl⟩ := getElem_of_mem hmem
    have hstream := hall i (hi.trans_eq hrec.count)
    rw [getD_eq_getElem _ _ hi] at hstream
    exact (initialState_encodeStream h hstream).1
  refine (decodeBytes_eq_ok h).mpr ⟨_, streams, hrd, rfl, rfl, rfl, fun i hi => ?_⟩
  have hdec := decodeStream_encodeStream h (hall i hi)
  rwa [length_gather] at hdec

/-- **A record exists** exactly if 32 bits can count the bytes of the streams. -/
theorem Table.Covers.exists_record_iff {t : Table} (h : t.Covers input) (hne : input ≠ [])
    (hmax : input.length * 2 ≤ usizeMax)
    (hstr : encodeStreams input t (input.length * 2) = .ok streams) :
    (∃ record, encodeBytes input t = .ok record) ↔ payloadBytes streams ≤ u32Max := by
  constructor
  · rintro ⟨record, henc⟩
    obtain ⟨-, -, streams', hstr', hcnt, -⟩ := (encodeBytes_eq_ok h.valid).mp henc
    obtain rfl := Except.ok.inj (hstr'.symm.trans hstr)
    exact hcnt
  · intro hle
    exact ⟨_, (encodeBytes_eq_ok h.valid).mpr ⟨hne, hmax, streams, hstr, hle,
      isRecord_recordOf (mapM_range_eq_ok.mp hstr).1⟩⟩

/-- **The coder is lossless.** A byte string has a table, that of its histogram;
with any table that covers it its streams are encoded, there is a record
exactly if 32 bits can count their bytes, and the record is decoded to the byte
string, if that has at most 2^27 bytes or no nibble in it owns all slots. -/
theorem decodeBytes_encodeBytes {input : List UInt8} (hne : input ≠ [])
    (hlen : input.length < 2 ^ 63) :
    (∃ hist t, histogramBytes [input] = .ok hist ∧ Table.fromHistogram hist = .ok t ∧
        t.Covers input) ∧ ∀ t : Table, t.Covers input → ∃ streams,
        encodeStreams input t (input.length * 2) = .ok streams ∧
        ((∃ record, encodeBytes input t = .ok record) ↔ payloadBytes streams ≤ u32Max) ∧
        ∀ record, encodeBytes input t = .ok record →
          (input.length ≤ 2 ^ 27 ∨ ∀ i < input.length * 2, t.freq (nibbleAt input i) ≠ scale) →
          decodeBytes record t input.length = .ok input := by
  have hmax : input.length * 2 ≤ usizeMax := by
    unfold usizeMax
    omega
  refine ⟨exists_covers hne hmax, fun t hcov => ?_⟩
  obtain ⟨streams, hstr⟩ := hcov.exists_streams
  exact ⟨streams, hstr, hcov.exists_record_iff hne hmax hstr,
    fun record henc hfew => decodeBytes_of_encode hcov.valid henc hfew⟩

/-- A table in which all symbols are as frequent as the others. -/
def evenTable : Table where
  freq _ := 1024
  start s := 1024 * s.val

theorem evenTable_covers (input : List UInt8) : evenTable.Covers input :=
  ⟨by decide, fun _ _ => (by decide : 1024 ≠ 0)⟩

/-- Bytes for all streams, and for some of them two symbols. -/
def manyBytes : List UInt8 := (List.range 130).map UInt8.ofNat

theorem exists_record_manyBytes : ∃ record, encodeBytes manyBytes evenTable = .ok record := by
  obtain ⟨streams, hstr⟩ := (evenTable_covers manyBytes).exists_streams
  have hcnt : (encodeStreams manyBytes evenTable (manyBytes.length * 2)).map payloadBytes =
      .ok 1028 := by decide +kernel
  rw [hstr] at hcnt
  exact ((evenTable_covers manyBytes).exists_record_iff (by decide) (by decide +kernel) hstr).mpr
    ((Except.ok.inj hcnt).trans_le (by decide))

/-- They are encoded, and their record is decoded. -/
theorem decodeBytes_encodeBytes_many : ∃ record, encodeBytes manyBytes evenTable = .ok record ∧
    decodeBytes record evenTable 130 = .ok manyBytes := by
  have hlen : manyBytes.length < 2 ^ 63 := by decide +kernel
  obtain ⟨record, henc⟩ := exists_record_manyBytes
  obtain ⟨_, -, -, hdec⟩ :=
    (decodeBytes_encodeBytes (by decide) hlen).2 evenTable (evenTable_covers manyBytes)
  exact ⟨record, henc, hdec record henc (Or.inl (by decide +kernel))⟩

/-! ## A byte string that is too long -/

/-- A table in which the symbol 0 is as rare as it can be. -/
def rarestTable : Table where
  freq s := if s = 0 then 1 else if s = 1 then 16383 else 0
  start s := if s = 0 then 0 else if s = 1 then 1 else 16384

theorem nibbleAt_replicate (n i : ℕ) : nibbleAt (List.replicate n 0) i = 0 := by
  have hget : (List.replicate n (0 : UInt8)).getD (i / 2) 0 = 0 := by
    rw [getD_eq_getElem?_getD, List.getElem?_replicate]
    split_ifs <;> rfl
  unfold nibbleAt
  rw [hget]
  split_ifs <;> rfl

theorem rarestTable_covers (n : ℕ) : rarestTable.Covers (List.replicate n 0) := by
  refine ⟨by decide, fun i _ => ?_⟩
  rw [nibbleAt_replicate]
  decide

/-- **Rare symbols take a byte each.** -/
theorem length_le_encodeStream {t : Table} (h : t.validate = .ok ()) {l : List Nibble}
    {stream : List UInt8} (hstream : encodeStream t l = .ok stream)
    (hrar : ∀ s ∈ l, 256 * t.freq s ≤ scale) : l.length ≤ stream.length := by
  obtain ⟨hpos, rfl⟩ := (encodeStream_eq_ok h).mp hstream
  have hle := (slots h).length_le_encode scale_le lowest_pos fun s hs =>
    ⟨Nat.pos_of_ne_zero (hpos s hs), hrar s hs⟩
  rw [length_append]
  omega

/-- A byte string of 2^31 bytes is covered, but its streams are too long. -/
theorem encodeBytes_zeros_ne (record : List UInt8) :
    encodeBytes (List.replicate (2 ^ 31) 0) rarestTable ≠ .ok record := by
  intro henc
  set input : List UInt8 := List.replicate (2 ^ 31) 0 with hinp
  have hlen : input.length = 2 ^ 31 := length_replicate
  have hval := (rarestTable_covers 0).valid
  obtain ⟨-, -, streams, hstr, hcnt, -⟩ := (encodeBytes_eq_ok hval).mp henc
  obtain ⟨hcount, hstream⟩ := mapM_range_eq_ok.mp hstr
  have hlong : ∀ stream ∈ streams, input.length * 2 / nStreams ≤ 1 * stream.length := by
    intro stream hmem
    obtain ⟨i, hi, rfl⟩ := getElem_of_mem hmem
    have hle := length_le_encodeStream hval (hstream i hi) fun s hs => by
      obtain ⟨k, -, rfl⟩ := mem_gather hs
      rw [hinp, nibbleAt_replicate]
      decide
    have hsh : input.length * 2 / nStreams ≤ streamSymbolCount (input.length * 2) i :=
      div_le_streamSymbolCount (hi.trans_eq hcount)
    rw [length_gather] at hle
    omega
  have hsum := le_payloadBytes hlong
  rw [hcount, nStreams_eq, hlen] at hsum
  unfold u32Max at hcnt
  omega

/-- It has no record, although each of its nibbles owns a slot. -/
theorem not_forall_decodeBytes_encodeBytes : ¬ ∀ (input : List UInt8) (t : Table), input ≠ [] →
    t.Covers input → ∃ record, encodeBytes input t = .ok record ∧
      decodeBytes record t input.length = .ok input := by
  intro hall
  have hne : (List.replicate (2 ^ 31) 0 : List UInt8) ≠ [] := by
    rw [Ne, replicate_eq_nil_iff]
    norm_num
  obtain ⟨record, henc, -⟩ := hall _ rarestTable hne (rarestTable_covers _)
  exact encodeBytes_zeros_ne record henc

end Rans256

end Logan
