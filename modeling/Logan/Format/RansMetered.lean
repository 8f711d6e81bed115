import Logan.Coding.RansTableRegion
import Logan.Format.RansGuarded

/-!
# The decoders of records request what they may

The runtime decodes records with a decoder of its own. Both are safe: on
any record, and for any expected size, no word overflows, no index is out of its
range, and unless the header of the record meets the amplification bound there
is no request but one – the vector of offsets, of the same size for all records.
-/

namespace Logan

open List

namespace RansReader

open Result Format

namespace Guarded

open Metered

/-! ## What is requested before the bound is known -/

/-- A record is parsed with one request, for its offsets. -/
theorem parse_asks (record : List UInt8) : Asks [Rans256.Guarded.offsetBytes] (parse record) := by
  refine asks_returns_bind fun _ _ => asks_returns_bind fun _ _ => ?_
  refine asks_returns_bind fun _ _ => asks_returns_bind fun _ _ => asks_reserve_bind ?_
  refine asks_returns_bind fun _ _ => asks_orPanic_bind fun _ _ => ?_
  refine asks_returns_bind fun _ _ => asks_returns_bind fun _ _ => ?_
  refine asks_orPanic_bind fun _ _ => asks_orPanic_bind fun _ _ => ?_
  refine asks_returns_bind fun _ _ => asks_orPanic_bind fun _ _ => ?_
  refine asks_returns_bind fun _ _ => asks_orPanic_bind fun _ _ => ?_
  refine asks_orPanic_bind fun _ _ => asks_returns_bind fun _ _ => ?_
  refine asks_returns_bind fun _ _ => asks_orPanic_bind fun _ _ => ?_
  exact asks_pure _ _

/-- **Unless the amplification bound holds, only the offsets are requested.** -/
theorem decodeRecord_asks (t : RansTable) (record : List UInt8) (expectedBytes : ℕ) :
    Rans256.Guarded.AmplificationBound record ∨
      Asks [Rans256.Guarded.offsetBytes] (decodeRecord t record expectedBytes) := by
  by_cases hbnd : Rans256.Guarded.AmplificationBound record
  · exact Or.inl hbnd
  · refine Or.inr ((parse_asks record).bind_of_ne fun read hrd => hbnd ?_)
    have hpl := (parse_follows record le_rfl).eq_ok.mp hrd
    obtain ⟨parsed, hpar, -⟩ := map_eq_ok ((parse_agree record _).mp hpl)
    exact Rans256.Guarded.amplificationBound_of_parse hpar

end Guarded

/-! ## Both decoders -/

open Metered Rans256.Guarded

/-- **A decoder is safe** on a record: with all that could stop it, it does what
the plain decoder does, within the limit of the record; and unless the record
meets the amplification bound, it requests the vector of offsets only. -/
structure DecodesSafely {E : Type} (record : List UInt8) (x : Metered E (List UInt8))
    (y : Except E (List UInt8)) : Prop where
  follows : Follows (limit record) x y
  asks : AmplificationBound record ∨ Asks [offsetBytes] x

/-- **The decoders are safe**, for every table that is accepted by either parser
of tables, every record and every expected size. -/
theorem decoders_safe {blob : List UInt8} {t : RansTable}
    (h : Rans256.Table.decodeBlob blob = .ok t ∨ Table.decodeBlob blob = .ok t)
    (record : List UInt8) (expectedBytes : ℕ) :
    DecodesSafely record (Rans256.Guarded.decodeBytes record t expectedBytes)
        (Rans256.decodeBytes record t expectedBytes) ∧
      DecodesSafely record (Guarded.decodeRecord t record expectedBytes)
        (decodeRecord t record expectedBytes) := by
  have hval : Rans256.Table.validate t = .ok () :=
    valid_of_decodeBlob (h.elim (decodeBlob_agree blob t).mpr id)
  exact ⟨⟨decodeBytes_follows hval record expectedBytes, decodeBytes_asks record t expectedBytes⟩,
    ⟨Guarded.decodeRecord_follows hval record expectedBytes,
      Guarded.decodeRecord_asks t record expectedBytes⟩⟩

/-- A record with one symbol and without streams: its offsets are all zero. -/
def hollowRecord : List UInt8 :=
  u64Bytes 1 ++ u64Bytes 1 ++ List.replicate 1040 0

theorem decoders_safe_hollow :
    DecodesSafely hollowRecord (Rans256.Guarded.decodeBytes hollowRecord Rans256.soleTable 1)
        (Rans256.decodeBytes hollowRecord Rans256.soleTable 1) ∧
      DecodesSafely hollowRecord (Guarded.decodeRecord Rans256.soleTable hollowRecord 1)
        (decodeRecord Rans256.soleTable hollowRecord 1) :=
  decoders_safe (Or.inl (Rans256.Table.decodeBlob_blob Rans256.soleTable_valid)) hollowRecord 1

/-- **The vector of offsets is requested before the bound is known**: for the
hollow record, which does not meet it. -/
theorem not_forall_asks_nothing : ¬ ∀ (blob : List UInt8) (t : RansTable) (record : List UInt8)
    (expectedBytes : ℕ), Rans256.Table.decodeBlob blob = .ok t → AmplificationBound record ∨
      Asks [] (Rans256.Guarded.decodeBytes record t expectedBytes) := by
  intro hall
  have hdec := Rans256.Table.decodeBlob_blob Rans256.soleTable_valid
  have hcnts : slice hollowRecord 0 16 = u64Bytes 1 ++ u64Bytes 1 := slice_append_left (by simp)
  have hone : slice hollowRecord 0 8 = u64Bytes 1 := by
    have hsl := congrArg (fun l => slice l 0 8) hcnts
    rwa [slice_slice (by decide), slice_append_left (by simp)] at hsl
  have hone' : slice hollowRecord 8 8 = u64Bytes 1 := by
    have hsl := congrArg (fun l => slice l 8 8) hcnts
    rwa [slice_slice (by decide), slice_append_right (by simp)] at hsl
  rcases hall _ _ hollowRecord 1 hdec with hbnd | hask
  · -- one symbol is more than a payload of no bytes can have
    have hzer : slice hollowRecord (16 + Rans256.nStreams * 4) 4 = List.replicate 4 0 := by
      rw [hollowRecord, slice_append_right (by simp [Rans256.nStreams])]
      exact slice_replicate (by simp [Rans256.nStreams])
    unfold AmplificationBound at hbnd
    rw [hone, hzer] at hbnd
    exact absurd hbnd (by decide)
  · have hlen : hollowRecord.length = 1056 := by
      rw [hollowRecord, length_append, length_append, length_replicate, length_u64Bytes]
    have hrd {i : ℕ} (hi : slice hollowRecord i 8 = u64Bytes 1) :
        Rans256.u64At hollowRecord i = .ok 1 := okOr_eq_ok.mpr (u64At?_of_slice hi)
    have hpar : offsetBytes ∈ (parse hollowRecord).requests := by
      refine mem_returns_bind (refuse_of_not (by rw [hlen]; decide)) ?_
      refine mem_returns_bind (hrd hone) (mem_returns_bind (hrd hone') ?_)
      refine mem_returns_bind (refuse_of_not (by decide)) ?_
      exact mem_bind_requests.mpr (Or.inl (mem_reserve_requests.mpr ⟨by decide, rfl⟩))
    have hmem : offsetBytes ∈
        (Rans256.Guarded.decodeBytes hollowRecord Rans256.soleTable 1).requests :=
      mem_returns_bind Rans256.soleTable_valid (mem_bind_requests.mpr (Or.inl hpar))
    exact absurd (List.IsPrefix.subset hask hmem) not_mem_nil

end RansReader

end Logan
