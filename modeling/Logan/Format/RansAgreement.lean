import Logan.Coding.RansLossless
import Logan.Coding.RansTableRegion
import Logan.Format.RansReader

/-!
# The two readers agree

What the compiler reads back and what the runtime reads is the same: the two
readers accept the same tables, the same manifests and the same records, and
find the same bytes in them. Step by step their checks are the same, but for
two places. A table is validated in another way, and the runtime does not
check for an overflow when it doubles the expected size – which it only does
when the record has told the size, and then it is small.

So the runtime reads what the compiler writes.
-/

namespace Logan

open Rans256.ParsedRecord (parse parse_eq_ok)

namespace RansReader

open Result Format

/-! ## Tables -/

/-- The sum of the frequencies, where validation ends. -/
theorem sum_of_validateFrom {t : RansTable} {l : List Nibble} {lo hi : ℕ}
    (h : t.validateFrom l lo = .ok hi) : lo + (l.map t.freq).sum = hi := by
  induction l generalizing lo with
  | nil => exact Except.ok.inj h
  | cons s rest ih =>
    rw [Rans256.Table.validateFrom] at h
    obtain ⟨-, -, h⟩ := bind_eq_ok.mp h
    obtain ⟨next, hnex, h⟩ := bind_eq_ok.mp h
    have hsom := okOr_eq_ok.mp hnex
    unfold Rans256.checkedSumU32 at hsom
    split_ifs at hsom
    cases hsom
    rw [List.map_cons, List.sum_cons, ← Nat.add_assoc]
    exact ih h

/-- Below the scale, nothing overflows. -/
theorem validateFrom_eq_ok {t : RansTable} {l : List Nibble} {lo hi : ℕ} (hlo : lo ≤ scale) :
    Table.validateFrom t l lo = .ok hi ↔ t.validateFrom l lo = .ok hi ∧ hi ≤ scale := by
  have hscale : scale ≤ u32Max := by decide
  induction l generalizing lo with
  | nil =>
    constructor
    · intro h
      obtain rfl := Except.ok.inj h
      exact ⟨rfl, hlo⟩
    · rintro ⟨h, -⟩
      exact congrArg Except.ok (Except.ok.inj h)
  | cons s rest ih =>
    rw [Table.validateFrom, Rans256.Table.validateFrom]
    simp only [bind_eq_ok, refuse_eq_ok, not_not, not_lt]
    constructor
    · rintro ⟨-, hst, -, hle, hres⟩
      obtain ⟨hres, hhi⟩ := (ih hle).mp hres
      exact ⟨⟨(), hst, _, okOr_eq_ok.mpr (if_pos (hle.trans hscale)), hres⟩, hhi⟩
    · rintro ⟨⟨-, hst, next, hnex, hres⟩, hhi⟩
      have hsom := okOr_eq_ok.mp hnex
      unfold Rans256.checkedSumU32 at hsom
      split_ifs at hsom
      cases hsom
      have hle : lo + t.freq s ≤ scale := by
        have := sum_of_validateFrom hres
        omega
      exact ⟨(), hst, (), hle, (ih hle).mpr ⟨hres, hhi⟩⟩

variable (t : RansTable)

/-- **The same tables are valid.** -/
theorem validate_agree : Agree (Table.validate t) t.validate := by
  rintro ⟨⟩
  unfold Table.validate Rans256.Table.validate
  simp only [bind_eq_ok, refuse_eq_ok, not_not]
  constructor
  · rintro ⟨-, -, cursor, hcur, hscale⟩
    exact ⟨cursor, ((validateFrom_eq_ok (Nat.zero_le _)).mp hcur).1, hscale⟩
  · rintro ⟨cursor, hcur, hscale⟩
    have hsum := sum_of_validateFrom hcur
    rw [Nat.zero_add, hscale] at hsum
    exact ⟨(), hsum, cursor, (validateFrom_eq_ok (Nat.zero_le _)).mpr
      ⟨hcur, le_of_eq hscale⟩, hscale⟩

/-- **The same slots** belong to the same symbols. -/
theorem slotToSymbol_agree : Agree (Table.slotToSymbol t) t.slotToSymbol :=
  (validate_agree t).bind fun _ => Agree.ok _

/-! ## Fields -/

variable (bytes : List UInt8)

variable (offset : ℕ)

theorem u16At_agree : Agree (u16At bytes offset) (Rans256.u16At bytes offset) := Agree.okOr _ _ _

theorem u32At_agree : Agree (u32At bytes offset) (Rans256.u32At bytes offset) := Agree.okOr _ _ _

theorem i32At_agree : Agree (i32At bytes offset) (Rans256.i32At bytes offset) := Agree.okOr _ _ _

theorem u64At_agree : Agree (u64At bytes offset) (Rans256.u64At bytes offset) := Agree.okOr _ _ _

theorem anyNonzero_iff : anyNonzero bytes = true ↔ ¬ Rans256.allZero bytes = true := by
  unfold anyNonzero Rans256.allZero
  simp only [List.any_eq_true, List.all_eq_true, decide_eq_true_iff, not_forall, exists_prop]

/-! ## Blobs and regions -/

/-- **The same blobs are tables.** -/
theorem decodeBlob_agree (blob : List UInt8) :
    Agree (Table.decodeBlob blob) (Rans256.Table.decodeBlob blob) := by
  refine (Agree.refuse Iff.rfl _ _).bind fun _ => ?_
  refine (Agree.refuse Iff.rfl _ _).bind fun _ => ?_
  refine (u16At_agree _ _).bind fun _ => (Agree.refuse Iff.rfl _ _).bind fun _ => ?_
  refine (u16At_agree _ _).bind fun _ => (Agree.refuse Iff.rfl _ _).bind fun _ => ?_
  refine (u32At_agree _ _).bind fun _ => (Agree.refuse Iff.rfl _ _).bind fun _ => ?_
  refine (u32At_agree _ _).bind fun _ => (Agree.refuse Iff.rfl _ _).bind fun _ => ?_
  refine (u32At_agree _ _).bind fun _ => (Agree.refuse Iff.rfl _ _).bind fun _ => ?_
  refine (Agree.refuse (anyNonzero_iff _) _ _).bind fun _ => ?_
  refine (Agree.mapM (fun symbol => (u32At_agree _ _).bind fun _ =>
    (u32At_agree _ _).bind fun _ => Agree.ok _) _).bind fun fields => ?_
  exact (validate_agree _).bind fun _ => Agree.ok _

/-- **The same descriptors** lead to the same tables. -/
theorem tableAt_agree (region : List UInt8) (crc32c : List UInt8 → UInt32) (tableId : UInt32)
    (codec : UInt16) (desc : ℕ) : Agree (tableAt region crc32c tableId codec desc)
      (Rans256.tableAt region crc32c tableId codec desc) := by
  refine (Agree.refuse Iff.rfl _ _).bind fun _ => (u32At_agree _ _).bind fun id => ?_
  by_cases hid : id ≠ tableId
  · rw [if_pos hid, if_pos hid]
    exact Agree.ok none
  · rw [if_neg hid, if_neg hid]
    refine (u16At_agree _ _).bind fun _ => (Agree.refuse Iff.rfl _ _).bind fun _ => ?_
    refine (u16At_agree _ _).bind fun _ => (Agree.refuse Iff.rfl _ _).bind fun _ => ?_
    refine (i32At_agree _ _).bind fun _ => (Agree.refuse Iff.rfl _ _).bind fun _ => ?_
    refine (u32At_agree _ _).bind fun _ => (Agree.refuse Iff.rfl _ _).bind fun _ => ?_
    refine (u32At_agree _ _).bind fun _ => (Agree.refuse Iff.rfl _ _).bind fun _ => ?_
    refine (Agree.refuse (anyNonzero_iff _) _ _).bind fun _ => ?_
    refine (u64At_agree _ _).bind fun _ => (u64At_agree _ _).bind fun _ => ?_
    refine (Agree.okOr _ _ _).bind fun _ => (Agree.okOr _ _ _).bind fun blob => ?_
    refine (u32At_agree _ _).bind fun _ => (Agree.refuse Iff.rfl _ _).bind fun _ => ?_
    exact (decodeBlob_agree blob).map some

theorem findTable_agree (region : List UInt8) (crc32c : List UInt8 → UInt32) (tableId : UInt32)
    (codec : UInt16) (n index : ℕ) : Agree (findTable region crc32c tableId codec n index)
      (Rans256.findTable region crc32c tableId codec n index) := by
  induction n generalizing index with
  | zero => exact Agree.error _ _
  | succ n ih =>
    rw [findTable, Rans256.findTable]
    refine (Agree.okOr _ _ _).bind fun desc => (tableAt_agree _ _ _ _ _).bind fun found => ?_
    cases found with
    | none => exact ih _
    | some table => exact Agree.ok table

/-- **The same manifests** have the same tables. -/
theorem fromManifest_agree (crc32c : List UInt8 → UInt32) (manifest : List UInt8)
    (tableId : UInt32) (codec : UInt16) : Agree (fromManifest crc32c manifest tableId codec)
      (Rans256.tableFromManifest crc32c manifest tableId codec) := by
  refine (Agree.refuse Iff.rfl _ _).bind fun _ => (u32At_agree _ _).bind fun _ => ?_
  refine (u64At_agree _ _).bind fun _ => (u64At_agree _ _).bind fun _ => ?_
  refine (Agree.okOr _ _ _).bind fun _ => (Agree.okOr _ _ _).bind fun region => ?_
  exact findTable_agree _ _ _ _ _ _

/-! ## Records -/

/-- What the compiler's reader finds in a record, as the runtime has it. -/
def ofParsed (parsed : Rans256.ParsedRecord) : ParsedRansRecord :=
  ⟨parsed.nSymbols, parsed.packedBytes, parsed.offsets, parsed.payload⟩

/-- **The same records are well-formed.** -/
theorem parse_agree (record : List UInt8) :
    Agree (ParsedRansRecord.parse record) (ofParsed <$> parse record) := by
  unfold ParsedRansRecord.parse parse
  simp only [map_bind]
  refine (Agree.refuse Iff.rfl _ _).bind fun _ => ?_
  refine (u64At_agree _ _).bind fun _ => (u64At_agree _ _).bind fun _ => ?_
  refine (Agree.refuse Iff.rfl _ _).bind fun _ => ?_
  refine (Agree.mapM (fun stream => ?_) _).bind fun offsets => ?_
  · rw [map_eq_pure_bind]
    exact (u32At_agree _ _).bind fun _ => Agree.ok _
  refine (Agree.refuse Iff.rfl _ _).bind fun _ => (Agree.refuse Iff.rfl _ _).bind fun _ => ?_
  refine (Agree.okOr _ _ _).bind fun _ => (Agree.refuse Iff.rfl _ _).bind fun _ => ?_
  refine (Agree.refuse (or_congr (anyNonzero_iff _) (anyNonzero_iff _)) _ _).bind fun _ => ?_
  exact (Agree.refuse Iff.rfl _ _).bind fun _ => Agree.ok _

theorem refill_eq (state : ℕ) (bytes : List UInt8) :
    refill state bytes = Slots.refill Rans256.ransL state bytes := by
  induction bytes generalizing state with
  | nil => rfl
  | cons byte rest ih =>
    rw [refill, Slots.refill, ih]
    rfl

theorem decodeSymbols_eq (slots : ℕ → Nibble) (n state : ℕ) (bytes : List UInt8) :
    decodeSymbols t slots n state bytes = Rans256.decodeSymbols t slots n state bytes := by
  induction n generalizing state bytes with
  | zero => rfl
  | succ n ih =>
    rw [decodeSymbols, Rans256.decodeSymbols]
    dsimp only
    rw [refill_eq, ih]
    rfl

/-- **The same streams** have the same symbols. -/
theorem decodeStreamChecked_agree (stream : List UInt8) (symbols : ℕ) (t : RansTable)
    (slots : ℕ → Nibble) : Agree (decodeStreamChecked stream symbols t slots)
      (Rans256.decodeStreamChecked stream symbols t slots) := by
  unfold decodeStreamChecked Rans256.decodeStreamChecked
  rw [decodeSymbols_eq]
  refine (Agree.refuse Iff.rfl _ _).bind fun _ => (Agree.refuse Iff.rfl _ _).bind fun _ => ?_
  exact (Agree.refuse Iff.rfl _ _).bind fun _ => (Agree.refuse Iff.rfl _ _).bind fun _ =>
    Agree.ok _

theorem decodeInto_agree (parsed : Rans256.ParsedRecord) (t : RansTable) (slots : ℕ → Nibble)
    (output : List UInt8) (stream : ℕ) : Agree (decodeInto (ofParsed parsed) t slots output stream)
      (Rans256.decodeInto parsed t slots output stream) :=
  (decodeStreamChecked_agree _ _ _ _).bind fun _ => Agree.ok _

/-- **The product of the runtime does not overflow**: a record has no more
symbols than its bytes allow. -/
theorem twice_le_of_parse {record : List UInt8} {parsed : Rans256.ParsedRecord}
    (h : parse record = .ok parsed) : parsed.packedBytes * 2 ≤ usizeMax := by
  obtain ⟨streams, hrd⟩ := parse_eq_ok.mp h
  have hbnd : ∀ most, most + 1 ≤ usizeMax → parsed.nSymbols ≤ most →
      parsed.packedBytes * 2 ≤ usizeMax := by
    intro most hmos hle
    have hpac := hrd.packed
    omega
  refine hbnd (u32Max * 8 * 2 ^ 15) (by decide) (hrd.amplified.trans ?_)
  exact Nat.mul_le_mul_right _ (Nat.mul_le_mul_right _ hrd.counted)

/-- **The same records are decoded**, to the same bytes. -/
theorem decodeRecord_agree (record : List UInt8) (expectedBytes : ℕ) :
    Agree (decodeRecord t record expectedBytes) (Rans256.decodeBytes record t expectedBytes) := by
  intro out
  unfold decodeRecord Rans256.decodeBytes
  simp only [bind_eq_ok, refuse_eq_ok, not_or, not_not, okOr_eq_ok]
  constructor
  · rintro ⟨_, hrd, -, ⟨hpac, hsym⟩, slots, hsl, hout⟩
    have hmap := (parse_agree record _).mp hrd
    obtain ⟨parsed, hpar, rfl⟩ := map_eq_ok hmap
    have htw := twice_le_of_parse hpar
    obtain rfl : parsed.packedBytes = expectedBytes := hpac
    have hsl := (slotToSymbol_agree t _).mp hsl
    have hval : t.validate = .ok () := (bind_eq_ok.mp hsl).choose_spec.1
    have hwr : parsed.packedBytes * 2 % 2 ^ 64 = parsed.packedBytes * 2 :=
      Nat.mod_eq_of_lt (lt_of_le_of_lt htw (by norm_num [usizeMax]))
    exact ⟨(), hval, parsed, hpar, (), rfl, _, checkedProduct_of_le htw, (),
      hsym.trans hwr, slots, hsl,
      (Agree.foldlM (decodeInto_agree parsed t slots) _ _ out).mp hout⟩
  · rintro ⟨-, -, parsed, hpar, -, rfl, twice, htw, -, hsym, slots, hsl, hout⟩
    obtain ⟨rfl, hle⟩ := checkedProduct_eq_some.mp htw
    have hwr : parsed.packedBytes * 2 % 2 ^ 64 = parsed.packedBytes * 2 :=
      Nat.mod_eq_of_lt (lt_of_le_of_lt hle (by norm_num [usizeMax]))
    refine ⟨ofParsed parsed, (parse_agree record _).mpr (by rw [hpar]; rfl), (),
      ⟨rfl, hsym.trans hwr.symm⟩, slots, (slotToSymbol_agree t _).mpr hsl,
      (Agree.foldlM (decodeInto_agree parsed t slots) _ _ out).mpr hout⟩

/-- **The two readers agree**: on blobs, on manifests and on records they accept
the same and find the same, whatever the bytes are. -/
theorem readers_agree (crc32c : List UInt8 → UInt32) :
    (∀ blob, Agree (Table.decodeBlob blob) (Rans256.Table.decodeBlob blob)) ∧
    (∀ manifest tableId codec, Agree (fromManifest crc32c manifest tableId codec)
      (Rans256.tableFromManifest crc32c manifest tableId codec)) ∧
    (∀ t record expectedBytes, Agree (decodeRecord t record expectedBytes)
      (Rans256.decodeBytes record t expectedBytes)) ∧
    ∀ manifest tableId codec record expectedBytes,
      Agree (fromManifest crc32c manifest tableId codec >>= fun t =>
          decodeRecord t record expectedBytes)
        (Rans256.tableFromManifest crc32c manifest tableId codec >>= fun t =>
          Rans256.decodeBytes record t expectedBytes) :=
  ⟨decodeBlob_agree, fromManifest_agree crc32c, decodeRecord_agree,
    fun manifest tableId codec record expectedBytes =>
      (fromManifest_agree crc32c manifest tableId codec).bind fun t =>
        decodeRecord_agree t record expectedBytes⟩

/-- **What the compiler writes, the runtime reads**: a valid table is embedded in a manifest that
has none, and with the table that the runtime finds there, a record of the compiler is decoded
to what was encoded, and to nothing if another size is expected. -/
theorem decodeRecord_of_embedded (crc32c : List UInt8 → UInt32) (manifest : Vec 1 UInt8)
    (t : RansTable) (hno : Rans256.NoTable manifest.toList) (hval : t.validate = .ok ()) :
    ∃ embedded, Rans256.manifestTableRegion crc32c manifest.toList (some t) = .ok embedded ∧
      ∀ input record, Rans256.encodeBytes input t = .ok record → (input.length ≤ 2 ^ 27 ∨
          ∀ i < input.length * 2, t.freq (Rans256.nibbleAt input i) ≠ Rans256.scale) →
        ∀ n out, (fromManifest crc32c embedded Rans256.tableId codecId >>= fun t =>
          decodeRecord t record n) = .ok out ↔ n = input.length ∧ out = input := by
  have hfit : manifest.toList.length ≤ isizeMax := by
    have hfit := manifest.fits
    rwa [Nat.one_mul] at hfit
  have hblob := Rans256.Table.encodeBlob_eq_ok.mpr ⟨hval, rfl⟩
  refine ⟨_, Rans256.manifestTableRegion_of_encodeBlob hno hblob,
    fun input record henc hfew n out => ?_⟩
  have hfnd := (fromManifest_agree crc32c _ _ _ t).mpr
    (((Rans256.embeds_withRegion hno hfit hblob).found _ t).mpr ⟨rfl, rfl⟩)
  rw [show codecId = Rans256.codecId from rfl, hfnd, ok_bind, decodeRecord_agree t record n out]
  have hdec := Rans256.decodeBytes_of_encode hval henc hfew
  constructor
  · intro h
    obtain ⟨parsed, _, hrd, rfl, -⟩ := (Rans256.decodeBytes_eq_ok hval).mp h
    obtain ⟨parsed', _, hrd', hpac, -⟩ := (Rans256.decodeBytes_eq_ok hval).mp hdec
    -- a record tells its size
    have hpar := parse_eq_ok.mpr ⟨_, hrd⟩
    obtain rfl := Except.ok.inj (hpar.symm.trans (parse_eq_ok.mpr ⟨_, hrd'⟩))
    rw [hpac] at h ⊢
    exact ⟨rfl, Except.ok.inj (h.symm.trans hdec)⟩
  · rintro ⟨rfl, rfl⟩
    exact hdec

/-- Bytes for all streams are written and read. -/
theorem decodeRecord_of_embedded_many : ∃ embedded record,
    Rans256.manifestTableRegion crc32c (Rans256.shortManifest 0).toList (some Rans256.evenTable)
        = .ok embedded ∧ Rans256.encodeBytes Rans256.manyBytes Rans256.evenTable = .ok record ∧
      (fromManifest crc32c embedded Rans256.tableId codecId >>= fun t =>
        decodeRecord t record 130) = .ok Rans256.manyBytes := by
  obtain ⟨embedded, hemb, hrd⟩ := decodeRecord_of_embedded crc32c (Rans256.shortManifest 0)
    Rans256.evenTable (Rans256.noTable_shortManifest 0) (by decide)
  obtain ⟨record, henc⟩ := Rans256.exists_record_manyBytes
  exact ⟨embedded, record, hemb, henc, (hrd _ record henc (Or.inl (by decide +kernel)) 130 _).mpr
    ⟨rfl, rfl⟩⟩

end RansReader

end Logan
