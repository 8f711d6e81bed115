import Logan.Source.GgufReaders
import Logan.Util.Align

/-!
# The GGUF parser is exact

`parse_gguf_file` accepts just the files that begin with a header of the
format, whose alignment is a small power of two and whose tensors, of distinct
names and at aligned offsets, are all inside the file; and what it returns is
what the header says, the last value of each key (`parseGgufFile_exact`).
Whatever the file is, the parser returns, and no allocation of it is larger
than the vector of a million descriptors.

An array that is skipped may lead beyond the end of the file, but then the
data section would begin there, and the file is refused.
-/

namespace Logan

open List Metered Function Option

namespace Gguf

open FileCursor

/-! ## What is accepted, and what is returned -/

/-- The last value that is written for a key. -/
def lastValue (entries : List (String × MetadataValue)) (key : String) : Option MetadataValue :=
  (entries.reverse.find? fun entry => entry.1 = key).map Prod.snd

/-- The next aligned offset. -/
def roundUp (n alignment : ℕ) : ℕ := (n + (alignment - 1)) / alignment * alignment

section Accepted

variable (entries : List (String × MetadataValue)) (headerLen : ℕ)

/-- Where the data of a file begins. -/
def dataStartOf : ℕ := roundUp headerLen (alignmentOf (lastValue entries))

/-- **A header that fits its file.** -/
structure Accepted (fileLen : ℕ) (tensors : List PendingTensor) : Prop where
  alignment : ∃ k ≤ 20, alignmentOf (lastValue entries) = 2 ^ k
  dataStart : dataStartOf entries headerLen ≤ fileLen
  aligned : ∀ t ∈ tensors, alignmentOf (lastValue entries) ∣ t.relativeOffset.toNat
  inside : ∀ t ∈ tensors,
    dataStartOf entries headerLen + t.relativeOffset.toNat + t.storedBytes ≤ fileLen
  distinct : (tensors.map PendingTensor.name).Nodup

end Accepted

/-- A tensor at its place. -/
def PendingTensor.info (dataStart shard : ℕ) (t : PendingTensor) : TensorInfo :=
  ⟨t.name, t.dims, t.dtype, shard, dataStart + t.relativeOffset.toNat, t.storedBytes⟩

/-- **What a header says.** -/
def parsed (shard : ℕ) (entries : List (String × MetadataValue)) (headerLen : ℕ)
    (tensors : List PendingTensor) : ParsedGguf where
  metadata := lastValue entries
  tensors name := (tensors.find? fun t => t.name = name).map
    (PendingTensor.info (dataStartOf entries headerLen) shard)
  dataStart := dataStartOf entries headerLen
  alignment := alignmentOf (lastValue entries)

/-! ## The alignment -/

theorem insertAll_eq (entries : List (String × MetadataValue)) :
    insertAll entries = lastValue entries := by
  induction entries using List.reverseRecOn with
  | nil => rfl
  | append_singleton l entry ih =>
    funext key
    unfold insertAll lastValue at ih ⊢
    rw [foldl_append, ih, reverse_append]
    show update (fun key => (l.reverse.find? fun entry => entry.1 = key).map Prod.snd)
      entry.1 (some entry.2) key = (List.find? _ (entry :: l.reverse)).map _
    by_cases hkey : entry.1 = key
    · subst hkey
      simp only [update_self, List.find?_cons, decide_true, map_some]
    · simp only [update_of_ne (Ne.symm hkey), List.find?_cons, decide_eq_false hkey]

theorem goodAlignment_iff {a : ℕ} : GoodAlignment a ↔ ∃ k ≤ 20, a = 2 ^ k := by
  constructor
  · intro h
    obtain ⟨h0, h⟩ := not_or.mp h
    obtain ⟨hpow, hle⟩ := not_or.mp h
    obtain ⟨-, hpow⟩ := of_decide_eq_true (not_not.mp hpow)
    refine ⟨a.log2, ?_, hpow.symm⟩
    rw [← hpow, not_lt] at hle
    exact (Nat.pow_le_pow_iff_right (by decide)).mp (hle.trans (by decide : 1024 * 1024 ≤ 2 ^ 20))
  · rintro ⟨k, hk, rfl⟩
    have hpos : 2 ^ k ≠ 0 := (Nat.two_pow_pos k).ne'
    refine not_or.mpr ⟨hpos, not_or.mpr ⟨not_not.mpr (decide_eq_true ⟨hpos, ?_⟩), not_lt.mpr ?_⟩⟩
    · rw [Nat.log2_two_pow]
    · exact (Nat.pow_le_pow_right (by decide) hk).trans (by decide)

theorem alignUp_eq {n k : ℕ} (hn : n ≤ isizeMax) (hk : k ≤ 20) :
    alignUp n (2 ^ k) = pure (roundUp n (2 ^ k)) := by
  have hpow : 2 ^ k ≤ 2 ^ 20 := Nat.pow_le_pow_right (by decide) hk
  have hsum : n + (2 ^ k - 1) ≤ usizeMax := by
    have : isizeMax + 2 ^ 20 ≤ usizeMax := by decide
    omega
  unfold alignUp roundUp
  rw [if_neg (Nat.two_pow_pos k).ne', checkedSum_of_le hsum]
  have hlt : n + (2 ^ k - 1) < 2 ^ 64 := by
    unfold usizeMax at hsum
    omega
  show pure _ = pure _
  rw [and_not_two_pow hlt (by omega)]

theorem le_roundUp (n k : ℕ) : n ≤ roundUp n (2 ^ k) := (roundUp_spec n (Nat.two_pow_pos k)).2.1

/-! ## The tensors -/

section Tensors

variable {fileLen alignment dataStart shard : ℕ} {t : PendingTensor}
  {tensors tensors' : String → Option TensorInfo}

/-- **One tensor is placed** if it is aligned, inside the file, and new. -/
theorem placeTensor_eq_ok (hlen : fileLen ≤ isizeMax) (hal : alignment ≠ 0)
    (hnam : (utf8 t.name).length ≤ maxStringBytes) :
    (placeTensor fileLen alignment dataStart shard tensors t).result = .ok tensors' ↔
      (alignment ∣ t.relativeOffset.toNat
        ∧ dataStart + t.relativeOffset.toNat + t.storedBytes ≤ fileLen ∧ tensors t.name = none)
      ∧ tensors' = update tensors t.name (some (t.info dataStart shard)) := by
  have hres : (reserve (utf8 t.name).length : Metered String Unit).result = .ok () :=
    reserve_eq_ok.mpr (hnam.trans (by decide))
  unfold placeTensor
  rw [if_neg hal]
  by_cases hmod : t.relativeOffset.toNat % alignment ≠ 0
  · rw [if_pos hmod]
    exact iff_of_false nofun fun h => hmod (Nat.mod_eq_zero_of_dvd h.1.1)
  rw [if_neg hmod]
  have hdvd := Nat.dvd_of_mod_eq_zero (not_not.mp hmod)
  by_cases hin : dataStart + t.relativeOffset.toNat + t.storedBytes ≤ fileLen
  · have hus : fileLen ≤ usizeMax := hlen.trans (by decide)
    rw [checkedSum_of_le (by omega)]
    dsimp only
    rw [checkedSum_of_le (hin.trans hus)]
    dsimp only
    rw [if_neg (not_lt.mpr hin), bind_eq_ok]
    simp only [hres, exists_const, true_and, bind_eq_ok]
    cases hnew : tensors t.name with
    | some => exact iff_of_false nofun fun h => by cases h.1.2.2
    | none =>
      rw [isSome_none, if_neg Bool.false_ne_true]
      constructor
      · exact fun h => ⟨⟨hdvd, hin, rfl⟩, (Except.ok.inj h).symm⟩
      · rintro ⟨-, rfl⟩
        rfl
  · refine iff_of_false (fun h => ?_) fun h => hin h.1.2.1
    split at h
    · cases h
    · rename_i offset hoff
      split at h
      · cases h
      · rename_i stop hst
        obtain ⟨rfl, -⟩ := checkedSum_eq_some.mp hoff
        obtain ⟨rfl, -⟩ := checkedSum_eq_some.mp hst
        rw [if_pos (not_le.mp hin)] at h
        cases h

theorem harmless_placeTensor (hal : alignment ≠ 0) (hnam : (utf8 t.name).length ≤ maxStringBytes) :
    (placeTensor fileLen alignment dataStart shard tensors t).Harmless allocationBound := by
  have hbnd : maxStringBytes ≤ allocationBound := by decide
  have hres : (reserve (utf8 t.name).length : Metered String Unit).Harmless allocationBound :=
    harmless_reserve.mpr ⟨(hnam.trans hbnd).trans allocationBound_le, hnam.trans hbnd⟩
  unfold placeTensor
  rw [if_neg hal]
  split
  · exact harmless_fail _
  split
  · exact harmless_fail _
  split
  · exact harmless_fail _
  split
  · exact harmless_fail _
  refine harmless_bind.mpr ⟨hres, fun _ _ => ?_⟩
  refine harmless_bind.mpr ⟨hres, fun _ _ => ?_⟩
  split
  · exact harmless_fail _
  · exact harmless_pure _

/-- A tensor of a new name goes in front of the others. -/
theorem find?_or_update {l : List PendingTensor} (h : ∀ t' ∈ l, t'.name ≠ t.name) :
    (fun name => ((l.find? fun t => t.name = name).map (PendingTensor.info dataStart shard)).or
        (update tensors t.name (some (t.info dataStart shard)) name))
      = fun name => (((t :: l).find? fun t => t.name = name).map
          (PendingTensor.info dataStart shard)).or (tensors name) := by
  funext name
  by_cases hnam : t.name = name
  · subst hnam
    have hnon : (l.find? fun t' => t'.name = t.name) = none := by
      rw [List.find?_eq_none]
      intro t' ht'
      rw [decide_eq_true_eq]
      exact h t' ht'
    simp only [hnon, update_self, List.find?_cons, decide_true, map_some,
      map_none, none_or, some_or]
  · simp only [update_of_ne (Ne.symm hnam), List.find?_cons, decide_eq_false hnam]

/-- **Tensors are placed** if they are aligned and inside the file, and no
two have the same name. -/
theorem placeAll_eq_ok (hlen : fileLen ≤ isizeMax) (hal : alignment ≠ 0)
    {l : List PendingTensor} (hnam : ∀ t ∈ l, (utf8 t.name).length ≤ maxStringBytes) :
    (l.foldlM (placeTensor fileLen alignment dataStart shard) tensors).result = .ok tensors' ↔
      (∀ t ∈ l, alignment ∣ t.relativeOffset.toNat
        ∧ dataStart + t.relativeOffset.toNat + t.storedBytes ≤ fileLen)
      ∧ (l.map PendingTensor.name).Nodup ∧ (∀ t ∈ l, tensors t.name = none)
      ∧ tensors' = fun name => ((l.find? fun t => t.name = name).map
          (PendingTensor.info dataStart shard)).or (tensors name) := by
  induction l generalizing tensors with
  | nil =>
    constructor
    · intro h
      refine ⟨fun t ht => absurd ht not_mem_nil, nodup_nil, fun t ht => absurd ht not_mem_nil, ?_⟩
      exact (Except.ok.inj h).symm
    · rintro ⟨-, -, -, rfl⟩
      rfl
  | cons t l ih =>
    obtain ⟨hnm, hnam⟩ := forall_mem_cons.mp hnam
    rw [foldlM_cons, bind_eq_ok]
    simp only [placeTensor_eq_ok hlen hal hnm, ih hnam, forall_mem_cons, map_cons, nodup_cons]
    constructor
    · rintro ⟨_, ⟨⟨hdvd, hin, hnew⟩, rfl⟩, hall, hnd, hnon, rfl⟩
      have hne (t' : PendingTensor) (ht' : t' ∈ l) : t'.name ≠ t.name := by
        intro heq
        have h := hnon t' ht'
        rw [heq, update_self] at h
        cases h
      refine ⟨⟨⟨hdvd, hin⟩, hall⟩, ⟨fun hmem => ?_, hnd⟩, ⟨hnew, fun t' ht' => ?_⟩,
        find?_or_update hne⟩
      · obtain ⟨t', ht', heq⟩ := mem_map.mp hmem
        exact hne t' ht' heq
      · have h := hnon t' ht'
        rwa [update_of_ne (hne t' ht')] at h
    · rintro ⟨⟨⟨hdvd, hin⟩, hall⟩, ⟨hmem, hnd⟩, ⟨hnew, hnon⟩, rfl⟩
      have hne (t' : PendingTensor) (ht' : t' ∈ l) : t'.name ≠ t.name :=
        fun heq => hmem (mem_map.mpr ⟨t', ht', heq⟩)
      refine ⟨_, ⟨⟨hdvd, hin, hnew⟩, rfl⟩, hall, hnd, fun t' ht' => ?_,
        (find?_or_update hne).symm⟩
      rw [update_of_ne (hne t' ht')]
      exact hnon t' ht'

theorem harmless_placeAll (hal : alignment ≠ 0) {l : List PendingTensor}
    (hnam : ∀ t ∈ l, (utf8 t.name).length ≤ maxStringBytes) :
    (l.foldlM (placeTensor fileLen alignment dataStart shard) tensors).Harmless
      allocationBound := by
  induction l generalizing tensors with
  | nil => exact harmless_pure _
  | cons t l ih =>
    obtain ⟨hnm, hnam⟩ := forall_mem_cons.mp hnam
    rw [foldlM_cons]
    exact harmless_bind.mpr ⟨harmless_placeTensor hal hnm, fun _ _ => ih hnam⟩

end Tensors

/-- The names in a header are not too long. -/
theorem HeaderAs.names_le {B : Type} {e : UInt8 → B} {widen : UInt32 → UInt64}
    {entries : List (String × MetadataValue)} {tensors : List PendingTensor} {w : List B}
    (h : HeaderAs e widen entries tensors w) :
    ∀ t ∈ tensors, (utf8 t.name).length ≤ maxStringBytes := by
  obtain ⟨-, -, _, _, -, ⟨ws, hws, -⟩, -⟩ := h
  induction hws with
  | nil => exact fun t ht => absurd ht not_mem_nil
  | cons ht _ ih =>
    obtain ⟨-, _, hnam, -⟩ := ht
    exact forall_mem_cons.mpr ⟨hnam.1, ih⟩

/-- **The rest of the parser**, behind a header that has been read. -/
theorem placeTensors_eq_ok {fileLen shard headerEnd : ℕ} {tensors : List PendingTensor}
    {entries : List (String × MetadataValue)} {out : ParsedGguf} (hlen : fileLen ≤ isizeMax)
    (hend : headerEnd ≤ isizeMax) (hnam : ∀ t ∈ tensors, (utf8 t.name).length ≤ maxStringBytes)
    (hgd : GoodAlignment (alignmentOf (lastValue entries))) :
    (placeTensors fileLen shard headerEnd (lastValue entries) (alignmentOf (lastValue entries))
        tensors).result = .ok out ↔ Accepted entries headerEnd fileLen tensors
        ∧ out = parsed shard entries headerEnd tensors := by
  obtain ⟨k, hk, hpow⟩ := goodAlignment_iff.mp hgd
  have hup : alignUp headerEnd (alignmentOf (lastValue entries))
      = pure (dataStartOf entries headerEnd) := by
    unfold dataStartOf
    rw [hpow]
    exact alignUp_eq hend hk
  have hzer : alignmentOf (lastValue entries) ≠ 0 := by
    rw [hpow]
    exact (Nat.two_pow_pos k).ne'
  unfold placeTensors
  rw [hup, bind_eq_ok]
  simp only [pure_result, Except.ok.injEq, exists_eq_left']
  by_cases hst : fileLen < dataStartOf entries headerEnd
  · rw [if_pos hst]
    exact iff_of_false nofun fun h => absurd h.1.dataStart (not_le.mpr hst)
  rw [if_neg hst, bind_eq_ok]
  simp only [placeAll_eq_ok hlen hzer hnam]
  constructor
  · rintro ⟨_, ⟨hall, hnd, -, rfl⟩, h⟩
    refine ⟨⟨⟨k, hk, hpow⟩, not_lt.mp hst, fun t ht => (hall t ht).1,
      fun t ht => (hall t ht).2, hnd⟩, (Except.ok.inj h).symm.trans ?_⟩
    simp only [or_none]
    rfl
  · rintro ⟨hacc, rfl⟩
    refine ⟨_, ⟨fun t ht => ⟨hacc.aligned t ht, hacc.inside t ht⟩, hacc.distinct,
      fun _ _ => trivial, rfl⟩, ?_⟩
    simp only [or_none]
    rfl

/-- **The parser is exact.** It accepts the files that begin with a header of
the format that fits them, and returns what the header says. It always
returns, and no allocation is larger than that of a million descriptors. -/
theorem parseGgufFile_exact (widen : UInt32 → UInt64) (file : FileBytes) (shard : ℕ) :
    (∀ out, (parseGgufFile widen file shard).result = .ok out ↔
      ∃ entries tensors header rest, file.bytes = header ++ rest
        ∧ HeaderAs id widen entries tensors header
        ∧ Accepted entries header.length file.bytes.length tensors
        ∧ out = parsed shard entries header.length tensors)
    ∧ (parseGgufFile widen file shard).Harmless allocationBound := by
  have hst : rest (start file) = file.padded := rfl
  refine ⟨fun out => ?_, ?_⟩
  · unfold parseGgufFile
    rw [bind_eq_ok]
    constructor
    · rintro ⟨⟨⟨metadata, alignment, pending⟩, c⟩, hrd, h⟩
      obtain ⟨w, ⟨entries, hmet, hal, hgd, hhdr⟩, hres⟩ :=
        (reads_header widen _ _ _).mp hrd
      obtain rfl : metadata = insertAll entries := hmet
      obtain rfl : alignment = alignmentOf (insertAll entries) := hal
      have hgd : GoodAlignment (alignmentOf (insertAll entries)) := hgd
      have h : (placeTensors file.bytes.length shard c.pos (insertAll entries)
        (alignmentOf (insertAll entries)) pending.toList).result = .ok out := h
      rw [insertAll_eq] at hgd h
      have hpos : c.pos = w.length := (pos_of_rest hres).trans (Nat.zero_add _)
      obtain ⟨hacc, rfl⟩ :=
        (placeTensors_eq_ok file.fits c.le hhdr.names_le hgd).mp h
      rw [hpos] at hacc ⊢
      -- the header ends where the data begins, or before
      have hle : w.length ≤ file.bytes.length := by
        obtain ⟨k, -, hpow⟩ := hacc.alignment
        refine le_trans ?_ hacc.dataStart
        unfold dataStartOf
        rw [hpow]
        exact le_roundUp _ _
      have hw : w = (file.bytes.take w.length).map some := by
        have hsl : slice file.padded 0 w.length = (slice file.bytes 0 w.length).map some :=
          slice_padded (by rwa [Nat.zero_add])
        rwa [slice, slice, drop_zero, drop_zero, ← hst, hres, take_left] at hsl
      rw [hw] at hhdr
      refine ⟨entries, pending.toList, file.bytes.take w.length, file.bytes.drop w.length,
        (take_append_drop _ _).symm, headerAs_some.mp hhdr, ?_⟩
      rw [length_take_of_le hle]
      exact ⟨hacc, rfl⟩
    · rintro ⟨entries, tensors, header, tail, hbytes, hhdr, hacc, rfl⟩
      have hspl : rest (start file) = header.map some
          ++ (tail.map some ++ List.replicate (isizeMax - file.bytes.length) none) := by
        rw [hst, FileBytes.padded, hbytes, List.map_append, append_assoc]
      obtain ⟨c, hc⟩ := Source.advance _ _ _ hspl
      rw [← hc] at hspl
      have hpos : c.pos = header.length :=
        (pos_of_rest hspl).trans ((Nat.zero_add _).trans (length_map _))
      have hgd : GoodAlignment (alignmentOf (lastValue entries)) :=
        goodAlignment_iff.mpr hacc.alignment
      have hfit : pendingSize * tensors.length ≤ isizeMax :=
        (Nat.mul_le_mul_left _ hhdr.2.1).trans allocationBound_le
      refine ⟨((lastValue entries, alignmentOf (lastValue entries), ⟨tensors, hfit⟩), c),
        (reads_header widen _ _ _).mpr ⟨_, ⟨entries, (insertAll_eq entries).symm, rfl, hgd,
          headerAs_some.mpr hhdr⟩, hspl⟩, ?_⟩
      refine (placeTensors_eq_ok file.fits c.le hhdr.names_le hgd).mpr ?_
      rw [hpos]
      exact ⟨hacc, rfl⟩
  · unfold parseGgufFile
    refine harmless_bind.mpr ⟨frugal_header widen _, ?_⟩
    rintro ⟨⟨metadata, alignment, pending⟩, c⟩ hrd
    obtain ⟨w, ⟨entries, -, -, hgd, hhdr⟩, -⟩ := (reads_header widen _ _ _).mp hrd
    obtain ⟨k, hk, hpow⟩ := goodAlignment_iff.mp hgd
    obtain rfl : alignment = 2 ^ k := hpow
    show (alignUp c.pos (2 ^ k) >>= _).Harmless _
    rw [alignUp_eq c.le hk]
    refine harmless_bind.mpr ⟨harmless_pure _, fun dataStart _ => ?_⟩
    split
    · exact harmless_fail _
    · refine harmless_bind.mpr ⟨?_, fun _ _ => harmless_pure _⟩
      exact harmless_placeAll (Nat.two_pow_pos k).ne' hhdr.names_le

end Gguf

end Logan
