import Logan.State.Snapshot

/-!
# The snapshot format reads what it writes

Every reader of the snapshot format reads the grammar that its writer
writes, so that the round trip holds in both directions: a value that has
been written is read back, and bytes that are read as a value are the bytes
that the value is written as. The redundant parts of the format – magic
numbers, tags, flags and lengths – are all looked at, which is why no other
bytes are accepted.
-/

namespace Logan

open List Reader

open ByteCursor
open Reads (bind_written guard lift map_written vec)

/-! ## Causal states -/

section CausalState

variable {bytes : Vec 1 UInt8}

theorem reads_appendOnly : Reads (readAppendOnly : Reader (ByteCursor bytes) String _)
      (fun st w => ∃ s, st = .appendOnly s ∧ w = appendOnlyBytes s) := by
  refine (bind_written reads_usize fun position => bind_written reads_usize
    fun nHeads => bind_written reads_usize fun dim => bind_written reads_f32Vec
    fun keys => map_written reads_f32Vec).congr fun st w => ?_
  constructor
  · rintro ⟨position, _, ⟨nHeads, _, ⟨dim, _, ⟨keys, _, ⟨values, rfl, rfl⟩, rfl⟩, rfl⟩, rfl⟩, rfl⟩
    exact ⟨_, rfl, rfl⟩
  · rintro ⟨s, rfl, rfl⟩
    exact ⟨s.position, _, ⟨s.nHeads, _, ⟨s.dim, _, ⟨s.keys, _, ⟨s.values, rfl, rfl⟩, rfl⟩,
      rfl⟩, rfl⟩, rfl⟩

theorem reads_ring : Reads (readRing : Reader (ByteCursor bytes) String _)
      (fun st w => ∃ s, st = .ring s ∧ w = ringBytes s) := by
  refine (bind_written reads_usize fun capacity => bind_written reads_usize
    fun writePos => bind_written reads_usize fun readPos => bind_written reads_usize
    fun len => map_written reads_f32Vec).congr fun st w => ?_
  constructor
  · rintro ⟨capacity, _, ⟨writePos, _, ⟨readPos, _, ⟨len, _, ⟨buffer, rfl, rfl⟩, rfl⟩, rfl⟩,
      rfl⟩, rfl⟩
    exact ⟨_, rfl, rfl⟩
  · rintro ⟨s, rfl, rfl⟩
    exact ⟨s.capacity, _, ⟨s.writePos, _, ⟨s.readPos, _, ⟨s.len, _, ⟨s.buffer, rfl, rfl⟩, rfl⟩,
      rfl⟩, rfl⟩, rfl⟩

theorem reads_mutableFixed : Reads (readMutableFixed : Reader (ByteCursor bytes) String _)
      (fun st w => ∃ s, st = .mutableFixed s ∧ w = mutableFixedBytes s) := by
  refine (bind_written reads_usize fun writePos => bind_written reads_usize
    fun len => bind_written (reads_flag _)
    fun hasWrapped => map_written reads_f32Vec).congr fun st w => ?_
  constructor
  · rintro ⟨writePos, _, ⟨len, _, ⟨hasWrapped, _, ⟨data, rfl, rfl⟩, rfl⟩, rfl⟩, rfl⟩
    exact ⟨_, rfl, rfl⟩
  · rintro ⟨s, rfl, rfl⟩
    exact ⟨s.writePos, _, ⟨s.len, _, ⟨s.hasWrapped, _, ⟨s.data, rfl, rfl⟩, rfl⟩, rfl⟩, rfl⟩

/-- An entry of the page table is written as 0, or as 1 and the offset. -/
theorem reads_pageEntry : Reads (readPageEntry : Reader (ByteCursor bytes) String _)
      (fun e w => w = pageEntryBytes e) := by
  have htag : ∀ tag : UInt8, Reads (E := String) (S := ByteCursor bytes) (if tag = 0 then pure none
        else if tag = 1 then u64 >>= fun offset => pure (some offset)
        else fail "invalid sparse page-table tag")
      (fun e w => tag :: w = pageEntryBytes e) := by
    intro tag
    by_cases h0 : tag = 0
    · rw [if_pos h0, h0]
      refine (Reads.pure none).congr fun e w => ?_
      cases e with
      | none => exact ⟨fun h => by rw [h.2]; rfl, fun h => ⟨rfl, (List.cons.inj h).2⟩⟩
      | some => exact iff_of_false (by rintro ⟨⟨⟩, -⟩) nofun
    · rw [if_neg h0]
      by_cases h1 : tag = 1
      · rw [if_pos h1, h1]
        refine (map_written reads_u64).congr fun e w => ?_
        cases e with
        | none => exact iff_of_false (by rintro ⟨_, ⟨⟩, -⟩) nofun
        | some offset =>
          constructor
          · rintro ⟨_, heq, rfl⟩
            cases heq
            rfl
          · exact fun h => ⟨offset, rfl, (List.cons.inj h).2⟩
      · rw [if_neg h1]
        refine (Reads.fail _).congr fun e w => iff_of_false id fun h => ?_
        cases e with
        | none => exact h0 (List.cons.inj h).1
        | some => exact h1 (List.cons.inj h).1
  refine (bind_written reads_u8 htag).congr fun e w => ?_
  constructor
  · rintro ⟨tag, _, h, rfl⟩
    exact h
  · intro h
    cases e with
    | none => exact ⟨0, [], rfl, h⟩
    | some offset => exact ⟨1, u64Bytes offset, rfl, h⟩

/-- **A vector behind its length**, and what comes after it. -/
theorem reads_lengthVec {A C : Type} {size : ℕ} (hsiz : 0 < size) {enc : A → List UInt8}
    {r : Reader (ByteCursor bytes) String A} (hr : Reads r (fun a w => w = enc a))
    {f : Vec size A → Reader (ByteCursor bytes) String C} {V : Vec size A → C → List UInt8 → Prop}
    (hf : ∀ v, Reads (f v) (V v)) : Reads (usize >>= fun len => vec size len.toNat r >>= f)
      (fun c w => ∃ v w', V v c w' ∧
        w = lengthBytes v.toList.length ++ (v.toList.flatMap enc ++ w')) := by
  refine (bind_written reads_usize fun len => Reads.bind (vec hr len.toNat)
    hf).congr fun c w => ?_
  constructor
  · rintro ⟨len, _, ⟨v, _, w', ⟨hlen, rfl⟩, hV, rfl⟩, rfl⟩
    exact ⟨v, w', hV, by rw [lengthBytes, hlen, UInt64.ofNat_toNat]⟩
  · rintro ⟨v, w', hV, rfl⟩
    exact ⟨UInt64.ofNat v.toList.length, _,
      ⟨v, _, w', ⟨(toNat_ofNat_length v hsiz).symm, rfl⟩, hV, rfl⟩, rfl⟩

/-- **Bytes behind their length**, taken as a vector, and what comes after
them. -/
theorem reads_lengthTake {C : Type} {f : Vec 1 UInt8 → Reader (ByteCursor bytes) String C}
    {V : Vec 1 UInt8 → C → List UInt8 → Prop} (hf : ∀ v, Reads (f v) (V v)) :
    Reads (usize >>= fun len => take len.toNat >>= fun raw =>
        lift (Metered.collect 1 raw) >>= f)
      (fun c w => ∃ v w', V v c w' ∧ w = lengthBytes v.toList.length ++ (v.toList ++ w')) := by
  refine (bind_written reads_usize fun len => Reads.bind (reads_take len.toNat)
    fun raw => Reads.bind lift hf).congr fun c w => ?_
  constructor
  · rintro ⟨len, _, ⟨_, raw, _, ⟨hlen, rfl⟩, ⟨v, _, w', ⟨hv, rfl⟩, hV, rfl⟩, rfl⟩, rfl⟩
    obtain rfl := Metered.collect_eq_ok.mp hv
    exact ⟨v, _, hV, by rw [lengthBytes, hlen, UInt64.ofNat_toNat]⟩
  · rintro ⟨v, w', hV, rfl⟩
    exact ⟨UInt64.ofNat v.toList.length, _, ⟨v.toList, v.toList, w',
      ⟨(toNat_ofNat_length v Nat.one_pos).symm, rfl⟩,
      ⟨v, [], w', ⟨Metered.collect_eq_ok.mpr rfl, rfl⟩, hV, rfl⟩, rfl⟩, rfl⟩

theorem reads_sparsePaged : Reads (readSparsePaged : Reader (ByteCursor bytes) String _)
      (fun st w => ∃ s, st = .sparsePaged s ∧ w = sparsePagedBytes s) := by
  refine (bind_written reads_usize fun pageEntries => bind_written reads_usize
    fun maxPages => bind_written (reads_flag _) fun pinned =>
    reads_lengthVec (by decide) reads_pageEntry fun pageTable =>
    reads_lengthVec (by decide) reads_f32Vec fun pages => Reads.pure _).congr fun st w => ?_
  constructor
  · rintro ⟨pageEntries, _, ⟨maxPages, _, ⟨pinned, _, ⟨pageTable, _, ⟨pages, _, ⟨rfl, rfl⟩,
      rfl⟩, rfl⟩, rfl⟩, rfl⟩, rfl⟩
    exact ⟨_, rfl, by rw [sparsePagedBytes, List.append_nil]⟩
  · rintro ⟨s, rfl, rfl⟩
    exact ⟨s.pageEntries, _, ⟨s.maxPages, _, ⟨s.pinned, _, ⟨s.pageTable, _, ⟨s.pages, [],
      ⟨rfl, rfl⟩, rfl⟩, rfl⟩, rfl⟩, rfl⟩, by rw [sparsePagedBytes, List.append_nil]⟩

theorem reads_opaque : Reads (readOpaque : Reader (ByteCursor bytes) String _)
      (fun st w => ∃ data, st = .opaqueData data ∧ w = opaqueBytes data) := by
  refine (reads_lengthTake fun data => Reads.pure _).congr fun st w => ?_
  constructor
  · rintro ⟨data, _, ⟨rfl, rfl⟩, rfl⟩
    exact ⟨data, rfl, by rw [opaqueBytes, List.append_nil]⟩
  · rintro ⟨data, rfl, rfl⟩
    exact ⟨data, [], ⟨rfl, rfl⟩, by rw [opaqueBytes, List.append_nil]⟩

/-- **The tag decides** what comes after it. -/
theorem reads_kind (tag : UInt8) : Reads (readKind tag : Reader (ByteCursor bytes) String _)
      (fun st w => tag :: w = kindBytes st) := by
  unfold readKind
  split_ifs with h0 h1 h2 h3 h4
  · subst h0
    refine reads_appendOnly.congr fun st w => ?_
    cases st <;> simp [kindBytes]
  · subst h1
    refine reads_ring.congr fun st w => ?_
    cases st <;> simp [kindBytes]
  · subst h2
    refine reads_mutableFixed.congr fun st w => ?_
    cases st <;> simp [kindBytes]
  · subst h3
    refine reads_sparsePaged.congr fun st w => ?_
    cases st <;> simp [kindBytes]
  · subst h4
    refine reads_opaque.congr fun st w => ?_
    cases st <;> simp [kindBytes]
  · refine (Reads.fail _).congr fun st w => iff_of_false id ?_
    cases st <;> simp [kindBytes, h0, h1, h2, h3, h4]

theorem reads_magic {C : Type} (magic : List UInt8) (n : ℕ) (hmag : magic.length = n)
    {error : String} {r : Reader (ByteCursor bytes) String C} {W : C → List UInt8 → Prop}
    (hr : Reads r W) : Reads (take n >>= fun raw => if raw ≠ magic then fail error else r)
      (fun c w => ∃ w', W c w' ∧ w = magic ++ w') := by
  refine (Reads.bind (reads_take _) fun raw => guard hr).congr fun c w => ?_
  constructor
  · rintro ⟨_, raw, w', ⟨-, rfl⟩, ⟨hsam, hW⟩, rfl⟩
    rw [not_not] at hsam
    exact ⟨w', hW, by rw [hsam]⟩
  · rintro ⟨w', hW, rfl⟩
    exact ⟨magic, magic, w', ⟨hmag, rfl⟩, ⟨not_not.mpr rfl, hW⟩, rfl⟩

/-- **The reader of causal states** reads what their writer writes. -/
theorem reads_causalState : Reads (readCausalState : Reader (ByteCursor bytes) String _)
      (fun st w => w = causalStateBytes st) := by
  refine (reads_magic statePayloadMagic 4 rfl (bind_written reads_u8 reads_kind)).congr
    fun st w => ?_
  constructor
  · rintro ⟨_, ⟨tag, w', h, rfl⟩, rfl⟩
    exact congrArg _ h
  · rintro rfl
    refine ⟨kindBytes st, ?_, rfl⟩
    cases st <;> exact ⟨_, _, rfl, rfl⟩

end CausalState

/-- **Decoding undoes encoding**, and only what encoding yields is decoded. -/
theorem encodeCausalState_eq_ok_iff {state : CausalState} {v : Vec 1 UInt8} :
    encodeCausalState state = .ok v ↔ (decodeCausalState v).result = .ok state := by
  rw [encodeCausalState, Vec.ofList_eq_ok, decodeCausalState,
    reads_causalState.complete_eq_ok isDone_iff, rest_start]
  exact eq_comm

/-! ## The fields of a snapshot -/

theorem toEngine_eq_ok {raw : List UInt8} {engine : String} (h : raw.length ≤ isizeMax) :
    (toEngine raw).result = .ok engine ↔ raw = utf8 engine := by
  unfold toEngine
  cases hraw : fromUtf8 raw with
  | none =>
    refine iff_of_false nofun fun heq => ?_
    rw [fromUtf8_eq_some.mpr heq] at hraw
    cases hraw
  | some e =>
    obtain rfl := fromUtf8_eq_some.mp hraw
    constructor
    · intro hok
      obtain ⟨-, -, hok⟩ := Metered.bind_eq_ok.mp hok
      rw [Except.ok.inj hok]
    · intro heq
      have he : e = engine := by
        have hsom := fromUtf8_eq_some.mpr heq
        rw [hraw] at hsom
        exact Option.some.inj hsom
      exact Metered.bind_eq_ok.mpr ⟨(), Metered.reserve_eq_ok.mpr h, congrArg _ he⟩

section Fields

variable {bytes : Vec 1 UInt8}

/-- **The name of the engine**, behind its length, and what comes after it. -/
theorem reads_engine {C : Type} {f : String → Reader (ByteCursor bytes) String C}
    {V : String → C → List UInt8 → Prop} (hf : ∀ e, Reads (f e) (V e)) :
    Reads (u32 >>= fun len => take len.toNat >>= fun raw => lift (toEngine raw) >>= f)
      (fun c w => ∃ e w', ((utf8 e).length < 2 ^ 32 ∧ V e c w') ∧
        w = u32Bytes (UInt32.ofNat (utf8 e).length) ++ (utf8 e ++ w')) := by
  refine (bind_written reads_u32 fun len => Reads.bind (reads_take len.toNat)
    fun raw => Reads.bind lift hf).congr fun c w => ?_
  have hsm : ∀ n < 2 ^ 32, n ≤ isizeMax := by
    intro n hn
    unfold isizeMax
    omega
  constructor
  · rintro ⟨len, _, ⟨_, raw, _, ⟨hlen, rfl⟩, ⟨e, _, w', ⟨he, rfl⟩, hV, rfl⟩, rfl⟩, rfl⟩
    have hlt : raw.length < 2 ^ 32 := hlen ▸ len.toNat_lt
    obtain rfl := (toEngine_eq_ok (hsm _ hlt)).mp he
    exact ⟨e, _, ⟨hlt, hV⟩, by rw [hlen, UInt32.ofNat_toNat]⟩
  · rintro ⟨e, w', ⟨hlt, hV⟩, rfl⟩
    have hlen : (UInt32.ofNat (utf8 e).length).toNat = (utf8 e).length := by
      rw [UInt32.toNat_ofNat', Nat.mod_eq_of_lt hlt]
    exact ⟨_, _, ⟨utf8 e, utf8 e, w', ⟨hlen.symm, rfl⟩,
      ⟨e, [], w', ⟨(toEngine_eq_ok (hsm _ hlt)).mpr rfl, rfl⟩, hV, rfl⟩, rfl⟩, rfl⟩

/-- The bytes of the fields that `fromBytes` reads. -/
def SnapshotFields.encoded (f : SnapshotFields) : List UInt8 :=
  StateSnapshot.encoded f.schemaId f.prefixLen f.prefixHash f.generation f.payloadKind
    f.payloadBytes.toList f.checksum

theorem reads_version {C : Type} {version : UInt32} {error : UInt32 → String}
    {r : Reader (ByteCursor bytes) String C} {W : C → List UInt8 → Prop} (hr : Reads r W) :
    Reads (u32 >>= fun v => if v ≠ version then fail (error v) else r)
      (fun c w => ∃ w', W c w' ∧ w = u32Bytes version ++ w') := by
  refine (bind_written reads_u32 fun v => guard hr).congr fun c w => ?_
  constructor
  · rintro ⟨v, w', ⟨hv, hW⟩, rfl⟩
    rw [not_not] at hv
    exact ⟨w', hW, by rw [hv]⟩
  · rintro ⟨w', hW, rfl⟩
    exact ⟨version, w', ⟨not_not.mpr rfl, hW⟩, rfl⟩

/-- **The fields are read as they are written**, if the name of the engine is
short enough for its length. -/
theorem reads_snapshotFields : Reads (readSnapshotFields : Reader (ByteCursor bytes) String _)
      (fun f w => (utf8 f.schemaId.engine).length < 2 ^ 32 ∧ w = f.encoded) := by
  refine (reads_magic snapshotMagic 8 rfl (reads_version (reads_engine fun engine =>
    bind_written reads_u32 fun version => bind_written reads_u32 fun subVersion =>
    bind_written reads_usize fun prefixLen => bind_written reads_u64
    fun prefixHash => bind_written reads_u64 fun generation => bind_written reads_u8
    fun payloadKind => reads_lengthTake fun payloadBytes =>
    map_written (reads_arrayOr (Reads.fail _))))).congr fun f w => ?_
  constructor
  · rintro ⟨_, ⟨_, ⟨engine, _, ⟨hlt, version, _, ⟨subVersion, _, ⟨prefixLen, _, ⟨prefixHash, _,
      ⟨generation, _, ⟨payloadKind, _, ⟨payloadBytes, _, ⟨checksum, rfl, rfl⟩, rfl⟩, rfl⟩, rfl⟩,
      rfl⟩, rfl⟩, rfl⟩, rfl⟩, rfl⟩, rfl⟩, rfl⟩
    exact ⟨hlt, rfl⟩
  · rintro ⟨hlt, rfl⟩
    exact ⟨_, ⟨_, ⟨f.schemaId.engine, _, ⟨hlt, f.schemaId.version, _, ⟨f.schemaId.subVersion, _,
      ⟨f.prefixLen, _, ⟨f.prefixHash, _, ⟨f.generation, _, ⟨f.payloadKind, _, ⟨f.payloadBytes, _,
      ⟨f.checksum, rfl, rfl⟩, rfl⟩, rfl⟩, rfl⟩, rfl⟩, rfl⟩, rfl⟩, rfl⟩, rfl⟩, rfl⟩, rfl⟩

end Fields

/-! ## Payloads -/

theorem fromTag_eq_some {tag : UInt8} {kind : SectionKind} :
    SectionKind.fromTag tag = some kind ↔ tag = kind.tag := by
  unfold SectionKind.fromTag
  constructor
  · intro h
    split_ifs at h <;> (rw [← Option.some.inj h]; assumption)
  · rintro rfl
    cases kind <;> rfl

theorem toSectionKind_eq_ok {tag : UInt8} {kind : SectionKind} :
    (toSectionKind tag).result = .ok kind ↔ tag = kind.tag := by
  rw [← fromTag_eq_some]
  unfold toSectionKind
  cases SectionKind.fromTag tag with
  | none => exact iff_of_false nofun nofun
  | some => exact ⟨fun h => congrArg _ (Except.ok.inj h), fun h => congrArg _ (Option.some.inj h)⟩

@[simp] theorem length_sectionBytes (s : Section) : (sectionBytes s).length = 17 := by
  rw [sectionBytes, length_cons, length_append, length_u64Bytes, length_u64Bytes]

theorem length_flatMap_sectionBytes (l : List Section) :
    (l.flatMap sectionBytes).length = 17 * l.length := by
  induction l with
  | nil => rfl
  | cons s l ih =>
    rw [flatMap_cons, length_append, length_sectionBytes, ih, length_cons]
    omega

section Sections

variable {payload : Vec 1 UInt8}

theorem reads_section :
    Reads (readSection : Reader (ByteCursor payload) String _) (fun s w => w = sectionBytes s) := by
  refine (bind_written reads_u8 fun tag => Reads.bind lift fun kind =>
    bind_written reads_usize fun offset => map_written reads_usize).congr
    fun s w => ?_
  constructor
  · rintro ⟨tag, _, ⟨kind, _, _, ⟨hkin, rfl⟩, ⟨offset, _, ⟨length, rfl, rfl⟩, rfl⟩, rfl⟩, rfl⟩
    rw [toSectionKind_eq_ok.mp hkin]
    rfl
  · rintro rfl
    exact ⟨s.kind.tag, _, ⟨s.kind, [], _, ⟨toSectionKind_eq_ok.mpr rfl, rfl⟩,
      ⟨s.offset, _, ⟨s.length, rfl, rfl⟩, rfl⟩, rfl⟩, rfl⟩

/-- **The loop until the end** is one over the number of sections, if there
are bytes for a whole number of them. -/
theorem readSections_eq_times {n fuel : ℕ} (hfuel : n < fuel) (c : ByteCursor payload)
    (hlen : (rest c).length = 17 * n) : readSections fuel c = times n readSection c := by
  induction n generalizing fuel c with
  | zero =>
    obtain ⟨fuel, rfl⟩ := Nat.exists_eq_add_one_of_ne_zero (Nat.ne_of_gt hfuel)
    have hdon : c.isDone = true := c.isDone_iff.mpr (length_eq_zero_iff.mp hlen)
    rw [readSections, ifDone_of_done hdon]
    rfl
  | succ n ih =>
    obtain ⟨fuel, rfl⟩ := Nat.exists_eq_add_one_of_ne_zero
      (Nat.ne_of_gt (Nat.lt_trans n.succ_pos hfuel))
    have hdon : ¬ c.isDone = true := by
      rw [c.isDone_iff]
      intro hnil
      rw [hnil, length_nil] at hlen
      omega
    rw [readSections, ifDone_of_not_done hdon, times, bind_apply, bind_apply]
    refine Metered.bind_congr fun p hp => ?_
    -- a section has been read, and takes 17 bytes
    obtain ⟨_, rfl, hres⟩ := (reads_section c p.1 p.2).mp hp
    have hnex : (rest p.2).length = 17 * n := by
      have hsum := congrArg List.length hres
      rw [length_append, length_sectionBytes] at hsum
      omega
    rw [bind_apply, bind_apply, ih (Nat.lt_of_succ_lt_succ hfuel) p.2 hnex]

end Sections

/-- **Sections are decoded** from their bytes, and from nothing else. -/
theorem decodeSections_eq_ok {v : Vec 1 UInt8} {p : SnapshotPayload} :
    (decodeSections v).result = .ok p ↔ ∃ l, p = .sections l ∧ v.toList = p.bytes := by
  unfold decodeSections
  by_cases hlen : v.toList.length % 17 ≠ 0
  · rw [if_pos hlen]
    refine iff_of_false nofun ?_
    rintro ⟨l, rfl, hv⟩
    rw [hv, SnapshotPayload.bytes, length_flatMap_sectionBytes] at hlen
    omega
  · rw [if_neg hlen, not_not] at *
    have hcount : (rest (start v)).length = 17 * (v.toList.length / 17) := by
      rw [rest_start]
      omega
    have hfuel : v.toList.length / 17 < v.toList.length + 1 :=
      Nat.lt_succ_of_le (Nat.div_le_self _ _)
    simp only [Metered.bind_eq_ok, readSections_eq_times hfuel (start v) hcount]
    constructor
    · rintro ⟨-, -, ⟨l, c⟩, hl, v', hv', h⟩
      obtain ⟨_, ⟨hn, rfl⟩, hres⟩ := (Reads.times reads_section _ _ _ _).mp hl
      obtain rfl := Vec.ofList_eq_ok.mp hv'
      cases h
      refine ⟨v', rfl, ?_⟩
      have hend : rest c = [] := by
        have hsum := congrArg List.length hres
        rw [length_append, length_flatMap_sectionBytes, hn, hcount] at hsum
        exact length_eq_zero_iff.mp (by omega)
      rwa [hend, List.append_nil] at hres
    · rintro ⟨l, rfl, hv⟩
      have hn : l.toList.length = v.toList.length / 17 := by
        rw [hv, SnapshotPayload.bytes, length_flatMap_sectionBytes]
        omega
      obtain ⟨c, hc⟩ := Source.advance (start v) v.toList [] (List.append_nil _).symm
      refine ⟨(), Metered.reserve_eq_ok.mpr (hn ▸ l.fits), (l.toList, c), ?_, l,
        Vec.ofList_eq_ok.mpr rfl, rfl⟩
      refine (Reads.times reads_section _ _ _ _).mpr ⟨_, ⟨hn, rfl⟩, ?_⟩
      rwa [hc, List.append_nil]

/-- **A payload is decoded** from its tag and its bytes, and from nothing
else. -/
theorem decodePayload_eq_ok {kind : UInt8} {v : Vec 1 UInt8} {p : SnapshotPayload} :
    (decodePayload kind v).result = .ok p ↔ kind = p.kindTag ∧ v.toList = p.bytes := by
  unfold decodePayload
  split_ifs with h0 h1
  · subst h0
    constructor
    · intro h
      rw [← Except.ok.inj h]
      exact ⟨rfl, rfl⟩
    · rintro ⟨hkin, hv⟩
      cases p with
      | raw => exact congrArg _ (congrArg _ (Vec.ext hv))
      | sections => cases hkin
  · subst h1
    rw [decodeSections_eq_ok]
    constructor
    · rintro ⟨l, rfl, hv⟩
      exact ⟨rfl, hv⟩
    · rintro ⟨hkin, hv⟩
      cases p with
      | raw => cases hkin
      | sections l => exact ⟨l, rfl, hv⟩
  · refine iff_of_false nofun ?_
    rintro ⟨hkin, -⟩
    cases p
    · exact h0 hkin
    · exact h1 hkin

theorem SnapshotPayload.length_bytes_le (p : SnapshotPayload) : 1 * p.bytes.length ≤ isizeMax := by
  cases p with
  | raw b => exact b.fits
  | sections l =>
    have hfit := l.fits
    rw [SnapshotPayload.bytes, length_flatMap_sectionBytes]
    omega

/-! ## Snapshots -/

section Sha

variable (sha256 : List UInt8 → Bytes 32)

namespace StateSnapshot

/-- The fields that a snapshot is read from. -/
def fields (s : StateSnapshot) : SnapshotFields where
  schemaId := s.schemaId
  prefixLen := s.prefixLen
  prefixHash := s.prefixHash
  generation := s.generation
  payloadKind := s.payload.kindTag
  payloadBytes := ⟨s.payload.bytes, s.payload.length_bytes_le⟩
  checksum := s.checksum

/-- A snapshot that can be written: the checksum is right, and the length of
the engine's name fits the format. -/
def Valid (s : StateSnapshot) : Prop :=
  s.validate sha256 = .ok () ∧ (utf8 s.schemaId.engine).length < 2 ^ 32

variable {s : StateSnapshot}

theorem validated_eq_ok : (s.validated sha256).result = .ok () ↔ s.validate sha256 = .ok () := by
  unfold validated
  cases s.validate sha256 with
  | error => exact iff_of_false nofun nofun
  | ok => exact iff_of_true rfl rfl

/-- **A valid snapshot is written** as its fields are. -/
theorem toBytes_eq_ok {b : Vec 1 UInt8} :
    s.toBytes sha256 = .ok b ↔ s.Valid sha256 ∧ b.toList = s.fields.encoded := by
  unfold toBytes Valid
  cases s.validate sha256 with
  | error => exact iff_of_false nofun (by rintro ⟨⟨⟨⟩, -⟩, -⟩)
  | ok =>
    by_cases hlen : 2 ^ 32 ≤ (utf8 s.schemaId.engine).length
    · rw [if_pos hlen]
      exact iff_of_false nofun (fun h => absurd h.1.2 (Nat.not_lt.mpr hlen))
    · rw [if_neg hlen, Vec.ofList_eq_ok, eq_comm]
      exact (and_iff_right ⟨rfl, Nat.not_le.mp hlen⟩).symm

/-- **A valid snapshot is read** from the bytes of its fields. -/
theorem fromBytes_eq_ok {b : Vec 1 UInt8} :
    (fromBytes sha256 b).result = .ok s ↔ s.Valid sha256 ∧ b.toList = s.fields.encoded := by
  unfold fromBytes
  simp only [Metered.bind_eq_ok, reads_snapshotFields.complete_eq_ok isDone_iff, rest_start,
    decodePayload_eq_ok]
  constructor
  · rintro ⟨f, ⟨hlt, hb⟩, p, ⟨hkin, hbytes⟩, ⟨⟩, hval, h⟩
    cases h
    refine ⟨⟨(validated_eq_ok sha256).mp hval, hlt⟩, hb.trans ?_⟩
    unfold SnapshotFields.encoded fields
    simp only [hkin, hbytes]
  · rintro ⟨⟨hval, hlt⟩, hb⟩
    exact ⟨s.fields, ⟨hlt, hb⟩, s.payload, ⟨rfl, rfl⟩, (), (validated_eq_ok sha256).mpr hval, rfl⟩

/-- **A snapshot is written as some bytes** if and only if it is read from
them. -/
theorem toBytes_eq_fromBytes {b : Vec 1 UInt8} :
    s.toBytes sha256 = .ok b ↔ (fromBytes sha256 b).result = .ok s := by
  rw [toBytes_eq_ok, fromBytes_eq_ok]

/-- A new snapshot is valid as far as the checksum goes, and its payload is
the encoded state. -/
theorem new_eq_ok {schemaId : StateSchemaId} {prefixLen prefixHash : UInt64} {state : CausalState}
    (h : new sha256 schemaId prefixLen prefixHash state = .ok s) :
    s.validate sha256 = .ok () ∧ ∃ v, s.payload = .raw v ∧ encodeCausalState state = .ok v := by
  obtain ⟨v, hv, h⟩ := Result.bind_eq_ok.mp h
  cases h
  exact ⟨if_neg (not_not.mpr rfl), v, rfl, hv⟩

/-- **The state in a new snapshot** is the one that it was made from. -/
theorem intoCausalState_new {schemaId : StateSchemaId} {prefixLen prefixHash : UInt64}
    {state : CausalState} (h : new sha256 schemaId prefixLen prefixHash state = .ok s) :
    (s.intoCausalState sha256).result = .ok state := by
  obtain ⟨hval, v, hpay, hv⟩ := new_eq_ok sha256 h
  refine Metered.bind_eq_ok.mpr ⟨(), (validated_eq_ok sha256).mpr hval, ?_⟩
  rw [hpay]
  exact encodeCausalState_eq_ok_iff.mp hv

/-- **Snapshots and their bytes are one to one.** A snapshot is written as
some bytes if and only if it is read from them; every valid snapshot is
written, unless its bytes are more than a vector can hold; and the same goes
for a causal state and its encoding. -/
theorem toBytes_iff_fromBytes :
    (∀ s b, toBytes sha256 s = .ok b ↔ (fromBytes sha256 b).result = .ok s) ∧
    (∀ s : StateSnapshot, s.Valid sha256 → s.fields.encoded.length ≤ isizeMax →
      ∃ b, s.toBytes sha256 = .ok b ∧ (fromBytes sha256 b).result = .ok s) ∧
    (∀ state v, encodeCausalState state = .ok v ↔ (decodeCausalState v).result = .ok state) ∧
    (∀ state, (causalStateBytes state).length ≤ isizeMax →
      ∃ v, encodeCausalState state = .ok v ∧ (decodeCausalState v).result = .ok state) ∧
    (∀ schemaId prefixLen prefixHash state s,
      new sha256 schemaId prefixLen prefixHash state = .ok s →
      (s.intoCausalState sha256).result = .ok state) := by
  refine ⟨?_, ?_, ?_, ?_, ?_⟩
  · intro s b
    exact toBytes_eq_fromBytes sha256
  · intro s hval hlen
    refine ⟨⟨s.fields.encoded, by rwa [one_mul]⟩, ?_, ?_⟩
    · exact (toBytes_eq_ok sha256).mpr ⟨hval, rfl⟩
    · exact (fromBytes_eq_ok sha256).mpr ⟨hval, rfl⟩
  · intro state v
    exact encodeCausalState_eq_ok_iff
  · intro state hlen
    have henc : encodeCausalState state = .ok ⟨causalStateBytes state, by rwa [one_mul]⟩ :=
      Vec.ofList_of_le _
    exact ⟨_, henc, encodeCausalState_eq_ok_iff.mp henc⟩
  · intro schemaId prefixLen prefixHash state s h
    exact intoCausalState_new sha256 h

end StateSnapshot

end Sha

end Logan
