import Logan.Qwen.PrefixRestore

/-!
# Both readers take up what the writer writes

A reader takes the pieces of the payload off its front, layer by layer. For
the reader of a file, what is left to read is the rest of the file; for the
reader of memory, it is what follows an offset (`AtOffset`). Of either, a step
is shown to take one piece and to update one layer as `LiveModel.adopt` says,
and the loops follow from `foldlM_pieces`. So the two agree
(`payload_agreement`), also where the aligned buffers cannot be built.
-/

namespace Logan

open List

namespace Qwen

open Result LiveModel

variable {cfg : Geometry}

/-- **64-bit words are read back** from their bytes. -/
@[simp] theorem dwordsOfBytes_dwordsBytes (l : List UInt64) :
    dwordsOfBytes (dwordsBytes l) = l := by
  induction l with
  | nil => rfl
  | cons x l ih =>
    have hx : u64OfBytes (u64Bytes x) = x := u64OfBytes_u64Bytes x
    rw [dwordsBytes] at ih
    rw [dwordsBytes, flatMap_cons]
    simp only [u64Bytes, leBytes, cons_append, nil_append, dwordsOfBytes] at hx ih ⊢
    rw [hx, ih]

/-! ## The reader of a file -/

section File

variable {source s : LiveModel cfg} {n : ℕ} {rest : List UInt8}

theorem readWords_append {k : ℕ} {v : List UInt32} (hv : v.length = k) (what : String) :
    readWords (wordsBytes v ++ rest) k what = .ok (v, rest) := by
  have hlen : (wordsBytes v).length = 4 * k := by rw [length_wordsBytes, hv]
  unfold readWords
  rw [if_pos (by rw [length_append, hlen]; exact Nat.le_add_right _ _),
    take_left' hlen, drop_left' hlen, wordsOfBytes_wordsBytes]

theorem readDwords_append {k : ℕ} {v : List UInt64} (hv : v.length = k) (what : String) :
    readDwords (dwordsBytes v ++ rest) k what = .ok (v, rest) := by
  have hlen : (dwordsBytes v).length = 8 * k := by rw [length_dwordsBytes, hv, Nat.mul_comm]
  unfold readDwords
  rw [if_pos (by rw [length_append, hlen]; exact Nat.le_add_right _ _),
    take_left' hlen, drop_left' hlen, dwordsOfBytes_dwordsBytes]

theorem readSlice_append {buffer v : List UInt32} {start k : ℕ} (hv : v.length = k)
    (hk : start + k ≤ buffer.length) (what : String) :
    readSlice (wordsBytes v ++ rest) buffer start k what = .ok (put buffer start v, rest) := by
  unfold readSlice
  rw [if_pos hk, readWords_append hv]
  rfl

theorem readGdn_step (hsource : source.Shaped) {li : Fin cfg.layers} (hs : source.FitsInto s) :
    readGdn (s, gdnPiece source li ++ rest) li = .ok (source.adoptGdn s li, rest) := by
  unfold readGdn gdnPiece LiveModel.adoptGdn
  cases hli : cfg.gdnLayers li with
  | false => rfl
  | true =>
    obtain ⟨hliv, hliv'⟩ := (hsource li).length_live hli
    have hS : (s.gdnS li).length = cfg.stateLen := (hs.shaped li).gdnS hli
    have hC : (s.gdnConv li).length = cfg.convLen := (hs.shaped li).gdnConv hli
    rw [if_neg (not_not.mpr rfl), if_pos rfl, if_pos rfl, append_assoc]
    show (if (s.gdnS li).length ≠ _ ∨ (s.gdnConv li).length ≠ _ then _ else _) = _
    rw [if_neg (by rw [hS, hC]; exact fun h => h.elim (· rfl) (· rfl)),
      readWords_append (hliv.trans hS.symm)]
    show (readWords _ _ _ >>= _) = _
    rw [readWords_append (hliv'.trans hC.symm)]
    rfl

/-- The heads of a storage are read. -/
theorem readHeads {storage from' : List UInt32} (hn : n ≤ cfg.maxT)
    (hstorage : storage.length = cfg.kvHeads * cfg.maxT * cfg.headDim)
    (hfr : from'.length = cfg.kvHeads * cfg.maxT * cfg.headDim) (what : String) :
    (List.range cfg.kvHeads).foldlM (readHead cfg n what) (storage, visitHeads cfg n from' ++ rest)
      = .ok (puts storage (headWrites cfg n from'), rest) := by
  have hlen {h : ℕ} (hh : h ∈ List.range cfg.kvHeads) :
      (slice from' (h * cfg.maxT * cfg.headDim) (n * cfg.headDim)).length = n * cfg.headDim := by
    refine length_slice ?_
    rw [hfr]
    exact head_le hn (mem_range.mp hh)
  obtain ⟨r, hr, rfl⟩ := foldlM_pieces (· = ·) (readHead cfg n what)
    (fun h => wordsBytes (slice from' (h * cfg.maxT * cfg.headDim) (n * cfg.headDim)))
    (fun b h => put b (h * cfg.maxT * cfg.headDim)
      (slice from' (h * cfg.maxT * cfg.headDim) (n * cfg.headDim)))
    (fun b => b.length = cfg.kvHeads * cfg.maxT * cfg.headDim)
    (fun b r h rest hh hb hlef => ⟨rest, (by
      rw [hlef]
      refine readSlice_append (hlen hh) ?_ what
      rw [hb]
      exact head_le hn (mem_range.mp hh)), rfl⟩)
    (fun b h hh hb => (by
      refine (length_put ?_).trans hb
      rw [hb, hlen hh]
      exact head_le hn (mem_range.mp hh)))
    hstorage rfl
  unfold visitHeads
  rw [hr, puts, headWrites, foldl_map]

theorem readKv_step (hsource : source.Shaped) (hn : n ≤ cfg.maxT) {li : Fin cfg.layers}
    (hs : source.FitsInto s) :
    readKv n (s, kvPiece source n li ++ rest) li = .ok (source.adoptKv n s li, rest) := by
  unfold readKv kvPiece LiveModel.adoptKv
  cases hli : cfg.gdnLayers li with
  | true => rfl
  | false =>
    have hK : (s.kvK li).length = _ := (hs.shaped li).kvK hli
    have hV : (s.kvV li).length = _ := (hs.shaped li).kvV hli
    have hK' : (source.kvK li).length = _ := (hsource li).kvK hli
    have hV' : (source.kvV li).length = _ := (hsource li).kvV hli
    simp only [Bool.not_false, Bool.false_eq_true, ↓reduceIte, append_assoc]
    show (if (s.kvK li).length ≠ _ ∨ (s.kvV li).length ≠ _ then _ else _) = _
    rw [if_neg (by rw [hK, hV]; exact fun h => h.elim (· rfl) (· rfl)), readHeads hn hK hK']
    show ((List.range cfg.kvHeads).foldlM (readHead cfg n _) _ >>= _) = _
    rw [readHeads hn hV hV']
    rfl

theorem readIdx_step (hsource : source.Shaped) (hn : n ≤ cfg.maxT) {li : Fin cfg.layers}
    (hs : source.FitsInto s) :
    readIdx n (s, idxPiece source n li ++ rest) li = .ok (source.adoptIdx n s li, rest) := by
  unfold readIdx idxPiece LiveModel.adoptIdx
  cases hli : cfg.qsaLayers li with
  | false => rfl
  | true =>
    have hI : (s.idxCache li).length = _ := (hs.shaped li).idxCache hli
    have hle : idxActive cfg n ≤ (s.idxCache li).length := by
      rw [hI]
      exact idxActive_le hn
    have htak : ((source.idxCache li).take (idxActive cfg n)).length = _ :=
      (hsource li).length_idx hn hli
    rw [if_neg (not_not.mpr rfl), if_pos rfl, if_pos rfl]
    show (if (s.idxCache li).length < idxActive cfg n then _ else _) = _
    rw [if_neg (not_lt.mpr hle)]
    show (readSlice _ _ _ (idxActive cfg n) _ >>= _) = _
    rw [readSlice_append htak (by rwa [Nat.zero_add])]
    rfl

/-- **The reader of a file takes up the payload** and leaves nothing of it. -/
theorem restorePayloadInto_eq {direct : Bool} {build : Fin cfg.layers → Bool}
    {target built : LiveModel cfg} (hsource : source.Shaped) (hn : n ≤ cfg.maxT)
    (hbld : buildAligned direct build target = .ok built) (hfit : source.FitsInto built) :
    restorePayloadInto direct build target n (payload source n)
      = .ok (source.adopt n built, []) := by
  have hgdn := hfit.adoptGdns hsource
  have hkv := hgdn.adoptKvs hsource hn
  have hidx := hkv.adoptIdxs hsource hn
  unfold restorePayloadInto payload
  simp only [hbld, append_assoc]
  obtain ⟨_, h₁, rfl⟩ := foldlM_pieces (· = ·) readGdn (gdnPiece source) source.adoptGdn
    source.FitsInto (fun s r li rest _ hs hr => ⟨rest, hr ▸ readGdn_step hsource hs, rfl⟩)
    (fun s li _ h => h.adoptGdn hsource) hfit rfl
  obtain ⟨_, h₂, rfl⟩ := foldlM_pieces (· = ·) (readKv n) (kvPiece source n) (source.adoptKv n)
    source.FitsInto (fun s r li rest _ hs hr => ⟨rest, hr ▸ readKv_step hsource hn hs, rfl⟩)
    (fun s li _ h => h.adoptKv hsource hn) hgdn rfl
  obtain ⟨_, h₃, rfl⟩ := foldlM_pieces (· = ·) (readIdx n) (idxPiece source n) (source.adoptIdx n)
    source.FitsInto (fun s r li rest _ hs hr => ⟨rest, hr ▸ readIdx_step hsource hn hs, rfl⟩)
    (fun s li _ h => h.adoptIdx hsource hn) hkv rfl
  show (cfg.all.foldlM readGdn _ >>= _) = _
  rw [h₁]
  show (cfg.all.foldlM (readKv n) _ >>= _) = _
  rw [h₂]
  show (cfg.all.foldlM (readIdx n) _ >>= _) = _
  rw [h₃]
  show (readDwords _ _ _ >>= _) = _
  rw [readDwords_append hidx.pleRing.symm]
  show (readWords _ _ _ >>= _) = _
  rw [← List.append_nil (wordsBytes _), readWords_append hidx.pleConvState.symm]
  rfl

end File

/-! ## The reader of memory -/

/-- **What follows an offset.** -/
def AtOffset (bytes : List UInt8) (off : ℕ) (rest : List UInt8) : Prop :=
  off ≤ bytes.length ∧ bytes.drop off = rest

section Memory

variable {source s : LiveModel cfg} {n off : ℕ} {bytes rest : List UInt8}
  (hbytes : bytes.length ≤ usizeMax)
include hbytes

theorem AtOffset.next {piece : List UInt8} (h : AtOffset bytes off (piece ++ rest)) :
    checkedSum off piece.length = some (off + piece.length)
      ∧ range? bytes off (off + piece.length) = some piece
      ∧ AtOffset bytes (off + piece.length) rest := by
  obtain ⟨hoff, hdr⟩ := h
  have hlen : bytes.length - off = piece.length + rest.length := by
    rw [← length_drop, hdr, length_append]
  have hend : off + piece.length ≤ bytes.length := by omega
  refine ⟨checkedSum_of_le (hend.trans hbytes), ?_, hend, ?_⟩
  · rw [range?_of_le (Nat.le_add_right _ _) hend, Nat.add_sub_cancel_left, slice, hdr, take_left]
  · rw [← drop_drop, hdr, drop_left]

theorem copyF32_append {v dst : List UInt32} (hdst : dst.length = v.length)
    (h : AtOffset bytes off (wordsBytes v ++ rest)) :
    ∃ off', copyF32FromLe bytes off dst = .ok (v, off') ∧ AtOffset bytes off' rest := by
  obtain ⟨hsum, hrng, hnex⟩ := h.next hbytes
  refine ⟨_, ?_, hnex⟩
  have hlen : dst.length * 4 = (wordsBytes v).length := by
    rw [length_wordsBytes, hdst, Nat.mul_comm]
  have hpr : checkedProduct dst.length 4 = some (wordsBytes v).length := by
    rw [checkedProduct_of_le, hlen]
    rw [hlen]
    exact (Nat.le_add_left _ _).trans (hnex.1.trans hbytes)
  unfold copyF32FromLe
  rw [hpr]
  show (okOr (checkedSum off _) _ >>= _) = _
  rw [hsum]
  show (okOr (range? bytes off _) _ >>= _) = _
  rw [hrng]
  show Except.ok (wordsOfBytes (wordsBytes v), _) = _
  rw [wordsOfBytes_wordsBytes]

theorem copyI64_append {v dst : List UInt64} (hdst : dst.length = v.length)
    (h : AtOffset bytes off (dwordsBytes v ++ rest)) :
    ∃ off', copyI64FromLe bytes off dst = .ok (v, off') ∧ AtOffset bytes off' rest := by
  obtain ⟨hsum, hrng, hnex⟩ := h.next hbytes
  refine ⟨_, ?_, hnex⟩
  have hlen : dst.length * 8 = (dwordsBytes v).length := by rw [length_dwordsBytes, hdst]
  have hpr : checkedProduct dst.length 8 = some (dwordsBytes v).length := by
    rw [checkedProduct_of_le, hlen]
    rw [hlen]
    exact (Nat.le_add_left _ _).trans (hnex.1.trans hbytes)
  unfold copyI64FromLe
  rw [hpr]
  show (okOr (checkedSum off _) _ >>= _) = _
  rw [hsum]
  show (okOr (range? bytes off _) _ >>= _) = _
  rw [hrng]
  show Except.ok (dwordsOfBytes (dwordsBytes v), _) = _
  rw [dwordsOfBytes_dwordsBytes]

theorem copyGdn_step (hsource : source.Shaped) {li : Fin cfg.layers} (hs : source.FitsInto s)
    (h : AtOffset bytes off (gdnPiece source li ++ rest)) :
    ∃ off', copyGdn bytes (s, off) li = .ok (source.adoptGdn s li, off')
      ∧ AtOffset bytes off' rest := by
  unfold gdnPiece at h
  unfold copyGdn LiveModel.adoptGdn
  cases hli : cfg.gdnLayers li with
  | false =>
    rw [hli] at h
    exact ⟨off, rfl, h⟩
  | true =>
    obtain ⟨hliv, hliv'⟩ := (hsource li).length_live hli
    have hS : (s.gdnS li).length = cfg.stateLen := (hs.shaped li).gdnS hli
    have hC : (s.gdnConv li).length = cfg.convLen := (hs.shaped li).gdnConv hli
    rw [if_pos hli, append_assoc] at h
    obtain ⟨off₁, h₁, hnex₁⟩ := copyF32_append hbytes (hS.trans hliv.symm) h
    obtain ⟨off₂, h₂, hnex₂⟩ := copyF32_append hbytes (hC.trans hliv'.symm) hnex₁
    refine ⟨off₂, ?_, hnex₂⟩
    rw [if_neg (not_not.mpr rfl), if_pos rfl]
    show (if (s.gdnS li).length ≠ _ ∨ (s.gdnConv li).length ≠ _ then _ else _) = _
    rw [if_neg (by rw [hS, hC]; exact fun h => h.elim (· rfl) (· rfl)), h₁]
    show (copyF32FromLe bytes off₁ _ >>= _) = _
    rw [h₂]
    rfl

/-- The heads of a storage are copied. -/
theorem copyHeads {storage from' : List UInt32} (hn : n ≤ cfg.maxT)
    (hstorage : storage.length = cfg.kvHeads * cfg.maxT * cfg.headDim)
    (hfr : from'.length = cfg.kvHeads * cfg.maxT * cfg.headDim)
    (hadd : cfg.kvHeads * cfg.maxT * cfg.headDim ≤ usizeMax)
    (h : AtOffset bytes off (visitHeads cfg n from' ++ rest)) :
    ∃ off', copyHeadMajorPrefixFromLe bytes off storage cfg.kvHeads cfg.kvStride
        (n * cfg.headDim) = .ok (puts storage (headWrites cfg n from'), off')
      ∧ AtOffset bytes off' rest := by
  have hlen {h : ℕ} (hh : h ∈ List.range cfg.kvHeads) :
      (slice from' (h * cfg.maxT * cfg.headDim) (n * cfg.headDim)).length = n * cfg.headDim := by
    refine length_slice ?_
    rw [hfr]
    exact head_le hn (mem_range.mp hh)
  have hle {b : List UInt32} {h : ℕ} (hb : b.length = cfg.kvHeads * cfg.maxT * cfg.headDim)
      (hh : h ∈ List.range cfg.kvHeads) :
      h * cfg.maxT * cfg.headDim + n * cfg.headDim ≤ b.length := by
    rw [hb]
    exact head_le hn (mem_range.mp hh)
  obtain ⟨off', h', hnex⟩ := foldlM_pieces (AtOffset bytes)
    (copyHead bytes cfg.kvStride (n * cfg.headDim))
    (fun h => wordsBytes (slice from' (h * cfg.maxT * cfg.headDim) (n * cfg.headDim)))
    (fun b h => put b (h * cfg.maxT * cfg.headDim)
      (slice from' (h * cfg.maxT * cfg.headDim) (n * cfg.headDim)))
    (fun b => b.length = cfg.kvHeads * cfg.maxT * cfg.headDim)
    (fun b off h rest hh hb hlef => (by
      have hdst : (slice b (h * cfg.maxT * cfg.headDim) (n * cfg.headDim)).length
          = (slice from' (h * cfg.maxT * cfg.headDim) (n * cfg.headDim)).length :=
        (length_slice (hle hb hh)).trans (hlen hh).symm
      obtain ⟨off₁, h₁, hnex₁⟩ := copyF32_append hbytes hdst hlef
      refine ⟨off₁, ?_, hnex₁⟩
      unfold copyHead Geometry.kvStride
      rw [← Nat.mul_assoc]
      show (if _ ≤ b.length then _ else _) = _
      rw [if_pos (hle hb hh), h₁]
      rfl))
    (fun b h hh hb => (by
      refine (length_put ?_).trans hb
      rw [hlen hh]
      exact hle hb hh))
    hstorage h
  refine ⟨off', ?_, hnex⟩
  have hstr : cfg.kvHeads * cfg.kvStride = cfg.kvHeads * cfg.maxT * cfg.headDim :=
    (Nat.mul_assoc _ _ _).symm
  have hact : n * cfg.headDim ≤ cfg.kvStride := Nat.mul_le_mul_right _ hn
  unfold copyHeadMajorPrefixFromLe
  rw [refuse_of_not (not_lt.mpr hact)]
  show (okOr (checkedProduct _ _) _ >>= _) = _
  rw [checkedProduct_of_le (hstr.trans_le hadd)]
  show (refuse (storage.length ≠ _) _ >>= _) = _
  rw [refuse_of_not (not_not.mpr (hstorage.trans hstr.symm))]
  show (List.range cfg.kvHeads).foldlM _ _ = _
  rw [h', puts, headWrites, foldl_map]

theorem copyKv_step (hsource : source.Shaped) (hn : n ≤ cfg.maxT) {li : Fin cfg.layers}
    (hadd : cfg.gdnLayers li = false → cfg.kvHeads * cfg.maxT * cfg.headDim ≤ usizeMax)
    (hs : source.FitsInto s) (h : AtOffset bytes off (kvPiece source n li ++ rest)) :
    ∃ off', copyKv bytes n (s, off) li = .ok (source.adoptKv n s li, off')
      ∧ AtOffset bytes off' rest := by
  unfold kvPiece at h
  unfold copyKv LiveModel.adoptKv
  cases hli : cfg.gdnLayers li with
  | true =>
    rw [hli] at h
    exact ⟨off, rfl, h⟩
  | false =>
    have hK : (s.kvK li).length = _ := (hs.shaped li).kvK hli
    have hV : (s.kvV li).length = _ := (hs.shaped li).kvV hli
    have hK' : (source.kvK li).length = _ := (hsource li).kvK hli
    have hV' : (source.kvV li).length = _ := (hsource li).kvV hli
    have hstr : cfg.kvHeads * cfg.kvStride = cfg.kvHeads * cfg.maxT * cfg.headDim :=
      (Nat.mul_assoc _ _ _).symm
    rw [hli, if_pos Bool.not_false, append_assoc] at h
    obtain ⟨off₁, h₁, hnex₁⟩ := copyHeads hbytes hn hK hK' (hadd hli) h
    obtain ⟨off₂, h₂, hnex₂⟩ := copyHeads hbytes hn hV hV' (hadd hli) hnex₁
    refine ⟨off₂, ?_, hnex₂⟩
    simp only [Bool.not_false, Bool.false_eq_true, ↓reduceIte]
    show (if (s.kvK li).length ≠ _ ∨ (s.kvV li).length ≠ _ then _ else _) = _
    rw [if_neg (by rw [hK, hV, hstr]; exact fun h => h.elim (· rfl) (· rfl)), h₁]
    show (copyHeadMajorPrefixFromLe bytes off₁ _ _ _ _ >>= _) = _
    rw [h₂]
    rfl

theorem copyIdx_step (hsource : source.Shaped) (hn : n ≤ cfg.maxT) {li : Fin cfg.layers}
    (hs : source.FitsInto s) (h : AtOffset bytes off (idxPiece source n li ++ rest)) :
    ∃ off', copyIdx bytes n (s, off) li = .ok (source.adoptIdx n s li, off')
      ∧ AtOffset bytes off' rest := by
  unfold idxPiece at h
  unfold copyIdx LiveModel.adoptIdx
  cases hli : cfg.qsaLayers li with
  | false =>
    rw [hli] at h
    exact ⟨off, rfl, h⟩
  | true =>
    have hI : (s.idxCache li).length = _ := (hs.shaped li).idxCache hli
    have htak : ((s.idxCache li).take (idxActive cfg n)).length = _ :=
      (hs.shaped li).length_idx hn hli
    have htak' : ((source.idxCache li).take (idxActive cfg n)).length = _ :=
      (hsource li).length_idx hn hli
    rw [if_pos hli] at h
    obtain ⟨off₁, h₁, hnex₁⟩ := copyF32_append hbytes (htak.trans htak'.symm) h
    refine ⟨off₁, ?_, hnex₁⟩
    rw [if_neg (not_not.mpr rfl), if_pos rfl]
    show (if (s.idxCache li).length < idxActive cfg n then _ else _) = _
    rw [if_neg (by rw [hI]; exact not_lt.mpr (idxActive_le hn))]
    show (copyF32FromLe bytes off ((s.idxCache li).take (idxActive cfg n)) >>= _) = _
    rw [h₁]
    rfl

end Memory

/-! ## Both readers -/

section Both

variable {source target built : LiveModel cfg} {n : ℕ} {direct : Bool}
  {build : Fin cfg.layers → Bool}

/-- One step of building changes nothing but the aligned buffers. -/
theorem buildLayer_spec {m m' : LiveModel cfg} {li : Fin cfg.layers} (hm : m.Shaped)
    (h : buildLayer build m li = .ok m') :
    (∀ i, m'.layer i = { m.layer i with gdnMetal := (m'.layer i).gdnMetal })
      ∧ m'.Shaped ∧ m'.pleRing = m.pleRing ∧ m'.pleConvState = m.pleConvState := by
  unfold buildLayer at h
  split_ifs at h
  · obtain rfl := Except.ok.inj h
    refine ⟨fun i => rfl, fun i => ?_, rfl, rfl⟩
    refine ⟨(hm i).gdnS, (hm i).gdnConv, fun gm hgm => ?_, (hm i).kvK, (hm i).kvV,
      (hm i).idxCache⟩
    by_cases hi : i = li
    · subst hi
      have hnew : some gm = some ⟨List.replicate cfg.stateLen 0, List.replicate cfg.convLen 0⟩ :=
        hgm.symm.trans (Function.update_self ..)
      cases hnew
      exact ⟨length_replicate, length_replicate⟩
    · exact (hm i).metal gm ((Function.update_of_ne hi _ _).symm.trans hgm)
  · cases h
    exact ⟨fun i => rfl, hm, rfl, rfl⟩

/-- Building the aligned buffers changes nothing else. -/
theorem buildAligned_spec {m built : LiveModel cfg} (hm : m.Shaped)
    (h : buildAligned direct build m = .ok built) :
    (∀ i, built.layer i = { m.layer i with gdnMetal := (built.layer i).gdnMetal })
      ∧ built.Shaped ∧ built.pleRing = m.pleRing ∧ built.pleConvState = m.pleConvState := by
  unfold buildAligned at h
  split_ifs at h
  · generalize cfg.all = l at h
    induction l generalizing m with
    | nil =>
      obtain rfl := Except.ok.inj h
      exact ⟨fun i => rfl, hm, rfl, rfl⟩
    | cons li l ih =>
      rw [foldlM_cons] at h
      obtain ⟨m₁, h₁, h₂⟩ := bind_eq_ok.mp h
      obtain ⟨hlay₁, hsh₁, hrin₁, hcon₁⟩ := buildLayer_spec hm h₁
      obtain ⟨hlay, hsh, hrin, hcon⟩ := ih hsh₁ h₂
      refine ⟨fun i => ?_, hsh, hrin.trans hrin₁, hcon.trans hcon₁⟩
      rw [hlay i, hlay₁ i]
  · cases h
    exact ⟨fun i => rfl, hm, rfl, rfl⟩

theorem LiveModel.Allocated.storage_le (h : target.Allocated) {li : Fin cfg.layers}
    (hli : cfg.gdnLayers li = false) : cfg.kvHeads * cfg.maxT * cfg.headDim ≤ usizeMax := by
  refine le_trans ?_ h.addressable
  have hmem : li ∈ cfg.all.filter fun li => !cfg.gdnLayers li :=
    mem_filter.mpr ⟨mem_finRange li, by rw [hli]; rfl⟩
  have hone : 1 ≤ (cfg.all.filter fun li => !cfg.gdnLayers li).length :=
    length_pos_of_mem hmem
  have hmul := Nat.mul_le_mul_right (2 * cfg.kvHeads * cfg.maxT * cfg.headDim) hone
  rw [Nat.one_mul] at hmul
  have htwo : 2 * cfg.kvHeads * cfg.maxT * cfg.headDim
      = 2 * (cfg.kvHeads * cfg.maxT * cfg.headDim) := by ring
  unfold stateBytes
  omega

/-- **The reader of memory takes up the payload.** -/
theorem restorePayloadFromBytes_eq (hsource : source.Shaped) (htar : target.Allocated)
    (hfit : source.FitsInto target) (hn : n ≤ cfg.maxT)
    (hbld : buildAligned direct build target = .ok built) :
    restorePayloadFromBytes direct build target n (payload source n)
      = .ok (source.adopt n built) := by
  obtain ⟨-, hsh, hrin, hcon⟩ := buildAligned_spec htar.shaped hbld
  have hblt : source.FitsInto built :=
    ⟨hsh, hrin ▸ hfit.pleRing, hcon ▸ hfit.pleConvState⟩
  have hgdn := hblt.adoptGdns hsource
  have hkv := hgdn.adoptKvs hsource hn
  have hidx := hkv.adoptIdxs hsource hn
  have hlen : (payload source n).length = target.stateBytes n := by
    rw [length_payload hsource hn]
    unfold stateBytes
    rw [hfit.pleRing, hfit.pleConvState]
  have hbytes : (payload source n).length ≤ usizeMax := by
    rw [hlen]
    exact (stateBytes_mono target hn).trans htar.addressable
  unfold restorePayloadFromBytes
  rw [expectedPayloadBytes_eq htar hn]
  show (refuse ((payload source n).length ≠ target.stateBytes n) _ >>= _) = _
  rw [refuse_of_not (not_not.mpr hlen)]
  show (buildAligned direct build target >>= _) = _
  rw [hbld]
  show (cfg.all.foldlM (copyGdn (payload source n)) _ >>= _) = _
  have hst : AtOffset (payload source n) 0 (cfg.all.flatMap (gdnPiece source)
      ++ (cfg.all.flatMap (kvPiece source n) ++ (cfg.all.flatMap (idxPiece source n)
        ++ (dwordsBytes source.pleRing ++ (wordsBytes source.pleConvState ++ []))))) := by
    refine ⟨Nat.zero_le _, ?_⟩
    unfold payload
    simp only [drop_zero, append_assoc, List.append_nil]
  generalize hp : payload source n = bytes at *
  obtain ⟨off₁, h₁, hnex₁⟩ := foldlM_pieces (AtOffset bytes) (copyGdn bytes) (gdnPiece source)
    source.adoptGdn source.FitsInto
    (fun s off li rest _ hs h => copyGdn_step hbytes hsource hs h)
    (fun s li _ h => h.adoptGdn hsource) hblt hst
  obtain ⟨off₂, h₂, hnex₂⟩ := foldlM_pieces (AtOffset bytes) (copyKv bytes n)
    (kvPiece source n) (source.adoptKv n) source.FitsInto
    (fun s off li rest _ hs h => copyKv_step hbytes hsource hn htar.storage_le hs h)
    (fun s li _ h => h.adoptKv hsource hn) hgdn hnex₁
  obtain ⟨off₃, h₃, hnex₃⟩ := foldlM_pieces (AtOffset bytes) (copyIdx bytes n)
    (idxPiece source n) (source.adoptIdx n) source.FitsInto
    (fun s off li rest _ hs h => copyIdx_step hbytes hsource hn hs h)
    (fun s li _ h => h.adoptIdx hsource hn) hkv hnex₂
  obtain ⟨off₄, h₄, hnex₄⟩ := copyI64_append hbytes hidx.pleRing hnex₃
  obtain ⟨off₅, h₅, hnex₅⟩ := copyF32_append hbytes hidx.pleConvState hnex₄
  rw [h₁]
  show (cfg.all.foldlM (copyKv bytes n) _ >>= _) = _
  rw [h₂]
  show (cfg.all.foldlM (copyIdx bytes n) _ >>= _) = _
  rw [h₃]
  show (copyI64FromLe bytes off₃ _ >>= _) = _
  rw [h₄]
  show (copyF32FromLe bytes off₄ _ >>= _) = _
  rw [h₅]
  have hend : off₅ = bytes.length :=
    le_antisymm hnex₅.1 (drop_eq_nil_iff.mp hnex₅.2)
  show (refuse (off₅ ≠ bytes.length) _ >>= _) = _
  rw [refuse_of_not (not_not.mpr hend)]
  rfl

/-- **The payload is written and read alike.** For every geometry, every state
of a model and every prefix, what is written has the length that is expected;
and in any model of the same geometry both readers make of it the state that
it was written from, with the storage beyond the prefix unchanged. Where the
aligned buffers cannot be built, they report the same error. -/
theorem payload_agreement (direct : Bool) (build : Fin cfg.layers → Bool)
    (hsource : source.Allocated) (htarget : target.Allocated)
    (hring : target.pleRing.length = source.pleRing.length)
    (hconv : target.pleConvState.length = source.pleConvState.length) (hn : n ≤ cfg.maxT) :
    ∃ bytes, visitLivePayload source n = .ok bytes
      ∧ expectedPayloadBytes source n = .ok bytes.length
      ∧ (∀ e, buildAligned direct build target = .error e →
        restorePayloadFromBytes direct build target n bytes = .error e
          ∧ restorePayloadInto direct build target n bytes = .error e)
      ∧ (∀ built, buildAligned direct build target = .ok built →
        ∃ target', restorePayloadFromBytes direct build target n bytes = .ok target'
          ∧ restorePayloadInto direct build target n bytes = .ok (target', [])
          ∧ Restored n source target target') := by
  have hfit : source.FitsInto target := ⟨htarget.shaped, hring, hconv⟩
  refine ⟨payload source n, visitLivePayload_eq hsource.shaped hn, ?_, fun e he => ⟨?_, ?_⟩,
    fun built hbld => ?_⟩
  · rw [length_payload hsource.shaped hn]
    exact expectedPayloadBytes_eq hsource hn
  · have hlen : (payload source n).length = target.stateBytes n := by
      rw [length_payload hsource.shaped hn]
      unfold stateBytes
      rw [hring, hconv]
    unfold restorePayloadFromBytes
    rw [expectedPayloadBytes_eq htarget hn]
    show (refuse ((payload source n).length ≠ target.stateBytes n) _ >>= _) = _
    rw [refuse_of_not (not_not.mpr hlen)]
    show (buildAligned direct build target >>= _) = _
    rw [he]
    rfl
  · unfold restorePayloadInto
    rw [he]
    rfl
  · obtain ⟨hlay, hsh, hrin', hcon'⟩ := buildAligned_spec htarget.shaped hbld
    have hblt : source.FitsInto built :=
      ⟨hsh, hrin' ▸ hring, hcon' ▸ hconv⟩
    exact ⟨_, restorePayloadFromBytes_eq hsource.shaped htarget hfit hn hbld,
      restorePayloadInto_eq hsource.shaped hn hbld hblt,
      restored_adopt hsource.shaped hblt hn hlay⟩

/-- A geometry with one recurrent layer and one layer of attention, with an
index. -/
def smallGeometry : Geometry :=
  { layers := 2
    gdnLayers := fun li => li.val == 0
    qsaLayers := fun li => li.val == 1
    kvHeads := 2, headDim := 1, maxT := 2, idxKvHeads := 1, idxHeadDim := 1, linKHeads := 1
    linKDim := 1, linVHeads := 1, linVDim := 1, convKernel := 2 }

/-- A model of it, all of whose words are the given one. -/
def smallModel (x : UInt32) : LiveModel smallGeometry :=
  { gdnS := fun _ => [x]
    gdnConv := fun _ => [x, x, x]
    gdnMetal := fun _ => none
    kvK := fun _ => [x, x, x, x]
    kvV := fun _ => [x, x, x, x]
    idxCache := fun _ => [x, x]
    pleRing := [0]
    pleConvState := [x]
    schedBlocked := false
    schedPause := false }

theorem allocated_smallModel (x : UInt32) : (smallModel x).Allocated where
  shaped := fun li =>
    { gdnS := fun _ => rfl
      gdnConv := fun _ => rfl
      metal := fun _ h => (by cases h)
      kvK := fun _ => rfl
      kvV := fun _ => rfl
      idxCache := fun _ => rfl }
  addressable := (by decide : (68 : ℕ) ≤ usizeMax)

/-- A prefix of one token, restored with aligned buffers that are built for
it. -/
theorem payload_agreement_small : ∃ bytes, visitLivePayload (smallModel 7) 1 = .ok bytes
      ∧ expectedPayloadBytes (smallModel 7) 1 = .ok bytes.length
      ∧ ∃ target', restorePayloadFromBytes true (fun _ => true) (smallModel 5) 1 bytes
          = .ok target'
        ∧ restorePayloadInto true (fun _ => true) (smallModel 5) 1 bytes = .ok (target', [])
        ∧ Restored 1 (smallModel 7) (smallModel 5) target' := by
  obtain ⟨bytes, hvis, hlen, -, hok⟩ := payload_agreement (n := 1) true (fun _ => true)
    (allocated_smallModel 7) (allocated_smallModel 5) rfl rfl (show 1 ≤ 2 by decide)
  exact ⟨bytes, hvis, hlen, hok _ rfl⟩

end Both

end Qwen

end Logan
