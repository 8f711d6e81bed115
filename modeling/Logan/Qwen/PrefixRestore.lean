import Logan.Qwen.PrefixPayloadAgreement

/-!
# A payload is taken up

What either reader makes of a payload is described without a reader: layer by
layer, the model takes up the recurrent state, the keys and values at the
positions of the prefix and the entries of the index (`LiveModel.adopt`). A
step of a loop is one of three updates of a layer.

This module says what that leaves of the model (`Restored`), the next one
that the readers do it.
-/

namespace Logan

open List

namespace Qwen

open Result LiveModel

variable {cfg : Geometry}

/-! ## What a layer takes up -/

namespace LayerState

/-- The recurrent state of another layer, in the aligned buffers too. -/
def adoptGdn (source s : LayerState) : LayerState :=
  { s with
    gdnS := source.live.1
    gdnConv := source.live.2
    gdnMetal := s.gdnMetal.map fun gm =>
      ⟨put gm.state 0 source.live.1, put gm.convState 0 source.live.2⟩ }

end LayerState

/-- What is written to the storage of keys or values: the positions of the
prefix, head by head. -/
def headWrites (cfg : Geometry) (n : ℕ) (storage : List UInt32) : List (Write UInt32) :=
  (List.range cfg.kvHeads).map fun h =>
    (h * cfg.maxT * cfg.headDim, slice storage (h * cfg.maxT * cfg.headDim) (n * cfg.headDim))

namespace LayerState

/-- The keys and values of another layer, at the positions of the prefix. -/
def adoptKv (cfg : Geometry) (n : ℕ) (source s : LayerState) : LayerState :=
  { s with
    kvK := puts s.kvK (headWrites cfg n source.kvK)
    kvV := puts s.kvV (headWrites cfg n source.kvV) }

/-- The index entries of another layer, at the positions of the prefix. -/
def adoptIdx (cfg : Geometry) (n : ℕ) (source s : LayerState) : LayerState :=
  { s with idxCache := put s.idxCache 0 (source.idxCache.take (idxActive cfg n)) }

end LayerState

namespace LiveModel

variable (source : LiveModel cfg) (n : ℕ)

/-- A layer with a recurrence takes up its state. -/
def adoptGdn (s : LiveModel cfg) (li : Fin cfg.layers) : LiveModel cfg :=
  if cfg.gdnLayers li then setGdn s li (source.layer li).live.1 (source.layer li).live.2 else s

/-- A layer with attention takes up its keys and values. -/
def adoptKv (s : LiveModel cfg) (li : Fin cfg.layers) : LiveModel cfg :=
  if !cfg.gdnLayers li then
    { s with
      kvK := Function.update s.kvK li (puts (s.kvK li) (headWrites cfg n (source.kvK li)))
      kvV := Function.update s.kvV li (puts (s.kvV li) (headWrites cfg n (source.kvV li))) }
  else s

/-- A layer with an index takes up its entries. -/
def adoptIdx (s : LiveModel cfg) (li : Fin cfg.layers) : LiveModel cfg :=
  if cfg.qsaLayers li then
    { s with
      idxCache := Function.update s.idxCache li
        (put (s.idxCache li) 0 ((source.idxCache li).take (idxActive cfg n))) }
  else s

/-- **The model that has taken up the state of a prefix.** -/
def adopt (s : LiveModel cfg) : LiveModel cfg :=
  { cfg.all.foldl (adoptIdx source n) (cfg.all.foldl (adoptKv source n)
      (cfg.all.foldl (adoptGdn source) s)) with
    pleRing := source.pleRing
    pleConvState := source.pleConvState
    schedBlocked := false
    schedPause := false }

/-- A model that can take up the state of the source: its buffers are as they
have been allocated, and those of the n-gram embedding are as long as the
source's. -/
structure FitsInto (s : LiveModel cfg) : Prop where
  shaped : s.Shaped
  pleRing : s.pleRing.length = source.pleRing.length
  pleConvState : s.pleConvState.length = source.pleConvState.length

variable {source} {n} {s : LiveModel cfg} {li : Fin cfg.layers}

theorem adoptGdn_layer : (adoptGdn source s li).layer = if cfg.gdnLayers li then
        Function.update s.layer li ((source.layer li).adoptGdn (s.layer li))
      else s.layer := by
  unfold LiveModel.adoptGdn
  split
  · funext i
    by_cases hi : i = li
    · subst hi
      simp only [layer, setGdn, Function.update_self, LayerState.adoptGdn]
    · simp only [layer, setGdn, Function.update_of_ne hi]
  · rfl

theorem adoptKv_layer : (adoptKv source n s li).layer = if !cfg.gdnLayers li then
        Function.update s.layer li ((source.layer li).adoptKv cfg n (s.layer li))
      else s.layer := by
  unfold LiveModel.adoptKv
  split
  · funext i
    by_cases hi : i = li
    · subst hi
      simp only [layer, Function.update_self, LayerState.adoptKv]
    · simp only [layer, Function.update_of_ne hi]
  · rfl

theorem adoptIdx_layer : (adoptIdx source n s li).layer = if cfg.qsaLayers li then
        Function.update s.layer li ((source.layer li).adoptIdx cfg n (s.layer li))
      else s.layer := by
  unfold LiveModel.adoptIdx
  split
  · funext i
    by_cases hi : i = li
    · subst hi
      simp only [layer, Function.update_self, LayerState.adoptIdx]
    · simp only [layer, Function.update_of_ne hi]
  · rfl

/-- A model whose layers are as they have been allocated stays one when a
layer is replaced by another such. -/
theorem shaped_of_update {s' : LiveModel cfg} {p : Bool} {x : LayerState} (h : s.Shaped)
    (hx : p = true → x.Shaped li)
    (hs' : s'.layer = if p then Function.update s.layer li x else s.layer) : s'.Shaped := by
  intro i
  rw [hs']
  split
  case isTrue hp =>
    by_cases hi : i = li
    · subst hi
      rw [Function.update_self]
      exact hx hp
    · rw [Function.update_of_ne hi]
      exact h i
  case isFalse => exact h i

end LiveModel

/-! ## The buffers stay as they were allocated -/

section Shaped

variable {li : Fin cfg.layers} {source s : LayerState} {n : ℕ}

theorem put_all {A : Type} {b v : List A} (h : v.length = b.length) : put b 0 v = v := by
  rw [put, take_zero, nil_append, h, Nat.zero_add, drop_length, List.append_nil]

theorem take_put {A : Type} {b v : List A} (h : v.length ≤ b.length) :
    (put b 0 v).take v.length = v := by
  have hput : slice (put b 0 v) 0 v.length = v := slice_put_self (by rwa [Nat.zero_add])
  rwa [slice, drop_zero] at hput

theorem drop_put {A : Type} (b v : List A) : (put b 0 v).drop v.length = b.drop v.length := by
  rw [put, take_zero, nil_append, Nat.zero_add, drop_left]

theorem LayerState.Shaped.live_adoptGdn (hs : s.Shaped li) (hsource : source.Shaped li)
    (hli : cfg.gdnLayers li = true) : (source.adoptGdn s).live = source.live := by
  obtain ⟨hliv, hliv'⟩ := hsource.length_live hli
  unfold LayerState.adoptGdn
  cases hm : s.gdnMetal with
  | none => rfl
  | some gm =>
    obtain ⟨h, h'⟩ := hs.metal gm hm
    show (put gm.state 0 source.live.1, put gm.convState 0 source.live.2) = _
    rw [put_all (hliv.trans h.symm), put_all (hliv'.trans h'.symm)]

theorem LayerState.Shaped.adoptGdn (hs : s.Shaped li) (hsource : source.Shaped li)
    (hli : cfg.gdnLayers li = true) : (source.adoptGdn s).Shaped li := by
  obtain ⟨hliv, hliv'⟩ := hsource.length_live hli
  refine ⟨fun _ => hliv, fun _ => hliv', fun gm hgm => ?_, hs.kvK, hs.kvV, hs.idxCache⟩
  obtain ⟨gm', hgm', rfl⟩ := Option.map_eq_some_iff.mp hgm
  obtain ⟨h, h'⟩ := hs.metal gm' hgm'
  rw [put_all (hliv.trans h.symm), put_all (hliv'.trans h'.symm)]
  exact ⟨hliv, hliv'⟩

theorem headWrites_le {storage : List UInt32} (hn : n ≤ cfg.maxT)
    (h : storage.length = cfg.kvHeads * cfg.maxT * cfg.headDim) :
    ∀ w ∈ headWrites cfg n storage, w.1 + w.2.length ≤ cfg.kvHeads * cfg.maxT * cfg.headDim := by
  intro w hw
  obtain ⟨head, hhd, rfl⟩ := mem_map.mp hw
  have hle := head_le hn (mem_range.mp hhd)
  rwa [length_slice (by rw [h]; exact hle)]

theorem LayerState.Shaped.adoptKv (hs : s.Shaped li) (hsource : source.Shaped li)
    (hn : n ≤ cfg.maxT) (hli : cfg.gdnLayers li = false) : (source.adoptKv cfg n s).Shaped li := by
  refine ⟨hs.gdnS, hs.gdnConv, hs.metal, fun _ => ?_, fun _ => ?_, hs.idxCache⟩
  · refine (length_puts ?_).trans (hs.kvK hli)
    rw [hs.kvK hli]
    exact headWrites_le hn (hsource.kvK hli)
  · refine (length_puts ?_).trans (hs.kvV hli)
    rw [hs.kvV hli]
    exact headWrites_le hn (hsource.kvV hli)

theorem LayerState.Shaped.length_idx (h : s.Shaped li) (hn : n ≤ cfg.maxT)
    (hli : cfg.qsaLayers li = true) :
    (s.idxCache.take (idxActive cfg n)).length = idxActive cfg n := by
  refine length_take_of_le ?_
  rw [h.idxCache hli]
  exact idxActive_le hn

theorem LayerState.Shaped.adoptIdx (hs : s.Shaped li) (hsource : source.Shaped li)
    (hn : n ≤ cfg.maxT) (hli : cfg.qsaLayers li = true) : (source.adoptIdx cfg n s).Shaped li := by
  refine ⟨hs.gdnS, hs.gdnConv, hs.metal, hs.kvK, hs.kvV, fun _ => ?_⟩
  refine (length_put ?_).trans (hs.idxCache hli)
  rw [hsource.length_idx hn hli, Nat.zero_add, hs.idxCache hli]
  exact idxActive_le hn

end Shaped

/-! ## The loops -/

namespace LiveModel

variable {source s : LiveModel cfg} {n : ℕ} {li : Fin cfg.layers}

theorem FitsInto.adoptGdn (h : source.FitsInto s) (hsource : source.Shaped) :
    source.FitsInto (source.adoptGdn s li) := by
  refine ⟨shaped_of_update h.shaped (fun hli => (h.shaped li).adoptGdn (hsource li) hli)
    adoptGdn_layer, ?_, ?_⟩
  all_goals unfold LiveModel.adoptGdn
  all_goals split
  · exact h.pleRing
  · exact h.pleRing
  · exact h.pleConvState
  · exact h.pleConvState

theorem FitsInto.adoptKv (h : source.FitsInto s) (hsource : source.Shaped) (hn : n ≤ cfg.maxT) :
    source.FitsInto (source.adoptKv n s li) := by
  refine ⟨shaped_of_update h.shaped (fun hli => (h.shaped li).adoptKv (hsource li) hn
    ((Bool.not_eq_true' _).mp hli)) adoptKv_layer, ?_, ?_⟩
  all_goals unfold LiveModel.adoptKv
  all_goals split
  · exact h.pleRing
  · exact h.pleRing
  · exact h.pleConvState
  · exact h.pleConvState

theorem FitsInto.adoptIdx (h : source.FitsInto s) (hsource : source.Shaped) (hn : n ≤ cfg.maxT) :
    source.FitsInto (source.adoptIdx n s li) := by
  refine ⟨shaped_of_update h.shaped (fun hli => (h.shaped li).adoptIdx (hsource li) hn hli)
    adoptIdx_layer, ?_, ?_⟩
  all_goals unfold LiveModel.adoptIdx
  all_goals split
  · exact h.pleRing
  · exact h.pleRing
  · exact h.pleConvState
  · exact h.pleConvState

/-- A loop over the layers, each of which is changed alone. -/
theorem layer_foldl {update : LiveModel cfg → Fin cfg.layers → LiveModel cfg}
    {p : Fin cfg.layers → Bool} {g : Fin cfg.layers → LayerState → LayerState}
    (h : ∀ s li, (update s li).layer
      = if p li then Function.update s.layer li (g li (s.layer li)) else s.layer)
    (s : LiveModel cfg) :
    (cfg.all.foldl update s).layer = fun li => if p li then g li (s.layer li) else s.layer li := by
  have hom : cfg.all.foldl (fun f li => if p li then Function.update f li (g li (f li)) else f)
      s.layer = (cfg.all.foldl update s).layer :=
    foldl_hom layer fun s li => (h s li).symm
  rw [← hom]
  refine (foldl_update p g (nodup_finRange _) s.layer).trans ?_
  funext li
  simp only [mem_finRange, true_and]

/-- **What a model holds of a layer, after it has taken up the state.** -/
theorem adopt_layer (li : Fin cfg.layers) : (source.adopt n s).layer li
      = { gdnS := if cfg.gdnLayers li then (source.layer li).live.1 else s.gdnS li
          gdnConv := if cfg.gdnLayers li then (source.layer li).live.2 else s.gdnConv li
          gdnMetal := if cfg.gdnLayers li then ((source.layer li).adoptGdn (s.layer li)).gdnMetal
            else s.gdnMetal li
          kvK := if cfg.gdnLayers li then s.kvK li
            else puts (s.kvK li) (headWrites cfg n (source.kvK li))
          kvV := if cfg.gdnLayers li then s.kvV li
            else puts (s.kvV li) (headWrites cfg n (source.kvV li))
          idxCache := if cfg.qsaLayers li then
              put (s.idxCache li) 0 ((source.idxCache li).take (idxActive cfg n))
            else s.idxCache li } := by
  show (cfg.all.foldl (adoptIdx source n) _).layer li = _
  rw [layer_foldl fun s li => adoptIdx_layer, layer_foldl fun s li => adoptKv_layer,
    layer_foldl fun s li => adoptGdn_layer]
  beta_reduce
  cases cfg.gdnLayers li with
  | true | false => cases cfg.qsaLayers li with
    | true => rfl
    | false => rfl

theorem FitsInto.adoptGdns (h : source.FitsInto s) (hsource : source.Shaped) :
    source.FitsInto (cfg.all.foldl source.adoptGdn s) :=
  foldl_invariant (fun _ _ _ h => h.adoptGdn hsource) h

theorem FitsInto.adoptKvs (h : source.FitsInto s) (hsource : source.Shaped) (hn : n ≤ cfg.maxT) :
    source.FitsInto (cfg.all.foldl (source.adoptKv n) s) :=
  foldl_invariant (fun _ _ _ h => h.adoptKv hsource hn) h

theorem FitsInto.adoptIdxs (h : source.FitsInto s) (hsource : source.Shaped) (hn : n ≤ cfg.maxT) :
    source.FitsInto (cfg.all.foldl (source.adoptIdx n) s) :=
  foldl_invariant (fun _ _ _ h => h.adoptIdx hsource hn) h

end LiveModel

/-! ## The state of the prefix, and the rest -/

/-- **A model restored from another**: it has the other's causal state of a
prefix, and all else that it holds of its layers is what it was. -/
structure Restored (n : ℕ) (source target restored : LiveModel cfg) : Prop where
  gdn : ∀ li, cfg.gdnLayers li = true →
    (restored.gdnS li, restored.gdnConv li) = (source.layer li).live
  /-- The aligned buffers hold the same. -/
  live : ∀ li, cfg.gdnLayers li = true → (restored.layer li).live = (source.layer li).live
  keys : ∀ li, cfg.gdnLayers li = false → ∀ h < cfg.kvHeads,
    slice (restored.kvK li) (h * cfg.maxT * cfg.headDim) (n * cfg.headDim)
      = slice (source.kvK li) (h * cfg.maxT * cfg.headDim) (n * cfg.headDim)
  values : ∀ li, cfg.gdnLayers li = false → ∀ h < cfg.kvHeads,
    slice (restored.kvV li) (h * cfg.maxT * cfg.headDim) (n * cfg.headDim)
      = slice (source.kvV li) (h * cfg.maxT * cfg.headDim) (n * cfg.headDim)
  index : ∀ li, cfg.qsaLayers li = true →
    (restored.idxCache li).take (idxActive cfg n) = (source.idxCache li).take (idxActive cfg n)
  pleRing : restored.pleRing = source.pleRing
  pleConvState : restored.pleConvState = source.pleConvState
  /-- The storage of keys and values beyond the prefix is unchanged. -/
  keysBeyond : ∀ li, ∀ h < cfg.kvHeads,
    slice (restored.kvK li) ((h * cfg.maxT + n) * cfg.headDim) ((cfg.maxT - n) * cfg.headDim)
      = slice (target.kvK li) ((h * cfg.maxT + n) * cfg.headDim) ((cfg.maxT - n) * cfg.headDim)
  valuesBeyond : ∀ li, ∀ h < cfg.kvHeads,
    slice (restored.kvV li) ((h * cfg.maxT + n) * cfg.headDim) ((cfg.maxT - n) * cfg.headDim)
      = slice (target.kvV li) ((h * cfg.maxT + n) * cfg.headDim) ((cfg.maxT - n) * cfg.headDim)
  indexBeyond : ∀ li,
    (restored.idxCache li).drop (idxActive cfg n) = (target.idxCache li).drop (idxActive cfg n)
  /-- The buffers have the lengths they had. -/
  shaped : restored.Shaped
  /-- What a layer does not use is unchanged. -/
  unusedGdn : ∀ li, cfg.gdnLayers li = false →
    restored.gdnS li = target.gdnS li ∧ restored.gdnConv li = target.gdnConv li
  unusedKv : ∀ li, cfg.gdnLayers li = true →
    restored.kvK li = target.kvK li ∧ restored.kvV li = target.kvV li
  unusedIndex : ∀ li, cfg.qsaLayers li = false → restored.idxCache li = target.idxCache li

theorem laid_headWrites {source : List UInt32} {n : ℕ} (hn : n ≤ cfg.maxT)
    (hsource : source.length = cfg.kvHeads * cfg.maxT * cfg.headDim) :
    Laid 0 (cfg.kvHeads * cfg.maxT * cfg.headDim) (headWrites cfg n source) := by
  refine ⟨fun w hw => ⟨Nat.zero_le _, headWrites_le hn hsource w hw⟩, ?_⟩
  refine pairwise_map.mpr (pairwise_lt_range.imp fun {h k} hlt => Or.inl ?_)
  exact (Nat.add_le_add_left (length_slice_le _ _ _) _).trans (head_le hn hlt)

section Heads

variable {storage source : List UInt32} {n h : ℕ} (hn : n ≤ cfg.maxT)
  (hstorage : storage.length = cfg.kvHeads * cfg.maxT * cfg.headDim)
  (hsource : source.length = cfg.kvHeads * cfg.maxT * cfg.headDim)
include hn hstorage hsource

/-- A storage that has taken up the heads of another has them. -/
theorem slice_headWrites (hh : h < cfg.kvHeads) :
    slice (puts storage (headWrites cfg n source)) (h * cfg.maxT * cfg.headDim) (n * cfg.headDim)
      = slice source (h * cfg.maxT * cfg.headDim) (n * cfg.headDim) := by
  have hld : Laid 0 storage.length (headWrites cfg n source) := by
    rw [hstorage]
    exact laid_headWrites hn hsource
  have hwr := holds_puts hld _ (mem_map.mpr ⟨h, mem_range.mpr hh, rfl⟩)
  have hlen : (slice source (h * cfg.maxT * cfg.headDim) (n * cfg.headDim)).length
      = n * cfg.headDim := by
    refine length_slice ?_
    rw [hsource]
    exact head_le hn hh
  rwa [hlen] at hwr

/-- Beyond the prefix, the heads are what they were. -/
theorem slice_headWrites_beyond :
    slice (puts storage (headWrites cfg n source)) ((h * cfg.maxT + n) * cfg.headDim)
        ((cfg.maxT - n) * cfg.headDim)
      = slice storage ((h * cfg.maxT + n) * cfg.headDim) ((cfg.maxT - n) * cfg.headDim) := by
  refine slice_puts_of_apart (fun w hw => ?_) fun w hw => ?_
  · rw [hstorage]
    exact headWrites_le hn hsource w hw
  · obtain ⟨k, -, rfl⟩ := mem_map.mp hw
    rcases Nat.lt_or_ge h k with hlt | hge
    · refine Or.inr ?_
      rw [← Nat.add_mul, Nat.add_assoc, Nat.add_sub_cancel' hn, ← Nat.succ_mul]
      exact Nat.mul_le_mul_right _ (Nat.mul_le_mul_right _ hlt)
    · refine Or.inl ((Nat.add_le_add_left (length_slice_le _ _ _) _).trans ?_)
      rw [Nat.add_mul]
      exact Nat.add_le_add_right (Nat.mul_le_mul_right _ (Nat.mul_le_mul_right _ hge)) _

end Heads

/-- **What is restored**: a model that has taken up the state of a prefix has
it, and the rest is unchanged. -/
theorem restored_adopt {source target built : LiveModel cfg} {n : ℕ} (hsource : source.Shaped)
    (hfit : source.FitsInto built) (hn : n ≤ cfg.maxT) (hblt : ∀ li, built.layer li
      = { target.layer li with gdnMetal := (built.layer li).gdnMetal }) :
    Restored n source target (source.adopt n built) := by
  have hsh : (source.adopt n built).Shaped :=
    (((hfit.adoptGdns hsource).adoptKvs hsource hn).adoptIdxs hsource hn).shaped
  have hkey (li : Fin cfg.layers) :
      (source.adopt n built).kvK li = if cfg.gdnLayers li then built.kvK li
        else puts (built.kvK li) (headWrites cfg n (source.kvK li)) :=
    congrArg LayerState.kvK (adopt_layer li)
  have hval (li : Fin cfg.layers) :
      (source.adopt n built).kvV li = if cfg.gdnLayers li then built.kvV li
        else puts (built.kvV li) (headWrites cfg n (source.kvV li)) :=
    congrArg LayerState.kvV (adopt_layer li)
  have hind (li : Fin cfg.layers) : (source.adopt n built).idxCache li = if cfg.qsaLayers li then
        put (built.idxCache li) 0 ((source.idxCache li).take (idxActive cfg n))
        else built.idxCache li :=
    congrArg LayerState.idxCache (adopt_layer li)
  have htar (li : Fin cfg.layers) : built.kvK li = target.kvK li :=
    congrArg LayerState.kvK (hblt li)
  have htrg (li : Fin cfg.layers) : built.kvV li = target.kvV li :=
    congrArg LayerState.kvV (hblt li)
  have htarg (li : Fin cfg.layers) : built.idxCache li = target.idxCache li :=
    congrArg LayerState.idxCache (hblt li)
  have hst (li : Fin cfg.layers) (hli : cfg.gdnLayers li = true) :
      ((source.adopt n built).gdnS li, (source.adopt n built).gdnConv li)
        = (source.layer li).live := by
    have hS : (source.adopt n built).gdnS li = _ := congrArg LayerState.gdnS (adopt_layer li)
    have hC : (source.adopt n built).gdnConv li = _ :=
      congrArg LayerState.gdnConv (adopt_layer li)
    rw [hS, hC, if_pos hli, if_pos hli]
  have hlen (li : Fin cfg.layers) (hli : cfg.qsaLayers li = true) :
      ((source.idxCache li).take (idxActive cfg n)).length = idxActive cfg n :=
    (hsource li).length_idx hn hli
  have hfts (li : Fin cfg.layers) (hli : cfg.qsaLayers li = true) :
      ((source.idxCache li).take (idxActive cfg n)).length ≤ (built.idxCache li).length := by
    have hidx : (built.idxCache li).length = _ := (hfit.shaped li).idxCache hli
    rw [hlen li hli, hidx]
    exact idxActive_le hn
  refine
    { gdn := hst
      live := fun li hli => ?_
      keys := fun li hli h hh => ?_
      values := fun li hli h hh => ?_
      index := fun li hli => ?_
      pleRing := rfl
      pleConvState := rfl
      keysBeyond := fun li h hh => ?_
      valuesBeyond := fun li h hh => ?_
      indexBeyond := fun li => ?_
      shaped := hsh
      unusedGdn := fun li hli => ?_
      unusedKv := fun li hli => ?_
      unusedIndex := fun li hli => ?_ }
  · -- the aligned buffers are as long as what is copied into them
    refine Eq.trans ?_ ((hfit.shaped li).live_adoptGdn (hsource li) hli)
    rw [adopt_layer li]
    simp only [if_pos hli]
    rfl
  · rw [hkey li, if_neg (by rw [hli]; exact Bool.false_ne_true)]
    exact slice_headWrites hn ((hfit.shaped li).kvK hli) ((hsource li).kvK hli) hh
  · rw [hval li, if_neg (by rw [hli]; exact Bool.false_ne_true)]
    exact slice_headWrites hn ((hfit.shaped li).kvV hli) ((hsource li).kvV hli) hh
  · rw [hind li, if_pos hli]
    have htak := take_put (b := built.idxCache li) (hfts li hli)
    rwa [hlen li hli] at htak
  · rw [hkey li, ← htar]
    cases hli : cfg.gdnLayers li with
    | true => rfl
    | false =>
      exact slice_headWrites_beyond hn ((hfit.shaped li).kvK hli) ((hsource li).kvK hli)
  · rw [hval li, ← htrg]
    cases hli : cfg.gdnLayers li with
    | true => rfl
    | false =>
      exact slice_headWrites_beyond hn ((hfit.shaped li).kvV hli) ((hsource li).kvV hli)
  · rw [hind li, ← htarg]
    cases hli : cfg.qsaLayers li with
    | true =>
      have hdr := drop_put (built.idxCache li) ((source.idxCache li).take (idxActive cfg n))
      rwa [hlen li hli] at hdr
    | false => rfl
  · have hS : (source.adopt n built).gdnS li = _ := congrArg LayerState.gdnS (adopt_layer li)
    have hC : (source.adopt n built).gdnConv li = _ :=
      congrArg LayerState.gdnConv (adopt_layer li)
    rw [hS, hC, hli]
    exact ⟨congrArg LayerState.gdnS (hblt li), congrArg LayerState.gdnConv (hblt li)⟩
  · rw [hkey li, hval li, if_pos hli, if_pos hli]
    exact ⟨htar li, htrg li⟩
  · rw [hind li, hli]
    exact htarg li

end Qwen

end Logan
