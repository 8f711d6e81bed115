import Logan.Expert.ExpertOwnership

/-!
# Layers of an expert store

A store from `newLayered` has room for all its layers at once: its capacity
is the sum of theirs. So as long as no more layers are used than it was built
for, the global bound never comes in (`hasRoom_of_layers`), and every layer
is a cache of its own (`layer_isolation`). If the product of the two numbers
does not fit a `usize`, the capacity is less than the sum – but then it is
more than a slab can ever hold.
-/

namespace Logan

open List
open Prod (fst)

namespace ExpertStore

variable {V : Type} {s t : ExpertStore V} {l : Lru StoreKey V}

/-- The layers that the operations name. -/
def layersOf (ops : List (CacheOp StoreKey V)) : Finset UInt32 :=
  (ops.map (fun op => op.key.1)).toFinset

/-- The number of entries of a layer. -/
def layerLen (s : ExpertStore V) (layer : UInt32) : ℕ :=
  s.recency.countP (fun e => e.1.1 = layer)

/-- **An insertion within its layer.** -/
structure InsertsWithin (perLayerCap : ℕ) (s : ExpertStore V) (key : StoreKey) (value : V)
    (answer : CacheAnswer V) (t : ExpertStore V) : Prop where
  /-- It evicts if the layer is full and the key is absent. -/
  evicts_iff : answer.evictions ≠ [] ↔ s.layerLen key.1 = perLayerCap ∧ key ∉ s.recency.map fst
  /-- What it evicts is the least recently used entry of the layer. -/
  victim : ∀ gone ∈ answer.evictions, ∃ k,
    s.recency.reverse.find? (fun e => e.1.1 = key.1) = some (k, gone)
      ∧ t.recency = (key, value) :: s.recency.filter (fun e => e.1 ≠ k)
  /-- The other layers keep their entries, in their order. -/
  others : ∀ layer ≠ key.1,
    t.recency.filter (fun e => e.1.1 = layer) = s.recency.filter (fun e => e.1.1 = layer)

/-- A layer that is not full leaves room in the whole. -/
theorem hasRoom_of_layers {layers perLayerCap : ℕ} {used : Finset UInt32}
    (hpar : l.Parted fst perLayerCap) (hus : ∀ e ∈ l.entries, e.1.1 ∈ used)
    (hcar : used.card ≤ layers) {layer : UInt32} (hlay : layer ∈ used)
    (hles : Lru.countOf fst l.entries layer < perLayerCap) :
    l.entries.length < layers * perLayerCap := by
  rw [Lru.length_eq_sum_countOf fst hus]
  calc ∑ p ∈ used, Lru.countOf fst l.entries p
      < ∑ p ∈ used, perLayerCap :=
        Finset.sum_lt_sum (fun p _ => hpar.countOf_le p) ⟨layer, hlay, hles⟩
    _ = used.card * perLayerCap := by rw [Finset.sum_const, smul_eq_mul]
    _ ≤ layers * perLayerCap := Nat.mul_le_mul_right _ hcar

/-- **One insertion**, into a store that has room. -/
theorem Refines.insertsWithin (h : s.Refines l) {perLayerCap : ℕ}
    (hpar : l.Parted fst perLayerCap) {key : StoreKey}
    (hrm : Lru.countOf fst l.entries key.1 < perLayerCap
      → l.entries.length < l.capacity) {value : V} {answer : CacheAnswer V}
    (hins : s.insert key value = .ok (answer, t)) :
    InsertsWithin perLayerCap s key value answer t := by
  obtain ⟨order, hkps⟩ := h.keeps
  have hrec := hkps.recency_eq
  have hlen : s.layerLen key.1 = Lru.countOf fst l.entries key.1 := by
    rw [layerLen, hrec]
    rfl
  -- the answer and the new entries are those of the list
  obtain ⟨hans, hrec'⟩ : answer = (l.insert fst key value).1
      ∧ t.recency = (l.insert fst key value).2.entries := by
    rcases step_refines h (.insert key value) with ⟨u, hu, -, href⟩ | ⟨herr, -⟩
    · obtain ⟨rfl, rfl⟩ := Prod.mk.inj (Except.ok.inj (hins.symm.trans hu))
      obtain ⟨order', hkps'⟩ := href.keeps
      exact ⟨rfl, hkps'.recency_eq⟩
    · rw [show s.step (.insert key value) = .ok (answer, t) from hins] at herr
      cases herr
  have hoth {entries : List (StoreKey × V)} {layer : UInt32} (hne : layer ≠ key.1) :
      ((key, value) :: entries).filter (fun e => e.1.1 = layer)
        = entries.filter (fun e => e.1.1 = layer) :=
    filter_cons_of_neg (by simpa using hne.symm)
  cases hlkp : Lru.lookup l.entries key with
  | some old =>
    have hlis : l.insert fst key value = (.inserted none (some old) value,
        { l with entries := (key, value) :: Lru.without l.entries key }) := by
      rw [Lru.insert, hlkp]
    have hmem : key ∈ s.recency.map fst := by
      rw [hrec]
      exact mem_map_of_mem (Lru.mem_of_lookup hlkp)
    rw [hlis] at hans hrec'
    refine ⟨?_, ?_, fun layer hne => ?_⟩
    · rw [hans]
      exact ⟨fun hsom => absurd rfl hsom, fun hbot => absurd hmem hbot.2⟩
    · rw [hans]
      exact fun gone hgon => absurd hgon not_mem_nil
    · rw [hrec', hrec, hoth hne]
      exact Lru.filter_without fst (Ne.symm hne) l.entries
  | none =>
    have habs : key ∉ s.recency.map fst := by
      rw [hrec]
      exact Lru.lookup_eq_none_iff.mp hlkp
    rcases Lru.insert_of_quota hpar value hrm hlkp with
      ⟨hful, gone, hgon, hprt, hlas, hone, hents⟩ | ⟨hles, hone, hents⟩
    · rw [hone] at hans
      rw [hents] at hrec'
      refine ⟨?_, ?_, fun layer hne => ?_⟩
      · rw [hans]
        refine ⟨fun _ => ⟨?_, habs⟩, fun _ => cons_ne_nil _ _⟩
        exact hlen.trans (le_antisymm (hpar.countOf_le _) hful)
      · intro value' hval
        rw [hans] at hval
        rw [mem_singleton.mp hval, hrec]
        exact ⟨gone.1, hlas, hrec'⟩
      · rw [hrec', hrec, hoth hne]
        refine Lru.filter_without fst ?_ l.entries
        rw [hprt]
        exact hne.symm
    · rw [hone] at hans
      rw [hents] at hrec'
      refine ⟨?_, ?_, fun layer hne => ?_⟩
      · rw [hans]
        refine ⟨fun hsom => absurd rfl hsom, fun hbot => ?_⟩
        exact absurd (hlen.symm.trans hbot.1) hles.ne
      · rw [hans]
        exact fun gone hgon => absurd hgon not_mem_nil
      · rw [hrec', hrec, hoth hne]

/-- **What the layers of a store can rely on**, after these operations. -/
structure LayersIsolated (layers perLayerCap : ℕ) (ops : List (CacheOp StoreKey V))
    (s : ExpertStore V) : Prop where
  layerLen_le : ∀ layer, s.layerLen layer ≤ perLayerCap
  /-- An insertion, as long as no more layers are used than there are. -/
  insert : ∀ key value, (layersOf (ops ++ [.insert key value])).card ≤ layers →
    ∀ answer t, s.insert key value = .ok (answer, t) →
      InsertsWithin perLayerCap s key value answer t

/-- **Layers are isolated**, in every state that a partitioned store
reaches. -/
theorem layer_isolation {layers perLayerCap : ℕ} (hlayers : 1 ≤ layers)
    (hcap : 1 ≤ perLayerCap) (ops : List (CacheOp StoreKey V)) {answers : List (CacheAnswer V)}
    (hrun : (newLayered layers perLayerCap).run ops = .ok (answers, s)) :
    LayersIsolated layers perLayerCap ops s := by
  set layout : ExpertLayout := .layered layers perLayerCap
  have hqt : (layout.lru V).quota = some perLayerCap := congrArg some (Nat.max_eq_left hcap)
  have hpar : ((Lru.machine fst).run (layout.lru V) ops).Parted fst perLayerCap :=
    Lru.run_parted ⟨(build_refines layout).bounded, hqt, hcap, fun _ => Nat.zero_le _⟩ ops
  rcases run_refines (build_refines (V := V) layout) ops with ⟨u, hu, -, href⟩ | ⟨herr, -⟩
  · obtain ⟨-, rfl⟩ := Prod.mk.inj (Except.ok.inj (hrun.symm.trans hu))
    obtain ⟨order, hkps⟩ := href.keeps
    refine ⟨fun layer => ?_, fun key value hcar answer t hins =>
      href.insertsWithin hpar (fun hles => ?_) hins⟩
    · rw [layerLen, hkps.recency_eq]
      exact hpar.countOf_le layer
    · have hmem {k : StoreKey} (hk : k ∈ ops.map CacheOp.key ∨ k = key) :
          k.1 ∈ layersOf (ops ++ [.insert key value]) := by
        rw [layersOf, mem_toFinset, List.map_append, mem_append]
        rcases hk with hk | rfl
        · obtain ⟨op, hop, rfl⟩ := mem_map.mp hk
          exact Or.inl (mem_map_of_mem hop)
        · exact Or.inr (mem_singleton_self _)
      have hus := hasRoom_of_layers hpar
        (fun e he => hmem (Or.inl (Lru.key_mem_of_run rfl ops he))) hcar (hmem (Or.inr rfl)) hles
      rw [(Lru.run_capacity fst (layout.lru V) ops).1]
      refine lt_min ?_ ?_
      · rwa [Nat.max_eq_left hlayers, Nat.max_eq_left hcap]
      · -- a slab is never that long
        rw [← hkps.holds.length_eq]
        calc order.length ≤ s.slab.length := hkps.length_le
          _ ≤ isizeMax := href.slab_le
          _ < usizeMax := by decide
  · rw [show (layout.build V).run ops = .ok (answers, s) from hrun] at herr
    cases herr

/-- Two layers of two entries. Layer 1 is used last, and yet a third expert
of layer 0 takes the place of one of layer 0; then one of layer 1 is taken. -/
theorem layer_isolation_of_two : ∃ answers s, (newLayered 2 2 : ExpertStore ℕ).run
      [.insert (0, 0) 10, .insert (0, 1) 11, .get (0, 0), .insert (1, 0) 12, .insert (1, 1) 13,
        .insert (0, 2) 14, .take (1, 0)] = .ok (answers, s) ∧ LayersIsolated 2 2
      [.insert (0, 0) 10, .insert (0, 1) 11, .get (0, 0), .insert (1, 0) 12, .insert (1, 1) 13,
        .insert (0, 2) 14, .take (1, 0)] s :=
  ⟨_, _, rfl, layer_isolation (by decide) (by decide) _ rfl⟩

end ExpertStore

end Logan
