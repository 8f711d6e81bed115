import Logan.Expert.ExpertRefinement

/-!
# Every run of an expert store

A store is built by `new` or by `newLayered`, and then goes through any list
of operations. In every state it reaches, its slab, map and list fit
together (`ExpertStore.Consistent`, which is said in terms of the walks along
the links, with no list given beforehand), and it is the recency list of the
same capacity (`ExpertStore.refines_lru`). Since values are only moved in the
list, they are in the store: every inserted value is resident, or was handed
out once.
-/

namespace Logan

/-- **How a store is built.** -/
inductive ExpertLayout where
  | single (cap : ℕ)
  | layered (layers perLayerCap : ℕ)
deriving DecidableEq

/-- The store as it is built. -/
def ExpertLayout.build (V : Type) : ExpertLayout → ExpertStore V
  | single cap => .new cap
  | layered layers perLayerCap => .newLayered layers perLayerCap

/-- The recency list of the same capacity. -/
def ExpertLayout.lru (V : Type) (layout : ExpertLayout) : Lru StoreKey V where
  entries := []
  capacity := (layout.build V).capacity
  quota := (layout.build V).perLayerCapacity

namespace ExpertStore

variable {V : Type} {s : ExpertStore V} {l : Lru StoreKey V}

/-- The indices that a walk along `next` meets, from the head. -/
def forward (s : ExpertStore V) : List ℕ := follow s.links.next s.slab.length s.head

/-- The indices that a walk along `prev` meets, from the tail. -/
def backward (s : ExpertStore V) : List ℕ := follow s.links.prev s.slab.length s.tail

/-- The entries that a walk from the head meets. -/
def recency (s : ExpertStore V) : List (StoreKey × V) := s.forward.filterMap (entryAt s.slab)

/-- **Slab, map and list fit together.** -/
structure Consistent (s : ExpertStore V) : Prop where
  nodup : s.forward.Nodup
  reversed : s.backward = s.forward.reverse
  /-- Both walks have ended. -/
  ended : ∀ fuel ≥ s.slab.length, follow s.links.next fuel s.head = s.forward
    ∧ follow s.links.prev fuel s.tail = s.backward
  /-- The walk meets the slots that the map names, … -/
  mapped : ∀ i, i ∈ s.forward ↔ ∃ key, s.map.lookup key = some i
  /-- … which are the occupied ones, … -/
  occupied : ∀ i, i ∈ s.forward ↔ (entryAt s.slab i).isSome
  /-- … under the keys of their entries. -/
  keyed : ∀ key i, s.map.lookup key = some i ↔ ∃ value, entryAt s.slab i = some (key, value)
  counted : s.layerCap.isSome → ∀ layer,
    (s.layerCounts.lookup layer).getD 0 = s.recency.countP (fun e => e.1.1 = layer)

variable {entries : List (StoreKey × V)}

theorem Keeps.forward_eq {order : List ℕ} (h : s.Keeps order entries) : s.forward = order :=
  h.lists.follow_head h.length_le

theorem Keeps.recency_eq {order : List ℕ} (h : s.Keeps order entries) : s.recency = entries := by
  have hmap : order.filterMap (entryAt s.slab) = (order.map (entryAt s.slab)).filterMap id := by
    rw [List.filterMap_map, Function.id_comp]
  rw [recency, h.forward_eq, hmap, h.holds, List.filterMap_map]
  exact List.filterMap_some

theorem Keeps.consistent {order : List ℕ} (h : s.Keeps order entries) : s.Consistent := by
  have hfor := h.forward_eq
  have hbac : s.backward = order.reverse := h.lists.follow_tail h.length_le
  have hocc : ∀ i, i ∈ s.forward ↔ (entryAt s.slab i).isSome := by
    intro i
    rw [hfor]
    exact ⟨h.holds.occupied i, h.occupied i⟩
  refine ⟨hfor ▸ h.lists.nodup, by rw [hbac, hfor], fun fuel hfuel => ⟨?_, ?_⟩,
    fun i => ?_, hocc, h.mapped, fun hcap layer => ?_⟩
  · rw [hfor]
    exact h.lists.follow_head (h.length_le.trans hfuel)
  · rw [hbac]
    exact h.lists.follow_tail (h.length_le.trans hfuel)
  · rw [hocc, Option.isSome_iff_exists]
    constructor
    · rintro ⟨e, he⟩
      exact ⟨e.1, (h.mapped e.1 i).mpr ⟨e.2, he⟩⟩
    · rintro ⟨key, hkey⟩
      obtain ⟨value, hent⟩ := (h.mapped key i).mp hkey
      exact ⟨(key, value), hent⟩
  · rw [h.recency_eq]
    exact h.counted hcap layer

/-- A store as it is built. -/
theorem build_refines (layout : ExpertLayout) : (layout.build V).Refines (layout.lru V) := by
  have hcap : 0 < (layout.build V).capacity := by
    cases layout with
    | single cap => exact Nat.lt_of_lt_of_le Nat.one_pos (Nat.le_max_right cap 1)
    | layered layers perLayerCap =>
      refine Nat.lt_min.mpr ⟨Nat.mul_pos ?_ ?_, by decide⟩
      · exact Nat.lt_of_lt_of_le Nat.one_pos (Nat.le_max_right layers 1)
      · exact Nat.lt_of_lt_of_le Nat.one_pos (Nat.le_max_right perLayerCap 1)
  have hkps : (layout.build V).Keeps [] [] := by
    have hmap (key : StoreKey) (i : ℕ) : (∅ : Table StoreKey ℕ).lookup key = some i
          ↔ ∃ value : V, entryAt ([] : List (Option (Node V))) i = some (key, value) := by
      rw [AList.lookup_empty]
      exact ⟨fun hnon => (by cases hnon), fun ⟨_, hnon⟩ => (by cases hnon)⟩
    have hcnts (layer : UInt32) : ((∅ : Table UInt32 ℕ).lookup layer).getD 0 = 0 := by
      rw [AList.lookup_empty, Option.getD_none]
    cases layout with
    | single =>
      exact ⟨⟨List.nodup_nil, rfl, rfl⟩, rfl, fun _ hnon => (by cases hnon), hmap,
        fun _ layer => hcnts layer⟩
    | layered =>
      exact ⟨⟨List.nodup_nil, rfl, rfl⟩, rfl, fun _ hnon => (by cases hnon), hmap,
        fun _ layer => hcnts layer⟩
  have hsl : (layout.build V).slab.length ≤ isizeMax := by
    cases layout <;> exact Nat.zero_le _
  refine ⟨⟨[], hkps⟩, ⟨List.nodup_nil, hcap.le, hcap⟩, rfl, rfl, ?_, ?_, ?_, hsl⟩
  · cases layout <;> rfl
  · cases layout <;> rfl
  · cases layout <;> rfl

/-- **What a run has made of a store.** -/
structure RefinesLru (layout : ExpertLayout) (ops : List (CacheOp StoreKey V))
    (answers : List (CacheAnswer V)) (s : ExpertStore V) : Prop where
  consistent : s.Consistent
  /-- The answers are those of the recency list, … -/
  answers_eq : answers = (layout.lru V).answers Prod.fst ops
  /-- … and so are the entries and their order. -/
  recency_eq : s.recency = ((Lru.machine Prod.fst).run (layout.lru V) ops).entries
  len_eq : s.len = s.recency.length
  len_le : s.len ≤ (layout.build V).capacity
  /-- Every inserted value is resident, or was evicted, taken or replaced. -/
  owned : (ops.flatMap CacheOp.given).Perm
    (s.recency.map Prod.snd ++ (answers.flatMap CacheAnswer.evictions
      ++ (answers.flatMap CacheAnswer.takings ++ answers.flatMap CacheAnswer.replacements)))

/-- **Every store is a recency list**, after any operations; and the only way
in which one does not return is that the slab cannot grow any more. -/
theorem refines_lru (layout : ExpertLayout) (ops : List (CacheOp StoreKey V)) :
    (∀ answers s, (layout.build V).run ops = .ok (answers, s) → RefinesLru layout ops answers s)
    ∧ ∀ panic, (layout.build V).run ops = .error panic →
        panic = .capacityOverflow ∧ isizeMax < (ops.flatMap CacheOp.given).length := by
  have hsl : (layout.build V).slab.length = 0 := by cases layout <;> rfl
  rcases run_refines (build_refines layout) ops with ⟨t, ht, -, href⟩ | ⟨herr, hful⟩
  · refine ⟨fun answers s h => ?_, fun panic h => ?_⟩
    · rw [ht] at h
      cases h
      obtain ⟨order, hkps⟩ := href.keeps
      have hown := Lru.run_owned Prod.fst (build_refines layout).bounded ops
      rw [show (layout.lru V).values = [] from rfl, List.append_nil] at hown
      have hhan (answers : List (CacheAnswer V)) :
          (answers.flatMap CacheAnswer.handedOut).Perm (answers.flatMap CacheAnswer.evictions
            ++ (answers.flatMap CacheAnswer.takings
              ++ answers.flatMap CacheAnswer.replacements)) := by
        refine (List.flatMap_append_perm _ _ _).symm.trans (List.Perm.append_left _ ?_)
        exact (List.flatMap_append_perm _ _ _).symm
      refine ⟨hkps.consistent, rfl, hkps.recency_eq, ?_, ?_, ?_⟩
      · rw [hkps.len_eq, hkps.recency_eq]
      · rw [hkps.len_eq]
        exact href.bounded.length_le.trans_eq (Lru.run_capacity Prod.fst _ ops).1
      · rw [hkps.recency_eq]
        exact hown.trans (List.Perm.append_left _ (hhan _))
    · rw [ht] at h
      cases h
  · refine ⟨fun answers s h => ?_, fun panic h => ?_⟩
    · rw [herr] at h
      cases h
    · rw [herr] at h
      refine ⟨(Except.error.inj h).symm, ?_⟩
      rwa [hsl, Nat.zero_add] at hful

/-- Two entries; the first one is used, so that the second one has to go. -/
example : (((ExpertLayout.single 2).build ℕ).run
    [.insert (0, 0) 10, .insert (0, 1) 11, .get (0, 0), .insert (1, 0) 12, .peek (0, 1)]).map Prod.fst
    = .ok [.inserted none none 10, .inserted none none 11, .found (some 10),
      .inserted (some 11) none 12, .found none] := rfl

end ExpertStore

end Logan
