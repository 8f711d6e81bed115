import Logan.Expert.ExpertLinks

/-!
# The expert store is a recency list

What a store keeps is a list of entries, most recently used first, in the
order in which its nodes are linked (`ExpertStore.Keeps`). The operations
come down to four moves, each with a lemma of its own: a node is taken out of
the list (`Keeps.detach`), put in front of it (`Detached.pushFront`), removed
from the store (`Detached.remove`), or is a new one (`Keeps.adopt`). From
them, every operation does to the store what `Lru.step` does to the list,
and answers the same (`step_refines`). The only thing that can go wrong is a
slab that cannot grow any more.
-/

namespace Logan

open List Function Result Table
open Lru (countOf lookup machine touch without)
open Prod (fst snd)
open UInt64 (ofNat ofNat_add)

namespace ExpertStore

variable {V : Type} {s t : ExpertStore V} {i : ℕ} {order : List ℕ} {key : StoreKey} {value : V}
variable {entries : List (StoreKey × V)}

/-- The entries at these indices. -/
def Holds (s : ExpertStore V) (order : List ℕ) (entries : List (StoreKey × V)) : Prop :=
  order.map (entryAt s.slab) = entries.map some

/-- The map finds every entry, and nothing else. -/
def Mapped (s : ExpertStore V) : Prop :=
  ∀ key i, s.map.lookup key = some i ↔ ∃ value, entryAt s.slab i = some (key, value)

/-- If layers are counted, the counts are exact. -/
def Counted (s : ExpertStore V) (entries : List (StoreKey × V)) : Prop :=
  s.layerCap.isSome → ∀ layer, (s.layerCounts.lookup layer).getD 0 = countOf fst entries layer

/-- **The entries of a store**, most recently used first, and the indices of
their nodes. -/
structure Keeps (s : ExpertStore V) (order : List ℕ) (entries : List (StoreKey × V)) : Prop where
  lists : s.links.Lists order
  holds : s.Holds order entries
  occupied : ∀ i, (entryAt s.slab i).isSome → i ∈ order
  mapped : s.Mapped
  counted : s.Counted entries

/-- **A node that is not in the list**, besides those that are. -/
structure Detached (s : ExpertStore V) (i : ℕ) (e : StoreKey × V) (order : List ℕ)
    (entries : List (StoreKey × V)) : Prop where
  lists : s.links.Lists order
  holds : s.Holds order entries
  apart : i ∉ order
  entry : entryAt s.slab i = some e
  occupied : ∀ j, (entryAt s.slab j).isSome → j = i ∨ j ∈ order
  mapped : s.Mapped
  counted : s.Counted (e :: entries)

theorem Holds.occupied (h : s.Holds order entries) : Occupied s order := by
  intro i hi
  have hmem : entryAt s.slab i ∈ entries.map some := by
    rw [← h]
    exact mem_map_of_mem hi
  obtain ⟨e, -, he⟩ := mem_map.mp hmem
  rw [← he]
  rfl

theorem Holds.append {order' : List ℕ} {entries' : List (StoreKey × V)}
    (h : s.Holds order entries) (h' : s.Holds order' entries') :
    s.Holds (order ++ order') (entries ++ entries') := by
  rw [Holds, List.map_append, List.map_append, h, h']

theorem Holds.length_eq (h : s.Holds order entries) : order.length = entries.length := by
  have hlen := congrArg List.length h
  rwa [length_map, length_map] at hlen

section

variable (h : s.Keeps order entries)

include h

/-- What is at the index that has been found. -/
theorem Keeps.split (hlkp : s.map.lookup key = some i) :
    ∃ before after front back value, order = before ++ i :: after
      ∧ entries = front ++ (key, value) :: back ∧ s.Holds before front ∧ s.Holds after back
      ∧ entryAt s.slab i = some (key, value) := by
  obtain ⟨value, hent⟩ := (h.mapped key i).mp hlkp
  obtain ⟨before, after, rfl⟩ := append_of_mem (h.occupied i (hent ▸ rfl))
  have hhol := h.holds
  rw [Holds, List.map_append, map_cons, hent] at hhol
  obtain ⟨front, rest, rfl, hfr, hres⟩ := map_eq_append_iff.mp hhol.symm
  obtain ⟨e, back, rfl, he, hbac⟩ := map_eq_cons_iff.mp hres
  refine ⟨before, after, front, back, value, rfl, ?_, hfr.symm, hbac.symm, hent⟩
  rw [Option.some.inj he]

theorem Keeps.length_le : order.length ≤ s.slab.length := by
  rw [← toFinset_card_of_nodup h.lists.nodup, ← Finset.card_range s.slab.length]
  refine Finset.card_le_card (fun i hi => ?_)
  obtain ⟨n, hn⟩ := h.holds.occupied.nodeAt (mem_toFinset.mp hi)
  exact Finset.mem_range.mpr (lt_of_nodeAt hn)

/-- An entry is at an index, and the other way round. -/
theorem Keeps.mem_iff {e : StoreKey × V} : e ∈ entries ↔ ∃ i, entryAt s.slab i = some e := by
  constructor
  · intro he
    have hmem : some e ∈ order.map (entryAt s.slab) := by
      rw [h.holds]
      exact mem_map_of_mem he
    obtain ⟨i, -, hi⟩ := mem_map.mp hmem
    exact ⟨i, hi⟩
  · rintro ⟨i, hi⟩
    have hmem : some e ∈ entries.map some := by
      rw [← h.holds, ← hi]
      exact mem_map_of_mem (h.occupied i (hi ▸ rfl))
    obtain ⟨e', he', heq⟩ := mem_map.mp hmem
    exact Option.some.inj heq ▸ he'

theorem Keeps.distinct : Lru.Distinct entries := by
  have hkey : order.map (fun i => (entryAt s.slab i).map fst)
      = (entries.map fst).map some := by
    have hmap := congrArg (List.map (Option.map fst)) h.holds
    rw [map_map, map_map] at hmap
    rwa [map_map]
  refine List.Nodup.of_map some (hkey ▸ h.lists.nodup.map_on (fun i hi j hj heq => ?_))
  obtain ⟨e, he⟩ := Option.isSome_iff_exists.mp (h.holds.occupied i hi)
  obtain ⟨e', he'⟩ := Option.isSome_iff_exists.mp (h.holds.occupied j hj)
  rw [he, he'] at heq
  have hi' := (h.mapped e.1 i).mpr ⟨e.2, he⟩
  have hj' := (h.mapped e'.1 j).mpr ⟨e'.2, he'⟩
  rw [← Option.some.inj heq, hi'] at hj'
  exact Option.some.inj hj'

/-- **What a lookup in the map says** about the entries. -/
theorem Keeps.lookup_eq (key : StoreKey) :
    lookup entries key = (s.map.lookup key).bind (fun i => (entryAt s.slab i).map snd) := by
  cases hlkp : s.map.lookup key with
  | none =>
    refine Lru.lookup_eq_none_iff.mpr (fun hmem => ?_)
    obtain ⟨e, he, rfl⟩ := mem_map.mp hmem
    obtain ⟨i, hi⟩ := h.mem_iff.mp he
    rw [(h.mapped e.1 i).mpr ⟨e.2, hi⟩] at hlkp
    cases hlkp
  | some i =>
    obtain ⟨value, hent⟩ := (h.mapped key i).mp hlkp
    rw [Option.bind_some, hent]
    exact Lru.lookup_of_mem h.distinct (h.mem_iff.mpr ⟨i, hent⟩)

theorem Keeps.len_eq : s.len = entries.length := by
  refine Eq.trans (List.Perm.length_eq ?_) (length_map fst)
  refine (perm_ext_iff_of_nodup s.map.keys_nodup h.distinct).mpr ?_
  intro key
  rw [mem_keys_iff, mem_map]
  constructor
  · rintro ⟨i, hi⟩
    obtain ⟨value, hent⟩ := (h.mapped key i).mp hi
    exact ⟨(key, value), h.mem_iff.mpr ⟨i, hent⟩, rfl⟩
  · rintro ⟨e, he, rfl⟩
    obtain ⟨i, hi⟩ := h.mem_iff.mp he
    exact ⟨i, (h.mapped e.1 i).mpr ⟨e.2, hi⟩⟩

end

/-! ## The moves -/

/-- **A node is taken out of the list.** -/
theorem Keeps.detach {before after : List ℕ} {front back : List (StoreKey × V)}
    (h : s.Keeps (before ++ i :: after) (front ++ (key, value) :: back))
    (hhol : s.Holds (before ++ after) (front ++ back))
    (hent : entryAt s.slab i = some (key, value)) :
    ∃ slab head tail, s.unlink i = .ok { s with slab := slab, head := head, tail := tail }
      ∧ slab.length = s.slab.length
      ∧ Detached { s with slab := slab, head := head, tail := tail } i (key, value)
          (before ++ after) (front ++ back) := by
  obtain ⟨t, ht, hrel⟩ := unlink_relinked h.lists h.holds.occupied
  obtain ⟨slab, head, tail, rfl⟩ := hrel.rest
  have hents : entryAt slab = entryAt s.slab := hrel.entries
  have hlis := h.lists.unlink
  rw [← hrel.links] at hlis
  refine ⟨slab, head, tail, ht, hrel.length, hlis, ?_, ?_, ?_, ?_, ?_, ?_⟩
  · show (before ++ after).map (entryAt slab) = _
    rwa [hents]
  · exact (nodup_cons.mp (nodup_middle.mp h.lists.nodup)).1
  · show entryAt slab i = _
    rw [hents, hent]
  · intro j hj
    change (entryAt slab j).isSome at hj
    rw [hents] at hj
    have hmem := h.occupied j hj
    simp only [mem_append, mem_cons] at hmem ⊢
    tauto
  · intro key' j
    show s.map.lookup key' = some j ↔ ∃ value, entryAt slab j = some (key', value)
    rw [hents]
    exact h.mapped key' j
  · intro hcap layer
    rw [← Lru.countOf_perm fst perm_middle layer]
    exact h.counted hcap layer

/-- **A node is put in front.** -/
theorem Detached.pushFront {e : StoreKey × V} (h : s.Detached i e order entries) :
    ∃ slab head tail, s.pushFront i = .ok { s with slab := slab, head := head, tail := tail }
      ∧ slab.length = s.slab.length ∧ entryAt slab = entryAt s.slab
      ∧ Keeps { s with slab := slab, head := head, tail := tail } (i :: order) (e :: entries) := by
  obtain ⟨n, hn, -⟩ := nodeAt_of_entryAt h.entry
  obtain ⟨t, ht, hrel⟩ := pushFront_relinked hn h.lists h.holds.occupied
  obtain ⟨slab, head, tail, rfl⟩ := hrel.rest
  have hents : entryAt slab = entryAt s.slab := hrel.entries
  have hlis := h.lists.pushFront h.apart
  rw [← hrel.links] at hlis
  refine ⟨slab, head, tail, ht, hrel.length, hents, hlis, ?_, ?_, ?_, h.counted⟩
  · show (i :: order).map (entryAt slab) = _
    rw [hents, map_cons, h.entry, h.holds]
    rfl
  · intro j hj
    change (entryAt slab j).isSome at hj
    rw [hents] at hj
    exact mem_cons.mpr (h.occupied j hj)
  · intro key' j
    show s.map.lookup key' = some j ↔ ∃ value, entryAt slab j = some (key', value)
    rw [hents]
    exact h.mapped key' j

theorem countDown_eq (s : ExpertStore V) (layer : UInt32) :
    ∃ counts, s.countDown layer = { s with layerCounts := counts } := by
  unfold countDown
  split
  · exact ⟨_, rfl⟩
  · exact ⟨s.layerCounts, rfl⟩

theorem countUp_eq (s : ExpertStore V) (layer : UInt32) :
    ∃ counts, s.countUp layer = { s with layerCounts := counts } := by
  unfold countUp
  split
  · exact ⟨_, rfl⟩
  · exact ⟨s.layerCounts, rfl⟩

/-- One entry less in a layer. -/
theorem Counted.down {e : StoreKey × V} (h : s.Counted (e :: entries)) :
    (s.countDown e.1.1).Counted entries := by
  intro hcap layer
  have hcap' : s.layerCap.isSome := by
    obtain ⟨counts, heq⟩ := s.countDown_eq e.1.1
    rwa [heq] at hcap
  have hcount := h hcap' layer
  rw [Lru.countOf_cons] at hcount
  rw [countDown, if_pos hcap', lookup_modify]
  by_cases hlay : e.1.1 = layer
  · rw [if_pos hlay] at hcount
    rw [if_pos hlay.symm, hlay]
    cases hlkp : s.layerCounts.lookup layer with
    | none =>
      rw [hlkp] at hcount
      exact absurd hcount.symm (Nat.succ_ne_zero _)
    | some =>
      rw [hlkp] at hcount
      exact Nat.sub_eq_of_eq_add hcount
  · rw [if_neg hlay] at hcount
    rwa [if_neg (Ne.symm hlay)]

/-- One entry more in a layer. -/
theorem Counted.up (h : s.Counted entries) (e : StoreKey × V) :
    (s.countUp e.1.1).Counted (e :: entries) := by
  intro hcap layer
  have hcap' : s.layerCap.isSome := by
    obtain ⟨counts, heq⟩ := s.countUp_eq e.1.1
    rwa [heq] at hcap
  rw [countUp, if_pos hcap', lookup_insert, Lru.countOf_cons]
  by_cases hlay : e.1.1 = layer
  · rw [if_pos hlay.symm, if_pos hlay, Option.getD_some, h hcap', hlay]
  · rw [if_neg (Ne.symm hlay), if_neg hlay]
    exact h hcap' layer

/-- **A node is removed.** -/
theorem Detached.remove (h : s.Detached i (key, value) order entries) (evictions : UInt64) :
    ∃ counts, countDown { s with
        map := s.map.erase key, slab := s.slab.set i none, evictions := evictions } key.1
      = { s with
          map := s.map.erase key, slab := s.slab.set i none, layerCounts := counts
          evictions := evictions }
      ∧ Keeps { s with
          map := s.map.erase key, slab := s.slab.set i none, layerCounts := counts
          evictions := evictions } order entries := by
  obtain ⟨n, hn, -⟩ := nodeAt_of_entryAt h.entry
  have hi := lt_of_nodeAt hn
  have hcnt : (countDown { s with
      map := s.map.erase key, slab := s.slab.set i none, evictions := evictions }
      key.1).Counted entries := by
    refine Counted.down (e := (key, value)) ?_
    exact h.counted
  obtain ⟨counts, hcnts⟩ := countDown_eq { s with
    map := s.map.erase key, slab := s.slab.set i none, evictions := evictions } key.1
  rw [hcnts] at hcnt
  refine ⟨counts, hcnts, ?_⟩
  have hne : ∀ j ∈ order, j ≠ i := fun j hj heq => h.apart (heq ▸ hj)
  have hnod : ∀ j ∈ order, nodeAt (s.slab.set i none) j = nodeAt s.slab j := by
    intro j hj
    rw [nodeAt_set hi, update_of_ne (hne j hj)]
  refine ⟨h.lists.congr (fun j hj => ?_) (fun j hj => ?_) rfl rfl, ?_, ?_, ?_, hcnt⟩
  · exact congrArg (fun o => Option.bind o Node.prev) (hnod j hj)
  · exact congrArg (fun o => Option.bind o Node.next) (hnod j hj)
  · refine Eq.trans (map_congr_left (fun j hj => ?_)) h.holds
    exact congrArg (Option.map Node.entry) (hnod j hj)
  · intro j hj
    change (entryAt (s.slab.set i none) j).isSome at hj
    rw [entryAt_set hi] at hj
    by_cases hji : j = i
    · rw [hji, update_self] at hj
      cases hj
    · rw [update_of_ne hji] at hj
      exact (h.occupied j hj).resolve_left hji
  · intro key' j
    show (s.map.erase key).lookup key' = some j
      ↔ ∃ value, entryAt (s.slab.set i none) j = some (key', value)
    rw [lookup_erase, entryAt_set hi]
    by_cases hkey : key' = key
    · rw [if_pos hkey, hkey]
      refine ⟨fun hnon => (by cases hnon), ?_⟩
      rintro ⟨value', hent⟩
      by_cases hji : j = i
      · rw [hji, update_self] at hent
        cases hent
      · -- the key would have two nodes
        rw [update_of_ne hji] at hent
        have hj := (h.mapped key j).mpr ⟨value', hent⟩
        rw [(h.mapped key i).mpr ⟨value, h.entry⟩] at hj
        exact absurd (Option.some.inj hj).symm hji
    · rw [if_neg hkey, h.mapped key' j]
      by_cases hji : j = i
      · rw [hji, update_self, h.entry]
        constructor
        · rintro ⟨value', hent⟩
          exact absurd (congrArg fst (Option.some.inj hent)).symm hkey
        · rintro ⟨value', hnon⟩
          cases hnon
      · rw [update_of_ne hji]

/-- **A new node**, in a place that is vacant. -/
theorem Keeps.adopt (h : s.Keeps order entries) {slab : List (Option (Node V))}
    (hsl : nodeAt slab = update (nodeAt s.slab) i (some ⟨key, value, none, none⟩))
    (hvac : entryAt s.slab i = none) (hnew : s.map.lookup key = none) :
    Detached (countUp { s with map := s.map.insert key i, slab := slab } key.1) i (key, value)
      order entries := by
  have hcnt : (countUp { s with map := s.map.insert key i, slab := slab }
      key.1).Counted ((key, value) :: entries) := by
    refine Counted.up ?_ (key, value)
    exact h.counted
  obtain ⟨counts, hcnts⟩ := countUp_eq { s with map := s.map.insert key i, slab := slab } key.1
  rw [hcnts] at hcnt ⊢
  have hap : i ∉ order := by
    intro hi
    have hsom := h.holds.occupied i hi
    rw [hvac] at hsom
    cases hsom
  have hne : ∀ j ∈ order, j ≠ i := fun j hj heq => hap (heq ▸ hj)
  have hnod : ∀ j ∈ order, nodeAt slab j = nodeAt s.slab j := by
    intro j hj
    rw [hsl, update_of_ne (hne j hj)]
  have hents : entryAt slab = update (entryAt s.slab) i (some (key, value)) := by
    funext j
    rw [entryAt, hsl]
    by_cases hji : j = i
    · rw [hji, update_self, update_self]
      rfl
    · rw [update_of_ne hji, update_of_ne hji, entryAt]
  refine ⟨h.lists.congr (fun j hj => ?_) (fun j hj => ?_) rfl rfl, ?_, hap, ?_, ?_, ?_, hcnt⟩
  · exact congrArg (fun o => Option.bind o Node.prev) (hnod j hj)
  · exact congrArg (fun o => Option.bind o Node.next) (hnod j hj)
  · refine Eq.trans (map_congr_left (fun j hj => ?_)) h.holds
    exact congrArg (Option.map Node.entry) (hnod j hj)
  · show entryAt slab i = _
    rw [hents, update_self]
  · intro j hj
    change (entryAt slab j).isSome at hj
    rw [hents] at hj
    by_cases hji : j = i
    · exact Or.inl hji
    · rw [update_of_ne hji] at hj
      exact Or.inr (h.occupied j hj)
  · intro key' j
    show (s.map.insert key i).lookup key' = some j ↔ ∃ value, entryAt slab j = some (key', value)
    rw [lookup_insert, hents]
    by_cases hkey : key' = key
    · rw [if_pos hkey, hkey]
      by_cases hji : j = i
      · rw [hji, update_self]
        exact ⟨fun _ => ⟨value, rfl⟩, fun _ => rfl⟩
      · rw [update_of_ne hji]
        refine ⟨fun heq => absurd (Option.some.inj heq).symm hji, fun hent => ?_⟩
        rw [(h.mapped key j).mpr hent] at hnew
        cases hnew
    · rw [if_neg hkey, h.mapped key' j]
      by_cases hji : j = i
      · rw [hji, update_self, hvac]
        constructor
        · rintro ⟨value', hnon⟩
          cases hnon
        · rintro ⟨value', hent⟩
          exact absurd (congrArg fst (Option.some.inj hent)).symm hkey
      · rw [update_of_ne hji]

/-- **Another value for a key.** -/
theorem Keeps.replace {before after : List ℕ} {front back : List (StoreKey × V)} {n : Node V}
    (h : s.Keeps (before ++ i :: after) (front ++ (key, value) :: back))
    (hfr : s.Holds before front) (hbac : s.Holds after back)
    (hn : nodeAt s.slab i = some n) (hkey : n.key = key) (value' : V) :
    Keeps { s with slab := s.slab.set i (some { n with value := value' }) }
      (before ++ i :: after) (front ++ (key, value') :: back) := by
  have hi := lt_of_nodeAt hn
  have hents : entryAt (s.slab.set i (some { n with value := value' }))
      = update (entryAt s.slab) i (some (key, value')) := by
    rw [entryAt_set hi, ← hkey]
    rfl
  have hkys (j : ℕ) : (entryAt (s.slab.set i (some { n with value := value' })) j).map fst
      = (entryAt s.slab j).map fst := by
    rw [hents]
    by_cases hji : j = i
    · rw [hji, update_self, entryAt_of_nodeAt hn, hkey]
      rfl
    · rw [update_of_ne hji]
  have hlin : links { s with slab := s.slab.set i (some { n with value := value' }) }
      = s.links := by
    refine (linksOf_set hi _).trans ?_
    show s.links.setBoth i n.prev n.next = s.links
    rw [Links.setBoth, ← prev_of_nodeAt hn, ← next_of_nodeAt hn, update_eq_self, update_eq_self]
  have hap := (nodup_cons.mp (nodup_middle.mp h.lists.nodup)).1
  have hoth : ∀ j ∈ before ++ after,
      entryAt (s.slab.set i (some { n with value := value' })) j = entryAt s.slab j := by
    intro j hj
    have hji : j ≠ i := fun heq => hap (heq ▸ hj)
    rw [hents, update_of_ne hji]
  refine ⟨hlin ▸ h.lists, ?_, ?_, ?_, ?_⟩
  · show (before ++ i :: after).map (entryAt (s.slab.set i (some { n with value := value' }))) = _
    rw [List.map_append, map_cons, List.map_append, map_cons, ← hfr, ← hbac,
      map_congr_left (fun j hj => hoth j (mem_append_left _ hj)),
      map_congr_left (fun j hj => hoth j (mem_append_right _ hj)), hents,
      update_self]
  · intro j hj
    refine h.occupied j ?_
    have hsam := congrArg Option.isSome (hkys j)
    rw [Option.isSome_map, Option.isSome_map] at hsam
    exact hsam.symm.trans hj
  · intro key' j
    refine (h.mapped key' j).trans ?_
    show (∃ value, entryAt s.slab j = some (key', value))
      ↔ ∃ value, entryAt (s.slab.set i (some { n with value := value' })) j = some (key', value)
    have hfst (o : Option (StoreKey × V)) :
        (∃ value, o = some (key', value)) ↔ o.map fst = some key' := by
      cases o with
      | none => simp
      | some e => cases e; simp [eq_comm]
    rw [hfst, hfst, hkys]
  · intro hcap layer
    refine (h.counted hcap layer).trans ?_
    simp only [countOf, countP_append, countP_cons]

/-- **A use moves an entry to the front.** -/
theorem Keeps.use (h : s.Keeps order entries) (hlkp : s.map.lookup key = some i) :
    ∃ u slab head tail value order', s.unlink i = .ok u
      ∧ u.pushFront i = .ok { s with slab := slab, head := head, tail := tail }
      ∧ slab.length = s.slab.length ∧ entryAt slab i = some (key, value)
      ∧ lookup entries key = some value
      ∧ Keeps { s with slab := slab, head := head, tail := tail } order' (touch entries key) := by
  have hdis := h.distinct
  obtain ⟨before, after, front, back, value, rfl, rfl, hfr, hbac, hent⟩ := h.split hlkp
  obtain ⟨slab, head, tail, hunl, hlen, hdet⟩ :=
    h.detach (hfr.append hbac) hent
  obtain ⟨slab', head', tail', hpus, hlen', hents, hkps⟩ := hdet.pushFront
  have hval := Lru.lookup_split hdis
  refine ⟨_, slab', head', tail', value, i :: (before ++ after), hunl, hpus,
    hlen'.trans hlen, ?_, hval, ?_⟩
  · rw [hents]
    exact hdet.entry
  · rwa [touch, hval, Lru.without_split hdis]

/-! ## The entry that has to go -/

/-- An index, and the entry that is meant. -/
def Located (s : ExpertStore V) (r : Option ℕ) (e : Option (StoreKey × V)) : Prop :=
  r.map (entryAt s.slab) = e.map some

/-- **The walk finds the first entry of the layer** on its way. -/
theorem walkBack_located {layer : UInt32} {fuel : ℕ} {here : Option ℕ}
    (hpat : Path s.links.prev here order none) (hhol : s.Holds order entries)
    (hfuel : order.length ≤ fuel) : ∃ r, s.walkBack layer fuel here = .ok r
      ∧ s.Located r (entries.find? (fun e => e.1.1 = layer)) := by
  induction order generalizing here entries fuel with
  | nil =>
    rw [map_eq_nil_iff.mp (hhol.symm.trans map_nil), show here = none from hpat]
    refine ⟨none, ?_, rfl⟩
    cases fuel <;> rfl
  | cons i order ih =>
    obtain ⟨rfl, hres⟩ := hpat
    obtain ⟨e, rest, rfl, he, hhol⟩ := map_eq_cons_iff.mp hhol.symm
    obtain ⟨n, hn, hkey, -⟩ := nodeAt_of_entryAt he.symm
    cases fuel with
    | zero => exact absurd hfuel (Nat.not_succ_le_zero _)
    | succ =>
      rw [walkBack, node_eq hn, ok_bind, hkey]
      by_cases hlay : e.1.1 = layer
      · rw [if_pos hlay, List.find?_cons_of_pos (by simpa using hlay)]
        exact ⟨some i, rfl, congrArg some he.symm⟩
      · rw [if_neg hlay, List.find?_cons_of_neg (by simpa using hlay), ← prev_of_nodeAt hn]
        exact ih hres hhol.symm (Nat.le_of_succ_le_succ hfuel)

theorem Keeps.tail_located (h : s.Keeps order entries) : s.Located s.tail entries.getLast? := by
  rw [Located, show s.tail = order.getLast? from h.lists.tail_eq, ← List.getLast?_map, h.holds,
    List.getLast?_map]

/-- The global bound comes in if the part has no victim. -/
theorem Located.or {r r' : Option ℕ} {e e' : Option (StoreKey × V)} {full : Prop}
    [Decidable full] (h : s.Located r e) (h' : s.Located r' e') :
    s.Located (if r.isNone ∧ full then r' else r) (e.or (if full then e' else none)) := by
  cases r with
  | none =>
    cases e with
    | some => cases h
    | none =>
      rw [Option.none_or]
      by_cases hful : full
      · rwa [if_pos ⟨rfl, hful⟩, if_pos hful]
      · rw [if_neg (fun hbot => hful hbot.2), if_neg hful]
        exact h
  | some =>
    rw [if_neg (fun hbot => by cases hbot.1)]
    cases e with
    | none => cases h
    | some => exact h

/-- **The store and the list agree on what has to go.** -/
theorem Keeps.victim_located {l : Lru StoreKey V} (h : s.Keeps order l.entries)
    (hcpc : s.cap = l.capacity) (hqt : s.layerCap = l.quota) (key : StoreKey) :
    ∃ r, s.victim key = .ok r ∧ s.Located r (l.victim fst key) := by
  have htl := h.tail_located
  have hpar : ∃ r, s.partVictim key = .ok r
      ∧ s.Located (if r.isNone ∧ s.cap ≤ s.len then s.tail else r) (l.victim fst key) := by
    rw [Lru.victim, ← hqt, partVictim, hcpc, h.len_eq]
    cases hcap : s.layerCap with
    | none =>
      refine ⟨_, rfl, ?_⟩
      rw [Option.bind_none, Option.none_or]
      by_cases hful : l.capacity ≤ l.entries.length
      · rwa [if_pos hful, if_pos hful, ite_self]
      · rw [if_neg hful, if_neg hful, if_neg (fun hbot => hful hbot.2)]
        rfl
    | some c =>
      have hcount := h.counted (hcap ▸ rfl) key.1
      rw [Option.bind_some, hcount]
      dsimp only
      by_cases hpar : c ≤ countOf fst l.entries key.1
      · rw [if_pos hpar, if_pos hpar]
        have hlen : order.reverse.length ≤ s.slab.length :=
          order.length_reverse.trans_le h.length_le
        have hrev : s.Holds order.reverse l.entries.reverse := by
          rw [Holds, map_reverse, map_reverse, h.holds]
        obtain ⟨r, hr, hloc⟩ := walkBack_located h.lists.backward hrev hlen
        exact ⟨r, hr, hloc.or htl⟩
      · rw [if_neg hpar, if_neg hpar]
        exact ⟨none, rfl, Located.or (e := none) rfl htl⟩
  obtain ⟨r, hr, hloc⟩ := hpar
  refine ⟨_, ?_, hloc⟩
  rw [victim, hr]
  rfl

/-! ## The operations -/

/-- **The store is this list**, seen from outside. -/
structure Refines (s : ExpertStore V) (l : Lru StoreKey V) : Prop where
  keeps : ∃ order, s.Keeps order l.entries
  bounded : l.Bounded
  capacity : s.cap = l.capacity
  quota : s.layerCap = l.quota
  hits : s.hits = ofNat l.hits
  misses : s.misses = ofNat l.misses
  evictions : s.evictions = ofNat l.evictions
  slab_le : s.slab.length ≤ isizeMax

theorem Keeps.telemetry (h : s.Keeps order entries) (hits misses evictions : UInt64) :
    Keeps { s with hits := hits, misses := misses, evictions := evictions } order entries :=
  ⟨h.lists, h.holds, h.occupied, h.mapped, h.counted⟩

theorem Keeps.lookup_none (h : s.Keeps order entries) (hnon : s.map.lookup key = none) :
    lookup entries key = none := by
  rw [h.lookup_eq, hnon, Option.bind_none]

theorem Keeps.lookup_some (h : s.Keeps order entries) (hsom : s.map.lookup key = some i) :
    ∃ value, lookup entries key = some value := by
  obtain ⟨value, hent⟩ := (h.mapped key i).mp hsom
  exact ⟨value, Lru.lookup_of_mem h.distinct (h.mem_iff.mpr ⟨i, hent⟩)⟩

theorem touch_of_none (h : lookup entries key = none) : touch entries key = entries := by
  rw [touch, h]

variable {l : Lru StoreKey V}

theorem get_refines (h : s.Refines l) (key : StoreKey) :
    ∃ t, s.get key = .ok (lookup l.entries key, t) ∧ t.slab.length = s.slab.length
      ∧ t.Refines (l.step fst (.get key)).2 := by
  obtain ⟨order, hkps⟩ := h.keeps
  have hbnd := h.bounded.step fst (.get key)
  unfold get
  cases hlkp : s.map.lookup key with
  | none =>
    have hnon := hkps.lookup_none hlkp
    rw [hnon]
    refine ⟨s, rfl, rfl, ⟨order, ?_⟩, hbnd, h.capacity, h.quota, ?_, h.misses, h.evictions,
      h.slab_le⟩
    · show s.Keeps order (touch l.entries key)
      rwa [touch_of_none hnon]
    · show s.hits = ofNat (l.hits + (lookup l.entries key).toList.length)
      rw [hnon]
      exact h.hits
  | some =>
    have hcnt := hkps.telemetry (s.hits + 1) s.misses s.evictions
    obtain ⟨u, slab, head, tail, value, order', hunl, hpus, hlen, hent, hval, hmov⟩ :=
      hcnt.use hlkp
    obtain ⟨n, hn, -, hnod⟩ := nodeAt_of_entryAt hent
    rw [hval]
    refine ⟨_, ?_, ?_, ⟨order', hmov⟩, hbnd, h.capacity, h.quota, ?_, h.misses, h.evictions,
      hlen.trans_le h.slab_le⟩
    · dsimp only
      rw [hunl, ok_bind, hpus, ok_bind, node_eq hn, ok_bind, hnod]
      rfl
    · exact hlen
    · show s.hits + 1 = ofNat (l.hits + (lookup l.entries key).toList.length)
      rw [hval, h.hits]
      exact (ofNat_add l.hits 1).symm

theorem peek_refines (h : s.Refines l) (key : StoreKey) :
    s.peek key = .ok (lookup l.entries key) := by
  obtain ⟨order, hkps⟩ := h.keeps
  rw [peek, hkps.lookup_eq]
  cases hlkp : s.map.lookup key with
  | none => rfl
  | some i =>
    obtain ⟨value, hent⟩ := (hkps.mapped key i).mp hlkp
    obtain ⟨n, hn, -, hnod⟩ := nodeAt_of_entryAt hent
    dsimp only
    rw [node_eq hn, ok_bind, Option.bind_some, hent, hnod]
    rfl

theorem promoteIfPresent_refines (h : s.Refines l) (key : StoreKey) :
    ∃ t, s.promoteIfPresent key = .ok ((lookup l.entries key).isSome, t)
      ∧ t.slab.length = s.slab.length ∧ t.Refines (l.step fst (.promote key)).2 := by
  obtain ⟨order, hkps⟩ := h.keeps
  have hbnd := h.bounded.step fst (.promote key)
  unfold promoteIfPresent
  cases hlkp : s.map.lookup key with
  | none =>
    have hnon := hkps.lookup_none hlkp
    rw [hnon]
    refine ⟨s, rfl, rfl, ⟨order, ?_⟩, hbnd, h.capacity, h.quota, h.hits, h.misses, h.evictions,
      h.slab_le⟩
    show s.Keeps order (touch l.entries key)
    rwa [touch_of_none hnon]
  | some =>
    obtain ⟨u, slab, head, tail, value, order', hunl, hpus, hlen, hent, hval, hmov⟩ :=
      hkps.use hlkp
    rw [hval]
    refine ⟨_, ?_, hlen, ⟨order', hmov⟩, hbnd, h.capacity, h.quota, h.hits, h.misses,
      h.evictions, hlen.trans_le h.slab_le⟩
    dsimp only
    rw [hunl, ok_bind, hpus, ok_bind]
    rfl

theorem take_refines (h : s.Refines l) (key : StoreKey) :
    ∃ t, s.take key = .ok (lookup l.entries key, t) ∧ t.slab.length = s.slab.length
      ∧ t.Refines (l.step fst (.take key)).2 := by
  obtain ⟨order, hkps⟩ := h.keeps
  have hbnd := h.bounded.step fst (.take key)
  have hdis := hkps.distinct
  unfold take
  cases hlkp : s.map.lookup key with
  | none =>
    have hnon := hkps.lookup_none hlkp
    rw [hnon]
    refine ⟨s, rfl, rfl, ⟨order, ?_⟩, hbnd, h.capacity, h.quota, h.hits, h.misses, h.evictions,
      h.slab_le⟩
    show s.Keeps order (without l.entries key)
    rwa [Lru.without_of_none hnon]
  | some i =>
    obtain ⟨before, after, front, back, value, rfl, hents, hfr, hbac, hent⟩ :=
      hkps.split hlkp
    rw [hents] at hkps hdis
    obtain ⟨slab, head, tail, hunl, hlen, hdet⟩ :=
      hkps.detach (hfr.append hbac) hent
    have hunl' := unlink_frame (s.map.erase key) hunl
    obtain ⟨n, hn, -, hval⟩ := nodeAt_of_entryAt hdet.entry
    have hget : slab[i]? = some (some n) := getElem?_of_nodeAt hn
    obtain ⟨counts, hcnts, hrem⟩ := hdet.remove s.evictions
    refine ⟨{ s with
        map := s.map.erase key, slab := slab.set i none, head := head, tail := tail
        layerCounts := counts }, ?_, length_set.trans hlen, ⟨before ++ after, ?_⟩, hbnd,
      h.capacity, h.quota, h.hits, h.misses, h.evictions, ?_⟩
    · dsimp only
      rw [hunl', ok_bind]
      rw [hget, hcnts, hents, Lru.lookup_split hdis]
      dsimp only
      rw [hval]
      rfl
    · show Keeps _ (before ++ after) (without l.entries key)
      rwa [hents, Lru.without_split hdis]
    · exact (length_set.trans hlen).trans_le h.slab_le

/-! ## Insertion -/

theorem Keeps.map_none (h : s.Keeps order entries) (hnon : lookup entries key = none) :
    s.map.lookup key = none := by
  cases hlkp : s.map.lookup key with
  | none => rfl
  | some i =>
    obtain ⟨value, hent⟩ := (h.mapped key i).mp hlkp
    rw [Lru.lookup_of_mem h.distinct (h.mem_iff.mpr ⟨i, hent⟩)] at hnon
    cases hnon

/-- **An entry goes**, and leaves its place. -/
theorem Keeps.evict (h : s.Keeps order entries) (hent : entryAt s.slab i = some (key, value)) :
    ∃ map slab head tail counts order', s.evict i = .ok (value, { s with
        map := map, slab := slab, head := head, tail := tail, layerCounts := counts
        evictions := s.evictions + 1 })
      ∧ slab.length = s.slab.length ∧ i < s.slab.length ∧ entryAt slab i = none
      ∧ Keeps { s with
          map := map, slab := slab, head := head, tail := tail, layerCounts := counts
          evictions := s.evictions + 1 } order' (without entries key) := by
  have hdis := h.distinct
  obtain ⟨before, after, front, back, value', rfl, rfl, hfr, hbac, hent'⟩ :=
    h.split ((h.mapped key i).mpr ⟨value, hent⟩)
  obtain rfl : value = value' :=
    congrArg snd (Option.some.inj (hent.symm.trans hent'))
  obtain ⟨m, hm, hkey, -⟩ := nodeAt_of_entryAt hent
  obtain ⟨slab, head, tail, hunl, hlen, hdet⟩ := h.detach (hfr.append hbac) hent
  obtain ⟨n, hn, -, hval⟩ := nodeAt_of_entryAt hdet.entry
  have hi : i < slab.length := lt_of_nodeAt hn
  obtain ⟨counts, hcnts, hrem⟩ := hdet.remove (s.evictions + 1)
  refine ⟨s.map.erase key, slab.set i none, head, tail, counts, before ++ after, ?_,
    length_set.trans hlen, hi.trans_eq hlen, ?_, ?_⟩
  · have hn' : node { s with
        map := s.map.erase m.key, slab := slab, head := head, tail := tail } i = .ok n :=
      node_eq hn
    rw [ExpertStore.evict, node_eq hm, ok_bind, hunl, ok_bind]
    dsimp only
    rw [hn', ok_bind, hkey, hval]
    dsimp only at hcnts ⊢
    rw [hcnts]
    rfl
  · rw [entryAt_set hi, update_self]
    rfl
  · rwa [Lru.without_split hdis]

variable (value) in
/-- **A new node comes**, in a place that is vacant. -/
theorem Keeps.place (h : s.Keeps order entries) (hnew : s.map.lookup key = none)
    {slab : List (Option (Node V))}
    (hsl : nodeAt slab = update (nodeAt s.slab) i (some ⟨key, value, none, none⟩))
    (hvac : entryAt s.slab i = none) : ∃ slab' head tail counts,
      (countUp { s with map := s.map.insert key i, slab := slab } key.1).pushFront i = .ok { s with
            map := s.map.insert key i, slab := slab', head := head, tail := tail
            layerCounts := counts }
      ∧ slab'.length = slab.length ∧ entryAt slab' i = some (key, value)
      ∧ Keeps { s with
          map := s.map.insert key i, slab := slab', head := head, tail := tail
          layerCounts := counts } (i :: order) ((key, value) :: entries) := by
  have hdet := h.adopt hsl hvac hnew
  obtain ⟨counts, hcnts⟩ := countUp_eq { s with map := s.map.insert key i, slab := slab } key.1
  rw [hcnts] at hdet ⊢
  obtain ⟨slab', head, tail, hpus, hlen, hents, hkps⟩ := hdet.pushFront
  refine ⟨slab', head, tail, counts, hpus, hlen, ?_, hkps⟩
  rw [hents]
  exact hdet.entry

/-- A place at the end of the slab. -/
theorem nodeAt_append (slab : List (Option (Node V))) (n : Node V) :
    nodeAt (slab ++ [some n]) = update (nodeAt slab) slab.length (some n)
      ∧ entryAt slab slab.length = none := by
  constructor
  · funext j
    by_cases hj : j = slab.length
    · rw [hj, update_self, nodeAt, List.getElem?_append_right le_rfl, Nat.sub_self]
      rfl
    · rw [update_of_ne hj, nodeAt, nodeAt]
      rcases Nat.lt_or_gt_of_ne hj with hlt | hgt
      · rw [List.getElem?_append_left hlt]
      · rw [List.getElem?_eq_none_iff.mpr hgt.le, List.getElem?_eq_none_iff.mpr]
        rwa [length_append]
  · rw [entryAt, nodeAt, List.getElem?_eq_none_iff.mpr le_rfl]
    rfl

theorem insert_present (h : s.Refines l) (hlkp : s.map.lookup key = some i) (value : V) :
    ∃ t, s.insert key value = .ok ((l.insert fst key value).1, t)
      ∧ t.slab.length = s.slab.length ∧ t.Refines (l.insert fst key value).2 := by
  obtain ⟨order, hkps⟩ := h.keeps
  have hbnd := h.bounded.step fst (.insert key value)
  change (l.insert fst key value).2.Bounded at hbnd
  have hdis := hkps.distinct
  obtain ⟨before, after, front, back, old, rfl, hents, hfr, hbac, hent⟩ :=
    hkps.split hlkp
  rw [hents] at hkps hdis
  obtain ⟨n, hn, hkey, hold⟩ := nodeAt_of_entryAt hent
  have hrep := hkps.replace hfr hbac hn hkey value
  obtain ⟨u, slab, head, tail, value', order', hunl, hpus, hlen, hent', hval, hmov⟩ :=
    hrep.use hlkp
  have hdis' := hrep.distinct
  rw [Lru.lookup_split hdis'] at hval
  obtain rfl : value = value' := Option.some.inj hval
  obtain ⟨n', hn', -, hnod⟩ := nodeAt_of_entryAt hent'
  have hlis : l.insert fst key value = (.inserted none (some old) value,
      { l with entries := (key, value) :: (front ++ back) }) := by
    rw [Lru.insert, hents, Lru.lookup_split hdis]
    rw [Lru.without_split hdis]
  have hlen' : slab.length = s.slab.length := hlen.trans length_set
  rw [hlis] at hbnd ⊢
  refine ⟨{ s with slab := slab, head := head, tail := tail }, ?_, hlen', ⟨order', ?_⟩, hbnd,
    h.capacity, h.quota, h.hits, h.misses, h.evictions, hlen'.trans_le h.slab_le⟩
  · unfold insert
    rw [hlkp]
    dsimp only
    rw [node_eq hn, ok_bind, hunl, ok_bind, hpus, ok_bind, node_eq hn', ok_bind, hold, hnod]
    rfl
  · rwa [touch, Lru.lookup_split hdis', Lru.without_split hdis'] at hmov

/-- An entry that is not there takes the place of the one that has to go, or a
new one. -/
theorem insert_absent (h : s.Refines l) (hlkp : s.map.lookup key = none) (value : V) :
    (∃ t, s.insert key value = .ok ((l.insert fst key value).1, t)
      ∧ t.slab.length + l.entries.length = s.slab.length + (l.insert fst key value).2.entries.length
      ∧ t.Refines (l.insert fst key value).2)
    ∨ (s.insert key value = .error .capacityOverflow ∧ s.slab.length = isizeMax) := by
  obtain ⟨order, hkps⟩ := h.keeps
  have hbnd := h.bounded.step fst (.insert key value)
  change (l.insert fst key value).2.Bounded at hbnd
  have hnon := hkps.lookup_none hlkp
  have hcnt := hkps.telemetry s.hits (s.misses + 1) s.evictions
  have hmis : s.misses + 1 = ofNat (l.misses + 1) := by
    rw [h.misses]
    exact (ofNat_add l.misses 1).symm
  obtain ⟨r, hr, hloc⟩ := hcnt.victim_located h.capacity h.quota key
  rw [insert, hlkp]
  dsimp only
  rw [hr, ok_bind]
  unfold Lru.insert at hbnd ⊢
  rw [hnon] at hbnd ⊢
  dsimp only at hbnd ⊢
  cases hvic : l.victim fst key with
  | some gone =>
    rw [hvic] at hloc hbnd
    cases r with
    | none => cases hloc
    | some t =>
      have hent : entryAt s.slab t = some (gone.1, gone.2) := Option.some.inj hloc
      obtain ⟨map, slab, head, tail, counts, order', hev, hlen, hlt, hvac, hres⟩ :=
        hcnt.evict hent
      have hfr : lookup (without l.entries gone.1) key = none := by
        refine Lru.lookup_eq_none_iff.mpr (fun hmem => Lru.lookup_eq_none_iff.mp hnon ?_)
        exact (filter_sublist.map fst).subset hmem
      have hlt' : t < slab.length := hlt.trans_eq hlen.symm
      obtain ⟨slab', head', tail', counts', hpus, hlen', hent', hpl⟩ :=
        hres.place value (hres.map_none hfr) (nodeAt_set hlt' _) hvac
      obtain ⟨n, hn, -, hval⟩ := nodeAt_of_entryAt hent'
      have hrm : slab'.length = s.slab.length :=
        hlen'.trans (length_set.trans hlen)
      have hsam : l.entries.length = (without l.entries gone.1).length + 1 :=
        (Lru.perm_of_mem hkps.distinct (Lru.victim_mem hvic)).length_eq
      refine Or.inl ⟨{ s with
          map := map.insert key t, slab := slab', head := head', tail := tail'
          layerCounts := counts', misses := s.misses + 1, evictions := s.evictions + 1 }, ?_,
        congrArg₂ (· + ·) hrm hsam, ⟨t :: order', hpl⟩, hbnd, h.capacity, h.quota, h.hits,
        hmis, ?_, hrm.trans_le h.slab_le⟩
      · dsimp only [makeRoom, store]
        rw [hev, ok_bind, pure_eq, ok_bind]
        rw [if_pos hlt', ok_bind]
        rw [hpus, ok_bind, node_eq hn, ok_bind, hval]
        rfl
      · show s.evictions + 1 = ofNat (l.evictions + 1)
        rw [h.evictions]
        exact (ofNat_add l.evictions 1).symm
  | none =>
    rw [hvic] at hloc hbnd
    cases r with
    | some => cases hloc
    | none =>
      obtain ⟨hnod, hvac⟩ := nodeAt_append s.slab ⟨key, value, none, none⟩
      by_cases hful : s.slab.length < isizeMax
      · obtain ⟨slab', head', tail', counts', hpus, hlen', hent', hpl⟩ :=
          hcnt.place value hlkp hnod hvac
        obtain ⟨n, hn, -, hval⟩ := nodeAt_of_entryAt hent'
        have hrm : slab'.length = s.slab.length + 1 := hlen'.trans length_append
        refine Or.inl ⟨{ s with
            map := s.map.insert key s.slab.length, slab := slab', head := head', tail := tail'
            layerCounts := counts', misses := s.misses + 1 }, ?_, ?_,
          ⟨s.slab.length :: order, hpl⟩, hbnd, h.capacity, h.quota, h.hits, hmis,
          h.evictions, hrm.trans_le hful⟩
        · dsimp only [makeRoom, store]
          rw [ok_bind]
          rw [if_pos hful, ok_bind]
          rw [hpus, ok_bind, node_eq hn, ok_bind, hval]
          rfl
        · show slab'.length + l.entries.length = s.slab.length + (l.entries.length + 1)
          rw [hrm, Nat.add_right_comm, Nat.add_assoc]
      · refine Or.inr ⟨?_, le_antisymm h.slab_le (not_lt.mp hful)⟩
        dsimp only [makeRoom, store]
        rw [ok_bind]
        rw [if_neg hful]
        rfl

/-- **Every operation is that of the list**, and answers the same, unless the
slab cannot take a new node any more. The slab has a new place for every new
entry; the place of an entry that was taken stays. -/
theorem step_refines (h : s.Refines l) (op : CacheOp StoreKey V) :
    (∃ t, s.step op = .ok ((l.step fst op).1, t) ∧ t.slab.length + l.entries.length = s.slab.length
        + ((l.step fst op).2.entries.length + (l.step fst op).1.takings.length)
      ∧ t.Refines (l.step fst op).2)
    ∨ (s.step op = .error .capacityOverflow ∧ s.slab.length = isizeMax ∧ op.given.length = 1) := by
  have htch (key : StoreKey) : l.entries.length = (touch l.entries key).length :=
    (Lru.touch_perm h.bounded.distinct key).length_eq.symm
  cases op with
  | get key =>
    obtain ⟨t, ht, hlen, href⟩ := get_refines h key
    exact Or.inl ⟨t, bind_eq_ok.mpr ⟨_, ht, rfl⟩, congrArg₂ (· + ·) hlen (htch key), href⟩
  | peek key =>
    exact Or.inl ⟨s, bind_eq_ok.mpr ⟨_, peek_refines h key, rfl⟩, rfl, h⟩
  | promote key =>
    obtain ⟨t, ht, hlen, href⟩ := promoteIfPresent_refines h key
    exact Or.inl ⟨t, bind_eq_ok.mpr ⟨_, ht, rfl⟩, congrArg₂ (· + ·) hlen (htch key), href⟩
  | take key =>
    obtain ⟨t, ht, hlen, href⟩ := take_refines h key
    refine Or.inl ⟨t, bind_eq_ok.mpr ⟨_, ht, rfl⟩, congrArg₂ (· + ·) hlen ?_, href⟩
    show l.entries.length = (without l.entries key).length + (lookup l.entries key).toList.length
    cases hlkp : lookup l.entries key with
    | none => rw [Lru.without_of_none hlkp, Option.toList_none, length_nil, Nat.add_zero]
    | some =>
      exact (Lru.perm_of_mem h.bounded.distinct (Lru.mem_of_lookup hlkp)).length_eq
  | insert key value =>
    cases hlkp : s.map.lookup key with
    | some =>
      obtain ⟨t, ht, hlen, href⟩ := insert_present h hlkp value
      refine Or.inl ⟨t, ht, congrArg₂ (· + ·) hlen ?_, href⟩
      show l.entries.length = (l.insert fst key value).2.entries.length
        + (l.insert fst key value).1.takings.length
      obtain ⟨order, hkps⟩ := h.keeps
      obtain ⟨old, hold⟩ := hkps.lookup_some hlkp
      rw [Lru.insert, hold]
      exact (Lru.perm_of_mem h.bounded.distinct (Lru.mem_of_lookup hold)).length_eq
    | none =>
      rcases insert_absent h hlkp value with ⟨t, ht, hlen, href⟩ | ⟨herr, hful⟩
      · refine Or.inl ⟨t, ht, ?_, href⟩
        show _ = s.slab.length + ((l.insert fst key value).2.entries.length
          + (l.insert fst key value).1.takings.length)
        rwa [Lru.takings_insert]
      · exact Or.inr ⟨herr, hful, rfl⟩

/-- **Every run is that of the list**, and the slab has a place for every entry
and for every value that was taken. -/
theorem run_refines (h : s.Refines l) (ops : List (CacheOp StoreKey V)) :
    (∃ t, s.run ops = .ok (l.answers fst ops, t) ∧ t.slab.length + l.entries.length
        = s.slab.length + (((machine fst).run l ops).entries.length
          + ((l.answers fst ops).flatMap CacheAnswer.takings).length)
      ∧ t.Refines ((machine fst).run l ops)) ∨ (s.run ops = .error .capacityOverflow
      ∧ isizeMax < s.slab.length + (ops.flatMap CacheOp.given).length) := by
  induction ops generalizing s l with
  | nil => exact Or.inl ⟨s, rfl, rfl, h⟩
  | cons op ops ih =>
    have hmov := Lru.length_step_le fst h.bounded.distinct op
    rw [flatMap_cons, length_append, run]
    rcases step_refines h op with ⟨t, ht, hlen, href⟩ | ⟨herr, hful, hgiv⟩
    · rw [ht, ok_bind]
      rcases ih href with ⟨u, hu, hlen', hrun⟩ | ⟨herr, hful⟩
      · refine Or.inl ⟨u, ?_, ?_, hrun⟩
        · dsimp only
          rw [hu]
          rfl
        · show u.slab.length + l.entries.length = s.slab.length
            + (((machine fst).run (l.step fst op).2 ops).entries.length
              + (((l.step fst op).1 :: (l.step fst op).2.answers fst ops).flatMap
                CacheAnswer.takings).length)
          rw [flatMap_cons, length_append]
          omega
      · refine Or.inr ⟨?_, by omega⟩
        dsimp only
        rw [herr]
        rfl
    · rw [herr]
      exact Or.inr ⟨rfl, by omega⟩

end ExpertStore

end Logan
