import Logan.Expert.ExpertStore
import Logan.Util.Links

/-!
# The list in the slab

The nodes of the slab carry the links of a list, and the operations on the
list are those of `Links`: what `unlink` writes is `Links.unlink`, and what
`pushFront` writes is `Links.pushFront`. Neither of them touches the keys
and values, and neither of them panics on a node of the list.
-/

namespace Logan

open List Function Result Option

namespace ExpertStore

variable {V : Type}

/-! ## Reading the slab -/

/-- The node at an index. -/
def nodeAt (slab : List (Option (Node V))) (i : ℕ) : Option (Node V) := slab[i]?.join

/-- What a node holds. -/
def Node.entry (n : Node V) : StoreKey × V := (n.key, n.value)

/-- The entry at an index. -/
def entryAt (slab : List (Option (Node V))) (i : ℕ) : Option (StoreKey × V) :=
  (nodeAt slab i).map Node.entry

/-- The links that the nodes carry. -/
def linksOf (slab : List (Option (Node V))) (head tail : Option ℕ) : Links ℕ where
  prev i := (nodeAt slab i).bind Node.prev
  next i := (nodeAt slab i).bind Node.next
  head := head
  tail := tail

/-- The links of a store. -/
def links (s : ExpertStore V) : Links ℕ := linksOf s.slab s.head s.tail

variable {s t : ExpertStore V} {slab : List (Option (Node V))} {head tail : Option ℕ}
variable {n : Node V} {i : ℕ} {before after : List ℕ} {e : StoreKey × V}

theorem getElem?_of_nodeAt (h : nodeAt slab i = some n) : slab[i]? = some (some n) := by
  unfold nodeAt at h
  cases hi : slab[i]? with
  | none => rw [hi] at h; cases h
  | some =>
    rw [hi] at h
    exact congrArg some h

theorem lt_of_nodeAt (h : nodeAt slab i = some n) : i < slab.length :=
  (List.getElem?_eq_some_iff.mp (getElem?_of_nodeAt h)).1

theorem nodeAt_of_entryAt (h : entryAt slab i = some e) :
    ∃ n, nodeAt slab i = some n ∧ n.key = e.1 ∧ n.value = e.2 := by
  obtain ⟨n, hn, rfl⟩ := map_eq_some_iff.mp h
  exact ⟨n, hn, rfl, rfl⟩

theorem entryAt_of_nodeAt (h : nodeAt slab i = some n) :
    entryAt slab i = some (n.key, n.value) := by
  rw [entryAt, h]
  rfl

/-- The slab with another node, or none, at an index. -/
theorem nodeAt_set (h : i < slab.length) (x : Option (Node V)) :
    nodeAt (slab.set i x) = update (nodeAt slab) i x := by
  funext j
  by_cases hj : j = i
  · rw [hj, update_self, nodeAt, List.getElem?_set_self h]
    rfl
  · rw [update_of_ne hj, nodeAt, List.getElem?_set_ne (Ne.symm hj)]
    rfl

theorem entryAt_set (h : i < slab.length) (x : Option (Node V)) :
    entryAt (slab.set i x) = update (entryAt slab) i (x.map Node.entry) := by
  funext j
  rw [entryAt, nodeAt_set h]
  by_cases hj : j = i
  · rw [hj, update_self, update_self]
  · rw [update_of_ne hj, update_of_ne hj, entryAt]

theorem linksOf_set (h : i < slab.length) (n : Node V) : linksOf (slab.set i (some n)) head tail
      = (linksOf slab head tail).setBoth i n.prev n.next := by
  have hupd (f : Node V → Option ℕ) : (fun j => (nodeAt (slab.set i (some n)) j).bind f)
      = update (fun j => (nodeAt slab j).bind f) i (f n) := by
    funext j
    rw [nodeAt_set h]
    by_cases hj : j = i
    · rw [hj, update_self, update_self]
      rfl
    · rw [update_of_ne hj, update_of_ne hj]
  rw [linksOf, hupd, hupd]
  rfl

theorem node_eq (h : nodeAt s.slab i = some n) : s.node i = .ok n := by
  rw [node, getElem?_of_nodeAt h]

theorem modify_eq (h : nodeAt s.slab i = some n) (f : Node V → Node V) :
    s.modify i f = .ok { s with slab := s.slab.set i (some (f n)) } := by
  rw [modify, node_eq h]
  rfl

/-! ## Relinking -/

/-- **Only the links have changed.** -/
structure Relinked (s t : ExpertStore V) (l : Links ℕ) : Prop where
  links : t.links = l
  entries : entryAt t.slab = entryAt s.slab
  length : t.slab.length = s.slab.length
  rest : ∃ slab head tail, t = { s with slab := slab, head := head, tail := tail }

theorem modify_relinked (h : nodeAt s.slab i = some n) {f : Node V → Node V}
    (hf : Node.entry (f n) = Node.entry n) :
    ∃ t, s.modify i f = .ok t ∧ Relinked s t (s.links.setBoth i (f n).prev (f n).next) := by
  have hi := lt_of_nodeAt h
  refine ⟨_, modify_eq h f, linksOf_set hi (f n), ?_, length_set, s.slab.set i (some (f n)),
    s.head, s.tail, rfl⟩
  rw [entryAt_set hi, map_some, hf]
  refine update_eq_self_iff.mpr ?_
  rw [entryAt, h]
  rfl

theorem Relinked.trans {u : ExpertStore V} {l l' : Links ℕ} (h : Relinked s t l)
    (h' : Relinked t u l') : Relinked s u l' := by
  obtain ⟨slab, head, tail, rfl⟩ := h.rest
  obtain ⟨slab', head', tail', rfl⟩ := h'.rest
  exact ⟨h'.links, h'.entries.trans h.entries, h'.length.trans h.length, slab', head', tail', rfl⟩

theorem Relinked.congr {l l' : Links ℕ} (h : Relinked s t l) (heq : l = l') : Relinked s t l' :=
  heq ▸ h

/-- Every node of the list is there. -/
def Occupied (s : ExpertStore V) (order : List ℕ) : Prop :=
  ∀ i ∈ order, (entryAt s.slab i).isSome

theorem Occupied.nodeAt {order : List ℕ} (h : Occupied s order) (hi : i ∈ order) :
    ∃ n, nodeAt s.slab i = some n := by
  obtain ⟨e, he⟩ := isSome_iff_exists.mp (h i hi)
  obtain ⟨n, hn, -⟩ := nodeAt_of_entryAt he
  exact ⟨n, hn⟩

theorem Relinked.occupied {l : Links ℕ} (h : Relinked s t l) {order : List ℕ}
    (ho : Occupied s order) : Occupied t order := by
  intro i hi
  rw [h.entries]
  exact ho i hi

theorem prev_of_nodeAt (h : nodeAt s.slab i = some n) : s.links.prev i = n.prev := by
  show (nodeAt s.slab i).bind Node.prev = _
  rw [h, bind_some]

theorem next_of_nodeAt (h : nodeAt s.slab i = some n) : s.links.next i = n.next := by
  show (nodeAt s.slab i).bind Node.next = _
  rw [h, bind_some]

theorem setNext_relinked {p : Option ℕ} (hp : ∀ i ∈ p, ∃ n, nodeAt s.slab i = some n)
    (next : Option ℕ) :
    ∃ t, s.setNext p next = .ok t ∧ Relinked s t (s.links.setNext p next) := by
  cases p with
  | none => exact ⟨_, rfl, rfl, rfl, rfl, s.slab, next, s.tail, rfl⟩
  | some p =>
    obtain ⟨n, hn⟩ := hp p rfl
    obtain ⟨t, ht, hrel⟩ := modify_relinked hn (f := fun n => { n with next := next }) rfl
    refine ⟨t, ht, hrel.congr ?_⟩
    rw [Links.setBoth, ← prev_of_nodeAt hn, update_eq_self]
    rfl

theorem setPrev_relinked {nx : Option ℕ} (hnx : ∀ i ∈ nx, ∃ n, nodeAt s.slab i = some n)
    (prev : Option ℕ) :
    ∃ t, s.setPrev nx prev = .ok t ∧ Relinked s t (s.links.setPrev nx prev) := by
  cases nx with
  | none => exact ⟨_, rfl, rfl, rfl, rfl, s.slab, s.head, prev, rfl⟩
  | some nx =>
    obtain ⟨n, hn⟩ := hnx nx rfl
    obtain ⟨t, ht, hrel⟩ := modify_relinked hn (f := fun n => { n with prev := prev }) rfl
    refine ⟨t, ht, hrel.congr ?_⟩
    rw [Links.setBoth, ← next_of_nodeAt hn, update_eq_self]
    rfl

/-- **`unlink` takes a node out of the list.** -/
theorem unlink_relinked (h : s.links.Lists (before ++ i :: after))
    (ho : Occupied s (before ++ i :: after)) :
    ∃ t, s.unlink i = .ok t ∧ Relinked s t (s.links.unlink i) := by
  obtain ⟨n, hn⟩ := ho.nodeAt (mem_append_right _ mem_cons_self)
  have hpr := prev_of_nodeAt hn
  have hnex := next_of_nodeAt hn
  have hbef : ∀ p ∈ n.prev, ∃ m, nodeAt s.slab p = some m := by
    intro p hp
    refine ho.nodeAt (mem_append_left _ (mem_of_getLast? ?_))
    rw [← h.prev_eq, hpr, hp]
  have haft : ∀ nx ∈ n.next, ∃ m, nodeAt s.slab nx = some m := by
    intro nx hnx
    refine ho.nodeAt (mem_append_right _ (mem_cons_of_mem _ (mem_of_head? ?_)))
    rw [← h.next_eq, hnex, hnx]
  obtain ⟨t, ht, hfst⟩ := setNext_relinked hbef n.next
  -- the node after is still there
  have hst : ∀ nx ∈ n.next, ∃ m, nodeAt t.slab nx = some m := by
    intro nx hnx
    obtain ⟨m, hm⟩ := haft nx hnx
    have he : entryAt t.slab nx = some (m.key, m.value) := by
      rw [hfst.entries, entryAt_of_nodeAt hm]
    obtain ⟨m', hm', -⟩ := nodeAt_of_entryAt he
    exact ⟨m', hm'⟩
  obtain ⟨u, hu, hsec⟩ := setPrev_relinked hst n.prev
  refine ⟨u, ?_, ?_⟩
  · rw [unlink, node_eq hn]
    simp only [ok_bind, ht, hu]
  · refine (hfst.trans hsec).congr ?_
    rw [Links.unlink, hpr, hnex, hfst.links]

/-- **`unlink` neither reads nor writes the map.** -/
theorem unlink_frame (map : Table StoreKey ℕ) (h : s.unlink i = .ok t) :
    unlink { s with map := map } i = .ok { t with map := map } := by
  have hmod {s t : ExpertStore V} {i : ℕ} {f : Node V → Node V} (h : s.modify i f = .ok t) :
      modify { s with map := map } i f = .ok { t with map := map } := by
    obtain ⟨n, hn, heq⟩ := bind_eq_ok.mp h
    cases heq
    exact bind_eq_ok.mpr ⟨n, hn, rfl⟩
  obtain ⟨n, hn, h⟩ := bind_eq_ok.mp h
  obtain ⟨u, hu, h⟩ := bind_eq_ok.mp h
  refine bind_eq_ok.mpr ⟨n, hn, bind_eq_ok.mpr ⟨{ u with map := map }, ?_, ?_⟩⟩
  · unfold setNext at hu ⊢
    cases hpr : n.prev with
    | none =>
      rw [hpr] at hu
      obtain rfl := Except.ok.inj hu
      rfl
    | some =>
      rw [hpr] at hu
      exact hmod hu
  · unfold setPrev at h ⊢
    cases hnex : n.next with
    | none =>
      rw [hnex] at h
      obtain rfl := Except.ok.inj h
      rfl
    | some =>
      rw [hnex] at h
      exact hmod h

/-- **`pushFront` puts a node in front of the list.** -/
theorem pushFront_relinked (hn : nodeAt s.slab i = some n) {order : List ℕ}
    (h : s.links.Lists order) (ho : Occupied s order) :
    ∃ t, s.pushFront i = .ok t ∧ Relinked s t (s.links.pushFront i) := by
  obtain ⟨t, ht, hfst⟩ := modify_relinked hn
    (f := fun n => { n with prev := none, next := s.head }) rfl
  have hhd : ∀ j ∈ s.head, ∃ m, nodeAt t.slab j = some m := by
    intro j hj
    refine (hfst.occupied ho).nodeAt (mem_of_head? ?_)
    exact h.head_eq.symm.trans hj
  obtain ⟨u, hu, hsec⟩ := setPrev_relinked hhd (some i)
  have hbot := hfst.trans hsec
  obtain ⟨slab, head, tail, rfl⟩ := hbot.rest
  refine ⟨{ s with slab := slab, head := some i, tail := tail }, ?_, ?_⟩
  · rw [pushFront]
    simp only [ht, ok_bind, hu, pure_eq]
  · refine ⟨?_, hbot.entries, hbot.length, slab, some i, tail, rfl⟩
    have hlin := hbot.links
    rw [hfst.links] at hlin
    show { linksOf slab head tail with head := some i } = s.links.pushFront i
    exact congrArg (fun l : Links ℕ => { l with head := some i }) hlin

end ExpertStore

end Logan
