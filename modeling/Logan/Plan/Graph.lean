import Logan.Util.Kahn

/-!
# The order of the nodes of a graph

A graph of tensor operations has values and nodes. A node consumes values and
produces others; whoever consumes a value depends on the node that produces it.
`topoOrder` puts the nodes into an order in which every node comes after those
that it depends on, or finds that there is none.

The operation of a node and its attributes do not matter for that, nor does what
the values are. The vectors of the code are lists, and an index out of its range
panics.
-/

namespace Logan

open List

open Fault
open List (append_nil getLast range replicate)

/-- **A node**, with the values that it reads and those that it writes. -/
structure Graph.Node where
  id : ℕ
  inputs : List ℕ
  outputs : List ℕ
deriving DecidableEq

/-- **A graph**: a number of values, and nodes. -/
structure Graph where
  values : ℕ
  nodes : List Graph.Node
deriving DecidableEq

/-! ## Vectors -/

section Update

variable {A W : Type}

/-- An element of a vector is replaced. -/
def updateAt (f : A → A) (l : List A) (i : ℕ) : Option (List A) := do
  let a ← l[i]?
  pure (l.set i (f a))

/-- A loop that writes to a vector, at the index of each write. -/
def updateAll (index : W → ℕ) (f : W → A → A) (l : List A) (writes : List W) :
    Option (List A) :=
  writes.foldlM (fun l w => updateAt (f w) l (index w)) l

/-- **What the loop leaves**: each element has taken the writes to it, in order. -/
theorem updateAll_eq {index : W → ℕ} {f : W → A → A} {l : List A} {writes : List W}
    (h : ∀ w ∈ writes, index w < l.length) :
    ∃ l', updateAll index f l writes = some l' ∧ l'.length = l.length ∧
      ∀ i, l'[i]? = l[i]?.map fun a =>
        (writes.filter fun w => index w = i).foldl (fun a w => f w a) a := by
  induction writes generalizing l with
  | nil => exact ⟨l, rfl, rfl, fun i => by cases l[i]? <;> rfl⟩
  | cons w writes ih =>
    have hw := h w mem_cons_self
    obtain ⟨l', hl', hlen, hget⟩ := ih (l := l.set (index w) (f w l[index w])) fun w' hw' => by
      rw [length_set]
      exact h w' (mem_cons_of_mem w hw')
    refine ⟨l', ?_, hlen.trans length_set, fun i => ?_⟩
    · unfold updateAll updateAt
      rwa [foldlM_cons, List.getElem?_eq_getElem hw]
    · rw [hget i, filter_cons]
      by_cases hi : index w = i
      · obtain rfl := hi
        rw [List.getElem?_set_self hw, List.getElem?_eq_getElem hw, if_pos (by simp)]
        rfl
      · rw [List.getElem?_set_ne hi, if_neg (by simpa using hi)]

end Update

namespace Graph

/-! ## The order -/

/-- The first value that is named and does not exist. -/
def badRef (g : Graph) : Option String :=
  g.nodes.findSome? fun node =>
    ((node.inputs.find? fun v => g.values ≤ v).map fun v =>
      s!"node {node.id}: input value {v} out of range").or
    ((node.outputs.find? fun v => g.values ≤ v).map fun v =>
      s!"node {node.id}: output value {v} out of range")

/-- Who produces a value: the last one that names it. -/
def producers (g : Graph) : Option (List (Option ℕ)) :=
  updateAll Prod.fst (fun w _ => some w.2) (replicate g.values none)
    (g.nodes.flatMap fun node => node.outputs.map fun v => (v, node.id))

/-- Who consumes a value. -/
def consumers (g : Graph) : Option (List (List ℕ)) :=
  updateAll Prod.fst (fun w ids => ids ++ [w.2]) (replicate g.values [])
    (g.nodes.flatMap fun node => node.inputs.map fun v => (v, node.id))

/-- **The edges**, from the producer of each value to its consumers. A node that
consumes what it produces is its own successor. -/
def edges (producer : List (Option ℕ)) (consumers : List (List ℕ)) : List (ℕ × ℕ) :=
  producer.zipIdx.flatMap fun v =>
    v.1.elim [] fun p => (consumers.getD v.2 []).map fun c => (p, c)

/-- **`topo_order`** -/
def topoOrder (g : Graph) : Except (Fault String) (List ℕ) :=
  match g.badRef with
  | some message => .error (.failed message)
  | none => do
    let n := g.nodes.length
    let producer ← orPanic g.producers
    let consumers ← orPanic g.consumers
    let adj ← orPanic (updateAll Prod.fst (fun e ids => ids ++ [e.2]) (replicate n [])
      (edges producer consumers))
    let indeg ← orPanic (updateAll Prod.snd (fun _ d => d + 1) (replicate n 0)
      (edges producer consumers))
    -- ids are numbers of 32 bits, and the stack has its top in front
    let queue := ((range n).filter fun i => indeg.getD i 0 = 0).map (· % 2 ^ 32)
    let order ← orPanic (Kahn.run adj (n + 1) indeg queue.reverse [])
    if order.length ≠ n then .error (.failed "graph contains a cycle") else pure order

/-! ## What the order is about -/

/-- **Ids are positions**, and numbers of 32 bits. -/
def Numbered (g : Graph) : Prop :=
  ∀ (i : ℕ) (node : Node), g.nodes[i]? = some node → node.id = i ∧ node.id < 2 ^ 32

/-- **A value has at most one producer.** -/
def SingleProducer (g : Graph) : Prop :=
  ∀ a ∈ g.nodes, ∀ b ∈ g.nodes, ∀ v, v ∈ a.outputs → v ∈ b.outputs → a = b

/-- Every value that a node names exists. -/
def RefsExist (g : Graph) : Prop :=
  ∀ node ∈ g.nodes, (∀ v ∈ node.inputs, v < g.values) ∧ ∀ v ∈ node.outputs, v < g.values

/-- **One node depends on another** if it consumes a value that the other
produces. -/
def Dep (g : Graph) (p c : ℕ) : Prop :=
  ∃ a ∈ g.nodes, ∃ b ∈ g.nodes, a.id = p ∧ b.id = c ∧ ∃ v, v ∈ a.outputs ∧ v ∈ b.inputs

variable {g : Graph}

theorem badRef_eq_none : g.badRef = none ↔ g.RefsExist := by
  unfold badRef RefsExist
  rw [List.findSome?_eq_none_iff]
  refine forall₂_congr fun node _ => ?_
  rw [Option.or_eq_none_iff, Option.map_eq_none_iff, Option.map_eq_none_iff,
    List.find?_eq_none, List.find?_eq_none]
  simp only [decide_eq_true_eq, Nat.not_le]

theorem Numbered.id_lt (h : g.Numbered) {node : Node} (hnod : node ∈ g.nodes) :
    node.id < g.nodes.length := by
  obtain ⟨i, hi⟩ := List.getElem?_of_mem hnod
  rw [(h i node hi).1]
  exact (List.getElem?_eq_some_iff.mp hi).1

theorem mem_writes {f : Node → List ℕ} {v id : ℕ} :
    (v, id) ∈ (g.nodes.flatMap fun node => (f node).map fun v => (v, node.id)) ↔
      ∃ node ∈ g.nodes, node.id = id ∧ v ∈ f node := by
  rw [mem_flatMap]
  refine exists_congr fun node => and_congr_right fun _ => ?_
  rw [mem_map]
  constructor
  · rintro ⟨w, hw, heq⟩
    cases heq
    exact ⟨rfl, hw⟩
  · rintro ⟨rfl, hv⟩
    exact ⟨v, hv, rfl⟩

theorem foldl_some {A : Type} (l : List (ℕ × A)) (start : Option A) :
    l.foldl (fun _ w => some w.2) start = (l.getLast?.map Prod.snd).or start := by
  induction l using List.reverseRecOn with
  | nil => rfl
  | append_singleton l w _ =>
    rw [foldl_append, getLast?_append_of_ne_nil _ (cons_ne_nil w [])]
    rfl

theorem foldl_push {W : Type} (f : W → ℕ) (l : List W) (start : List ℕ) :
    l.foldl (fun ids w => ids ++ [f w]) start = start ++ l.map f := by
  induction l generalizing start with
  | nil => exact (append_nil start).symm
  | cons w l ih =>
    rw [foldl_cons, ih, append_assoc]
    rfl

theorem foldl_succ {W : Type} (l : List W) (start : ℕ) :
    l.foldl (fun d _ => d + 1) start = start + l.length := by
  induction l generalizing start with
  | nil => rfl
  | cons w l ih =>
    rw [foldl_cons, ih, length_cons]
    omega

/-- **Producers are found.** -/
theorem producers_eq (href : g.RefsExist) (hsin : g.SingleProducer) :
    ∃ producer, g.producers = some producer ∧ producer.length = g.values ∧
      ∀ v p, producer[v]? = some (some p) ↔ ∃ a ∈ g.nodes, a.id = p ∧ v ∈ a.outputs := by
  have hwr : ∀ w ∈ (g.nodes.flatMap fun node => node.outputs.map fun v => (v, node.id)),
      w.1 < (replicate g.values (none : Option ℕ)).length := by
    intro w hw
    obtain ⟨a, ha, -, hv⟩ := mem_writes.mp (show (w.1, w.2) ∈ _ from hw)
    rw [length_replicate]
    exact (href a ha).2 w.1 hv
  obtain ⟨producer, hpr, hlen, hget⟩ := updateAll_eq (f := fun w _ => some w.2) hwr
  rw [length_replicate] at hlen
  refine ⟨producer, hpr, hlen, fun v p => ?_⟩
  rw [hget v, List.getElem?_replicate]
  constructor
  · intro h
    split_ifs at h
    · rw [Option.map_some, foldl_some, Option.or_none, Option.some.injEq,
        Option.map_eq_some_iff] at h
      obtain ⟨w, hw, rfl⟩ := h
      obtain ⟨hmem, hv⟩ := mem_filter.mp (mem_of_getLast? hw)
      obtain ⟨a, ha, hid, hout⟩ := mem_writes.mp (show (w.1, w.2) ∈ _ from hmem)
      exact ⟨a, ha, hid, of_decide_eq_true hv ▸ hout⟩
    · cases h
  · rintro ⟨a, ha, rfl, hv⟩
    rw [if_pos ((href a ha).2 v hv), Option.map_some, foldl_some, Option.or_none, Option.some.injEq]
    have hmem : (v, a.id) ∈ (g.nodes.flatMap fun node =>
        node.outputs.map fun v => (v, node.id)).filter fun w => w.1 = v :=
      mem_filter.mpr ⟨mem_writes.mpr ⟨a, ha, rfl, hv⟩, decide_eq_true rfl⟩
    cases hlas : ((g.nodes.flatMap fun node =>
        node.outputs.map fun v => (v, node.id)).filter fun w => w.1 = v).getLast? with
    | none =>
      rw [getLast?_eq_none_iff.mp hlas] at hmem
      cases hmem
    | some w =>
      -- the last one that names the value is the only one
      obtain ⟨hw, hwv⟩ := mem_filter.mp (mem_of_getLast? hlas)
      obtain ⟨b, hb, hid, hout⟩ := mem_writes.mp (show (w.1, w.2) ∈ _ from hw)
      obtain rfl := hsin a ha b hb v hv (of_decide_eq_true hwv ▸ hout)
      exact congrArg some hid.symm

/-- **Consumers are found.** -/
theorem consumers_eq (href : g.RefsExist) : ∃ consumers, g.consumers = some consumers ∧
      ∀ v c, c ∈ consumers.getD v [] ↔ ∃ b ∈ g.nodes, b.id = c ∧ v ∈ b.inputs := by
  have hwr : ∀ w ∈ (g.nodes.flatMap fun node => node.inputs.map fun v => (v, node.id)),
      w.1 < (replicate g.values ([] : List ℕ)).length := by
    intro w hw
    obtain ⟨a, ha, -, hv⟩ := mem_writes.mp (show (w.1, w.2) ∈ _ from hw)
    rw [length_replicate]
    exact (href a ha).1 w.1 hv
  obtain ⟨consumers, hcon, -, hget⟩ :=
    updateAll_eq (f := fun w ids => ids ++ [w.2]) hwr
  refine ⟨consumers, hcon, fun v c => ?_⟩
  rw [getD_eq_getElem?_getD, hget v, List.getElem?_replicate]
  constructor
  · intro h
    split_ifs at h
    · rw [Option.map_some, foldl_push, nil_append, Option.getD_some, mem_map] at h
      obtain ⟨w, hw, rfl⟩ := h
      obtain ⟨hmem, hv⟩ := mem_filter.mp hw
      obtain ⟨b, hb, hid, hin⟩ := mem_writes.mp (show (w.1, w.2) ∈ _ from hmem)
      exact ⟨b, hb, hid, of_decide_eq_true hv ▸ hin⟩
    · cases h
  · rintro ⟨b, hb, rfl, hv⟩
    rw [if_pos ((href b hb).1 v hv), Option.map_some, foldl_push, nil_append,
      Option.getD_some, mem_map]
    exact ⟨(v, b.id), mem_filter.mpr ⟨mem_writes.mpr ⟨b, hb, rfl, hv⟩, decide_eq_true rfl⟩, rfl⟩

/-- **The edges are the dependencies.** -/
theorem mem_edges {producer : List (Option ℕ)} {consumers : List (List ℕ)}
    (hpr : ∀ v p, producer[v]? = some (some p) ↔ ∃ a ∈ g.nodes, a.id = p ∧ v ∈ a.outputs)
    (hcon : ∀ v c, c ∈ consumers.getD v [] ↔ ∃ b ∈ g.nodes, b.id = c ∧ v ∈ b.inputs)
    {p c : ℕ} : (p, c) ∈ edges producer consumers ↔ g.Dep p c := by
  unfold edges Dep
  rw [mem_flatMap]
  constructor
  · rintro ⟨⟨q, v⟩, hv, hmem⟩
    cases q with
    | none => cases hmem
    | some q =>
      obtain ⟨c', hc', heq⟩ := mem_map.mp hmem
      obtain ⟨rfl, rfl⟩ := Prod.mk.inj heq
      obtain ⟨a, ha, hid, hout⟩ := (hpr v q).mp (mk_mem_zipIdx_iff_getElem?.mp hv)
      obtain ⟨b, hb, hid', hin⟩ := (hcon v c').mp hc'
      exact ⟨a, ha, b, hb, hid, hid', v, hout, hin⟩
  · rintro ⟨a, ha, b, hb, rfl, rfl, v, hout, hin⟩
    refine ⟨(some a.id, v), mk_mem_zipIdx_iff_getElem?.mpr
      ((hpr v a.id).mpr ⟨a, ha, rfl, hout⟩), ?_⟩
    exact mem_map.mpr ⟨b.id, (hcon v b.id).mpr ⟨b, hb, rfl, hin⟩, rfl⟩

/-- The loop begins in its invariant. -/
theorem inv_start {edges : List (ℕ × ℕ)} {n : ℕ} {indeg : List ℕ} (hsm : n ≤ 2 ^ 32)
    (hlen : indeg.length = n)
    (hind : ∀ c < n, indeg[c]? = some (edges.filter fun e => e.2 = c).length) :
    Kahn.Inv edges n indeg
      (((range n).filter fun i => indeg.getD i 0 = 0).map (· % 2 ^ 32)).reverse [] [] := by
  -- the nodes are numbers of 32 bits
  have hque : ((range n).filter fun i => indeg.getD i 0 = 0).map (· % 2 ^ 32)
      = (range n).filter fun i => indeg.getD i 0 = 0 := by
    refine (map_congr_left fun i hi => ?_).trans (map_id _)
    have hlt := mem_range.mp (mem_of_mem_filter hi)
    exact Nat.mod_eq_of_lt (hlt.trans_le hsm)
  rw [hque]
  have hmem (c : ℕ) : c ∈ ((range n).filter fun i => indeg.getD i 0 = 0).reverse ++ [] ↔
      c < n ∧ indeg.getD c 0 = 0 := by
    rw [append_nil, mem_reverse, mem_filter, mem_range, decide_eq_true_eq]
  refine ⟨hlen, fun c hc => ?_, fun c hc => ?_, fun c hc => ((hmem c).mp hc).1, ?_, ?_⟩
  · rw [hind c hc, count_nil, Nat.add_zero, Kahn.waiting, ← countP_eq_length_filter]
    simp only [not_mem_nil, not_false_eq_true, and_true]
  · rw [hmem, and_iff_right hc, getD_eq_getElem?_getD, hind c hc, Option.some.injEq]
    exact Iff.rfl
  · rw [append_nil, nodup_reverse]
    exact nodup_range.filter _
  · intro l₁ c l₂ h
    cases l₁ <;> cases h

/-- **How the computation ends** for a graph whose values exist: Kahn's algorithm
takes some nodes, and the order is returned if these are all. -/
theorem topoOrder_eq (hnum : g.Numbered) (hsin : g.SingleProducer) (href : g.RefsExist) :
    ∃ (edges : List (ℕ × ℕ)) (indeg order : List ℕ), (∀ p c, (p, c) ∈ edges ↔ g.Dep p c) ∧
      (∀ e ∈ edges, e.1 < g.nodes.length ∧ e.2 < g.nodes.length) ∧
      Kahn.Inv edges g.nodes.length indeg [] order [] ∧
      g.topoOrder = if order.length ≠ g.nodes.length
        then .error (.failed "graph contains a cycle") else .ok order := by
  obtain ⟨producer, hpr, -, hmem⟩ := producers_eq href hsin
  obtain ⟨consumers, hcon, hmem'⟩ := consumers_eq href
  have hdep (p c : ℕ) : (p, c) ∈ edges producer consumers ↔ g.Dep p c := mem_edges hmem hmem'
  have hbnd : ∀ e ∈ edges producer consumers, e.1 < g.nodes.length ∧ e.2 < g.nodes.length := by
    intro e he
    obtain ⟨a, ha, b, hb, hp, hc, -⟩ := (hdep e.1 e.2).mp he
    exact ⟨hp ▸ hnum.id_lt ha, hc ▸ hnum.id_lt hb⟩
  obtain ⟨adj, hadj, -, hget⟩ := @updateAll_eq _ _ Prod.fst (fun e ids => ids ++ [e.2])
    (replicate g.nodes.length []) (edges producer consumers) fun e he => by
      rw [length_replicate]
      exact (hbnd e he).1
  obtain ⟨indeg, hind, hlen, hget'⟩ := @updateAll_eq _ _ Prod.snd (fun _ d => d + 1)
    (replicate g.nodes.length 0) (edges producer consumers) fun e he => by
      rw [length_replicate]
      exact (hbnd e he).2
  rw [length_replicate] at hlen
  have hsuc : ∀ p < g.nodes.length,
      adj[p]? = some (Kahn.successors (edges producer consumers) p) := by
    intro p hp
    rw [hget p, List.getElem?_replicate, if_pos hp, Option.map_some, foldl_push, nil_append]
    rfl
  have hcnts : ∀ c < g.nodes.length,
      indeg[c]? = some ((edges producer consumers).filter fun e => e.2 = c).length := by
    intro c hc
    rw [hget' c, List.getElem?_replicate, if_pos hc, Option.map_some, foldl_succ, Nat.zero_add]
  -- there are at most as many nodes as there are ids
  have hsm : g.nodes.length ≤ 2 ^ 32 := by
    rcases Nat.eq_zero_or_pos g.nodes.length with hzer | hpos
    · rw [hzer]
      exact Nat.zero_le _
    · have hlas := List.getElem?_eq_getElem (Nat.sub_lt hpos Nat.one_pos)
      obtain ⟨hid, hlt⟩ := hnum _ _ hlas
      omega
  obtain ⟨order, indeg', hrun, hinv⟩ := (inv_start hsm hlen hcnts).run_eq
    (fun e he => (hbnd e he).2) hsuc (g.nodes.length + 1) (Nat.lt_succ_self _)
  refine ⟨edges producer consumers, indeg', order, hdep, hbnd, hinv, ?_⟩
  unfold topoOrder
  rw [badRef_eq_none.mpr href, hpr, hcon]
  dsimp only
  rw [orPanic_bind rfl, orPanic_bind rfl, hadj, orPanic_bind rfl, hind, orPanic_bind rfl, hrun,
    orPanic_bind rfl]
  rfl

/-- **`topo_order` is exact**: an order is returned if and only if every value
that a node names exists and no node depends on itself, directly or through
others; it lists every node once, and each one after those that it depends on.
There is no panic. -/
theorem topoOrder_exact (hnumbered : g.Numbered) (hsingle : g.SingleProducer) :
    ((∃ order, g.topoOrder = .ok order) ↔ g.RefsExist ∧ Kahn.Acyclic g.Dep) ∧
      (∀ order, g.topoOrder = .ok order → order.Perm (range g.nodes.length) ∧
        ∀ p c, g.Dep p c → order.idxOf p < order.idxOf c) ∧ g.topoOrder ≠ .error .panicked := by
  by_cases href : g.RefsExist
  · obtain ⟨edges, indeg, order, hdep, hbnd, hinv, heq⟩ := topoOrder_eq hnumbered hsingle href
    have hedg : (fun p c => (p, c) ∈ edges) = g.Dep :=
      funext fun p => funext fun c => propext (hdep p c)
    have hall := Kahn.length_eq_iff hinv hbnd
    rw [hedg] at hall
    rw [heq, and_iff_right href, ← hall]
    by_cases hlen : order.length = g.nodes.length
    · rw [if_neg (not_not.mpr hlen)]
      refine ⟨⟨fun _ => hlen, fun _ => ⟨order, rfl⟩⟩, fun order' h => ?_, by rintro ⟨⟩⟩
      obtain rfl := Except.ok.inj h
      have hper := hinv.perm_range hlen
      refine ⟨hper, fun p c hpc => ?_⟩
      have he := (hdep p c).mpr hpc
      exact hinv.idxOf_lt he (hper.mem_iff.mpr (mem_range.mpr (hbnd _ he).2))
    · rw [if_pos hlen]
      refine ⟨⟨?_, fun h => absurd h hlen⟩, ?_, by rintro ⟨⟩⟩
      · rintro ⟨_, ⟨⟩⟩
      · rintro _ ⟨⟩
  · -- a value does not exist
    obtain ⟨message, hmes⟩ := Option.ne_none_iff_exists'.mp (mt badRef_eq_none.mp href)
    have herr : g.topoOrder = .error (.failed message) := by
      unfold topoOrder
      rw [hmes]
    rw [herr]
    refine ⟨⟨?_, fun h => absurd h.1 href⟩, ?_, by rintro ⟨⟩⟩
    · rintro ⟨_, ⟨⟩⟩
    · rintro _ ⟨⟩

/-- Two nodes, where the first one reads what the second one produces, twice. -/
def twoNodes : Graph where
  values := 3
  nodes := [⟨0, [1, 1], [2]⟩, ⟨1, [0], [1]⟩]

/-- **The order of the two nodes.** -/
theorem topoOrder_exact_twoNodes : twoNodes.topoOrder = .ok [1, 0] ∧
    twoNodes.RefsExist ∧ Kahn.Acyclic twoNodes.Dep := by
  have hnum : twoNodes.Numbered := by
    intro i node hi
    obtain _ | _ | i := i
    · obtain rfl := Option.some.inj hi
      exact ⟨rfl, Nat.two_pow_pos 32⟩
    · obtain rfl := Option.some.inj hi
      exact ⟨rfl, Nat.one_lt_two_pow (by decide)⟩
    · cases hi
  have hsin : twoNodes.SingleProducer := by
    unfold SingleProducer twoNodes
    decide
  exact ⟨by decide, (topoOrder_exact hnum hsin).1.mp ⟨[1, 0], by decide⟩⟩

end Graph

end Logan
