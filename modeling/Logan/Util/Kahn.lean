import Mathlib.Data.List.Perm.Subperm
import Mathlib.Data.List.Nodup
import Mathlib.Data.Fintype.Card
import Mathlib.Order.WellFounded
import Logan.Util.Fault

/-!
# Kahn's algorithm

The nodes of a graph are numbers below a bound, and its edges are pairs of
nodes, which may be repeated. For every node the algorithm counts the edges
that lead to it from nodes that have not been taken yet. It takes nodes for
which this number is zero, in the order of a stack, and a node that is taken
releases the ends of its edges, one by one.

Whatever is taken comes after everything that leads to it. Nodes that are left
when the stack is empty wait for each other, so that there is a cycle; without
one, all nodes are taken (`Kahn.length_eq_iff`).
-/

namespace Logan

open List

namespace Kahn

open Fault

/-- **One edge less** to a node: if it was the last one, the node is ready. No
node may have less than no edges. -/
def release (s : List ℕ × List ℕ) (c : ℕ) : Option (List ℕ × List ℕ) := do
  let d ← s.1[c]?
  let d ← difference d 1
  pure (s.1.set c d, if d = 0 then c :: s.2 else s.2)

/-- **The loop**: the stack has its top in front. It ends when the stack is empty;
`fuel` bounds the rounds. -/
def run (adj : List (List ℕ)) : ℕ → List ℕ → List ℕ → List ℕ → Option (List ℕ)
  | 0, _, _, _ => none
  | _ + 1, _, [], order => some order
  | fuel + 1, indeg, id :: queue, order => do
    let followers ← adj[id]?
    let s ← followers.foldlM release (indeg, queue)
    run adj fuel s.1 s.2 (order ++ [id])

theorem release_eq {indeg queue : List ℕ} {c d : ℕ} (h : indeg[c]? = some (d + 1)) :
    release (indeg, queue) c = some (indeg.set c d, if d = 0 then c :: queue else queue) := by
  unfold release
  rw [h]
  rfl

/-! ## What is waited for -/

/-- The ends of the edges of a node. -/
def successors (edges : List (ℕ × ℕ)) (p : ℕ) : List ℕ :=
  (edges.filter fun e => e.1 = p).map Prod.snd

/-- **The number of edges to a node** from nodes that have not been taken. -/
def waiting (edges : List (ℕ × ℕ)) (order : List ℕ) (c : ℕ) : ℕ :=
  edges.countP fun e => e.2 = c ∧ e.1 ∉ order

variable {edges : List (ℕ × ℕ)} {n : ℕ}

theorem waiting_eq_zero {order : List ℕ} {c : ℕ} :
    waiting edges order c = 0 ↔ ∀ e ∈ edges, e.2 = c → e.1 ∈ order := by
  unfold waiting
  rw [countP_eq_zero]
  simp only [decide_eq_true_eq, not_and, not_not]

/-- When a node is taken, its own edges are not waited for any more. -/
theorem waiting_eq_add {order : List ℕ} {id : ℕ} (hid : id ∉ order) (c : ℕ) :
    waiting edges order c = waiting edges (order ++ [id]) c + (successors edges id).count c := by
  unfold waiting successors
  induction edges with
  | nil => rfl
  | cons e edges ih =>
    rw [countP_cons, countP_cons, filter_cons, ih]
    by_cases hfr : e.1 = id
    · -- an edge of the node that is taken
      rw [if_pos (decide_eq_true hfr), map_cons, count_cons]
      by_cases hto : e.2 = c
      · rw [if_pos (by simpa [hto, hfr] using hid), if_neg (by simp [hfr]), if_pos (by simpa)]
        omega
      · rw [if_neg (by simp [hto]), if_neg (by simp [hto]), if_neg (by simpa using hto)]
        rfl
    · have hiff : (e.2 = c ∧ e.1 ∉ order) ↔ (e.2 = c ∧ e.1 ∉ order ++ [id]) := by
        simp [hfr]
      rw [if_neg (show ¬ decide (e.1 = id) = true by simpa using hfr)]
      simp only [hiff]
      omega

/-! ## The invariant -/

/-- **What holds between two releases**, when some nodes are still to be released:
for every node the edges that it waits for are counted, those that wait for
nothing are ready or taken, and whatever has been taken has waited for
everything that leads to it. -/
structure Inv (edges : List (ℕ × ℕ)) (n : ℕ) (indeg queue order rest : List ℕ) : Prop where
  length : indeg.length = n
  counts : ∀ c < n, indeg[c]? = some (waiting edges order c + rest.count c)
  ready : ∀ c < n, indeg[c]? = some 0 ↔ c ∈ queue ++ order
  bounded : ∀ c ∈ queue ++ order, c < n
  nodup : (queue ++ order).Nodup
  sorted : ∀ l₁ c l₂, order = l₁ ++ c :: l₂ → ∀ e ∈ edges, e.2 = c → e.1 ∈ l₁

namespace Inv

variable {indeg queue order rest : List ℕ} {c id : ℕ}

theorem length_le (h : Inv edges n indeg queue order rest) : queue.length + order.length ≤ n := by
  have hsub : (queue ++ order) ⊆ List.range n := fun c hc => mem_range.mpr (h.bounded c hc)
  have hle := (subperm_of_subset h.nodup hsub).length_le
  rwa [length_append, length_range] at hle

/-- **A release.** -/
theorem release (h : Inv edges n indeg queue order (c :: rest)) (hc : c < n) :
    ∃ s, Kahn.release (indeg, queue) c = some s ∧ Inv edges n s.1 s.2 order rest := by
  have hget := h.counts c hc
  rw [count_cons_self, ← Nat.add_assoc] at hget
  have hnot : c ∉ queue ++ order := fun hmem => by
    have hzer := (h.ready c hc).mpr hmem
    rw [hget] at hzer
    cases hzer
  refine ⟨_, release_eq hget, ?_⟩
  have hset (c' : ℕ) (hc' : c' < n) : (indeg.set c (waiting edges order c + rest.count c))[c']?
      = some (waiting edges order c' + rest.count c') := by
    by_cases heq : c = c'
    · rw [← heq, List.getElem?_set_self (h.length ▸ hc)]
    · rw [List.getElem?_set_ne heq, h.counts c' hc', count_cons_of_ne heq]
  have hrdy (c' : ℕ) (hc' : c' < n) : c' ≠ c →
      ((indeg.set c (waiting edges order c + rest.count c))[c']? = some 0 ↔
        c' ∈ queue ++ order) := by
    intro hne
    rw [List.getElem?_set_ne hne.symm]
    exact h.ready c' hc'
  by_cases hzer : waiting edges order c + rest.count c = 0
  · -- the node is ready now
    rw [if_pos hzer]
    refine ⟨length_set.trans h.length, hset, fun c' hc' => ?_, fun c' hc' => ?_, ?_, h.sorted⟩
    · rw [cons_append, mem_cons]
      by_cases heq : c' = c
      · rw [heq, hset c hc, hzer]
        exact ⟨fun _ => Or.inl rfl, fun _ => rfl⟩
      · rw [hrdy c' hc' heq, or_iff_right heq]
    · rcases mem_cons.mp hc' with rfl | hc'
      · exact hc
      · exact h.bounded c' hc'
    · exact nodup_cons.mpr ⟨hnot, h.nodup⟩
  · rw [if_neg hzer]
    refine ⟨length_set.trans h.length, hset, fun c' hc' => ?_, h.bounded, h.nodup, h.sorted⟩
    by_cases heq : c' = c
    · rw [heq, hset c hc, Option.some.injEq]
      exact iff_of_false hzer hnot
    · exact hrdy c' hc' heq

/-- **All releases of a round.** -/
theorem foldlM_release (h : Inv edges n indeg queue order rest) (hres : ∀ c ∈ rest, c < n) :
    ∃ s, rest.foldlM Kahn.release (indeg, queue) = some s ∧ Inv edges n s.1 s.2 order [] := by
  induction rest generalizing indeg queue with
  | nil => exact ⟨(indeg, queue), rfl, h⟩
  | cons c rest ih =>
    obtain ⟨s, hs, hinv⟩ := h.release (hres c mem_cons_self)
    obtain ⟨s', hs', hinv'⟩ := ih hinv fun c' hc' => hres c' (mem_cons_of_mem c hc')
    refine ⟨s', ?_, hinv'⟩
    rwa [foldlM_cons, hs]

/-- **A node is taken**, and its successors are to be released. -/
theorem take (h : Inv edges n indeg (id :: queue) order []) :
    Inv edges n indeg queue (order ++ [id]) (successors edges id) := by
  have hper : (queue ++ (order ++ [id])).Perm (id :: queue ++ order) := by
    rw [← append_assoc]
    exact perm_append_singleton id (queue ++ order)
  have hid : id ∉ order := fun hmem =>
    (nodup_cons.mp h.nodup).1 (mem_append_right queue hmem)
  refine ⟨h.length, fun c hc => ?_, fun c hc => ?_, fun c hc => h.bounded c (hper.mem_iff.mp hc),
    hper.nodup_iff.mpr h.nodup, fun l₁ c l₂ hspl e he hec => ?_⟩
  · rw [h.counts c hc, count_nil, Nat.add_zero, waiting_eq_add hid]
  · rw [h.ready c hc, hper.mem_iff]
  · rcases eq_nil_or_concat l₂ with rfl | ⟨l₂', z, rfl⟩
    · -- what has been taken now has waited for nothing
      obtain ⟨rfl, hlas⟩ := append_inj' hspl rfl
      obtain rfl : id = c := head_eq_of_cons_eq hlas
      have hlt := h.bounded id mem_cons_self
      have hzer := (h.ready id hlt).mpr mem_cons_self
      rw [h.counts id hlt, count_nil, Nat.add_zero, Option.some.injEq] at hzer
      exact waiting_eq_zero.mp hzer e he hec
    · rw [concat_eq_append, ← cons_append, ← append_assoc] at hspl
      exact h.sorted l₁ c l₂' (append_inj' hspl rfl).1 e he hec

/-- **The loop ends** with an empty stack. -/
theorem run_eq (h : Inv edges n indeg queue order []) (hedg : ∀ e ∈ edges, e.2 < n)
    {adj : List (List ℕ)} (hadj : ∀ p < n, adj[p]? = some (successors edges p)) (fuel : ℕ)
    (hfuel : n < fuel + order.length) :
    ∃ order' indeg', run adj fuel indeg queue order = some order' ∧
      Inv edges n indeg' [] order' [] := by
  induction fuel generalizing indeg queue order with
  | zero =>
    have hle := h.length_le
    omega
  | succ fuel ih =>
    cases queue with
    | nil => exact ⟨order, indeg, rfl, h⟩
    | cons id queue =>
      have hlt := h.bounded id mem_cons_self
      obtain ⟨s, hs, hinv⟩ := h.take.foldlM_release fun c hc => by
        obtain ⟨e, he, rfl⟩ := mem_map.mp hc
        exact hedg e (mem_of_mem_filter he)
      obtain ⟨order', indeg', hrun, hinv'⟩ := ih hinv (by
        rw [length_append, length_singleton]
        omega)
      refine ⟨order', indeg', ?_, hinv'⟩
      rw [run, hadj id hlt]
      show (successors edges id).foldlM Kahn.release (indeg, queue) >>= _ = _
      rwa [hs]

/-! ## What the loop ends with -/

section

variable (h : Inv edges n indeg [] order [])

include h

/-- **A node that is left waits** for another one that is left. -/
theorem exists_waiting (hc : c < n) (hnot : c ∉ order) : ∃ p, (p, c) ∈ edges ∧ p ∉ order := by
  by_contra hnon
  refine hnot ((h.ready c hc).mp ?_)
  rw [h.counts c hc, count_nil, Nat.add_zero, Option.some.injEq, waiting_eq_zero]
  intro e he hec
  by_contra hp
  exact hnon ⟨e.1, hec ▸ he, hp⟩

theorem perm_range (hlen : order.length = n) : order.Perm (List.range n) := by
  have hsub : order ⊆ List.range n := fun c hc => mem_range.mpr (h.bounded c hc)
  refine (subperm_of_subset h.nodup hsub).perm_of_length_le ?_
  rw [length_range]
  exact hlen.ge

/-- **An edge leads forward.** -/
theorem idxOf_lt {p : ℕ} (he : (p, c) ∈ edges)
    (hc : c ∈ order) : order.idxOf p < order.idxOf c := by
  obtain ⟨l₁, l₂, rfl⟩ := append_of_mem hc
  have hp : p ∈ l₁ := h.sorted l₁ c l₂ rfl (p, c) he rfl
  have hnd : (l₁ ++ c :: l₂).Nodup := h.nodup
  have hnot : c ∉ l₁ := fun hmem =>
    (nodup_append.mp hnd).2.2 c hmem c mem_cons_self rfl
  rw [idxOf_append_of_mem hp, idxOf_append_of_notMem hnot, idxOf_cons_self]
  exact (idxOf_lt_length_of_mem hp).trans_le (Nat.le_add_right _ _)

end

end Inv

/-- **No cycle**: no path leads from a node back to it. -/
def Acyclic (r : ℕ → ℕ → Prop) : Prop := ∀ c, ¬ Relation.TransGen r c c

/-- **Everything is taken if and only if there is no cycle.** -/
theorem length_eq_iff {indeg order : List ℕ} (h : Inv edges n indeg [] order [])
    (hedg : ∀ e ∈ edges, e.1 < n ∧ e.2 < n) :
    order.length = n ↔ Acyclic fun p c => (p, c) ∈ edges := by
  constructor
  · -- places in the order grow along a path
    intro hlen c hcyc
    have hgr : ∀ {a b : ℕ}, Relation.TransGen (fun p c => (p, c) ∈ edges) a b →
        order.idxOf a < order.idxOf b := by
      intro a b hpat
      have hmem {p c : ℕ} (he : (p, c) ∈ edges) : c ∈ order :=
        (h.perm_range hlen).mem_iff.mpr (mem_range.mpr (hedg _ he).2)
      induction hpat with
      | single he => exact h.idxOf_lt he (hmem he)
      | tail _ he ih => exact ih.trans (h.idxOf_lt he (hmem he))
    exact lt_irrefl _ (hgr hcyc)
  · intro hacy
    have htr : IsTrans (Fin n) fun a b => Relation.TransGen (fun p c => (p, c) ∈ edges) a b :=
      ⟨fun _ _ _ hab hbc => hab.trans hbc⟩
    have hirr : Std.Irrefl fun a b : Fin n =>
        Relation.TransGen (fun p c => (p, c) ∈ edges) a b := ⟨fun a => hacy a⟩
    have hwf := Finite.wellFounded_of_trans_of_irrefl
      fun a b : Fin n => Relation.TransGen (fun p c => (p, c) ∈ edges) a b
    -- by induction on the paths, nothing is left
    have hall : ∀ c : Fin n, c.1 ∈ order := by
      intro c
      induction c using hwf.induction with
      | _ c ih =>
        by_contra hnot
        obtain ⟨p, he, hp⟩ := h.exists_waiting c.2 hnot
        exact hp (ih ⟨p, (hedg _ he).1⟩ (Relation.TransGen.single he))
    refine le_antisymm ?_ ?_
    · have hle := h.length_le
      rwa [length_nil, Nat.zero_add] at hle
    · have hsub : List.range n ⊆ order := fun c hc => hall ⟨c, mem_range.mp hc⟩
      have hle := (subperm_of_subset nodup_range hsub).length_le
      rwa [length_range] at hle

end Kahn

end Logan
