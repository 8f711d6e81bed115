import Mathlib.Data.List.Nodup
import Mathlib.Logic.Function.Basic
import Mathlib.Tactic

/-!
# Doubly linked lists

The cells of an **intrusive list** know their neighbours by index, and the
list knows its two ends. `Links` is that and nothing else: what the cells
hold is not its business, nor where they are kept.

That the links are those of a list is said by two paths, one along `next`
from the head and one along `prev` from the tail (`Links.Lists`). The two
directions are alike – `Links.flip` turns one into the other – so that what
is proved of one is known of the other. Taking a cell out of the middle and
putting one in front keep the links those of a list (`Links.Lists.unlink`,
`Links.Lists.pushFront`), whatever ends the list has and however short it
is, and a traversal meets the cells in their order
(`Links.Lists.follow_head`, `Links.Lists.follow_tail`).
-/

namespace Logan

open List Function

variable {I : Type}

/-! ## Paths -/

/-- **A path** along `next`: from here, past these cells, to there. -/
def Path (next : I → Option I) : Option I → List I → Option I → Prop
  | here, [], there => here = there
  | here, i :: is, there => here = some i ∧ Path next (next i) is there

/-- The cells that a traversal meets, no more than so many. -/
def follow (next : I → Option I) : ℕ → Option I → List I
  | 0, _ => []
  | _ + 1, none => []
  | n + 1, some i => i :: follow next n (next i)

namespace Path

variable {next next' : I → Option I} {here there : Option I} {is js : List I} {i : I}

theorem append_iff : Path next here (is ++ js) there
    ↔ ∃ between, Path next here is between ∧ Path next between js there := by
  induction is generalizing here with
  | nil => exact ⟨fun h => ⟨here, rfl, h⟩, fun ⟨_, heq, h⟩ => heq ▸ h⟩
  | cons i is ih =>
    constructor
    · rintro ⟨rfl, h⟩
      obtain ⟨between, h₁, h₂⟩ := ih.mp h
      exact ⟨between, ⟨rfl, h₁⟩, h₂⟩
    · rintro ⟨between, ⟨rfl, h₁⟩, h₂⟩
      exact ⟨rfl, ih.mpr ⟨between, h₁, h₂⟩⟩

theorem congr (h : Path next here is there) (heq : ∀ i ∈ is, next' i = next i) :
    Path next' here is there := by
  induction is generalizing here with
  | nil => exact h
  | cons i is ih =>
    refine ⟨h.1, ?_⟩
    rw [heq i mem_cons_self]
    exact ih h.2 (fun j hj => heq j (mem_cons_of_mem _ hj))

/-- A path to the end starts at its first cell. -/
theorem eq_head? (h : Path next here is none) : here = is.head? := by
  cases is with
  | nil => exact h
  | cons => exact h.1

/-- **A traversal meets the path.** -/
theorem follow_eq (h : Path next here is none) {fuel : ℕ} (hfuel : is.length ≤ fuel) :
    follow next fuel here = is := by
  induction is generalizing here fuel with
  | nil =>
    rw [show here = none from h]
    cases fuel <;> rfl
  | cons i is ih =>
    obtain ⟨rfl, hres⟩ := h
    cases fuel with
    | zero => exact absurd hfuel (Nat.not_succ_le_zero _)
    | succ fuel =>
      show i :: follow next fuel (next i) = i :: is
      rw [ih hres (Nat.le_of_succ_le_succ hfuel)]

end Path

/-! ## Links -/

/-- **The links of an intrusive list.** -/
structure Links (I : Type) where
  prev : I → Option I
  next : I → Option I
  head : Option I
  tail : Option I

namespace Links

/-- **The links are those of this list.** -/
structure Lists (l : Links I) (order : List I) : Prop where
  nodup : order.Nodup
  forward : Path l.next l.head order none
  backward : Path l.prev l.tail order.reverse none

/-- The list read from its other end. -/
def flip (l : Links I) : Links I := ⟨l.next, l.prev, l.tail, l.head⟩

variable {l : Links I} {order before after : List I} {i : I}

namespace Lists

section

variable (h : l.Lists order)

include h

theorem flip : l.flip.Lists order.reverse where
  nodup := nodup_reverse.mpr h.nodup
  forward := h.backward
  backward := (reverse_reverse order).symm ▸ h.forward

theorem follow_head {fuel : ℕ} (hfuel : order.length ≤ fuel) : follow l.next fuel l.head = order :=
  h.forward.follow_eq hfuel

theorem follow_tail {fuel : ℕ} (hfuel : order.length ≤ fuel) :
    follow l.prev fuel l.tail = order.reverse :=
  h.backward.follow_eq (order.length_reverse.trans_le hfuel)

theorem head_eq : l.head = order.head? := h.forward.eq_head?

theorem tail_eq : l.tail = order.getLast? := by
  rw [h.backward.eq_head?, List.head?_reverse]

end

theorem next_eq (h : l.Lists (before ++ i :: after)) : l.next i = after.head? := by
  obtain ⟨-, -, -, haft⟩ := Path.append_iff.mp h.forward
  exact haft.eq_head?

theorem prev_eq (h : l.Lists (before ++ i :: after)) : l.prev i = before.getLast? := by
  have hfl := h.flip
  rw [reverse_append, reverse_cons, append_assoc] at hfl
  exact hfl.next_eq.trans List.head?_reverse

end Lists

/-- Only the links of its own cells matter to a list. -/
theorem Lists.congr {l' : Links I} (h : l.Lists order)
    (hpr : ∀ i ∈ order, l'.prev i = l.prev i) (hnex : ∀ i ∈ order, l'.next i = l.next i)
    (hhd : l'.head = l.head) (htl : l'.tail = l.tail) : l'.Lists order where
  nodup := h.nodup
  forward := hhd ▸ h.forward.congr hnex
  backward := htl ▸ h.backward.congr (fun i hi => hpr i (mem_reverse.mp hi))

/-! ## Taking a cell out -/

variable [DecidableEq I]

/-- Another cell follows `p`, or is the head. -/
def setNext (l : Links I) (p next : Option I) : Links I :=
  match p with
  | some p => { l with next := update l.next p next }
  | none => { l with head := next }

/-- Another cell precedes `n`, or is the tail. -/
def setPrev (l : Links I) (n prev : Option I) : Links I :=
  match n with
  | some n => { l with prev := update l.prev n prev }
  | none => { l with tail := prev }

/-- **Take a cell out**: both of its neighbours skip it. -/
def unlink (l : Links I) (i : I) : Links I :=
  (l.setNext (l.prev i) (l.next i)).setPrev (l.next i) (l.prev i)

/-- Writing backwards changes nothing forwards. -/
theorem setPrev_forward (l : Links I) (n prev : Option I) :
    (l.setPrev n prev).next = l.next ∧ (l.setPrev n prev).head = l.head := by
  cases n <;> exact ⟨rfl, rfl⟩

/-- Writing forwards is writing backwards, read from the other end. -/
theorem setPrev_backward (l : Links I) (n prev p next : Option I) :
    ((l.setNext p next).setPrev n prev).prev = (l.flip.setNext n prev).next
      ∧ ((l.setNext p next).setPrev n prev).tail = (l.flip.setNext n prev).head := by
  cases n <;> cases p <;> exact ⟨rfl, rfl⟩

/-- Along `next`, a cell is skipped. -/
theorem Lists.skip_forward (h : l.Lists (before ++ i :: after)) :
    Path (l.setNext (l.prev i) (l.next i)).next (l.setNext (l.prev i) (l.next i)).head
      (before ++ after) none := by
  obtain ⟨between, hbef, heq, haft⟩ := Path.append_iff.mp h.forward
  have hpr := h.prev_eq
  rcases eq_nil_or_concat before with rfl | ⟨front, p, rfl⟩
  · -- it is the first cell
    rwa [hpr]
  · rw [concat_eq_append] at hpr hbef ⊢
    rw [hpr, List.getLast?_concat]
    show Path (update l.next p (l.next i)) l.head _ none
    have hnd := h.nodup
    rw [concat_eq_append, append_assoc, nodup_append] at hnd
    obtain ⟨-, hres, hap⟩ := hnd
    obtain ⟨hp, -⟩ := nodup_cons.mp hres
    obtain ⟨here, hfr, rfl, -⟩ := Path.append_iff.mp hbef
    rw [append_assoc]
    refine Path.append_iff.mpr ⟨some p, hfr.congr (fun j hj => ?_), rfl, ?_⟩
    · exact update_of_ne (hap j hj p mem_cons_self) _ _
    · rw [update_self]
      refine haft.congr (fun j hj => update_of_ne ?_ _ _)
      rintro rfl
      exact hp (mem_cons_of_mem _ hj)

/-- **What is left is a list**, in the same order. -/
theorem Lists.unlink (h : l.Lists (before ++ i :: after)) :
    (l.unlink i).Lists (before ++ after) where
  nodup := (nodup_middle.mp h.nodup).of_cons
  forward := by
    rw [Links.unlink, (setPrev_forward _ _ _).1, (setPrev_forward _ _ _).2]
    exact h.skip_forward
  backward := by
    have hfl := h.flip
    rw [reverse_append, reverse_cons, append_assoc] at hfl
    rw [Links.unlink, (setPrev_backward _ _ _ _ _).1, (setPrev_backward _ _ _ _ _).2,
      reverse_append]
    exact hfl.skip_forward

/-! ## Putting a cell in front -/

/-- Give a cell its neighbours. -/
def setBoth (l : Links I) (i : I) (prev next : Option I) : Links I :=
  { l with prev := update l.prev i prev, next := update l.next i next }

/-- **Put a cell in front.** -/
def pushFront (l : Links I) (i : I) : Links I :=
  { (l.setBoth i none l.head).setPrev l.head (some i) with head := some i }

/-- **The list with the cell in front.** -/
theorem Lists.pushFront (h : l.Lists order) (hi : i ∉ order) :
    (l.pushFront i).Lists (i :: order) := by
  refine ⟨nodup_cons.mpr ⟨hi, h.nodup⟩, ?_, ?_⟩
  · show Path ((l.setBoth i none l.head).setPrev l.head (some i)).next _ _ none
    rw [(setPrev_forward _ _ _).1]
    refine ⟨rfl, ?_⟩
    show Path (update l.next i l.head) (update l.next i l.head i) order none
    rw [update_self]
    refine h.forward.congr (fun j hj => update_of_ne ?_ _ _)
    rintro rfl
    exact hi hj
  · show Path ((l.setBoth i none l.head).setPrev l.head (some i)).prev
      ((l.setBoth i none l.head).setPrev l.head (some i)).tail _ none
    rw [h.head_eq]
    cases order with
    | nil => exact ⟨rfl, update_self _ _ _⟩
    | cons j =>
      show Path (update (update l.prev i none) j (some i)) l.tail _ none
      obtain ⟨hj, hord⟩ := nodup_cons.mp h.nodup
      have hij : i ≠ j := fun heq => hi (heq ▸ mem_cons_self)
      have hbac := h.backward
      rw [reverse_cons] at hbac
      obtain ⟨here, hres, rfl, -⟩ := Path.append_iff.mp hbac
      rw [reverse_cons, reverse_cons, append_assoc]
      refine Path.append_iff.mpr ⟨some j, hres.congr (fun k hk => ?_), rfl, ?_, ?_⟩
      · have hmem := mem_reverse.mp hk
        have hkj : k ≠ j := fun heq => hj (heq ▸ hmem)
        have hki : k ≠ i := fun heq => hi (heq ▸ mem_cons_of_mem _ hmem)
        rw [update_of_ne hkj, update_of_ne hki]
      · exact update_self _ _ _
      · rw [update_of_ne hij, update_self]
        rfl

end Links

end Logan
