import Mathlib.Order.Interval.Set.Disjoint
import Mathlib.Data.List.Chain
import Mathlib.Tactic
import Mathlib.Order.CompletePartialOrder

/-!
# Intervals in the order of their starts

Half-open intervals that are sorted by their starts are disjoint if each of them
ends before the next one starts. The converse holds for intervals that are not
empty. An empty one is disjoint from all others, and may still start before one
in front of it has ended.
-/

namespace Logan

namespace Intervals

variable {A L : Type} [LinearOrder L] {start stop : A → L}

/-- **An interval that ends before another one starts** is disjoint from it. -/
theorem disjoint_of_le {a b : A} (h : stop a ≤ start b) :
    Disjoint (Set.Ico (start a) (stop a)) (Set.Ico (start b) (stop b)) :=
  Set.Ico_disjoint_Ico.mpr ((min_le_left _ _).trans (h.trans (le_max_right _ _)))

/-- An interval that starts no earlier than a disjoint one, and is not empty, starts no earlier than
that ends. -/
theorem le_of_disjoint {a b : A} (hst : start a ≤ start b) (hne : start b < stop b)
    (h : Disjoint (Set.Ico (start a) (stop a)) (Set.Ico (start b) (stop b))) :
    stop a ≤ start b := by
  rw [Set.Ico_disjoint_Ico, max_eq_right hst] at h
  exact (min_le_iff.mp h).resolve_right (not_le.mpr hne)

/-- Neighbours that do not overlap tell of all pairs. -/
theorem pairwise_of_isChain {l : List A} (hval : ∀ a ∈ l, start a ≤ stop a)
    (hch : l.IsChain fun a b => stop a ≤ start b) : l.Pairwise fun a b => stop a ≤ start b := by
  induction l with
  | nil => exact List.Pairwise.nil
  | cons a l ih =>
    obtain ⟨-, hval⟩ := List.forall_mem_cons.mp hval
    have hprs := ih hval hch.tail
    refine List.pairwise_cons.mpr ⟨?_, hprs⟩
    cases l with
    | nil => exact fun b hb => absurd hb List.not_mem_nil
    | cons b l =>
      have hnex : stop a ≤ start b := hch.rel
      refine List.forall_mem_cons.mpr ⟨hnex, fun c hc => ?_⟩
      exact hnex.trans (((List.forall_mem_cons.mp hval).1).trans
        ((List.pairwise_cons.mp hprs).1 c hc))

/-- **Neighbours do not overlap** if and only if all intervals are disjoint, and none that is empty
starts before one in front of it has ended. -/
theorem isChain_iff_disjoint {l : List A} (hval : ∀ a ∈ l, start a ≤ stop a)
    (hsor : l.Pairwise fun a b => start a ≤ start b) : (l.IsChain fun a b => stop a ≤ start b) ↔
      (l.Pairwise fun a b =>
        Disjoint (Set.Ico (start a) (stop a)) (Set.Ico (start b) (stop b))) ∧
      l.Pairwise fun a b => start b = stop b → stop a ≤ start b := by
  constructor
  · intro hch
    have hprs := pairwise_of_isChain hval hch
    exact ⟨hprs.imp fun h => disjoint_of_le h, hprs.imp fun h => fun _ => h⟩
  · rintro ⟨hdis, hemp⟩
    refine List.Pairwise.isChain ?_
    refine (hsor.and (hdis.and hemp)).imp_of_mem ?_
    rintro a b - hb ⟨hst, hdsj, hempt⟩
    rcases (hval b hb).eq_or_lt with heq | hlt
    · exact hempt heq
    · exact le_of_disjoint hst hlt hdsj

end Intervals

end Logan
