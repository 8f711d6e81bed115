import Mathlib.Data.List.Infix
import Mathlib.Tactic

/-!
# The first occurrence of a pattern

A pattern is searched in a list from its front. What is found does not change when
the list goes on (`findSub?_append`), and it is what comes after a part of the list
in which no occurrence starts (`findSub?_of_not_starts`).

So an occurrence that is put behind some text is the first one if the text contains none
and cannot end in the middle of one (`findSub?_of_not_infix`) – for instance because the
pattern starts with an element that the text does not have (`findSub?_of_notMem`).
-/

namespace Logan

open List Option

variable {A : Type}

section Search

variable [DecidableEq A]

/-- The place of the first occurrence of a pattern. -/
def findSub? (pat : List A) : List A → Option ℕ
  | [] => if pat = [] then some 0 else none
  | a :: l => if pat.isPrefixOf (a :: l) then some 0 else (findSub? pat l).map (· + 1)

/-- `strip_prefix` -/
def stripPrefix? (pat l : List A) : Option (List A) :=
  if pat.isPrefixOf l then some (l.drop pat.length) else none

/-- `strip_suffix` -/
def stripSuffix? (pat l : List A) : Option (List A) :=
  if pat.isSuffixOf l then some (l.take (l.length - pat.length)) else none

section Prefix

variable {pat l r : List A}

theorem isPrefixOf_append (h : pat.isPrefixOf l = true) : pat.isPrefixOf (l ++ r) = true :=
  List.isPrefixOf_iff_prefix.mpr ((List.isPrefixOf_iff_prefix.mp h).trans (prefix_append l r))

/-- **A list that is decided**: it is not the beginning of the pattern, and does not start with
it. When it goes on, it still does not. -/
theorem not_isPrefixOf_append (hst : ¬ l <+: pat) (h : ¬ pat.isPrefixOf l = true) :
    ¬ pat.isPrefixOf (l ++ r) = true := by
  intro hno
  rcases List.prefix_or_prefix_of_prefix (List.isPrefixOf_iff_prefix.mp hno)
    (prefix_append l r) with hle | hle
  · exact h (List.isPrefixOf_iff_prefix.mpr hle)
  · exact hst hle

theorem stripPrefix?_append (pat l : List A) : stripPrefix? pat (pat ++ l) = some l := by
  unfold stripPrefix?
  rw [if_pos (List.isPrefixOf_iff_prefix.mpr (prefix_append pat l)), drop_left]

theorem stripSuffix?_append (pat l : List A) : stripSuffix? pat (l ++ pat) = some l := by
  unfold stripSuffix?
  rw [if_pos (isSuffixOf_iff_suffix.mpr (suffix_append l pat)), length_append,
    Nat.add_sub_cancel, take_left]

end Prefix

/-! ## What is found -/

section Found

variable {pat l r : List A} {i : ℕ}

/-- **What is found** is an occurrence before which none starts. -/
theorem findSub?_eq_some (hpat : pat ≠ []) :
    findSub? pat l = some i ↔ pat <+: l.drop i ∧ ∀ j < i, ¬ pat <+: l.drop j := by
  induction l generalizing i with
  | nil =>
    rw [findSub?, if_neg hpat, drop_nil, prefix_nil]
    exact iff_of_false nofun fun h => hpat h.1
  | cons a l ih =>
    rw [findSub?]
    by_cases h : pat.isPrefixOf (a :: l) = true
    · have hfr := List.isPrefixOf_iff_prefix.mp h
      rw [if_pos h, some_inj]
      constructor
      · rintro rfl
        exact ⟨hfr, fun j hj => absurd hj (Nat.not_lt_zero j)⟩
      · rintro ⟨-, hfst⟩
        by_contra hne
        exact hfst 0 (Nat.pos_of_ne_zero fun hi => hne hi.symm) hfr
    · have hfr : ¬ pat <+: a :: l := fun hno => h (List.isPrefixOf_iff_prefix.mpr hno)
      rw [if_neg h, map_eq_some_iff]
      constructor
      · rintro ⟨j, hj, rfl⟩
        obtain ⟨hat, hfst⟩ := ih.mp hj
        refine ⟨hat, fun k hk => ?_⟩
        cases k with
        | zero => exact hfr
        | succ k => exact hfst k (Nat.lt_of_succ_lt_succ hk)
      · rintro ⟨hat, hfst⟩
        cases i with
        | zero => exact absurd hat hfr
        | succ i =>
          exact ⟨i, ih.mpr ⟨hat, fun j hj => hfst (j + 1) (Nat.succ_lt_succ hj)⟩, rfl⟩

theorem le_of_findSub? (hpat : pat ≠ []) (h : findSub? pat l = some i) :
    i + pat.length ≤ l.length := by
  have hle := ((findSub?_eq_some hpat).mp h).1.length_le
  have hpos := length_pos_iff.mpr hpat
  rw [length_drop] at hle
  omega

/-- **What is found stays** when the list goes on. -/
theorem findSub?_append (hpat : pat ≠ []) (h : findSub? pat l = some i) (r : List A) :
    findSub? pat (l ++ r) = some i := by
  have hle := le_of_findSub? hpat h
  obtain ⟨hat, hfst⟩ := (findSub?_eq_some hpat).mp h
  refine (findSub?_eq_some hpat).mpr ⟨?_, fun j hj hno => hfst j hj ?_⟩
  · rw [drop_append_of_le_length (by omega)]
    exact hat.trans (prefix_append _ r)
  · rw [drop_append_of_le_length (by omega)] at hno
    refine prefix_of_prefix_length_le hno (prefix_append _ r) ?_
    rw [length_drop]
    omega

/-- An occurrence behind a part in which none starts is found. -/
theorem findSub?_of_not_starts (hpat : pat ≠ [])
    (h : ∀ j < l.length, ¬ pat <+: l.drop j ++ (pat ++ r)) :
    findSub? pat (l ++ (pat ++ r)) = some l.length := by
  refine (findSub?_eq_some hpat).mpr ⟨?_, fun j hj => ?_⟩
  · rw [drop_left]
    exact prefix_append pat r
  · rw [drop_append_of_le_length hj.le]
    exact h j hj

/-- **An occurrence is the first one** behind a part without its first element. -/
theorem findSub?_of_notMem {a : A} {pat : List A} (h : a ∉ l) :
    findSub? (a :: pat) (l ++ (a :: pat ++ r)) = some l.length := by
  refine findSub?_of_not_starts (cons_ne_nil a pat) fun j hj hno => h ?_
  rw [drop_eq_getElem_cons hj, cons_append, cons_prefix_cons] at hno
  exact hno.1 ▸ getElem_mem hj

/-- **An occurrence is the first one** behind a part that contains none, and that ends with an
element that the pattern only has at its end. -/
theorem findSub?_of_not_infix {a : A} (hpat : pat ≠ []) (h : ¬ pat <:+: l ++ [a])
    (ha : a ∉ pat.dropLast) : findSub? pat (l ++ [a] ++ (pat ++ r)) = some (l ++ [a]).length := by
  refine findSub?_of_not_starts hpat fun j hj hno => ?_
  have hlen : (l ++ [a]).length = l.length + 1 := by rw [length_append]; rfl
  rw [hlen] at hj
  have hdr : (l ++ [a]).drop j = l.drop j ++ [a] := drop_append_of_le_length (by omega)
  rcases List.prefix_or_prefix_of_prefix hno (prefix_append _ (pat ++ r)) with hle | hle
  · exact h (hle.isInfix.trans (drop_suffix j _).isInfix)
  · -- the part ends in the middle of the occurrence
    obtain ⟨t, ht⟩ := hle
    rw [hdr] at ht
    rcases eq_nil_or_concat t with rfl | ⟨t', b, rfl⟩
    · rw [List.append_nil] at ht
      refine h ?_
      rw [← ht, ← hdr]
      exact (drop_suffix j _).isInfix
    · refine ha ?_
      rw [← ht, concat_eq_append, ← append_assoc, dropLast_concat]
      exact mem_append_left _ (mem_append_right _ (mem_singleton.mpr rfl))

theorem findSub?_eq_none (hpat : pat ≠ []) : findSub? pat l = none ↔ ¬ pat <:+: l := by
  rw [← not_iff_not, not_not, ← ne_eq, ne_none_iff_exists']
  constructor
  · rintro ⟨i, h⟩
    exact ((findSub?_eq_some hpat).mp h).1.isInfix.trans (drop_suffix i l).isInfix
  · rintro ⟨s, t, rfl⟩
    have hex : ∃ i, pat <+: (s ++ pat ++ t).drop i := ⟨s.length, by
      rw [append_assoc, drop_left]
      exact prefix_append pat t⟩
    exact ⟨Nat.find hex, (findSub?_eq_some hpat).mpr
      ⟨Nat.find_spec hex, fun j hj => Nat.find_min hex hj⟩⟩

end Found

omit [DecidableEq A] in
/-- **A word that goes not over a border** and starts not behind it occurs before it. -/
theorem infix_of_infix_append {a b : A} {pat l r : List A} (hr : b ∉ a :: pat)
    (ha : a ∉ b :: r) (h : a :: pat <:+: l ++ b :: r) : a :: pat <:+: l := by
  induction l with
  | nil => exact absurd (h.subset mem_cons_self) ha
  | cons c l ih =>
    rw [cons_append, infix_cons_iff] at h
    rcases h with hat | hlat
    · rcases List.prefix_or_prefix_of_prefix hat (prefix_append (c :: l) (b :: r)) with hle | hle
      · exact hle.isInfix
      · -- the word would be longer than what is before the border
        obtain ⟨rest, hres⟩ := hle
        rw [← hres, ← cons_append, prefix_append_right_inj] at hat
        cases rest with
        | nil =>
          rw [List.append_nil] at hres
          exact hres ▸ infix_rfl
        | cons =>
          obtain ⟨rfl, -⟩ := cons_prefix_cons.mp hat
          exact absurd (hres ▸ mem_append_right _ mem_cons_self) hr
    · exact (ih hlat).trans (suffix_cons c l).isInfix

end Search

/-! ## Splitting at an element -/

/-- The parts of a list before and after the first occurrence of an element. -/
def splitAtFirst (p : A → Bool) : List A → Option (List A × List A)
  | [] => none
  | a :: l => if p a then some ([], l) else (splitAtFirst p l).map fun q => (a :: q.1, q.2)

section Split

variable {p : A → Bool} {l l' r : List A} {a : A}

theorem splitAtFirst_append (h : ∀ b ∈ l, p b = false) (ha : p a = true) :
    splitAtFirst p (l ++ a :: r) = some (l, r) := by
  induction l with
  | nil => rw [nil_append, splitAtFirst, if_pos ha]
  | cons b l ih =>
    rw [cons_append, splitAtFirst, h b mem_cons_self, if_neg Bool.false_ne_true,
      ih fun c hc => h c (mem_cons_of_mem b hc)]
    rfl

theorem length_of_splitAtFirst (h : splitAtFirst p l = some (l', r)) : r.length < l.length := by
  induction l generalizing l' with
  | nil => cases h
  | cons b l ih =>
    rw [splitAtFirst] at h
    split_ifs at h with hb
    · obtain ⟨-, rfl⟩ := Prod.mk.inj (some.inj h)
      exact Nat.lt_succ_self _
    · obtain ⟨q, hq, heq⟩ := map_eq_some_iff.mp h
      cases heq
      exact (ih hq).trans (Nat.lt_succ_self _)

end Split

end Logan
