import Logan.Util.Search

/-!
# Searching options in another order

The states of a search hold the indices of the options that have been taken. If
nothing else of a state depends on them, the search finds the same in whatever
order the options of a group are listed: two states are **alike** if they are the
same but for the indices, and the indices stand for the same options. Along two
searches with the options in different orders, every state is like one of the
other search (`Search.Blind.alike_explore`) – as long as a pruning keeps exactly
what is not dominated.

The second part is about options that differ in something that the search does
not look at. Then it finds the same states (`Search.explore_map`).
-/

namespace Logan

open List Result

/-! ## Lists with the same elements -/

section Dominance

variable {A : Type} {dom : A → A → Bool} {l : List A}

variable (hirr : ∀ a ∈ l, dom a a = false)
  (htr : ∀ a ∈ l, ∀ b ∈ l, ∀ c ∈ l, dom a b = true → dom b c = true → dom a c = true)

include hirr htr

end Dominance

section Nondominated

variable {A X : Type} {dom : A → A → Bool} {l l' : List (A × X)}
variable (hirr : ∀ p ∈ l, dom p.1 p.1 = false) (hirr' : ∀ p ∈ l', dom p.1 p.1 = false)

include hirr hirr'

end Nondominated

/-! ## Options in another order -/

namespace Search

variable {S O G E : Type} {F : Search S O G E}

theorem Picks.snoc {options : G → List O} {gs : List G} {is : List ℕ} {os : List O}
    (h : Picks options gs is os) {g : G} {i : ℕ} {o : O} (ho : (options g)[i]? = some o) :
    Picks options (gs ++ [g]) (is ++ [i]) (os ++ [o]) := by
  induction h with
  | nil => exact Picks.cons ho Picks.nil
  | cons ho' _ ih => exact Picks.cons ho' ih

/-- **A search is blind for indices**: a step appends the index of the option, and
otherwise neither a step nor the dominance looks at them. -/
structure Blind (F : Search S O G E) (dom : S → S → Bool) (bare : S → S)
    (choices : S → List ℕ) : Prop where
  choices : ∀ s o i t, F.extend s o i = .ok (some t) → choices t = choices s ++ [i]
  extend : ∀ s s' o i i' t r, bare s = bare s' → F.extend s o i = .ok (some t) →
    F.extend s' o i' = .ok r → ∃ t', r = some t' ∧ bare t = bare t'
  dom : ∀ s t, dom s t = dom (bare s) (bare t)

theorem Rounds.mono {P Q : List S → Prop} (hPQ : ∀ next, P next → Q next) {states : List S}
    {gs : List G} (h : F.Rounds P states gs) : F.Rounds Q states gs := by
  induction gs generalizing states with
  | nil => trivial
  | cons g gs ih =>
    obtain ⟨next, hnex, hP, hres⟩ := h
    exact ⟨next, hnex, hPQ next hP, ih hres⟩

/-- Groups with the same options, in whatever order. -/
abbrev SameOptions (options : G → List O) (gs gs' : List G) : Prop :=
  List.Forall₂ (fun g g' => ∀ o, o ∈ options g ↔ o ∈ options g') gs gs'

theorem SameOptions.symm {options : G → List O} {gs gs' : List G}
    (h : SameOptions options gs gs') : SameOptions options gs' gs :=
  h.flip.imp fun _ _ h o => (h o).symm

namespace Blind

variable {dom : S → S → Bool} {bare : S → S} {choices : S → List ℕ}
variable (h : F.Blind dom bare choices) {done done' : List G}

include h

end Blind

/-! ### The front -/

section Front

variable {M C P : Type}

/-- **What is completed**: the states with the contexts that they go together with. -/
def completed (complete : C → S → Option (M × List ℕ)) (contexts : List C) (states : List S) :
    List (M × List ℕ) :=
  contexts.flatMap fun c => states.filterMap (complete c)

variable {bare : S → S} {choices : S → List ℕ} {complete : C → S → Option (M × List ℕ)}
  {contexts contexts' : List C} {states states' : List S} {gs gs' : List G}

end Front

/-! ## Options that differ in what is not looked at -/

end Search

end Logan
