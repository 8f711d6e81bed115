import Logan.Util.Buffer
import Logan.Util.Result

/-!
# Reading a layout piece by piece

A payload is the concatenation of pieces, one for each item of a list, and a
reader takes the pieces off its front one after the other, each changing a
state. What the reader holds may be the bytes that are left, or a position in
all the bytes; a relation says which bytes it has left. Once a single item is
understood, so is the loop over the list (`foldlM_pieces`).

Where the state is a family of buffers and each item changes its own, what
the loop does to a buffer can be said at once (`foldl_update`).
-/

namespace Logan

open List Function

open Result

variable {A B R S E : Type}

/-- **A loop that reads a piece for each item.** If from any state that keeps
the invariant the step reads the piece of its item and changes the state in
the given way, then the loop reads all the pieces. -/
theorem foldlM_pieces (Left : R → List B → Prop) (step : S × R → A → Except E (S × R))
    (piece : A → List B) (update : S → A → S) (Inv : S → Prop) {l : List A}
    (hst : ∀ s r a rest, a ∈ l → Inv s → Left r (piece a ++ rest) →
      ∃ r', step (s, r) a = .ok (update s a, r') ∧ Left r' rest)
    (hinv : ∀ s a, a ∈ l → Inv s → Inv (update s a)) {s : S} {r : R} {rest : List B} (hs : Inv s)
    (hlef : Left r (l.flatMap piece ++ rest)) :
    ∃ r', l.foldlM step (s, r) = .ok (l.foldl update s, r') ∧ Left r' rest := by
  induction l generalizing s r with
  | nil => exact ⟨r, rfl, hlef⟩
  | cons a l ih =>
    rw [flatMap_cons, append_assoc] at hlef
    obtain ⟨r₁, hr₁, hlef₁⟩ := hst s r a _ mem_cons_self hs hlef
    obtain ⟨r₂, hr₂, hlef₂⟩ := ih
      (fun s r b rest hb => hst s r b rest (mem_cons_of_mem a hb))
      (fun s b hb => hinv s b (mem_cons_of_mem a hb))
      (hinv s a mem_cons_self hs) hlef₁
    refine ⟨r₂, ?_, hlef₂⟩
    rwa [foldlM_cons, hr₁]

/-- The invariant of such a loop holds after it. -/
theorem foldl_invariant {update : S → A → S} {Inv : S → Prop} {l : List A}
    (hinv : ∀ s a, a ∈ l → Inv s → Inv (update s a)) {s : S} (hs : Inv s) :
    Inv (l.foldl update s) := by
  induction l generalizing s with
  | nil => exact hs
  | cons a l ih =>
    exact ih (fun s b hb => hinv s b (mem_cons_of_mem a hb)) (hinv s a mem_cons_self hs)

/-- **A loop in which each item changes its own buffer.** -/
theorem foldl_update {I X : Type} [DecidableEq I] (p : I → Bool) (g : I → X → X) {l : List I}
    (hl : l.Nodup) (f : I → X) : l.foldl (fun f i => if p i then update f i (g i (f i)) else f) f
      = fun i => if i ∈ l ∧ p i then g i (f i) else f i := by
  induction l generalizing f with
  | nil =>
    funext i
    rw [if_neg fun h => not_mem_nil h.1]
    rfl
  | cons a l ih =>
    obtain ⟨ha, hl⟩ := nodup_cons.mp hl
    rw [foldl_cons, ih hl]
    funext i
    by_cases hia : i = a
    · subst hia
      rw [if_neg fun h => ha h.1]
      by_cases hp : p i = true
      · rw [if_pos hp, update_self, if_pos ⟨mem_cons_self, hp⟩]
      · rw [if_neg hp, if_neg fun h => hp h.2]
    · have hoth : (if p a = true then update f a (g a (f a)) else f) i = f i := by
        split
        · exact update_of_ne hia _ _
        · rfl
      simp only [hoth, mem_cons, hia, false_or]

/-- **A loop that collects pieces succeeds** with all of them. -/
theorem mapM_flatten {step : A → Except E (List B)} {piece : A → List B} {l : List A}
    (h : ∀ a ∈ l, step a = .ok (piece a)) :
    (List.flatten <$> l.mapM step) = .ok (l.flatMap piece) := by
  induction l with
  | nil => rfl
  | cons a l ih =>
    have hl := ih fun b hb => h b (mem_cons_of_mem a hb)
    obtain ⟨pieces, hpcs, hfl⟩ := map_eq_ok hl
    rw [mapM_cons, h a mem_cons_self, hpcs]
    exact congrArg Except.ok (congrArg (piece a ++ ·) hfl)

/-- The number of bytes of pieces of the same size. -/
theorem length_flatMap_const {piece : A → List B} {n : ℕ} {l : List A}
    (h : ∀ a ∈ l, (piece a).length = n) : (l.flatMap piece).length = l.length * n := by
  induction l with
  | nil => rw [flatMap_nil, length_nil, length_nil, Nat.zero_mul]
  | cons a l ih =>
    rw [flatMap_cons, length_append, h a mem_cons_self,
      ih fun b hb => h b (mem_cons_of_mem a hb), length_cons, Nat.succ_mul, Nat.add_comm]

/-- The items for which there is no piece may be left out. -/
theorem flatMap_filter_eq {piece : A → List B} {p : A → Bool} {l : List A} :
    (l.flatMap fun a => if p a then piece a else []) = (l.filter p).flatMap piece := by
  induction l with
  | nil => rfl
  | cons a l ih =>
    rw [flatMap_cons, ih]
    cases hp : p a with
    | true => rw [if_pos rfl, filter_cons_of_pos hp, flatMap_cons]
    | false =>
      rw [if_neg Bool.false_ne_true, nil_append,
        filter_cons_of_neg (by rw [hp]; exact Bool.false_ne_true)]

end Logan
