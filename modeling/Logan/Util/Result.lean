import Mathlib.Tactic

/-!
# Computations that may fail

A program that returns a `Result` is a chain of computations, each of which
is reached only if those before it have succeeded. These are the lemmas that
take such a chain apart: forwards, when the first computation is known to
succeed or to fail, and backwards, when the whole chain is.
-/

namespace Logan

open List

namespace Result

variable {E A B : Type}

@[simp] theorem ok_bind (a : A) (f : A → Except E B) : (Except.ok a >>= f) = f a := rfl

/-- A failure is that of the whole chain. -/
@[simp] theorem error_bind (e : E) (f : A → Except E B) :
    (Except.error e >>= f) = Except.error e := rfl

@[simp] theorem pure_eq (a : A) : (pure a : Except E A) = Except.ok a := rfl

variable {x : Except E A} {f : A → Except E B}

/-- **A chain succeeds** if all of it does. -/
theorem bind_eq_ok {b : B} : (x >>= f) = .ok b ↔ ∃ a, x = .ok a ∧ f a = .ok b := by
  cases x with
  | ok a =>
    constructor
    · exact fun h => ⟨a, rfl, h⟩
    · rintro ⟨_, heq, h⟩
      exact Except.ok.inj heq ▸ h
  | error =>
    constructor
    · exact nofun
    · rintro ⟨_, h, -⟩
      cases h

variable {e : E}

/-- **A chain fails** at its first failure. -/
theorem bind_eq_error :
    (x >>= f) = .error e ↔ x = .error e ∨ ∃ a, x = .ok a ∧ f a = .error e := by
  cases x with
  | ok a =>
    constructor
    · exact fun h => Or.inr ⟨a, rfl, h⟩
    · rintro (h | ⟨_, heq, h⟩)
      · cases h
      · exact Except.ok.inj heq ▸ h
  | error =>
    constructor
    · exact fun h => Or.inl (congrArg _ (Except.error.inj h))
    · rintro (h | ⟨_, h, -⟩)
      · exact congrArg _ (Except.error.inj h)
      · cases h

/-! ## Checks -/

/-- `if p { return Err(e) }` -/
def refuse (p : Prop) [Decidable p] (e : E) : Except E Unit := if p then .error e else .ok ()

/-- `ok_or(e)?` -/
def okOr (x : Option A) (e : E) : Except E A := x.elim (.error e) .ok

@[simp] theorem refuse_eq_ok {p : Prop} [Decidable p] {u : Unit} :
    refuse p e = .ok u ↔ ¬ p := by
  unfold refuse
  split_ifs with h
  · exact ⟨fun hu => (by cases hu), fun hp => absurd h hp⟩
  · exact ⟨fun _ => h, fun _ => rfl⟩

theorem refuse_of_not {p : Prop} [Decidable p] (h : ¬ p) : refuse p e = .ok () :=
  if_neg h

theorem refuse_of {p : Prop} [Decidable p] (h : p) : refuse p e = .error e := if_pos h

@[simp] theorem okOr_some (a : A) (e : E) : okOr (some a) e = .ok a := rfl

@[simp] theorem okOr_eq_ok {x : Option A} {a : A} : okOr x e = .ok a ↔ x = some a := by
  cases x with
  | none => exact ⟨fun h => (by cases h), fun h => (by cases h)⟩
  | some => exact ⟨fun h => congrArg some (Except.ok.inj h), fun h => h ▸ rfl⟩

theorem map_eq_ok {f : A → B} {b : B} (h : f <$> x = .ok b) : ∃ a, x = .ok a ∧ f a = b := by
  cases x with
  | ok a => exact ⟨a, rfl, Except.ok.inj h⟩
  | error => cases h

/-! ## Loops -/

variable {l : List A}

/-- **A loop that collects succeeds** if it does for every element. -/
theorem mapM_eq_ok {r : List B} :
    l.mapM f = .ok r ↔ List.Forall₂ (fun a b => f a = .ok b) l r := by
  induction l generalizing r with
  | nil =>
    rw [mapM_nil, List.forall₂_nil_left_iff]
    exact ⟨fun h => (Except.ok.inj h).symm, fun h => h ▸ rfl⟩
  | cons a l ih =>
    rw [mapM_cons, List.forall₂_cons_left_iff, bind_eq_ok]
    constructor
    · rintro ⟨b, hb, h⟩
      obtain ⟨r', hr', h⟩ := bind_eq_ok.mp h
      exact ⟨b, r', hb, ih.mp hr', (Except.ok.inj h).symm⟩
    · rintro ⟨b, r', hb, hr', rfl⟩
      exact ⟨b, hb, bind_eq_ok.mpr ⟨r', ih.mpr hr', rfl⟩⟩

theorem exists_mapM_eq_ok (h : ∀ a ∈ l, ∃ b, f a = .ok b) : ∃ r, l.mapM f = .ok r := by
  induction l with
  | nil => exact ⟨[], rfl⟩
  | cons a l ih =>
    obtain ⟨b, hb⟩ := h a mem_cons_self
    obtain ⟨r, hr⟩ := ih fun a' ha' => h a' (mem_cons_of_mem _ ha')
    exact ⟨b :: r, mapM_eq_ok.mpr (List.Forall₂.cons hb (mapM_eq_ok.mp hr))⟩

theorem exists_of_mem_mapM {r : List B} (h : l.mapM f = .ok r) {b : B}
    (hb : b ∈ r) : ∃ a ∈ l, f a = .ok b := by
  obtain ⟨hlen, hall⟩ := List.forall₂_iff_get.mp (mapM_eq_ok.mp h)
  obtain ⟨i, hi, rfl⟩ := getElem_of_mem hb
  exact ⟨_, get_mem _ _, hall i (hlen ▸ hi) hi⟩

/-- A loop over indices that collects. -/
theorem mapM_range_eq_ok {f : ℕ → Except E B} {n : ℕ} {r : List B} :
    (List.range n).mapM f = .ok r ↔ r.length = n ∧ ∀ i (h : i < r.length), f i = .ok r[i] := by
  rw [mapM_eq_ok, List.forall₂_iff_get]
  simp only [length_range, get_eq_getElem, getElem_range]
  constructor
  · exact fun h => ⟨h.1.symm, fun i hi => h.2 i (h.1 ▸ hi) hi⟩
  · exact fun h => ⟨h.1.symm, fun i _ hi => h.2 i hi⟩

/-- A loop over indices that fails does so at the first index at which it has to. -/
theorem mapM_range_eq_error {f : ℕ → Except E B} {n : ℕ} :
    (List.range n).mapM f = .error e ↔ ∃ i < n, (∀ j < i, ∃ b, f j = .ok b) ∧ f i = .error e := by
  induction n with
  | zero => exact ⟨fun h => (by cases h), fun ⟨_, hi, _⟩ => absurd hi (Nat.not_lt_zero _)⟩
  | succ n ih =>
    have hlas : [n].mapM f = (fun b => [b]) <$> f n := by
      rw [mapM_cons, mapM_nil, map_eq_pure_bind]
      rfl
    rw [range_succ, mapM_append, bind_eq_error, ih, hlas]
    constructor
    · rintro (⟨i, hi, h⟩ | ⟨r, hr, h⟩)
      · exact ⟨i, Nat.lt_succ_of_lt hi, h⟩
      · obtain ⟨hlen, hall⟩ := mapM_range_eq_ok.mp hr
        refine ⟨n, Nat.lt_succ_self n, fun j hj => ⟨_, hall j (hlen ▸ hj)⟩, ?_⟩
        cases hf : f n with
        | ok =>
          rw [hf] at h
          cases h
        | error =>
          rw [hf] at h
          exact congrArg _ (Except.error.inj h)
    · rintro ⟨i, hi, hbef, h⟩
      rcases Nat.lt_succ_iff_lt_or_eq.mp hi with hi | rfl
      · exact Or.inl ⟨i, hi, hbef, h⟩
      · obtain ⟨r, hr⟩ := exists_mapM_eq_ok fun j hj => hbef j (mem_range.mp hj)
        exact Or.inr ⟨r, hr, by rw [h]; rfl⟩

/-- **A loop that computes something for every element** and takes it in succeeds
if all can be computed, and then all can be taken in. -/
theorem foldlM_bind_eq_ok {C : Type} {g : C → B → Except E C} {c r : C} :
    l.foldlM (fun c a => f a >>= g c) c = .ok r
      ↔ ∃ bs, l.mapM f = .ok bs ∧ bs.foldlM g c = .ok r := by
  induction l generalizing c with
  | nil =>
    rw [foldlM_nil]
    refine ⟨fun h => ⟨[], rfl, h⟩, ?_⟩
    rintro ⟨bs, hbs, h⟩
    rwa [← Except.ok.inj (hbs : Except.ok [] = Except.ok bs)] at h
  | cons a l ih =>
    rw [foldlM_cons, bind_eq_ok]
    constructor
    · rintro ⟨c', hc', h⟩
      obtain ⟨b, hb, hg⟩ := bind_eq_ok.mp hc'
      obtain ⟨bs, hbs, hres⟩ := ih.mp h
      refine ⟨b :: bs, mapM_eq_ok.mpr (List.Forall₂.cons hb (mapM_eq_ok.mp hbs)), ?_⟩
      rw [foldlM_cons]
      exact bind_eq_ok.mpr ⟨c', hg, hres⟩
    · rintro ⟨bs, hbs, h⟩
      obtain ⟨b, bs, hb, hall, rfl⟩ := List.forall₂_cons_left_iff.mp (mapM_eq_ok.mp hbs)
      rw [foldlM_cons] at h
      obtain ⟨c', hg, hres⟩ := bind_eq_ok.mp h
      exact ⟨c', bind_eq_ok.mpr ⟨b, hb, hg⟩, ih.mpr ⟨bs, mapM_eq_ok.mpr hall, hres⟩⟩

/-! ## Computations that agree -/

variable {E' : Type}

/-- **Two computations agree** if they succeed with the same; their failures may
be different. -/
def Agree (x : Except E A) (y : Except E' A) : Prop := ∀ a, x = .ok a ↔ y = .ok a

namespace Agree

theorem ok (a : A) : Agree (.ok a : Except E A) (.ok a : Except E' A) := fun _ =>
  ⟨fun h => congrArg _ (Except.ok.inj h), fun h => congrArg _ (Except.ok.inj h)⟩

theorem error (e : E) (e' : E') : Agree (.error e : Except E A) (.error e') := fun _ =>
  ⟨fun h => (by cases h), fun h => (by cases h)⟩

theorem okOr (x : Option A) (e : E) (e' : E') : Agree (okOr x e) (Result.okOr x e') := fun _ =>
  okOr_eq_ok.trans okOr_eq_ok.symm

theorem refuse {p q : Prop} [Decidable p] [Decidable q] (h : p ↔ q) (e : E) (e' : E') :
    Agree (refuse p e) (Result.refuse q e') := fun _ =>
  refuse_eq_ok.trans ((not_congr h).trans refuse_eq_ok.symm)

variable {g : A → Except E' B} {y : Except E' A}

/-- **Chains agree** step by step. The next step may rely on what has succeeded. -/
theorem bind_of (h : Agree x y)
    (hf : ∀ a, x = .ok a → Agree (f a) (g a)) : Agree (x >>= f) (y >>= g) := by
  intro b
  rw [bind_eq_ok, bind_eq_ok]
  constructor
  · rintro ⟨a, ha, hb⟩
    exact ⟨a, (h a).mp ha, (hf a ha b).mp hb⟩
  · rintro ⟨a, ha, hb⟩
    exact ⟨a, (h a).mpr ha, (hf a ((h a).mpr ha) b).mpr hb⟩

theorem bind (h : Agree x y)
    (hf : ∀ a, Agree (f a) (g a)) : Agree (x >>= f) (y >>= g) :=
  h.bind_of fun a _ => hf a

theorem map (h : Agree x y) (f : A → B) : Agree (f <$> x) (f <$> y) := by
  rw [map_eq_pure_bind, map_eq_pure_bind]
  exact h.bind fun _ => ok _

theorem mapM (h : ∀ a, Agree (f a) (g a))
    (l : List A) : Agree (l.mapM f) (l.mapM g) := by
  intro r
  rw [mapM_eq_ok, mapM_eq_ok]
  exact ⟨fun hall => hall.imp fun a b => (h a b).mp, fun hall => hall.imp fun a b => (h a b).mpr⟩

theorem foldlM {f : B → A → Except E B} {g : B → A → Except E' B}
    (h : ∀ b a, Agree (f b a) (g b a)) (l : List A) (b : B) :
    Agree (l.foldlM f b) (l.foldlM g b) := by
  induction l generalizing b with
  | nil => exact ok b
  | cons a l ih => exact (h b a).bind fun b' => ih b'

end Agree

end Result

end Logan
