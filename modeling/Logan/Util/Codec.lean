import Logan.Util.Memory

/-!
# Readers, and the grammars that they read

A **reader** takes values off the front of an input. What it does is said by
its **grammar**: which values are written how. A reader `Reads` a grammar if
it returns a value exactly when the input begins with a writing of it, and
then leaves the rest. This is at once the round trip in both directions –
what is written is read back, and what is read had been written that way –
and it goes along with the way in which a reader is put together from
smaller ones.

A reader is **frugal** if it is harmless wherever it starts.
-/

namespace Logan

open List
open List (append_nil)
open Metered (harmless_bind harmless_pure harmless_reserve reserve_eq_ok)

/-- **An input**: a state of reading, by what is still to be read. -/
class Source (S : Type) (B : outParam Type) where
  rest : S → List B
  rest_injective : Function.Injective rest
  /-- One can go on to any later place. -/
  advance : ∀ (s : S) (w t : List B), rest s = w ++ t → ∃ s', rest s' = t

export Source (rest)

/-- The input may be just the list of what is still to be read. -/
instance {B : Type} : Source (List B) B where
  rest := id
  rest_injective := Function.injective_id
  advance := fun _ _ t _ => ⟨t, rfl⟩

/-- **A reader**, from a state of reading to a value and a later state. -/
def Reader (S E A : Type) : Type := S → Metered E (A × S)

namespace Reader

variable {S B E F A C : Type}

instance : Monad (Reader S E) where
  pure a := fun s => pure (a, s)
  bind r f := fun s => Metered.bind (r s) fun p => f p.1 p.2

/-- An error that is returned. -/
def fail (e : E) : Reader S E A := fun _ => Metered.fail e

def panic : Reader S E A := fun _ => Metered.panic

/-- A computation that reads nothing. -/
def lift (x : Metered E A) : Reader S E A := fun s => x >>= fun a => pure (a, s)

/-- `map_err` -/
def mapError (f : E → F) (r : Reader S E A) : Reader S F A := fun s => (r s).mapError f

/-- `n` values, one after the other: the loop `for _ in 0..n`. -/
def times : ℕ → Reader S E A → Reader S E (List A)
  | 0, _ => pure []
  | n + 1, r => do
    let a ← r
    let l ← times n r
    pure (a :: l)

/-- `n` values in a vector: `Vec::with_capacity(n)`, and a loop that pushes. -/
def vec (size n : ℕ) (r : Reader S E A) : Reader S E (Vec size A) := do
  lift (Metered.reserve (size * n))
  let l ← times n r
  lift (Metered.lift (Vec.ofList size l))

/-- One of two readers, as the end has been reached or not. -/
def ifDone (isDone : S → Bool) (r t : Reader S E A) : Reader S E A :=
  fun s => if isDone s then r s else t s

/-- Reading a whole input: nothing may be left after it. -/
def complete (r : Reader S E A) (isDone : S → Bool) (trailing : E) (s : S) : Metered E A :=
  r s >>= fun p => if isDone p.2 then pure p.1 else Metered.fail trailing

theorem bind_apply (r : Reader S E A) (f : A → Reader S E C) (s : S) :
    (r >>= f) s = r s >>= fun p => f p.1 p.2 := rfl

theorem pure_apply (a : A) (s : S) : (pure a : Reader S E A) s = pure (a, s) := rfl

theorem ifDone_of_done {isDone : S → Bool} {s : S} (h : isDone s = true)
    (r t : Reader S E A) : ifDone isDone r t s = r s := if_pos h

theorem ifDone_of_not_done {isDone : S → Bool} {s : S} (h : ¬ isDone s = true)
    (r t : Reader S E A) : ifDone isDone r t s = t s := if_neg h

/-- **A chain of readers returns** if each of them does, from where the one
before it has stopped. -/
theorem bind_eq_ok {r : Reader S E A} {f : A → Reader S E C} {s s' : S} {c : C} :
    ((r >>= f) s).result = .ok (c, s') ↔
      ∃ a t, (r s).result = .ok (a, t) ∧ (f a t).result = .ok (c, s') := by
  rw [bind_apply, Metered.bind_eq_ok]
  constructor
  · rintro ⟨⟨a, t⟩, hr, hf⟩
    exact ⟨a, t, hr, hf⟩
  · rintro ⟨a, t, hr, hf⟩
    exact ⟨(a, t), hr, hf⟩

theorem pure_eq_ok {s s' : S} {a a' : A} :
    ((pure a : Reader S E A) s).result = .ok (a', s') ↔ a' = a ∧ s' = s := by
  rw [pure_apply, Metered.pure_result]
  constructor
  · intro h
    cases h
    exact ⟨rfl, rfl⟩
  · rintro ⟨rfl, rfl⟩
    rfl

theorem lift_eq_ok {x : Metered E A} {s s' : S} {a : A} :
    ((lift x : Reader S E A) s).result = .ok (a, s') ↔ x.result = .ok a ∧ s' = s := by
  unfold lift
  rw [Metered.bind_eq_ok]
  constructor
  · rintro ⟨_, hx, h⟩
    cases h
    exact ⟨hx, rfl⟩
  · rintro ⟨hx, rfl⟩
    exact ⟨a, hx, rfl⟩

theorem length_of_times {n : ℕ} {r : Reader S E A} {s s' : S} {l : List A}
    (h : (times n r s).result = .ok (l, s')) : l.length = n := by
  induction n generalizing l s s' with
  | zero =>
    rw [(pure_eq_ok.mp h).1]
    rfl
  | succ n ih =>
    obtain ⟨a, t, -, h⟩ := bind_eq_ok.mp h
    obtain ⟨l', u, hl', h⟩ := bind_eq_ok.mp h
    rw [(pure_eq_ok.mp h).1, length_cons, ih hl']

end Reader

/-! ## Grammars -/

variable {S B E F A C : Type} [Source S B]

/-- **A reader of a grammar**, which says of a value and a list whether the
value can be written as the list. -/
def Reads (r : Reader S E A) (W : A → List B → Prop) : Prop :=
  ∀ s a s', (r s).result = .ok (a, s') ↔ ∃ w, W a w ∧ rest s = w ++ rest s'

/-- **Values one after the other**, each written in some way. -/
def EachAs (W : A → List B → Prop) (l : List A) (w : List B) : Prop :=
  ∃ ws, List.Forall₂ W l ws ∧ w = ws.flatten

omit [Source S B] in
theorem EachAs.map {D : Type} {W : A → List B → Prop} {V : A → List D → Prop} {f : B → D}
    (hW : ∀ a w, W a w → V a (w.map f)) {l : List A} {w : List B} (h : EachAs W l w) :
    EachAs V l (w.map f) := by
  obtain ⟨ws, hws, rfl⟩ := h
  refine ⟨ws.map (List.map f), ?_, by rw [map_flatten]⟩
  rw [List.forall₂_map_right_iff]
  exact hws.imp fun a w => hW a w

variable {enc : A → List B} {size : ℕ}

namespace Reads

variable {r : Reader S E A} {W W' : A → List B → Prop}

theorem congr (h : Reads r W) (hW : ∀ a w, W a w ↔ W' a w) : Reads r W' := by
  intro s a s'
  rw [h s a s']
  simp only [hW]

theorem pure (a : A) : Reads (Pure.pure a : Reader S E A) (fun a' w => a' = a ∧ w = []) := by
  intro s a' s'
  rw [Reader.pure_eq_ok]
  constructor
  · rintro ⟨rfl, rfl⟩
    exact ⟨[], ⟨rfl, rfl⟩, rfl⟩
  · rintro ⟨_, ⟨rfl, rfl⟩, hres⟩
    exact ⟨rfl, (Source.rest_injective hres).symm⟩

theorem fail (e : E) : Reads (Reader.fail e : Reader S E A) (fun _ _ => False) := by
  intro s a s'
  constructor
  · exact nofun
  · rintro ⟨_, h, -⟩
    exact h.elim

theorem panic : Reads (Reader.panic : Reader S E A) (fun _ _ => False) := by
  intro s a s'
  constructor
  · exact nofun
  · rintro ⟨_, h, -⟩
    exact h.elim

theorem lift {x : Metered E A} :
    Reads (Reader.lift x : Reader S E A) (fun a w => x.result = .ok a ∧ w = []) := by
  intro s a s'
  rw [Reader.lift_eq_ok]
  constructor
  · rintro ⟨hx, rfl⟩
    exact ⟨[], ⟨hx, rfl⟩, rfl⟩
  · rintro ⟨_, ⟨hx, rfl⟩, hres⟩
    exact ⟨hx, (Source.rest_injective hres).symm⟩

/-- **A chain of readers** reads what the first reads, and then what the next
does for the value. -/
theorem bind {f : A → Reader S E C} {V : A → C → List B → Prop} (hr : Reads r W)
    (hf : ∀ a, Reads (f a) (V a)) :
    Reads (r >>= f) (fun c w => ∃ a w₁ w₂, W a w₁ ∧ V a c w₂ ∧ w = w₁ ++ w₂) := by
  intro s c s'
  rw [Reader.bind_eq_ok]
  constructor
  · rintro ⟨a, t, hfst, hnex⟩
    obtain ⟨w₁, hw₁, hres₁⟩ := (hr s a t).mp hfst
    obtain ⟨w₂, hw₂, hres₂⟩ := (hf a t c s').mp hnex
    exact ⟨w₁ ++ w₂, ⟨a, w₁, w₂, hw₁, hw₂, rfl⟩, by rw [hres₁, hres₂, append_assoc]⟩
  · rintro ⟨_, ⟨a, w₁, w₂, hw₁, hw₂, rfl⟩, hres⟩
    rw [append_assoc] at hres
    obtain ⟨t, ht⟩ := Source.advance s w₁ _ hres
    exact ⟨a, t, (hr s a t).mpr ⟨w₁, hw₁, by rw [hres, ht]⟩,
      (hf a t c s').mpr ⟨w₂, hw₂, ht⟩⟩

/-- **A chain after a value that has one writing**, which is then the front
of the writing. -/
theorem bind_written {f : A → Reader S E C} {V : A → C → List B → Prop}
    (hr : Reads r (fun a w => w = enc a)) (hf : ∀ a, Reads (f a) (V a)) :
    Reads (r >>= f) (fun c w => ∃ a w', V a c w' ∧ w = enc a ++ w') := by
  refine (bind hr hf).congr (fun c w => ?_)
  constructor
  · rintro ⟨a, _, w₂, rfl, hV, hw⟩
    exact ⟨a, w₂, hV, hw⟩
  · rintro ⟨a, w', hV, hw⟩
    exact ⟨a, enc a, w', rfl, hV, hw⟩

/-- The last value of a chain, made into what the chain returns. -/
theorem map_written {g : A → C} (hr : Reads r (fun a w => w = enc a)) :
    Reads (r >>= fun a => Pure.pure (g a)) (fun c w => ∃ a, c = g a ∧ w = enc a) := by
  refine (bind_written hr fun a => pure (g a)).congr fun c w => ?_
  constructor
  · rintro ⟨a, _, ⟨rfl, rfl⟩, rfl⟩
    exact ⟨a, rfl, append_nil _⟩
  · rintro ⟨a, rfl, rfl⟩
    exact ⟨a, [], ⟨rfl, rfl⟩, (append_nil _).symm⟩

/-- A check before the rest, which may rely on it. -/
theorem guard_of {p : Prop} [Decidable p] {e : E} (hr : ¬ p → Reads r W) :
    Reads (if p then Reader.fail e else r) (fun a w => ¬ p ∧ W a w) := by
  by_cases hp : p
  · rw [if_pos hp]
    exact (fail e).congr fun a w => iff_of_false id (fun h => h.1 hp)
  · rw [if_neg hp]
    exact (hr hp).congr fun a w => (and_iff_right hp).symm

theorem guard {p : Prop} [Decidable p] {e : E} (hr : Reads r W) :
    Reads (if p then Reader.fail e else r) (fun a w => ¬ p ∧ W a w) := guard_of fun _ => hr

theorem guard_panic {p : Prop} [Decidable p] (hr : Reads r W) :
    Reads (if p then Reader.panic else r) (fun a w => ¬ p ∧ W a w) := by
  by_cases hp : p
  · rw [if_pos hp]
    exact panic.congr fun a w => iff_of_false id (fun h => h.1 hp)
  · rw [if_neg hp]
    exact hr.congr fun a w => (and_iff_right hp).symm

theorem mapError {f : E → F} (hr : Reads r W) : Reads (r.mapError f) W := by
  intro s a s'
  rw [← hr s a s']
  exact Metered.mapError_eq_ok

/-- **A number of values**, each written as it is. What is known of each of them is known of
all. -/
theorem times_of {P : A → Prop} (hr : Reads r (fun a w => P a ∧ w = enc a)) (n : ℕ) :
    Reads (Reader.times n r) (fun l w => l.length = n ∧ (∀ a ∈ l, P a) ∧ w = l.flatMap enc) := by
  induction n with
  | zero =>
    refine (pure []).congr fun l w => ?_
    rw [length_eq_zero_iff]
    constructor
    · rintro ⟨rfl, rfl⟩
      exact ⟨rfl, fun a ha => absurd ha not_mem_nil, rfl⟩
    · rintro ⟨rfl, -, rfl⟩
      exact ⟨rfl, rfl⟩
  | succ n ih =>
    refine (bind hr fun a => bind ih fun l => pure (a :: l)).congr fun l w => ?_
    constructor
    · rintro ⟨a, _, _, ⟨ha, rfl⟩, ⟨l', _, _, ⟨hlen, hl, rfl⟩, ⟨rfl, rfl⟩, rfl⟩, rfl⟩
      exact ⟨by rw [length_cons, hlen], forall_mem_cons.mpr ⟨ha, hl⟩,
        by rw [flatMap_cons, append_nil]⟩
    · rintro ⟨hlen, hall, rfl⟩
      obtain ⟨a, l', rfl⟩ := exists_cons_of_length_eq_add_one hlen
      obtain ⟨ha, hl⟩ := forall_mem_cons.mp hall
      exact ⟨a, _, _, ⟨ha, rfl⟩, ⟨l', _, [], ⟨Nat.succ.inj hlen, hl, rfl⟩, ⟨rfl, rfl⟩,
        (append_nil _).symm⟩, flatMap_cons⟩

theorem times (hr : Reads r (fun a w => w = enc a)) (n : ℕ) :
    Reads (Reader.times n r) (fun l w => l.length = n ∧ w = l.flatMap enc) := by
  refine (times_of (hr.congr fun a w => (and_iff_right trivial).symm) n).congr
    fun l w => ?_
  exact and_congr_right fun _ => and_iff_right fun _ _ => trivial

/-- **A number of values**, whose writings follow one another. -/
theorem times_each (hr : Reads r W) (n : ℕ) :
    Reads (Reader.times n r) (fun l w => l.length = n ∧ EachAs W l w) := by
  induction n with
  | zero =>
    refine (pure []).congr fun l w => ?_
    rw [length_eq_zero_iff]
    constructor
    · rintro ⟨rfl, rfl⟩
      exact ⟨rfl, [], .nil, rfl⟩
    · rintro ⟨rfl, _, h, rfl⟩
      cases h
      exact ⟨rfl, rfl⟩
  | succ n ih =>
    refine (bind hr fun a => bind ih fun l => pure (a :: l)).congr fun l w => ?_
    constructor
    · rintro ⟨a, w₁, _, ha, ⟨l', w₂, _, ⟨rfl, ws, hws, rfl⟩, ⟨rfl, rfl⟩, rfl⟩, rfl⟩
      exact ⟨rfl, w₁ :: ws, .cons ha hws, by rw [append_nil, flatten_cons]⟩
    · rintro ⟨hlen, ws, h, rfl⟩
      cases h with
      | nil => cases hlen
      | @cons a w₁ l ws ha hws =>
        exact ⟨a, w₁, _, ha, ⟨l, _, [], ⟨Nat.succ.inj hlen, ws, hws, rfl⟩, ⟨rfl, rfl⟩,
          (append_nil _).symm⟩, flatten_cons⟩

/-- A vector of values, whose writings follow one another. -/
theorem vec_each (hr : Reads r W) (n : ℕ) : Reads (Reader.vec size n r)
      (fun v w => v.toList.length = n ∧ EachAs W v.toList w) := by
  refine (bind lift fun _ => bind (times_each hr n) fun l => lift).congr fun v w => ?_
  constructor
  · rintro ⟨_, _, _, ⟨-, rfl⟩, ⟨l, _, _, ⟨hlen, hl⟩, ⟨hv, rfl⟩, rfl⟩, rfl⟩
    obtain rfl := Vec.ofList_eq_ok.mp hv
    rw [nil_append, append_nil]
    exact ⟨hlen, hl⟩
  · rintro ⟨rfl, hl⟩
    exact ⟨(), [], w, ⟨reserve_eq_ok.mpr v.fits, rfl⟩,
      ⟨v.toList, w, [], ⟨rfl, hl⟩, ⟨Vec.ofList_eq_ok.mpr rfl, rfl⟩, (append_nil _).symm⟩, rfl⟩

/-- **A vector of values**, each written as it is. -/
theorem vec_of {P : A → Prop} (hr : Reads r (fun a w => P a ∧ w = enc a)) (n : ℕ) :
    Reads (Reader.vec size n r)
      (fun v w => v.toList.length = n ∧ (∀ a ∈ v.toList, P a) ∧ w = v.toList.flatMap enc) := by
  refine (bind lift fun _ => bind (times_of hr n) fun l => lift).congr fun v w => ?_
  constructor
  · rintro ⟨_, _, _, ⟨-, rfl⟩, ⟨l, _, _, ⟨hlen, hall, rfl⟩, ⟨hl, rfl⟩, rfl⟩, rfl⟩
    obtain rfl := Vec.ofList_eq_ok.mp hl
    exact ⟨hlen, hall, by rw [nil_append, append_nil]⟩
  · rintro ⟨rfl, hall, rfl⟩
    exact ⟨(), [], _, ⟨reserve_eq_ok.mpr v.fits, rfl⟩,
      ⟨v.toList, _, [], ⟨rfl, hall, rfl⟩, ⟨Vec.ofList_eq_ok.mpr rfl, rfl⟩,
        (append_nil _).symm⟩, rfl⟩

theorem vec (hr : Reads r (fun a w => w = enc a)) (n : ℕ) :
    Reads (Reader.vec size n r) (fun v w => v.toList.length = n ∧ w = v.toList.flatMap enc) := by
  refine (vec_of (hr.congr fun a w => (and_iff_right trivial).symm) n).congr fun v w => ?_
  exact and_congr_right fun _ => and_iff_right fun _ _ => trivial

/-- **A whole input is read** if it is a writing of the value. -/
theorem complete_eq_ok {isDone : S → Bool} (hdon : ∀ s, isDone s = true ↔ rest s = [])
    (hr : Reads r W) {e : E} {s : S} {a : A} :
    (r.complete isDone e s).result = .ok a ↔ W a (rest s) := by
  unfold Reader.complete
  rw [Metered.bind_eq_ok]
  constructor
  · rintro ⟨⟨a', t⟩, hrt, h⟩
    obtain ⟨w, hw, hres⟩ := (hr s a' t).mp hrt
    by_cases ht : isDone t = true
    · rw [if_pos ht] at h
      obtain rfl := Except.ok.inj h
      rwa [hres, (hdon t).mp ht, append_nil]
    · rw [if_neg ht] at h
      cases h
  · intro hw
    obtain ⟨t, ht⟩ := Source.advance s (rest s) [] (append_nil _).symm
    refine ⟨(a, t), (hr s a t).mpr ⟨_, hw, by rw [ht, append_nil]⟩, ?_⟩
    rw [if_pos ((hdon t).mpr ht)]
    rfl

end Reads

/-! ## Frugal readers -/

/-- A chain of readers is harmless at a place if the first is there, and the
rest is wherever the first stops. -/
theorem harmless_bind_reader {n : ℕ} {r : Reader S E A} {f : A → Reader S E C} {s : S} :
    ((r >>= f) s).Harmless n ↔
      (r s).Harmless n ∧ ∀ a t, (r s).result = .ok (a, t) → (f a t).Harmless n := by
  rw [Reader.bind_apply, harmless_bind]
  refine and_congr_right fun _ => ⟨fun h a t => h (a, t), ?_⟩
  rintro h ⟨a, t⟩
  exact h a t

/-- **A frugal reader** is harmless wherever it starts. -/
def Frugal (n : ℕ) (r : Reader S E A) : Prop :=
  ∀ s, (r s).Harmless n

namespace Frugal

variable {n : ℕ} {r : Reader S E A}

omit [Source S B]

theorem pure (a : A) : Frugal n (Pure.pure a : Reader S E A) := fun _ => harmless_pure _

theorem fail (e : E) : Frugal n (Reader.fail e : Reader S E A) := fun _ => Metered.harmless_fail _

theorem bind {f : A → Reader S E C} (hr : Frugal n r) (hf : ∀ a, Frugal n (f a)) :
    Frugal n (r >>= f) := by
  intro s
  rw [Reader.bind_apply]
  exact harmless_bind.mpr ⟨hr s, fun p _ => hf p.1 p.2⟩

theorem guard {p : Prop} [Decidable p] {e : E} (hr : Frugal n r) :
    Frugal n (if p then Reader.fail e else r) := by
  split
  · exact fail e
  · exact hr

theorem lift {x : Metered E A} (hx : x.Harmless n) : Frugal n (Reader.lift x : Reader S E A) :=
  fun _ => harmless_bind.mpr ⟨hx, fun _ _ => harmless_pure _⟩

theorem mapError {f : E → F} (hr : Frugal n r) : Frugal n (r.mapError f) :=
  fun s => Metered.harmless_mapError.mpr (hr s)

theorem times (hr : Frugal n r) (k : ℕ) : Frugal n (Reader.times k r) := by
  induction k with
  | zero => exact pure []
  | succ k ih => exact bind hr fun a => bind ih fun l => pure (a :: l)

/-- **A vector of values is harmless** if and only if a vector may have that
size, and it is below the bound. -/
theorem harmless_vec (hr : Frugal n r) {k : ℕ} {s : S} :
    (Reader.vec size k r s).Harmless n ↔ size * k ≤ isizeMax ∧ size * k ≤ n := by
  rw [Reader.vec, harmless_bind_reader]
  constructor
  · intro h
    exact harmless_reserve.mp (harmless_bind.mp h.1).1
  · intro h
    refine ⟨lift (harmless_reserve.mpr h) s, fun _ t _ => ?_⟩
    rw [harmless_bind_reader]
    refine ⟨times hr k t, fun l u hl => ?_⟩
    refine lift (Metered.harmless_lift_ofList ?_) u
    rw [Reader.length_of_times hl]
    exact h.1

/-- After a frugal reader, it is what comes next that matters. -/
theorem harmless_bind {f : A → Reader S E C} (hr : Frugal n r) {s : S} :
    ((r >>= f) s).Harmless n ↔ ∀ a t, (r s).result = .ok (a, t) → (f a t).Harmless n := by
  rw [harmless_bind_reader]
  exact and_iff_right (hr s)

/-- After a frugal reader of a grammar, it is what comes behind a writing
that matters. -/
theorem harmless_bind_reads [Source S B] {W : A → List B → Prop} {f : A → Reader S E C}
    (hr : Frugal n r) (hrd : Reads r W) {s : S} :
    ((r >>= f) s).Harmless n ↔ ∀ a w t, W a w → rest s = w ++ rest t → (f a t).Harmless n := by
  rw [hr.harmless_bind]
  constructor
  · intro h a w t hw hres
    exact h a t ((hrd s a t).mpr ⟨w, hw, hres⟩)
  · intro h a t ht
    obtain ⟨w, hw, hres⟩ := (hrd s a t).mp ht
    exact h a w t hw hres

end Frugal

/-- **A number of readings is harmless** if the next one always is, wherever fewer of them have
led. -/
theorem harmless_times {n k : ℕ} {r : Reader S E A} {P : A → Prop}
    (hr : Reads r (fun a w => P a ∧ w = enc a)) {s : S} :
    (Reader.times k r s).Harmless n ↔ ∀ (l : List A) (t : S), l.length < k → (∀ a ∈ l, P a) →
      rest s = l.flatMap enc ++ rest t → (r t).Harmless n := by
  induction k generalizing s with
  | zero =>
    exact iff_of_true (harmless_pure _) fun l _ h => absurd h (Nat.not_lt_zero _)
  | succ k ih =>
    rw [Reader.times, harmless_bind_reader]
    constructor
    · rintro ⟨hfst, hnex⟩ l t hlen hl hres
      cases l with
      | nil =>
        obtain rfl := Source.rest_injective hres
        exact hfst
      | cons a l =>
        obtain ⟨ha, hl⟩ := forall_mem_cons.mp hl
        rw [flatMap_cons, append_assoc] at hres
        obtain ⟨u, hu⟩ := Source.advance s (enc a) _ hres
        have hrd := (hr s a u).mpr ⟨enc a, ⟨ha, rfl⟩, by rw [hu, hres]⟩
        have htim := (harmless_bind_reader.mp (hnex a u hrd)).1
        exact ih.mp htim l t (Nat.lt_of_succ_lt_succ hlen) hl hu
    · intro h
      refine ⟨h [] s (Nat.succ_pos k) (fun a ha => absurd ha not_mem_nil) rfl, fun a u hrd => ?_⟩
      obtain ⟨_, ⟨ha, rfl⟩, hres⟩ := (hr s a u).mp hrd
      refine harmless_bind_reader.mpr ⟨ih.mpr fun l t hlen hl ht => ?_,
        fun _ _ _ => harmless_pure _⟩
      refine h (a :: l) t (Nat.succ_lt_succ hlen) (forall_mem_cons.mpr ⟨ha, hl⟩) ?_
      rw [hres, ht, flatMap_cons, append_assoc]

/-- **A vector is read without harm** if there is room for it, and its values are. -/
theorem harmless_vec_of {n k : ℕ} {r : Reader S E A} {s : S} : (Reader.vec size k r s).Harmless n ↔
      (size * k ≤ isizeMax ∧ size * k ≤ n) ∧ (Reader.times k r s).Harmless n := by
  rw [Reader.vec, harmless_bind_reader]
  constructor
  · rintro ⟨hres, hrst⟩
    have hrm := harmless_reserve.mp (harmless_bind.mp hres).1
    exact ⟨hrm, (harmless_bind_reader.mp (hrst () s
      (Reader.lift_eq_ok.mpr ⟨reserve_eq_ok.mpr hrm.1, rfl⟩))).1⟩
  · rintro ⟨hrm, htim⟩
    refine ⟨Frugal.lift (harmless_reserve.mpr hrm) s, fun _ t ht => ?_⟩
    obtain ⟨-, rfl⟩ := Reader.lift_eq_ok.mp ht
    refine harmless_bind_reader.mpr ⟨htim, fun l u hl => ?_⟩
    refine Frugal.lift (Metered.harmless_lift_ofList ?_) u
    rw [Reader.length_of_times hl]
    exact hrm.1

/-- Looking whether anything is left does no harm. -/
theorem harmless_complete {n : ℕ} {r : Reader S E A} {isDone : S → Bool} {e : E} {s : S} :
    (r.complete isDone e s).Harmless n ↔ (r s).Harmless n := by
  refine harmless_bind.trans (and_iff_left fun p _ => ?_)
  split
  · exact harmless_pure _
  · exact Metered.harmless_fail _

end Logan
