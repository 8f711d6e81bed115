import Logan.Util.Result

/-!
# Calls that may panic

A call ends with a result, with an error, or not at all: an index out of its
range or a sum that overflows makes the program panic. `orPanic` is such an
operation, `lift` a computation that has none. A chain of computations is free
of panics if its panicking operations all have results, and then it is the lift
of a chain in which they do not occur.
-/

namespace Logan

open List

/-- How a call ends that has no result. -/
inductive Fault (E : Type) where
  | failed (error : E)
  | panicked
deriving DecidableEq

namespace Fault

open Result

variable {E A B C : Type}

/-- A computation that does not panic. -/
def lift : Except E A → Except (Fault E) A
  | .ok a => .ok a
  | .error e => .error (.failed e)

/-- An operation that panics if it has no result. -/
def orPanic (x : Option A) : Except (Fault E) A := okOr x .panicked

/-- An operation on numbers, whose result has to be at most `most`. -/
def fitting (most n : ℕ) : Option ℕ := if n ≤ most then some n else none

/-- A difference of numbers without a sign. -/
def difference (a b : ℕ) : Option ℕ := if b ≤ a then some (a - b) else none

@[simp] theorem lift_ok (a : A) : lift (.ok a : Except E A) = .ok a := rfl

@[simp] theorem orPanic_some (a : A) : orPanic (E := E) (some a) = .ok a := rfl

theorem fitting_of_le {most n : ℕ} (h : n ≤ most) : fitting most n = some n := if_pos h

theorem difference_of_le {a b : ℕ} (h : b ≤ a) : difference a b = some (a - b) := if_pos h

/-! ## Chains without panics -/

@[simp] theorem lift_eq_ok {x : Except E A} {a : A} : lift x = .ok a ↔ x = .ok a := by
  cases x with
  | ok => exact ⟨fun h => congrArg _ (Except.ok.inj h), fun h => congrArg _ (Except.ok.inj h)⟩
  | error => exact ⟨fun h => (by cases h), fun h => (by cases h)⟩

theorem lift_ne_panicked (x : Except E A) : lift x ≠ .error .panicked := by
  cases x with
  | ok | error => exact fun h => (by cases h)

/-- **A chain is lifted** step by step. A step may rely on what has succeeded before. -/
theorem bind_eq_lift {x : Except E A} {f : A → Except (Fault E) B} {g : A → Except E B}
    (h : ∀ a, x = .ok a → f a = lift (g a)) : (lift x >>= f) = lift (x >>= g) := by
  cases x with
  | ok a => exact h a rfl
  | error => rfl

/-- **An operation that has a result** can be left out. -/
theorem orPanic_bind {x : Option A} {a : A} (h : x = some a) (f : A → Except (Fault E) B) :
    (orPanic x >>= f) = f a := by
  rw [h]
  rfl

/-- A loop without panics. -/
theorem mapM_eq_lift {f : A → Except (Fault E) B} {g : A → Except E B} {l : List A}
    (h : ∀ a ∈ l, f a = lift (g a)) : l.mapM f = lift (l.mapM g) := by
  induction l with
  | nil => rfl
  | cons a l ih =>
    rw [mapM_cons, mapM_cons, h a mem_cons_self, ih fun a' ha' => h a' (mem_cons_of_mem _ ha')]
    exact bind_eq_lift fun b _ => bind_eq_lift fun bs _ => rfl

/-! ## Where a chain panics -/

/-- **A chain panics** after its first computation, if this does not. -/
theorem lift_bind_eq_panicked {x : Except E A} {f : A → Except (Fault E) B} :
    (lift x >>= f) = .error .panicked ↔ ∃ a, x = .ok a ∧ f a = .error .panicked := by
  rw [bind_eq_error, or_iff_right (lift_ne_panicked x)]
  simp only [lift_eq_ok]

end Fault

end Logan
