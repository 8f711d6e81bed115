import Mathlib.Data.List.Basic
import Mathlib.Data.List.Infix

/-!
# Greedy continuations

A next-token function continues a list, one token after the other: each token is
what the function has for the list before it. Whether a list is the beginning of
this continuation can be told token by token (`Greedy`), and so it can be found
out in pieces: a list is greedy if its beginning is, and its rest is greedy from
there.
-/

namespace Logan

variable {A : Type} (next : List A → A)

/-- **The greedy continuation** of a list, up to a length. -/
def continuation (start : List A) : ℕ → List A
  | 0 => []
  | n + 1 => next start :: continuation (start ++ [next start]) n

/-- **Each token is the next one** after those before it. -/
def Greedy (start : List A) : List A → Prop
  | [] => True
  | a :: l => a = next start ∧ Greedy (start ++ [a]) l

@[simp] theorem length_continuation (start : List A) (n : ℕ) :
    (continuation next start n).length = n := by
  induction n generalizing start with
  | zero => rfl
  | succ n ih => exact congrArg Nat.succ (ih _)

theorem continuation_add (start : List A) (m n : ℕ) : continuation next start (m + n)
      = continuation next start m ++ continuation next (start ++ continuation next start m) n := by
  induction m generalizing start with
  | zero =>
    rw [Nat.zero_add, continuation, List.append_nil]
    rfl
  | succ m ih =>
    rw [Nat.succ_add, continuation, ih, continuation, List.append_assoc, List.singleton_append]
    rfl

variable {next}

/-- **A list is greedy** exactly if it is the continuation of its length. -/
theorem greedy_iff {start l : List A} :
    Greedy next start l ↔ l = continuation next start l.length := by
  induction l generalizing start with
  | nil => exact iff_of_true trivial rfl
  | cons a l ih =>
    show a = next start ∧ _ ↔ a :: l = next start :: _
    rw [ih, List.cons.injEq]
    refine and_congr_right ?_
    rintro rfl
    rfl

/-- **A list is greedy in pieces.** -/
theorem greedy_append {start l r : List A} :
    Greedy next start (l ++ r) ↔ Greedy next start l ∧ Greedy next (start ++ l) r := by
  induction l generalizing start with
  | nil => exact ⟨fun h => ⟨trivial, by rwa [List.append_nil]⟩, fun h => by simpa using h.2⟩
  | cons a l ih =>
    show a = _ ∧ Greedy next (start ++ [a]) (l ++ r) ↔ (a = _ ∧ Greedy next (start ++ [a]) l) ∧ _
    rw [ih, and_assoc, List.append_assoc, List.singleton_append]

theorem greedy_concat {start l : List A} {a : A} :
    Greedy next start (l ++ [a]) ↔ Greedy next start l ∧ a = next (start ++ l) := by
  rw [greedy_append]
  exact and_congr_right fun _ => and_iff_left trivial

end Logan
