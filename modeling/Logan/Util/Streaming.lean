import Mathlib.Data.List.Basic
import Mathlib.Tactic

/-!
# Reading a stream in pieces

A program reads a stream in pieces of any size. It keeps what it has not consumed yet,
appends each piece to it, and then works in **rounds**: each of them consumes something and
puts out something, or it is the last one, or it fails. When the stream is over, the rounds
are the same but for what they do with a rest that could have gone on.

If a round would be the same on a longer rest, and a last round loses nothing, then what is
put out does not depend on where the stream is cut (`Feeder.Seamless.read`). The outputs are
compared by a view of them, which may join what is put out in parts.
-/

namespace Logan

open Option

namespace Streaming

variable {S O E B V : Type}

/-- What a round does: it is the last one, it fails, or there is a next one. -/
inductive Round (S O E : Type) where
  | stop (out : List O) (s : S)
  | fail (e : E)
  | next (out : List O) (s : S)

/-- At most some number of rounds. `none`: they were not enough. -/
def rounds (step : S → Round S O E) : ℕ → S → Option (Except E (List O × S))
  | 0, _ => none
  | n + 1, s =>
    match step s with
    | .stop out s' => some (.ok (out, s'))
    | .fail e => some (.error e)
    | .next out s' => (rounds step n s').map fun r => r.map fun p => (out ++ p.1, p.2)

/-- **Rounds that make something smaller**, if they are not the last. -/
def Shrinks (step : S → Round S O E) (size : S → ℕ) : Prop :=
  ∀ s out s', step s = .next out s' → size s' < size s

/-- **The rounds end**, after as many of them as there is something to consume. -/
theorem isSome_rounds {step : S → Round S O E} {size : S → ℕ} (h : Shrinks step size) {n : ℕ}
    {s : S} (hn : size s < n) : (rounds step n s).isSome := by
  induction n generalizing s with
  | zero => exact absurd hn (Nat.not_lt_zero _)
  | succ n ih =>
    rw [rounds]
    cases hs : step s with
    | stop | fail => rfl
    | next out s' =>
      have hlt := h s out s' hs
      rw [isSome_map]
      exact ih (by omega)

/-- More rounds than needed change nothing. -/
theorem rounds_eq_of_le {step : S → Round S O E} {n m : ℕ} {s : S} (hn : (rounds step n s).isSome)
    (hle : n ≤ m) : rounds step m s = rounds step n s := by
  induction n generalizing s m with
  | zero => cases hn
  | succ n ih =>
    obtain ⟨m, rfl⟩ := Nat.exists_eq_succ_of_ne_zero (by omega : m ≠ 0)
    rw [rounds] at hn ⊢
    rw [rounds]
    cases hs : step s with
    | stop | fail => rfl
    | next out s' =>
      rw [hs, isSome_map] at hn
      show (rounds step m s').map _ = (rounds step n s').map _
      rw [ih hn (Nat.le_of_succ_le_succ hle)]

/-- **All rounds.** -/
def loop (step : S → Round S O E) (size : S → ℕ) (h : Shrinks step size) (s : S) :
    Except E (List O × S) :=
  (rounds step (size s + 1) s).get (isSome_rounds h (Nat.lt_succ_self _))

section Loop

variable {step : S → Round S O E} {size : S → ℕ} (h : Shrinks step size) {s s' : S}
  {out : List O} {e : E}

theorem loop_eq_iff {r : Except E (List O × S)} {n : ℕ} (hn : size s < n) :
    rounds step n s = some r ↔ loop step size h s = r := by
  have hsom := isSome_rounds h (Nat.lt_succ_self (size s))
  rw [rounds_eq_of_le hsom hn, eq_some_iff_get_eq]
  exact ⟨fun hr => hr.2, fun hr => ⟨hsom, hr⟩⟩

theorem loop_of_stop (hs : step s = .stop out s') : loop step size h s = .ok (out, s') := by
  refine (loop_eq_iff h (Nat.lt_succ_self _)).mp ?_
  rw [rounds, hs]

theorem loop_of_fail (hs : step s = .fail e) : loop step size h s = .error e := by
  refine (loop_eq_iff h (Nat.lt_succ_self _)).mp ?_
  rw [rounds, hs]

theorem loop_of_next (hs : step s = .next out s') :
    loop step size h s = (loop step size h s').map fun p => (out ++ p.1, p.2) := by
  have hlt := h s out s' hs
  have hres := (loop_eq_iff h (r := loop step size h s') hlt).mpr rfl
  refine (loop_eq_iff h (Nat.lt_succ_self _)).mp ?_
  rw [rounds, hs]
  show (rounds step (size s) s').map _ = _
  rw [hres]
  rfl

end Loop

/-! ## Where the stream is cut -/

/-- **A reader of a stream**: its rounds, while the stream goes on and when it is over; what is
done with what is left after the last round; and what it has consumed not yet, to which pieces
are appended. -/
structure Feeder (S O E B : Type) where
  step : Bool → S → Round S O E
  size : S → ℕ
  shrinks : ∀ final, Shrinks (step final) size
  flush : S → Except E (List O)
  append : S → List B → S

namespace Feeder

variable (m : Feeder S O E B)

/-- The rounds after a piece. -/
def feed (s : S) (piece : List B) : Except E (List O × S) :=
  loop (m.step false) m.size (m.shrinks false) (m.append s piece)

/-- The rounds at the end of the stream, and what is left after them. -/
def finish (s : S) : Except E (List O) :=
  (loop (m.step true) m.size (m.shrinks true) s).bind fun p =>
    (m.flush p.2).map fun out => p.1 ++ out

/-- **A stream is read** in some pieces. -/
def read (s : S) : List (List B) → Except E (List O)
  | [] => m.finish s
  | piece :: pieces =>
    (m.feed s piece).bind fun p => (read p.2 pieces).map fun out => p.1 ++ out

/-- **Outcomes that agree**: both are failures, or both are outputs with the same view. -/
def Agree (view : List O → V) : Except E (List O) → Except E (List O) → Prop
  | .ok a, .ok b => view a = view b
  | .error _, .error _ => True
  | _, _ => False

section Agreement

variable {view : List O → V} {x y z : Except E (List O)}

theorem Agree.refl (x : Except E (List O)) : Agree view x x := by
  cases x with
  | ok => exact rfl
  | error => exact True.intro

theorem Agree.symm (hxy : Agree view x y) : Agree view y x := by
  cases x <;> cases y <;> first | exact hxy.elim | skip
  · exact True.intro
  · exact Eq.symm hxy

theorem Agree.trans (hxy : Agree view x y) (hyz : Agree view y z) : Agree view x z := by
  cases x <;> cases y <;> cases z <;> first | exact hxy.elim | exact hyz.elim | skip
  · exact True.intro
  · exact Eq.trans hxy hyz

theorem Agree.map_append (hvw : ∀ o a b, view a = view b → view (o ++ a) = view (o ++ b))
    (o : List O) (hxy : Agree view x y) : Agree view (x.map (o ++ ·)) (y.map (o ++ ·)) := by
  cases x <;> cases y <;> first | exact hxy.elim | skip
  · exact True.intro
  · exact hvw o _ _ hxy

end Agreement

/-- **A reader that does not see cuts.** A round, and a failure, is the same when the stream goes
on; and to stop at a rest loses nothing. -/
structure Seamless (view : List O → V) : Prop where
  view_append : ∀ o a b, view a = view b → view (o ++ a) = view (o ++ b)
  append_nil : ∀ s, m.append s [] = s
  append_append : ∀ s a b, m.append (m.append s a) b = m.append s (a ++ b)
  next : ∀ s out s', m.step false s = .next out s' →
    ∀ b, m.step true (m.append s b) = .next out (m.append s' b)
  fail : ∀ s e, m.step false s = .fail e → ∀ b, ∃ e', m.step true (m.append s b) = .fail e'
  stop : ∀ s out s', m.step false s = .stop out s' →
    ∀ b, Agree view (m.finish (m.append s b)) ((m.finish (m.append s' b)).map (out ++ ·))

variable {m} {view : List O → V}

theorem finish_of_stop {s s' : S} {out : List O} (hs : m.step true s = .stop out s') :
    m.finish s = (m.flush s').map (out ++ ·) := by
  unfold finish
  rw [loop_of_stop _ hs]
  rfl

theorem finish_of_next {s s' : S} {out : List O} (hs : m.step true s = .next out s') :
    m.finish s = (m.finish s').map (out ++ ·) := by
  unfold finish
  rw [loop_of_next _ hs]
  cases loop (m.step true) m.size (m.shrinks true) s' with
  | error => rfl
  | ok p =>
    show (m.flush p.2).map _ = ((m.flush p.2).map _).map _
    cases m.flush p.2 with
    | error => rfl
    | ok rest => exact congrArg Except.ok (List.append_assoc out p.1 rest)

theorem finish_of_fail {s : S} {e : E} (hs : m.step true s = .fail e) : m.finish s = .error e := by
  unfold finish
  rw [loop_of_fail _ hs]
  rfl

/-- **A piece can be read with what comes after it.** -/
theorem Seamless.feed (h : m.Seamless view) {n : ℕ} {s : S} {r : Except E (List O × S)}
    (hr : rounds (m.step false) n s = some r) (b : List B) : Agree view (m.finish (m.append s b))
      (r.bind fun p => (m.finish (m.append p.2 b)).map (p.1 ++ ·)) := by
  induction n generalizing s r with
  | zero => cases hr
  | succ n ih =>
    rw [rounds] at hr
    cases hs : m.step false s with
    | stop out s' =>
      rw [hs] at hr
      obtain rfl := some.inj hr
      exact h.stop s out s' hs b
    | fail e =>
      rw [hs] at hr
      obtain rfl := some.inj hr
      obtain ⟨e', he'⟩ := h.fail s e hs b
      rw [finish_of_fail he']
      exact True.intro
    | next out s' =>
      rw [hs] at hr
      obtain ⟨r', hr', rfl⟩ := map_eq_some_iff.mp hr
      rw [finish_of_next (h.next s out s' hs b)]
      have hres := (ih hr').map_append h.view_append out
      have heq : (r'.bind fun p => (m.finish (m.append p.2 b)).map (p.1 ++ ·)).map (out ++ ·)
          = (r'.map fun p => (out ++ p.1, p.2)).bind fun p =>
              (m.finish (m.append p.2 b)).map (p.1 ++ ·) := by
        cases r' with
        | error => rfl
        | ok p =>
          show ((m.finish (m.append p.2 b)).map (p.1 ++ ·)).map (out ++ ·)
            = (m.finish (m.append p.2 b)).map (out ++ p.1 ++ ·)
          cases m.finish (m.append p.2 b) with
          | error => rfl
          | ok rest => exact congrArg Except.ok (List.append_assoc out p.1 rest).symm
      exact heq ▸ hres

/-- **A stream can be read in one piece**, at its end. -/
theorem Seamless.read (h : m.Seamless view) (s : S) (pieces : List (List B)) :
    Agree view (m.read s pieces) (m.finish (m.append s pieces.flatten)) := by
  induction pieces generalizing s with
  | nil =>
    rw [List.flatten_nil, h.append_nil]
    exact Agree.refl _
  | cons piece pieces ih =>
    have hfst := h.feed ((loop_eq_iff (m.shrinks false) (Nat.lt_succ_self _)).mpr rfl)
      pieces.flatten (s := m.append s piece)
    rw [h.append_append, ← List.flatten_cons] at hfst
    refine Agree.trans ?_ hfst.symm
    show Agree view ((m.feed s piece).bind fun p => (m.read p.2 pieces).map (p.1 ++ ·))
      ((m.feed s piece).bind fun p => (m.finish (m.append p.2 pieces.flatten)).map (p.1 ++ ·))
    cases m.feed s piece with
    | error => exact True.intro
    | ok p => exact (ih p.2).map_append h.view_append p.1

end Feeder

end Streaming

end Logan
