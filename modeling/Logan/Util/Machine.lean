import Mathlib.Data.List.AList
import Mathlib.Data.List.MinMax
import Mathlib.Data.List.Sort
import Mathlib.Tactic

/-!
# Deterministic machines and their runs

A **machine** reads one input at a time, answers it and moves on. A run is
a list of inputs, and what a run is asked about comes in three shapes.

* What holds *throughout* it: `Machine.run_of_step` carries an invariant
  from the steps to the run, and `Machine.run_of_along` does so for runs
  every step of which meets a condition (`Machine.Along`).
* What it *wrote down*: `Machine.gather` collects a log, each step
  contributing a list read off its state and its input.
* How often a thing is written down: if every step only logs items it still
  has the right to log, and gives that right up as it does, then no item is
  logged twice in a whole run (`Machine.gather_nodup`); if what it logs only
  ever grows, the log is in increasing order (`Machine.gather_pairwise`).

What a machine *gets to*, in the end, is asked of an infinite schedule of
inputs. If some of the steps lower a rank and none raises it, and a schedule
never neglects those steps for good, then what they work towards is reached
(`Machine.Fair.eventually`).
-/

namespace Logan

open List

/-- **A deterministic machine with outputs.** -/
structure Machine (S I O : Type) where
  /-- The answer to an input, and the state after it. -/
  step : S → I → O × S

namespace Machine

variable {S I O A : Type} (M : Machine S I O)

/-- The state after one input. -/
def next (s : S) (i : I) : S := (M.step s i).2

/-- The answer to one input. -/
def out (s : S) (i : I) : O := (M.step s i).1

/-- The state after a list of inputs. -/
def run (s : S) : List I → S
  | [] => s
  | i :: is => run (M.next s i) is

/-- **The log of a run**: what its steps contribute, in order. -/
def gather (f : S → I → List A) (s : S) : List I → List A
  | [] => []
  | i :: is => f s i ++ gather f (M.next s i) is

/-- **Every step of the run meets a condition**, read on the state it starts
from and the input it reads. -/
def Along (C : S → I → Prop) (s : S) : List I → Prop
  | [] => True
  | i :: is => C s i ∧ Along C (M.next s i) is

/-- **Every state the run enters has a property.** -/
def Within (L : S → Prop) (s : S) (is : List I) : Prop :=
  M.Along (fun s i => L (M.next s i)) s is

instance Along.decidable (C : S → I → Prop) [∀ s i, Decidable (C s i)] (s : S) :
    (is : List I) → Decidable (M.Along C s is)
  | [] => inferInstanceAs (Decidable True)
  | i :: is =>
    have := Along.decidable C (M.next s i) is
    inferInstanceAs (Decidable (C s i ∧ M.Along C (M.next s i) is))

instance (L : S → Prop) [DecidablePred L] (s : S) (is : List I) :
    Decidable (M.Within L s is) :=
  inferInstanceAs (Decidable (M.Along (fun s i => L (M.next s i)) s is))

@[simp] theorem run_nil (s : S) : M.run s [] = s := rfl

@[simp] theorem run_cons (s : S) (i : I) (is : List I) :
    M.run s (i :: is) = M.run (M.next s i) is := rfl

theorem run_append (s : S) (is js : List I) : M.run s (is ++ js) = M.run (M.run s is) js := by
  induction is generalizing s with
  | nil => rfl
  | cons i is ih => exact ih (M.next s i)

theorem gather_append (f : S → I → List A) (s : S) (is js : List I) :
    M.gather f s (is ++ js) = M.gather f s is ++ M.gather f (M.run s is) js := by
  induction is generalizing s with
  | nil => rfl
  | cons i is ih =>
    show f s i ++ M.gather f (M.next s i) (is ++ js) = _
    rw [ih, ← append_assoc]
    rfl

theorem along_append (C : S → I → Prop) (s : S) (is js : List I) :
    M.Along C s (is ++ js) ↔ M.Along C s is ∧ M.Along C (M.run s is) js := by
  induction is generalizing s with
  | nil => exact (iff_of_eq (true_and _)).symm
  | cons i is ih =>
    show C s i ∧ M.Along C (M.next s i) (is ++ js) ↔ _
    rw [ih, ← and_assoc]
    rfl

/-- A condition on the inputs alone is met along a run once all its inputs
meet it. -/
theorem along_of_forall {C : S → I → Prop} (s : S) {is : List I}
    (h : ∀ i ∈ is, ∀ s, C s i) : M.Along C s is := by
  induction is generalizing s with
  | nil => trivial
  | cons i is ih =>
    exact ⟨h i mem_cons_self s, ih _ (fun j hj => h j (mem_cons_of_mem i hj))⟩

/-! ## Invariants -/

section Invariants

variable {M} {P : S → Prop} {C D : S → I → Prop}

/-- **An invariant of the steps is an invariant of the runs.** -/
theorem run_of_step (hst : ∀ s i, P s → P (M.next s i)) {s : S} (hs : P s)
    (is : List I) : P (M.run s is) := by
  induction is generalizing s with
  | nil => exact hs
  | cons i is ih => exact ih (hst s i hs)

/-- An invariant of the steps that meet a condition is an invariant of the
runs all of whose steps do. -/
theorem run_of_along (hst : ∀ s i, P s → C s i → P (M.next s i)) {s : S}
    (hs : P s) {is : List I} (h : M.Along C s is) : P (M.run s is) := by
  induction is generalizing s with
  | nil => exact hs
  | cons i is ih => exact ih (hst s i hs h.1) h.2

/-- What an invariant implies of each step holds along the run. -/
theorem along_of_step (hst : ∀ s i, P s → P (M.next s i))
    (hC : ∀ s i, P s → C s i) {s : S} (hs : P s) (is : List I) :
    M.Along C s is := by
  induction is generalizing s with
  | nil => trivial
  | cons i is ih => exact ⟨hC s i hs, ih (hst s i hs)⟩

theorem Along.mono (h : ∀ s i, C s i → D s i) {s : S} {is : List I}
    (hs : M.Along C s is) : M.Along D s is := by
  induction is generalizing s with
  | nil => trivial
  | cons i is ih => exact ⟨h s i hs.1, ih hs.2⟩

end Invariants

/-! ## Logs -/

section Logs

variable {M} {P : S → Prop} {C : S → I → Prop} {f : S → I → List A}

/-- Every item of the log was contributed by some step of the run. -/
theorem exists_step_of_mem_gather {s : S} {is : List I} {a : A} (h : a ∈ M.gather f s is) :
    ∃ before i after, is = before ++ i :: after ∧ a ∈ f (M.run s before) i := by
  induction is generalizing s with
  | nil => exact absurd h not_mem_nil
  | cons i is ih =>
    rcases mem_append.mp h with hi | hres
    · exact ⟨[], i, is, rfl, hi⟩
    · obtain ⟨before, j, after, rfl, hj⟩ := ih hres
      exact ⟨i :: before, j, after, rfl, hj⟩

/-- What the log of a run is made of, each of its steps logs. -/
theorem along_of_mem_gather {s : S} {is : List I} {G : A → Prop}
    (h : ∀ a ∈ M.gather f s is, G a) : M.Along (fun s i => ∀ a ∈ f s i, G a) s is := by
  induction is generalizing s with
  | nil => trivial
  | cons i is ih =>
    exact ⟨fun a ha => h a (mem_append_left _ ha), ih fun a ha => h a (mem_append_right _ ha)⟩

/-- **Nothing is logged twice.** `held s` is what the steps from `s` on may
still log. If a step logs distinct items it holds, and no later step holds
them, then the log of a run has no duplicates. -/
theorem gather_nodup (held : S → A → Prop) (hinv : ∀ s i, P s → C s i → P (M.next s i))
    (hdis : ∀ s i, P s → C s i → (f s i).Nodup)
    (hhel : ∀ s i, P s → C s i → ∀ a ∈ f s i, held s a)
    (hnex : ∀ s i, P s → C s i → ∀ a, held (M.next s i) a → held s a ∧ a ∉ f s i)
    {s : S} (hs : P s) {is : List I} (h : M.Along C s is) :
    (M.gather f s is).Nodup ∧ ∀ a ∈ M.gather f s is, held s a := by
  induction is generalizing s with
  | nil => exact ⟨nodup_nil, fun a ha => absurd ha not_mem_nil⟩
  | cons i is ih =>
    obtain ⟨hnd, hres⟩ := ih (hinv s i hs h.1) h.2
    refine ⟨nodup_append.mpr ⟨hdis s i hs h.1, hnd, ?_⟩, ?_⟩
    · rintro a ha b hb rfl
      exact (hnex s i hs h.1 a (hres a hb)).2 ha
    · intro a ha
      rcases mem_append.mp ha with hi | hlat
      · exact hhel s i hs h.1 a hi
      · exact (hnex s i hs h.1 a (hres a hlat)).1

/-- **What only grows is logged in order.** If a step logs increasing items
that are at least the bound of its state, and raises the bound above them,
then the log of a run is strictly increasing. -/
theorem gather_pairwise [Preorder A] (bound : S → A → Prop)
    (hinv : ∀ s i, P s → C s i → P (M.next s i))
    (hsor : ∀ s i, P s → C s i → (f s i).Pairwise (· < ·))
    (hbnd : ∀ s i, P s → C s i → ∀ a ∈ f s i, bound s a)
    (hnex : ∀ s i, P s → C s i → ∀ b, bound (M.next s i) b → bound s b ∧ ∀ a ∈ f s i, a < b)
    {s : S} (hs : P s) {is : List I} (h : M.Along C s is) :
    (M.gather f s is).Pairwise (· < ·) ∧ ∀ a ∈ M.gather f s is, bound s a := by
  induction is generalizing s with
  | nil => exact ⟨List.Pairwise.nil, fun a ha => absurd ha not_mem_nil⟩
  | cons i is ih =>
    obtain ⟨hpr, hres⟩ := ih (hinv s i hs h.1) h.2
    refine ⟨pairwise_append.mpr ⟨hsor s i hs h.1, hpr, ?_⟩, ?_⟩
    · intro a ha b hb
      exact (hnex s i hs h.1 b (hres b hb)).2 a ha
    · intro a ha
      rcases mem_append.mp ha with hi | hlat
      · exact hbnd s i hs h.1 a hi
      · exact (hnex s i hs h.1 a (hres a hlat)).1

/-- **Inputs that leave no trace may be left out.** A part of the state decides what each step
contributes and what this part is afterwards; the inputs contribute nothing, and do not change it. -/
theorem gather_filter {p : I → Bool} (view : S → S) (hout : ∀ s i, f (view s) i = f s i)
    (hnext : ∀ s i, view (M.next (view s) i) = view (M.next s i))
    (hhidden : ∀ s i, p i = false → f s i = [] ∧ view (M.next s i) = view s) (s : S)
    (is : List I) : M.gather f s (is.filter p) = M.gather f s is := by
  have hview (s t : S) (h : view s = view t) (is : List I) : M.gather f s is = M.gather f t is := by
    induction is generalizing s t with
    | nil => rfl
    | cons i is ih =>
      rw [gather, gather, ← hout s, ← hout t, h,
        ih (M.next s i) (M.next t i) (by rw [← hnext s, h, hnext])]
  induction is generalizing s with
  | nil => rfl
  | cons i is ih =>
    cases hp : p i with
    | true => rw [filter_cons_of_pos hp, gather, gather, ih]
    | false =>
      obtain ⟨hnone, hsame⟩ := hhidden s i hp
      rw [filter_cons_of_neg (by simp [hp]), gather, hnone, nil_append, ih]
      exact hview _ _ hsame.symm is
end Logs

/-! ## Fair schedules -/

/-- The states of the infinite run that reads a schedule. -/
def stateAt (s : S) (schedule : ℕ → I) : ℕ → S
  | 0 => s
  | n + 1 => M.next (stateAt s schedule n) (schedule n)

/-- The run that reads a schedule from a later moment on. -/
theorem stateAt_add (s : S) (schedule : ℕ → I) (n k : ℕ) :
    M.stateAt (M.stateAt s schedule n) (fun i => schedule (n + i)) k
      = M.stateAt s schedule (n + k) := by
  induction k with
  | zero => rfl
  | succ k ih => exact congrArg (fun t => M.next t (schedule (n + k))) ih

/-- **A schedule does not neglect some steps for good**: as long as one of
them is possible, one of them is made sooner or later. -/
def Fair (W : S → I → Prop) (s : S) (schedule : ℕ → I) : Prop :=
  ∀ n, (∃ i, W (M.stateAt s schedule n) i) → ∃ m, n ≤ m ∧ W (M.stateAt s schedule m) (schedule m)

section Fairness

variable {M} {W : S → I → Prop} {s : S} {schedule : ℕ → I}

/-- A fair schedule stays fair. -/
theorem Fair.later (h : M.Fair W s schedule) (n : ℕ) :
    M.Fair W (M.stateAt s schedule n) (fun i => schedule (n + i)) := by
  intro k hk
  rw [stateAt_add] at hk
  obtain ⟨m, hm, hW⟩ := h (n + k) hk
  obtain ⟨j, rfl⟩ := Nat.exists_eq_add_of_le (Nat.le_of_add_right_le hm)
  exact ⟨j, by omega, by rw [stateAt_add]; exact hW⟩

/-- **What the steps of a fair schedule work towards is reached**, if they
lower a rank that no step raises. -/
theorem Fair.eventually {R : Type} [Preorder R] [WellFoundedLT R] (rank : S → R)
    {P G : S → Prop} (hinv : ∀ s i, P s → P (M.next s i))
    (hle : ∀ s i, P s → rank (M.next s i) ≤ rank s)
    (hlt : ∀ s i, P s → W s i → rank (M.next s i) < rank s)
    (hgo : ∀ s, P s → ¬ G s → ∃ i, W s i) (hs : P s) (h : M.Fair W s schedule) :
    ∃ n, G (M.stateAt s schedule n) := by
  -- along the schedule the invariant holds, and the rank is never raised
  have hrun : ∀ {s schedule} n, P s →
      P (M.stateAt s schedule n) ∧ rank (M.stateAt s schedule n) ≤ rank s := by
    intro s schedule n hs
    induction n with
    | zero => exact ⟨hs, le_rfl⟩
    | succ n ih => exact ⟨hinv _ _ ih.1, (hle _ _ ih.1).trans ih.2⟩
  induction hr : rank s using WellFoundedLT.induction generalizing s schedule with
  | ind r ih =>
    subst hr
    by_cases hG : G s
    · exact ⟨0, hG⟩
    · obtain ⟨m, -, hW⟩ := h 0 (hgo s hs hG)
      obtain ⟨hm, hmle⟩ := hrun m hs
      have hlow : rank (M.stateAt s schedule (m + 1)) < rank s :=
        (hlt _ _ hm hW).trans_le hmle
      obtain ⟨k, hk⟩ := ih _ hlow (hinv _ _ hm) (h.later (m + 1)) rfl
      exact ⟨m + 1 + k, M.stateAt_add s schedule (m + 1) k ▸ hk⟩

end Fairness

end Machine

end Logan
