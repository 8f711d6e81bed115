import Logan.Util.Machine

/-!
# First-in, first-out queues with removals

A queue is served at the front and joined at the back; a member may also be
dropped from wherever it stands. `Fifo.Step` is that discipline, and `ahead`
is what stands before a given member. Nothing ever gets in ahead of a
member: serving takes the first of those ahead away, joining happens behind,
and dropping can only thin them out (`Step.served_ahead`).

Along a run, therefore, whoever is served while a member waits stood ahead
of it when the wait began, and in that order (`served_sublist_ahead`). If the
queue holds nobody twice, everybody else is served at most once during the
wait.
-/

namespace Logan

open List

namespace Fifo

variable {A : Type} [DecidableEq A]

/-- **What can happen to a queue.** -/
inductive Event (A : Type) where
  | serve (a : A)
  | join (a : A)
  | drop (a : A)
  | rest

/-- Whom an event serves. -/
def Event.served : Event A → List A
  | .serve a => [a]
  | _ => []

/-- The queue before and after an event. -/
inductive Step : List A → Event A → List A → Prop
  | serve (a : A) (q : List A) : Step (a :: q) (.serve a) q
  | join (a : A) (q : List A) : Step q (.join a) (q ++ [a])
  | drop (a : A) (q : List A) : Step q (.drop a) (q.filter (fun b => b ≠ a))
  | rest (q : List A) : Step q .rest q

/-- **Who stands ahead of a member.** -/
def ahead (a : A) (q : List A) : List A := q.takeWhile (fun b => b ≠ a)

/-- An event that a member outlasts: it neither serves nor drops it. -/
def Event.Passes (a : A) : Event A → Prop
  | .serve b => b ≠ a
  | .drop b => b ≠ a
  | _ => True

theorem length_ahead (a : A) (q : List A) : (ahead a q).length = q.idxOf a := by
  induction q with
  | nil => rfl
  | cons b q ih =>
    unfold ahead at ih ⊢
    by_cases hb : b = a
    · rw [hb, idxOf_cons_self, takeWhile_cons_of_neg (by simp)]
      rfl
    · rw [takeWhile_cons_of_pos (by simpa using hb), length_cons, ih, idxOf_cons_ne _ hb]

theorem ahead_join {a : A} {q : List A} (h : a ∈ q) (b : A) : ahead a (q ++ [b]) = ahead a q := by
  unfold ahead
  induction q with
  | nil => exact absurd h not_mem_nil
  | cons d q ih =>
    by_cases hd : d = a
    · simp [hd]
    · have hmem : a ∈ q := (mem_cons.mp h).resolve_left (fun he => hd he.symm)
      rw [cons_append, takeWhile_cons_of_pos (by simpa using hd),
        takeWhile_cons_of_pos (by simpa using hd), ih hmem]

/-- Dropping another member thins out those ahead. -/
theorem ahead_drop {a b : A} (hb : b ≠ a) (q : List A) :
    (ahead a (q.filter (fun d => d ≠ b))).Sublist (ahead a q) := by
  unfold ahead
  induction q with
  | nil => exact List.Sublist.slnil
  | cons d q ih =>
    by_cases hda : d = a
    -- the member itself stands first: nobody is ahead of it, before or after
    · have hkp : d ≠ b := fun he => hb (he.symm.trans hda)
      rw [filter_cons_of_pos (by simpa using hkp), hda, takeWhile_cons_of_neg (by simp)]
      exact nil_sublist _
    · rw [takeWhile_cons_of_pos (by simpa using hda)]
      by_cases hdb : d = b
      · rw [filter_cons_of_neg (by simpa using hdb)]
        exact ih.trans (sublist_cons_self _ _)
      · rw [filter_cons_of_pos (by simpa using hdb), takeWhile_cons_of_pos (by simpa using hda)]
        exact ih.cons_cons d

/-- **One event, seen by a member that outlasts it.** It stays, and whoever
was served stood first among those ahead. -/
theorem Step.served_ahead {q q' : List A} {e : Event A} (h : Step q e q') {a : A}
    (ha : a ∈ q) (hpas : e.Passes a) : a ∈ q' ∧ (e.served ++ ahead a q').Sublist (ahead a q) := by
  cases h with
  | serve b =>
    have hne : b ≠ a := hpas
    refine ⟨(mem_cons.mp ha).resolve_left hne.symm, ?_⟩
    unfold ahead
    rw [takeWhile_cons_of_pos (by simpa using hne)]
    exact List.Sublist.refl _
  | join =>
    refine ⟨mem_append_left _ ha, ?_⟩
    rw [ahead_join ha]
    exact List.Sublist.refl _
  | drop b =>
    have hne : b ≠ a := hpas
    exact ⟨mem_filter.mpr ⟨ha, by simpa using hne.symm⟩, ahead_drop hne q⟩
  | rest => exact ⟨ha, List.Sublist.refl _⟩

/-- **Whoever is served during a wait stood ahead when it began.** The run
is of any machine whose steps are events of a queue that the waiting member
outlasts. -/
theorem served_sublist_ahead {S I O : Type} {M : Machine S I O} {P : S → Prop}
    {C : S → I → Prop} (queue : S → List A) (served : S → I → List A) {a : A}
    (hinv : ∀ s i, P s → P (M.next s i))
    (hst : ∀ s i, P s → C s i → ∃ e : Event A, Step (queue s) e (queue (M.next s i))
      ∧ e.served = served s i ∧ e.Passes a)
    {s : S} (hs : P s) (ha : a ∈ queue s) {is : List I} (hwt : M.Along C s is) :
    a ∈ queue (M.run s is) ∧ (M.gather served s is ++ ahead a (queue (M.run s is))).Sublist
        (ahead a (queue s)) := by
  induction is generalizing s with
  | nil => exact ⟨ha, List.Sublist.refl _⟩
  | cons i is ih =>
    obtain ⟨e, he, hser, hpas⟩ := hst s i hs hwt.1
    obtain ⟨hmem, hsub⟩ := he.served_ahead ha hpas
    obtain ⟨hfin, hres⟩ := ih (hinv s i hs) hmem hwt.2
    refine ⟨hfin, ?_⟩
    show (served s i ++ M.gather served (M.next s i) is ++ _).Sublist _
    rw [append_assoc, ← hser]
    exact (List.Sublist.append_left hres _).trans hsub

end Fifo

end Logan
