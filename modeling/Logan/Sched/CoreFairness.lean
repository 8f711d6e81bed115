import Logan.Sched.CoreTransition
import Logan.Util.Fifo

/-!
# Bounded bypass

The ready queue has four entrances – creation, `wake`, the completion of a
last dependency and `requeue` – and all of them are at the back. So the
queue is first-in, first-out in the sense of `Logan.Util.Fifo`, with the
lifecycle operations as removals (`Transition.fifo`), and a queued session
that stays runnable is bypassed at most once by any other, however eagerly
the others are requeued (`bounded_bypass`).
-/

namespace Logan

namespace SchedulerCore

variable {c : SchedulerCore}

/-- The session an outcome hands to the driver. -/
def returnedOf : SimOutcome → List SessionId
  | .step (.run s) => [s]
  | _ => []

/-- **The sessions `step` returns along a run**, in order. -/
def returned (c : SchedulerCore) (ops : List SimOp) : List SessionId :=
  machine.gather (fun c op => returnedOf (c.execute op).1) c ops

/-- **A session that keeps waiting through an operation**: it is runnable
afterwards, and the operation did not return it. -/
def StaysQueued (s : SessionId) (c : SchedulerCore) (op : SimOp) : Prop :=
  (machine.next c op).sessionState s = some .runnable ∧ machine.out c op ≠ .step (.run s)

theorem returnedOf_ofResult (result : Except SchedError (List Effect)) :
    returnedOf (.ofResult result) = [] := by
  match result with
  | .ok [] => rfl
  | .ok (_ :: _) => rfl
  | .error _ => rfl

theorem returnedOf_of_quiet {out : SimOutcome} (h : out = .noop ∨ ∃ e, out = .error e) :
    returnedOf out = [] := by
  rcases h with rfl | ⟨e, rfl⟩ <;> rfl

/-- A session that is runnable after a rewrite is not the one the rewrite
took out of that state. -/
theorem ne_of_runnable {c c' : SchedulerCore} {s j : SessionId} {r : Session}
    (hc : c'.sessions = c.sessions.insert s r) (hr : r.state ≠ .runnable)
    (hj : c'.sessionState j = some .runnable) : s ≠ j := by
  rintro rfl
  rw [sessionState_rewrite hc, if_pos rfl] at hj
  exact hr (Option.some.inj hj)

/-- **Every transition is an event of a first-in, first-out queue**, which a
session outlasts if it is runnable afterwards and was not returned. -/
theorem Transition.fifo {op : SimOp} {out : SimOutcome} {c' : SchedulerCore}
    (ht : c.Transition op out c') : ∃ e, Fifo.Step c.ready e c'.ready ∧ e.served = returnedOf out
      ∧ ∀ s, c'.sessionState s = some .runnable → out ≠ .step (.run s) → e.Passes s := by
  cases ht with
  | created => exact ⟨.join _, .join _ _, rfl, fun _ _ _ => trivial⟩
  | issued | idled | completed => exact ⟨.rest, .rest _, rfl, fun _ _ _ => trivial⟩
  | handedOut s rest r hrdy =>
    -- the head is served: this is the only event that returns anybody
    refine ⟨.serve s, ?_, rfl, fun j _ hne he => hne (by rw [he])⟩
    rw [hrdy]
    exact .serve s rest
  | requeued s => exact ⟨.join s, .join _ _, rfl, fun _ _ _ => trivial⟩
  | parked s =>
    exact ⟨.drop s, .drop _ _, rfl, fun j hj _ => ne_of_runnable rfl (by simp) hj⟩
  | woken s => exact ⟨.join s, .join _ _, rfl, fun _ _ _ => trivial⟩
  | completedLast t s =>
    exact ⟨.join s, .join _ _, rfl, fun _ _ _ => trivial⟩
  | completedErr t s r =>
    exact ⟨.drop s, .drop _ _, (returnedOf_ofResult _).symm,
      fun j hj _ => ne_of_runnable (c := c.retired t s r) rfl (by simp) hj⟩
  | cancelled s =>
    exact ⟨.drop s, .drop _ _, (returnedOf_ofResult _).symm,
      fun j hj _ => ne_of_runnable rfl (by simp) hj⟩
  | terminated _ s r terminal =>
    refine ⟨.drop s, .drop _ _, (returnedOf_ofResult _).symm,
      fun j hj _ => ne_of_runnable rfl ?_ hj⟩
    cases terminal <;> simp [Terminal.state]
  | refused _ _ hqt =>
    exact ⟨.rest, .rest _, (returnedOf_of_quiet hqt).symm, fun _ _ _ => trivial⟩

theorem length_returnedOf_step (h : c.Consistent) {s : SessionId} (hs : s ∈ c.ready) :
    (returnedOf (c.execute .step).1).length = 1 := by
  show (returnedOf (.step c.step.1)).length = 1
  rcases step_cases h with ⟨hrdy, -⟩ | ⟨j, rest, r, -, -, -, -, heq⟩
  · rw [hrdy] at hs
    exact absurd hs List.not_mem_nil
  · rw [heq]
    rfl

/-- The sessions returned during a wait are as many as the calls of
`step`. -/
theorem count_step_le_length_returned (h : c.Consistent) {s : SessionId} (hs : s ∈ c.ready)
    {ops : List SimOp} (hwt : machine.Along (StaysQueued s) c ops) :
    ops.count .step ≤ (returned c ops).length := by
  induction ops generalizing c with
  | nil => exact Nat.zero_le _
  | cons op ops ih =>
    -- the session is still queued after the operation, so the induction goes on
    obtain ⟨e, he, -, hpas⟩ := (execute_transition h op).fifo
    have hmem := (he.served_ahead hs (hpas s hwt.1.1 hwt.1.2)).1
    have hres := ih (execute_consistent c op h) hmem hwt.2
    show _ ≤ (returnedOf (c.execute op).1 ++ returned (machine.next c op) ops).length
    rw [List.length_append, List.count_cons]
    by_cases hop : op = .step
    · subst hop
      rw [length_returnedOf_step h hs]
      simp only [beq_self_eq_true, if_true]
      omega
    · rw [if_neg (by simpa using hop)]
      omega

/-- **Bounded bypass.** While a queued session stays runnable and is not
returned, `step` returns only sessions that stood ahead of it when the wait
began, in that order; so it returns nobody twice, and as soon as `step` has
been called more often than there were sessions ahead, the wait is over. -/
theorem bounded_bypass (budget : Budget) (before ops : List SimOp) (s : SessionId)
    (hs : s ∈ (machine.run (new budget) before).ready)
    (hwait : machine.Along (StaysQueued s) (machine.run (new budget) before) ops) :
    (returned (machine.run (new budget) before) ops).Sublist
        (Fifo.ahead s (machine.run (new budget) before).ready)
    ∧ (∀ x, (returned (machine.run (new budget) before) ops).count x ≤ 1)
    ∧ ops.count .step ≤ (machine.run (new budget) before).ready.idxOf s
    ∧ s ∈ (machine.run (new budget) (before ++ ops)).ready := by
  rw [Machine.run_append]
  have h := run_consistent (consistent_new budget) before
  generalize machine.run (new budget) before = c at h hs hwait
  obtain ⟨hfin, hsub⟩ := Fifo.served_sublist_ahead (M := machine) (P := Consistent)
    SchedulerCore.ready (fun c op => returnedOf (c.execute op).1)
    (fun c op => execute_consistent c op)
    (fun c op h hst => by
      obtain ⟨e, he, hser, hpas⟩ := (execute_transition h op).fifo
      exact ⟨e, he, hser, hpas s hst.1 hst.2⟩)
    h hs hwait
  have hret : (returned c ops).Sublist (Fifo.ahead s c.ready) :=
    (List.sublist_append_left _ _).trans hsub
  refine ⟨hret, fun x => ?_, ?_, hfin⟩
  · exact List.nodup_iff_count_le_one.mp
      (hret.nodup (h.ready_nodup.sublist (List.takeWhile_sublist _))) x
  · calc ops.count .step ≤ (returned c ops).length := count_step_le_length_returned h hs hwait
      _ ≤ (Fifo.ahead s c.ready).length := hret.length_le
      _ = c.ready.idxOf s := Fifo.length_ahead s c.ready

/-- Two sessions take turns: while the second waits, the first is returned
and requeued. -/
theorem bounded_bypass_of_two : (⟨1⟩ : SessionId) ∈ (machine.run (new ⟨64⟩)
      ([.createSession, .createSession] ++ [.step, .requeue ⟨0⟩])).ready :=
  (bounded_bypass ⟨64⟩ [.createSession, .createSession] [.step, .requeue ⟨0⟩] ⟨1⟩
    (by decide) ⟨⟨by decide, by decide⟩, ⟨by decide, by decide⟩, trivial⟩).2.2.2

end SchedulerCore

end Logan
