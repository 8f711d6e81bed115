import Logan.Sched.CoreInvariant

/-!
# What an operation of the core can do

Under `Consistent`, each operation either leaves the core as it is and
reports no effect, or performs one of the rewrites of
`Logan.Sched.CoreInvariant` and reports exactly what it did. One lemma an
operation says which (`block_cases` to `requeue_cases`), and
`SchedulerCore.Transition` collects them into a single relation. Whatever is
proved later about runs of the core is proved by cases on it, without
unfolding an operation again.

`Consistent` is then an invariant of the runs (`run_consistent`), and
`reachable_bookkeeping` reads off it, clause by clause, what the core's
bookkeeping promises its driver.
-/

namespace Logan

open Table
open Or (inl inr)

/-- An answer that reports no effect. -/
def Quiet (result : Except SchedError (List Effect)) : Prop :=
  result = .ok [] ∨ ∃ e, result = .error e

namespace SchedulerCore

variable {c : SchedulerCore}

/-! ## One lemma an operation -/

theorem sessionState_of_lookup {s : SessionId} {r : Session}
    (hs : c.sessions.lookup s = some r) : c.sessionState s = some r.state := by
  rw [sessionState, hs]
  rfl

/-- What a rewrite of one record does to the states. -/
theorem sessionState_rewrite {c c' : SchedulerCore} {s : SessionId} {r : Session}
    (hc : c'.sessions = c.sessions.insert s r) (j : SessionId) :
    c'.sessionState j = if j = s then some r.state else c.sessionState j := by
  unfold sessionState
  rw [hc, lookup_insert]
  by_cases hj : j = s
  · rw [if_pos hj, if_pos hj]
    rfl
  · rw [if_neg hj, if_neg hj]

/-- A rewrite that keeps the state of its session keeps every state. -/
theorem sessionState_of_same {c c' : SchedulerCore} {s : SessionId} {r r' : Session}
    (hs : c.sessions.lookup s = some r) (hc : c'.sessions = c.sessions.insert s r')
    (hst : r'.state = r.state) (j : SessionId) : c'.sessionState j = c.sessionState j := by
  rw [sessionState_rewrite hc]
  by_cases hj : j = s
  · rw [if_pos hj, hj, sessionState_of_lookup hs, hst]
  · rw [if_neg hj]

/-- `block` parks a runnable session, and does nothing to another. -/
theorem block_cases (c : SchedulerCore) (s : SessionId) :
    (∃ r, c.sessions.lookup s = some r ∧ r.state = .runnable ∧ c.block s = (.ok [], c.parked s r))
    ∨ ((c.block s).2 = c ∧ Quiet (c.block s).1 ∧ c.sessionState s ≠ some .runnable) := by
  unfold block
  cases hs : c.sessions.lookup s with
  | none => exact inr ⟨rfl, inr ⟨_, rfl⟩, by rw [sessionState, hs]; simp⟩
  | some r =>
    rw [sessionState_of_lookup hs]
    obtain ⟨id, state, inflight, inReady⟩ := r
    cases state with
    | runnable =>
      refine inl ⟨_, rfl, rfl, ?_⟩
      simp only [removeFromReady, setState, parked, modify_of_lookup hs,
        modify_of_lookup (lookup_insert_self _ _ _), insert_insert]
    | blocked | cancelling => exact inr ⟨rfl, inl rfl, by simp⟩
    | finished | failed => exact inr ⟨rfl, inr ⟨_, rfl⟩, by simp⟩

theorem enqueueIfRunnable_of_out {s : SessionId} {r : Session}
    (hs : c.sessions.lookup s = some r) (hrun : r.state = .runnable)
    (hout : r.inReady = false) : c.enqueueIfRunnable s = c.enqueued s r := by
  unfold enqueueIfRunnable enqueued
  rw [hs]
  simp only [hrun, hout, and_self, if_true]

/-- `wake` queues a blocked session, and does nothing to another. -/
theorem wake_cases (h : c.Consistent) (s : SessionId) :
    (∃ r, c.sessions.lookup s = some r ∧ r.state = .blocked ∧ r.inReady = false
      ∧ c.wake s = (.ok [.wake s], c.enqueued s r))
    ∨ ((c.wake s).2 = c ∧ Quiet (c.wake s).1) := by
  unfold wake
  cases hs : c.sessions.lookup s with
  | none => exact inr ⟨rfl, inr ⟨_, rfl⟩⟩
  | some r =>
    have hout := h.out_of_not_runnable hs
    obtain ⟨id, state, inflight, inReady⟩ := r
    cases state with
    | runnable | cancelling => exact inr ⟨rfl, inl rfl⟩
    | blocked =>
      -- `enqueueIfRunnable` looks at the record as `setState` leaves it
      have hset : (c.setState s .runnable).sessions.lookup s
          = some ⟨id, .runnable, inflight, inReady⟩ := by
        simp only [setState, modify_of_lookup hs, lookup_insert_self]
      refine inl ⟨_, rfl, rfl, hout (by simp), ?_⟩
      show (_, (c.setState s .runnable).enqueueIfRunnable s) = _
      rw [enqueueIfRunnable_of_out hset rfl (hout (by simp))]
      simp only [enqueued, setState, modify_of_lookup hs, insert_insert]
    | finished | failed => exact inr ⟨rfl, inr ⟨_, rfl⟩⟩

/-- `submit` issues a ticket to a runnable session within its budget, and
is refused otherwise. -/
theorem submit_cases (c : SchedulerCore) (s : SessionId) (a : Action) :
    (∃ r, c.sessions.lookup s = some r ∧ r.state = .runnable
      ∧ r.inflight.length < c.budget.maxInflightPerSession
      ∧ c.submit s a = (.ok (⟨c.nextTicket⟩, .dispatch ⟨c.nextTicket⟩ a), c.issued s r))
    ∨ ∃ e, c.submit s a = (.error e, c) := by
  unfold submit
  cases hs : c.sessions.lookup s with
  | none => exact inr ⟨_, rfl⟩
  | some r =>
    show (∃ q, _) ∨ ∃ e, (if r.state ≠ .runnable then _ else _) = (Except.error e, c)
    by_cases hrun : r.state = .runnable
    · by_cases hrm : c.budget.maxInflightPerSession ≤ r.inflight.length
      · refine inr ⟨.inflightLimit s, ?_⟩
        rw [if_neg (not_not_intro hrun), if_pos hrm]
      · refine inl ⟨r, rfl, hrun, Nat.lt_of_not_le hrm, ?_⟩
        simp only [if_neg (not_not_intro hrun), if_neg hrm, issued, modify_of_lookup hs]
    · refine inr ⟨.notRunnable s, ?_⟩
      rw [if_pos hrun]

/-- The terminal transition revokes whatever the session owns. -/
theorem terminalize_eq {s : SessionId} {r : Session} (hs : c.sessions.lookup s = some r)
    (terminal : Terminal) : c.terminalize s terminal
      = (.ok (r.inflight.map .cancel ++ [terminal.effect s]), c.revoked s r terminal.state) := by
  have hout : (c.removeFromReady s).sessions.lookup s = some { r with inReady := false } := by
    simp only [removeFromReady, modify_of_lookup hs, lookup_insert_self]
  unfold terminalize
  simp only [hout]
  simp only [removeFromReady, revoked, modify_of_lookup hs, insert_insert]

/-- `complete` ignores a ticket nobody owns. Else it uses the ticket up, and
then a success wakes the owner if it was blocked on this ticket alone, and a
failure terminalizes it. -/
theorem complete_cases (h : c.Consistent) (t : Ticket) (o : Outcome) :
    (c.ownerOf t = none ∧ c.complete t o = (.ok [], c))
    ∨ ∃ s r, c.ownerOf t = some s ∧ c.sessions.lookup s = some r ∧
      ((o = .ok ∧ ¬ (r.state = .blocked ∧ (r.without t).inflight = [])
          ∧ c.complete t o = (.ok [], c.retired t s r))
      ∨ (o = .ok ∧ r.state = .blocked ∧ (r.without t).inflight = [] ∧ r.inReady = false
          ∧ c.complete t o = (.ok [.wake s], (c.retired t s r).enqueued s (r.without t)))
      ∨ ∃ e, o = .err e ∧ c.complete t o
            = (.ok ((r.without t).inflight.map .cancel ++ [.failed s e]),
                (c.retired t s r).revoked s (r.without t) .failed)) := by
  cases hown : c.inflight.lookup t with
  | none =>
    refine inl ⟨?_, ?_⟩
    · rw [ownerOf, ticketOwner, hown]
      rfl
    · unfold complete
      rw [hown]
  | some p =>
    obtain ⟨s, generation⟩ := p
    have ho : c.ownerOf t = some s := by
      rw [ownerOf, ticketOwner, hown]
      rfl
    obtain ⟨r, hs, -⟩ := (h.owner t s).mp ho
    refine inr ⟨s, r, ho, hs, ?_⟩
    unfold complete
    simp only [hown, hs]
    cases o with
    | ok =>
      by_cases hwak : r.state = .blocked ∧ (r.without t).inflight = []
      -- a blocked session is out of the queue, so queueing it makes no duplicate
      · have hout := h.out_of_not_runnable hs (by simp [hwak.1])
        refine inr (inl ⟨rfl, hwak.1, hwak.2, hout, ?_⟩)
        refine (if_pos hwak).trans ?_
        simp only [retired, enqueued, Session.without, insert_insert]
      · exact inl ⟨rfl, hwak, if_neg hwak⟩
    | err e =>
      refine inr (inr ⟨e, rfl, ?_⟩)
      exact terminalize_eq (c := c.retired t s r) (lookup_insert_self _ _ _) (.failed e)

/-- `cancel` revokes what a runnable or blocked session owns, and does
nothing to another. -/
theorem cancel_cases (c : SchedulerCore) (s : SessionId) :
    (∃ r, c.sessions.lookup s = some r ∧ (r.state = .runnable ∨ r.state = .blocked)
      ∧ c.cancel s = (.ok (r.inflight.map .cancel), c.revoked s r .cancelling))
    ∨ ((c.cancel s).2 = c ∧ Quiet (c.cancel s).1
      ∧ ∀ r, c.sessions.lookup s = some r → r.state ≠ .runnable ∧ r.state ≠ .blocked) := by
  have hrev : ∀ r, c.sessions.lookup s = some r →
      ((c.removeFromReady s).sessions.modify s
        (fun record => { record with inflight := [], state := .cancelling }))
      = c.sessions.insert s { r with inReady := false, inflight := [], state := .cancelling } := by
    intro r hs
    simp only [removeFromReady, modify_of_lookup hs,
      modify_of_lookup (lookup_insert_self _ _ _), insert_insert]
  unfold cancel
  cases hs : c.sessions.lookup s with
  | none => exact inr ⟨rfl, inr ⟨_, rfl⟩, by simp⟩
  | some r =>
    have hses := hrev r hs
    obtain ⟨id, state, inflight, inReady⟩ := r
    cases state with
    | runnable =>
      refine inl ⟨_, rfl, inl rfl, ?_⟩
      simp only [hses, revoked]
      rfl
    | blocked =>
      refine inl ⟨_, rfl, inr rfl, ?_⟩
      simp only [hses, revoked]
      rfl
    | cancelling => exact inr ⟨rfl, inl rfl, by simp⟩
    | finished | failed => exact inr ⟨rfl, inr ⟨_, rfl⟩, by simp⟩

/-- `finish` revokes what a session that is not terminal owns, and does
nothing to another. -/
theorem finish_cases (c : SchedulerCore) (s : SessionId) :
    (∃ r, c.sessions.lookup s = some r ∧ r.state ≠ .finished ∧ r.state ≠ .failed ∧ c.finish s
        = (.ok (r.inflight.map .cancel ++ [.finished s]), c.revoked s r .finished))
    ∨ ((c.finish s).2 = c ∧ Quiet (c.finish s).1
      ∧ ∀ r, c.sessions.lookup s = some r → r.state = .finished ∨ r.state = .failed) := by
  unfold finish
  cases hs : c.sessions.lookup s with
  | none => exact inr ⟨rfl, inr ⟨_, rfl⟩, by simp⟩
  | some r =>
    have hter := terminalize_eq hs .finished
    obtain ⟨id, state, inflight, inReady⟩ := r
    cases state with
    | runnable | blocked | cancelling => exact inl ⟨_, rfl, by simp, by simp, hter⟩
    | finished => exact inr ⟨rfl, inl rfl, by simp⟩
    | failed => exact inr ⟨rfl, inr ⟨_, rfl⟩, by simp⟩

/-- `fail` revokes what a session that is not terminal owns, and does
nothing to another. -/
theorem fail_cases (c : SchedulerCore) (s : SessionId) (e : String) :
    (∃ r, c.sessions.lookup s = some r ∧ r.state ≠ .finished ∧ r.state ≠ .failed ∧ c.fail s e
        = (.ok (r.inflight.map .cancel ++ [.failed s e]), c.revoked s r .failed))
    ∨ ((c.fail s e).2 = c ∧ Quiet (c.fail s e).1
      ∧ ∀ r, c.sessions.lookup s = some r → r.state = .finished ∨ r.state = .failed) := by
  unfold fail
  cases hs : c.sessions.lookup s with
  | none => exact inr ⟨rfl, inr ⟨_, rfl⟩, by simp⟩
  | some r =>
    have hter := terminalize_eq hs (.failed e)
    obtain ⟨id, state, inflight, inReady⟩ := r
    cases state with
    | runnable | blocked | cancelling => exact inl ⟨_, rfl, by simp, by simp, hter⟩
    | failed => exact inr ⟨rfl, inl rfl, by simp⟩
    | finished => exact inr ⟨rfl, inr ⟨_, rfl⟩, by simp⟩

/-- `step` hands out the head of the queue: where the copies agree, no
entry is stale and the loop returns in its first iteration. -/
theorem step_cases (h : c.Consistent) : (c.ready = [] ∧ c.step = (.idle, c))
    ∨ ∃ s rest r, c.ready = s :: rest ∧ c.sessions.lookup s = some r
      ∧ r.state = .runnable ∧ r.inReady = true ∧ c.step = (.run s, c.handedOut s r rest) := by
  unfold step
  cases hrdy : c.ready with
  | nil =>
    refine inl ⟨rfl, ?_⟩
    show (Step.idle, { c with ready := [] }) = (Step.idle, c)
    rw [← hrdy]
  | cons s rest =>
    -- the head of the queue has a record with its bit set, hence is runnable
    obtain ⟨r, hs, hin⟩ := (h.mem_ready s).mp (by rw [hrdy]; exact List.mem_cons_self)
    have hrun := (h.sound s r hs).queued hin
    refine inr ⟨s, rest, r, rfl, hs, hrun, hin, ?_⟩
    simp only [stepFrom, hs, hrun, hin, ne_eq, not_true_eq_false, Bool.true_eq_false,
      or_self, if_false, handedOut]

/-- `requeue` queues a runnable session that is out of the queue, and does
nothing to another. -/
theorem requeue_cases (c : SchedulerCore) (s : SessionId) :
    (∃ r, c.sessions.lookup s = some r ∧ r.state = .runnable ∧ r.inReady = false
      ∧ c.requeue s = c.enqueued s r) ∨ c.requeue s = c := by
  unfold requeue
  cases hs : c.sessions.lookup s with
  | none =>
    refine inr ?_
    unfold enqueueIfRunnable
    rw [hs]
  | some r =>
    by_cases hr : r.state = .runnable ∧ r.inReady = false
    · exact inl ⟨r, rfl, hr.1, hr.2, enqueueIfRunnable_of_out hs hr.1 hr.2⟩
    · refine inr ?_
      unfold enqueueIfRunnable
      rw [hs]
      exact if_neg hr

/-! ## The transition relation -/

/-- **All an operation can do to the core**, with what it answers. -/
inductive Transition (c : SchedulerCore) : SimOp → SimOutcome → SchedulerCore → Prop
  | created :
    Transition c .createSession (.sessionCreated ⟨c.nextSession⟩) c.createSession.2
  | issued (s : SessionId) (a : Action) (r : Session)
    (hs : c.sessions.lookup s = some r) (hrun : r.state = .runnable)
    (hroom : r.inflight.length < c.budget.maxInflightPerSession) :
    Transition c (.submit s a) (.submitted ⟨c.nextTicket⟩ (.dispatch ⟨c.nextTicket⟩ a))
      (c.issued s r)
  | handedOut (s : SessionId) (rest : List SessionId) (r : Session)
    (hready : c.ready = s :: rest) (hs : c.sessions.lookup s = some r)
    (hrun : r.state = .runnable) (hin : r.inReady = true) :
    Transition c .step (.step (.run s)) (c.handedOut s r rest)
  | idled (hready : c.ready = []) : Transition c .step (.step .idle) c
  | requeued (s : SessionId) (r : Session) (hs : c.sessions.lookup s = some r)
    (hrun : r.state = .runnable) (hout : r.inReady = false) :
    Transition c (.requeue s) .noop (c.enqueued s r)
  | parked (s : SessionId) (r : Session) (hs : c.sessions.lookup s = some r)
    (hrun : r.state = .runnable) :
    Transition c (.block s) .noop (c.parked s r)
  | woken (s : SessionId) (r : Session) (hs : c.sessions.lookup s = some r)
    (hblk : r.state = .blocked) (hout : r.inReady = false) :
    Transition c (.wake s) (.effects [.wake s]) (c.enqueued s r)
  | completed (t : Ticket) (s : SessionId) (r : Session)
    (ho : c.ownerOf t = some s) (hs : c.sessions.lookup s = some r)
    (hwait : ¬ (r.state = .blocked ∧ (r.without t).inflight = [])) :
    Transition c (.complete t .ok) .noop (c.retired t s r)
  | completedLast (t : Ticket) (s : SessionId) (r : Session)
    (ho : c.ownerOf t = some s) (hs : c.sessions.lookup s = some r)
    (hblk : r.state = .blocked) (hlast : (r.without t).inflight = [])
    (hout : r.inReady = false) :
    Transition c (.complete t .ok) (.effects [.wake s])
      ((c.retired t s r).enqueued s (r.without t))
  | completedErr (t : Ticket) (s : SessionId) (r : Session) (e : String)
    (ho : c.ownerOf t = some s) (hs : c.sessions.lookup s = some r) :
    Transition c (.complete t (.err e))
      (.ofResult (.ok ((r.without t).inflight.map .cancel ++ [.failed s e])))
      ((c.retired t s r).revoked s (r.without t) .failed)
  | cancelled (s : SessionId) (r : Session) (hs : c.sessions.lookup s = some r)
    (hstate : r.state = .runnable ∨ r.state = .blocked) :
    Transition c (.cancel s) (.ofResult (.ok (r.inflight.map .cancel)))
      (c.revoked s r .cancelling)
  | terminated (op : SimOp) (s : SessionId) (r : Session) (terminal : Terminal)
    (hop : (op = .finish s ∧ terminal = .finished) ∨ ∃ e, op = .fail s e ∧ terminal = .failed e)
    (hs : c.sessions.lookup s = some r) (hfin : r.state ≠ .finished)
    (hfail : r.state ≠ .failed) :
    Transition c op
      (.ofResult (.ok (r.inflight.map .cancel ++ [terminal.effect s])))
      (c.revoked s r terminal.state)
  | refused (op : SimOp) (out : SimOutcome) (hquiet : out = .noop ∨ ∃ e, out = .error e)
    (hstale : ∀ t o, op = .complete t o → c.ownerOf t = none) :
    Transition c op out c

theorem ofResult_of_quiet {result : Except SchedError (List Effect)} (h : Quiet result) :
    SimOutcome.ofResult result = .noop ∨ ∃ e, SimOutcome.ofResult result = .error e := by
  rcases h with rfl | ⟨e, rfl⟩
  · exact inl rfl
  · exact inr ⟨e, rfl⟩

theorem transition_of_quiet {op : SimOp} {result : Except SchedError (List Effect)}
    {c' : SchedulerCore} (hc : c' = c) (h : Quiet result)
    (hop : ∀ t o, op ≠ .complete t o) : c.Transition op (.ofResult result) c' := by
  subst hc
  exact .refused op _ (ofResult_of_quiet h) (fun t o ho => absurd ho (hop t o))

/-- **Every operation on a consistent core is a transition.** -/
theorem execute_transition (h : c.Consistent) (op : SimOp) :
    c.Transition op (c.execute op).1 (c.execute op).2 := by
  cases op with
  | createSession => exact .created
  | submit s a =>
    rcases submit_cases c s a with ⟨r, hs, hrun, hrm, heq⟩ | ⟨e, heq⟩
    · simp only [execute, heq]
      exact .issued s a r hs hrun hrm
    · simp only [execute, heq]
      exact .refused _ _ (inr ⟨e, rfl⟩) (fun t o ho => absurd ho (by simp))
  | step =>
    show c.Transition .step (.step c.step.1) c.step.2
    rcases step_cases h with ⟨hrdy, heq⟩ | ⟨s, rest, r, hrdy, hs, hrun, hin, heq⟩
    · rw [heq]
      exact .idled hrdy
    · rw [heq]
      exact .handedOut s rest r hrdy hs hrun hin
  | requeue s =>
    show c.Transition _ .noop (c.requeue s)
    rcases requeue_cases c s with ⟨r, hs, hrun, hout, heq⟩ | heq
    · rw [heq]
      exact .requeued s r hs hrun hout
    · rw [heq]
      exact .refused _ _ (inl rfl) (fun t o ho => absurd ho (by simp))
  | block s =>
    show c.Transition _ (.ofResult (c.block s).1) (c.block s).2
    rcases block_cases c s with ⟨r, hs, hrun, heq⟩ | ⟨hc, hq, -⟩
    · rw [heq]
      exact .parked s r hs hrun
    · exact transition_of_quiet hc hq (by simp)
  | wake s =>
    show c.Transition _ (.ofResult (c.wake s).1) (c.wake s).2
    rcases wake_cases h s with ⟨r, hs, hblk, hout, heq⟩ | ⟨hc, hq⟩
    · rw [heq]
      exact .woken s r hs hblk hout
    · exact transition_of_quiet hc hq (by simp)
  | complete t o =>
    show c.Transition _ (.ofResult (c.complete t o).1) (c.complete t o).2
    rcases complete_cases h t o with ⟨hown, heq⟩ | ⟨s, r, hown, hs, hcas⟩
    · rw [heq]
      -- a stale completion: the relation records that nobody owned the ticket
      refine .refused _ _ (inl rfl) (fun t' o' ho => ?_)
      obtain ⟨rfl, -⟩ := SimOp.complete.inj ho
      exact hown
    · rcases hcas with ⟨rfl, hwt, heq⟩ | ⟨rfl, hblk, hlas, hout, heq⟩ | ⟨e, rfl, heq⟩
      · rw [heq]
        exact .completed t s r hown hs hwt
      · rw [heq]
        exact .completedLast t s r hown hs hblk hlas hout
      · rw [heq]
        exact .completedErr t s r e hown hs
  | cancel s =>
    show c.Transition _ (.ofResult (c.cancel s).1) (c.cancel s).2
    rcases cancel_cases c s with ⟨r, hs, hst, heq⟩ | ⟨hc, hq, -⟩
    · rw [heq]
      exact .cancelled s r hs hst
    · exact transition_of_quiet hc hq (by simp)
  | finish s =>
    show c.Transition _ (.ofResult (c.finish s).1) (c.finish s).2
    rcases finish_cases c s with ⟨r, hs, hfin, hfl, heq⟩ | ⟨hc, hq, -⟩
    · rw [heq]
      exact .terminated _ s r .finished (inl ⟨rfl, rfl⟩) hs hfin hfl
    · exact transition_of_quiet hc hq (by simp)
  | fail s e =>
    show c.Transition _ (.ofResult (c.fail s e).1) (c.fail s e).2
    rcases fail_cases c s e with ⟨r, hs, hfin, hfl, heq⟩ | ⟨hc, hq, -⟩
    · rw [heq]
      exact .terminated _ s r (.failed e) (inr ⟨e, rfl, rfl⟩) hs hfin hfl
    · exact transition_of_quiet hc hq (by simp)

/-! ## Consistency along runs -/

theorem lookup_retired (c : SchedulerCore) (t : Ticket) (s : SessionId) (r : Session) :
    (c.retired t s r).sessions.lookup s = some (r.without t) :=
  lookup_insert_self _ _ _

/-- A transition keeps the copies in agreement. -/
theorem Transition.consistent (h : c.Consistent) {op : SimOp} {out : SimOutcome}
    {c' : SchedulerCore} (ht : c.Transition op out c') : c'.Consistent := by
  cases ht with
  | created => exact h.createSession
  | issued s a r hs hrun hrm => exact h.issued hs hrun hrm
  | handedOut s rest r hrdy hs => exact h.handedOut hs hrdy
  | idled | refused => exact h
  | requeued s r hs hrun hout => exact h.enqueued hs hout
  | parked s r hs => exact h.parked hs
  | woken s r hs hblk hout => exact h.enqueued hs hout
  | completed t s r ho hs => exact h.retired hs ho
  | completedLast t s r ho hs hblk hlas hout =>
    exact (h.retired hs ho).enqueued (lookup_retired c t s r) hout
  | completedErr t s r e ho hs =>
    exact (h.retired hs ho).revoked (lookup_retired c t s r) .failed
  | cancelled s r hs => exact h.revoked hs .cancelling
  | terminated _ s r terminal hop hs => exact h.revoked hs terminal.state

theorem Transition.budget_eq {op : SimOp} {out : SimOutcome} {c' : SchedulerCore}
    (ht : c.Transition op out c') : c'.budget = c.budget := by
  cases ht <;> rfl

/-- **Consistency is an invariant of the operations.** -/
theorem execute_consistent (c : SchedulerCore) (op : SimOp) (h : c.Consistent) :
    (machine.next c op).Consistent :=
  (execute_transition h op).consistent h

/-- **A run from a consistent core stays consistent.** -/
theorem run_consistent (h : c.Consistent) (ops : List SimOp) : (machine.run c ops).Consistent :=
  Machine.run_of_step execute_consistent h ops

theorem run_budget (h : c.Consistent) (ops : List SimOp) :
    (machine.run c ops).budget = c.budget :=
  (Machine.run_of_step (M := machine) (P := fun d => d.Consistent ∧ d.budget = c.budget)
    (fun d op hd => ⟨execute_consistent d op hd.1,
      (execute_transition hd.1 op).budget_eq.trans hd.2⟩) ⟨h, rfl⟩ ops).2

/-- **What the core's bookkeeping promises**, as its driver can observe
it. -/
structure Bookkeeping (budget : Budget) (c : SchedulerCore) : Prop where
  /-- The ready queue has no duplicate. -/
  ready_nodup : c.ready.Nodup
  /-- It holds exactly the sessions whose membership bit is set. -/
  mem_ready : ∀ s, s ∈ c.ready ↔ ∃ r, c.sessions.lookup s = some r ∧ r.inReady = true
  /-- Whoever is queued is runnable. -/
  ready_runnable : ∀ s ∈ c.ready, c.sessionState s = some .runnable
  /-- A session in any other state is not queued. -/
  not_ready : ∀ s state, c.sessionState s = some state → state ≠ .runnable → s ∉ c.ready
  /-- The ticket map and the ticket lists are the same ownership relation. -/
  owner : ∀ t s, (∃ g, c.inflight.lookup t = some (s, g))
    ↔ ∃ r, c.sessions.lookup s = some r ∧ t ∈ r.inflight
  /-- A live ticket is in one session's list, and in it once. -/
  owner_unique : ∀ t p, c.inflight.lookup t = some p →
    ∃! s, ∃ r, c.sessions.lookup s = some r ∧ r.inflight.count t = 1
  /-- No ticket is listed twice. -/
  listed_once : ∀ s r, c.sessions.lookup s = some r → r.inflight.Nodup
  /-- A cancelling or terminal session owns no ticket. -/
  revoked : ∀ s r, c.sessions.lookup s = some r →
    r.state = .cancelling ∨ r.state = .finished ∨ r.state = .failed →
    r.inflight = [] ∧ ∀ t g, c.inflight.lookup t ≠ some (s, g)
  /-- No session owns more tickets than its budget. -/
  bounded : ∀ s n, c.inflightCount s = some n → n ≤ budget.maxInflightPerSession
  /-- Live tickets have been issued. -/
  ticket_lt : ∀ t p, c.inflight.lookup t = some p → t.val < c.nextTicket

/-- The owner of a ticket, read off the ticket map. -/
theorem ownerOf_eq_some_iff (c : SchedulerCore) (t : Ticket) (s : SessionId) :
    c.ownerOf t = some s ↔ ∃ g, c.inflight.lookup t = some (s, g) := by
  unfold ownerOf ticketOwner
  cases c.inflight.lookup t with
  | none => simp
  | some => simp [Prod.ext_iff]

/-- **The bookkeeping of the core holds in every state it can be brought
to**, whatever operations are called, in whatever order, with whatever
arguments. -/
theorem reachable_bookkeeping (budget : Budget) (ops : List SimOp) :
    Bookkeeping budget (machine.run (new budget) ops) := by
  have hbud := run_budget (consistent_new budget) ops
  have h := run_consistent (consistent_new budget) ops
  generalize machine.run (new budget) ops = c at h hbud
  exact
    { ready_nodup := h.ready_nodup
      mem_ready := h.mem_ready
      ready_runnable := by
        intro s hs
        obtain ⟨r, hr, hin⟩ := (h.mem_ready s).mp hs
        rw [sessionState_of_lookup hr, (h.sound s r hr).queued hin]
      not_ready := by
        intro s state hst hne hs
        obtain ⟨r, hr, hin⟩ := (h.mem_ready s).mp hs
        rw [sessionState_of_lookup hr, (h.sound s r hr).queued hin] at hst
        exact hne (Option.some.inj hst).symm
      owner := by
        intro t s
        rw [← ownerOf_eq_some_iff]
        exact h.owner t s
      owner_unique := by
        rintro t ⟨s, g⟩ hp
        have ho : c.ownerOf t = some s := (ownerOf_eq_some_iff c t s).mpr ⟨g, hp⟩
        obtain ⟨r, hr, ht⟩ := (h.owner t s).mp ho
        refine ⟨s, ⟨r, hr, List.count_eq_one_of_mem (h.sound s r hr).nodup ht⟩, ?_⟩
        rintro j ⟨q, hq, hcount⟩
        have hj := (h.owner t j).mpr ⟨q, hq, List.count_pos_iff.mp (by omega)⟩
        rw [ho] at hj
        exact (Option.some.inj hj).symm
      listed_once := fun s r hr => (h.sound s r hr).nodup
      revoked := by
        intro s r hr hst
        have hnil : r.inflight = [] := (h.sound s r hr).revoked
          (by rcases hst with he | he | he <;> simp [he])
          (by rcases hst with he | he | he <;> simp [he])
        refine ⟨hnil, fun t g hg => ?_⟩
        have ho := (ownerOf_eq_some_iff c t s).mpr ⟨g, hg⟩
        rw [h.owner_iff hr, hnil] at ho
        exact absurd ho List.not_mem_nil
      bounded := by
        intro s n hn
        obtain ⟨r, hr, rfl⟩ := Option.map_eq_some_iff.mp hn
        have hle := (h.sound s r hr).bounded
        rwa [hbud] at hle
      ticket_lt := by
        rintro t ⟨s, g⟩ hp
        exact h.ticket_lt t ⟨s, (ownerOf_eq_some_iff c t s).mpr ⟨g, hp⟩⟩ }

end SchedulerCore

end Logan
