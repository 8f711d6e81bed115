import Logan.Sched.CoreTransition
import Logan.Util.Ledger

/-!
# Tickets are single-use, and terminal states are final

A ticket leaves the core in one of four ways: a completion that finds it
live, a cancellation of its session, a terminal transition of its session,
or a failing completion of another ticket of its session. The core keeps no
record of which happened. `postings` writes one down for every operation, in
the vocabulary of `Logan.Util.Ledger`, and `Transition.posts` shows that the
ledger accepts it: the ticket map of the core is the set of tickets the
ledger has live. That a ticket is retired at most once is then a fact about
ledgers.

The second half is about sessions: a terminal state is never left
(`Transition.ended`) and is reported when it is entered (`Transition.reports`),
so it is reported once.
-/

namespace Logan

open List SimOutcome Function Option

/-- The ticket an effect revokes. -/
def Effect.cancelled? : Effect → Option Ticket
  | .cancel t => some t
  | _ => none

/-- The session an effect reports as terminal. -/
def Effect.ended? : Effect → Option SessionId
  | .finished s => some s
  | .failed s _ => some s
  | _ => none

/-- The tickets a list of effects revokes, in order. -/
def cancels (es : List Effect) : List Ticket := es.filterMap Effect.cancelled?

/-- The sessions a list of effects reports as terminal, in order. -/
def reports (es : List Effect) : List SessionId := es.filterMap Effect.ended?

theorem cancels_append (es fs : List Effect) :
    cancels (es ++ fs) = cancels es ++ cancels fs := filterMap_append

theorem reports_append (es fs : List Effect) :
    reports (es ++ fs) = reports es ++ reports fs := filterMap_append

@[simp] theorem cancels_map_cancel (ts : List Ticket) : cancels (ts.map .cancel) = ts := by
  unfold cancels
  rw [filterMap_map]
  exact filterMap_some

@[simp] theorem reports_map_cancel (ts : List Ticket) : reports (ts.map .cancel) = [] := by
  unfold reports
  rw [filterMap_map]
  exact filterMap_eq_nil_iff.mpr (fun _ _ => rfl)

@[simp] theorem cancels_terminal (s : SessionId) (terminal : Terminal) :
    cancels [terminal.effect s] = [] := by
  cases terminal <;> rfl

@[simp] theorem reports_terminal (s : SessionId) (terminal : Terminal) :
    reports [terminal.effect s] = [s] := by
  cases terminal <;> rfl

@[simp] theorem SimOutcome.effectList_ofResult_ok (es : List Effect) :
    (ofResult (.ok es)).effectList = es := by
  cases es <;> rfl

variable {out : SimOutcome}

theorem SimOutcome.effectList_of_quiet
    (h : out = .noop ∨ ∃ e, out = .error e) : out.effectList = [] := by
  rcases h with rfl | ⟨e, rfl⟩ <;> rfl

namespace SchedulerCore

variable {c : SchedulerCore}

/-! ## The ticket ledger -/

/-- **What an operation does to the tickets**, given its outcome: a granted
submission issues one, a completion that finds its ticket live consumes it,
and a `Cancel` effect revokes the ticket it names. -/
def postingsOf (c : SchedulerCore) (op : SimOp) (out : SimOutcome) :
    List (Posting Ticket SessionId) :=
  match op, out with
  | .submit s _, .submitted t _ => [.issue t s]
  | .complete t _, out =>
    (if (c.ownerOf t).isSome then [.consume t] else []) ++ (cancels out.effectList).map .revoke
  | _, out => (cancels out.effectList).map .revoke

/-- The postings of one operation. -/
def postings (c : SchedulerCore) (op : SimOp) : List (Posting Ticket SessionId) :=
  c.postingsOf op (c.execute op).1

/-- The ledger has live exactly the tickets of the core's ticket map. -/
structure Books (l : Ledger Ticket SessionId) (c : SchedulerCore) : Prop where
  consistent : c.Consistent
  live : ∀ t s, c.ownerOf t = some s ↔ l t = .live s
  unissued : ∀ t : Ticket, c.nextTicket ≤ t.val → l t = .unissued

theorem books_new (budget : Budget) : Books .blank (new budget) where
  consistent := consistent_new budget
  live := fun t s => by simp [new, ownerOf, ticketOwner, Ledger.blank]
  unissued := fun _ _ => rfl

variable {c' : SchedulerCore}

namespace Books

variable {l : Ledger Ticket SessionId} {s : SessionId} {r : Session}

/-- An operation that leaves the ticket map alone posts nothing. -/
theorem frame (h : Books l c) (hc : c'.Consistent) (hinf : c'.inflight = c.inflight)
    (hnex : c'.nextTicket = c.nextTicket) : Books l c' where
  consistent := hc
  live := by
    intro t s
    rw [ownerOf, hinf]
    exact h.live t s
  unissued := fun t ht => h.unissued t (hnex ▸ ht)

/-- Issuing the next ticket. -/
theorem issued (h : Books l c) (hs : c.sessions.lookup s = some r) (hrun : r.state = .runnable)
    (hrm : r.inflight.length < c.budget.maxInflightPerSession) :
    ∃ l', l.postAll [.issue ⟨c.nextTicket⟩ s] = some l' ∧ Books l' (c.issued s r) := by
  refine ⟨_, (Ledger.postAll_singleton _ _).trans
    (Ledger.post_issue (h.unissued ⟨c.nextTicket⟩ le_rfl) s),
    h.consistent.issued hs hrun hrm, ?_, ?_⟩
  · intro t j
    rw [ownerOf_issued]
    by_cases ht : t = ⟨c.nextTicket⟩
    · rw [if_pos ht, ht, update_self]
      simp
    · rw [if_neg ht, update_of_ne ht]
      exact h.live t j
  · intro t ht
    have hne : t ≠ ⟨c.nextTicket⟩ := by
      rintro rfl
      exact absurd ht (Nat.not_succ_le_self _)
    rw [update_of_ne hne]
    exact h.unissued t (Nat.le_of_succ_le ht)

/-- Using up a live ticket. -/
theorem retired (h : Books l c) (hs : c.sessions.lookup s = some r) {t : Ticket}
    (ho : c.ownerOf t = some s) :
    ∃ l', l.postAll [.consume t] = some l' ∧ Books l' (c.retired t s r) := by
  refine ⟨_, (Ledger.postAll_singleton _ _).trans
    (Ledger.post_consume ((h.live t s).mp ho)), h.consistent.retired hs ho, ?_, ?_⟩
  · intro u j
    rw [ownerOf_retired]
    by_cases hu : u = t
    · rw [if_pos hu, hu, update_self]
      simp
    · rw [if_neg hu, update_of_ne hu]
      exact h.live u j
  · intro u hu
    have hne : u ≠ t := by
      rintro rfl
      exact absurd (h.consistent.ticket_lt u ⟨s, ho⟩) (Nat.not_lt.mpr hu)
    rw [update_of_ne hne]
    exact h.unissued u hu

/-- Revoking all a session owns. -/
theorem revoked (h : Books l c) (hs : c.sessions.lookup s = some r) (state : SessionState) :
    ∃ l', l.postAll (r.inflight.map .revoke) = some l' ∧ Books l' (c.revoked s r state) := by
  have hown := fun t => h.consistent.owner_iff hs t
  refine ⟨_, Ledger.postAll_revoke (h.consistent.sound s r hs).nodup
    (fun t ht => ⟨s, (h.live t s).mp ((hown t).mpr ht)⟩),
    h.consistent.revoked hs state, ?_, ?_⟩
  · intro u j
    rw [ownerOf_revoked]
    by_cases hu : u ∈ r.inflight
    · simp [hu]
    · simp only [if_neg hu]
      exact h.live u j
  · intro u hu
    have hne : u ∉ r.inflight := fun hm =>
      absurd (h.consistent.ticket_lt u ⟨s, (hown u).mpr hm⟩) (Nat.not_lt.mpr hu)
    simp only [if_neg hne]
    exact h.unissued u hu

end Books

/-- **The ledger accepts what every transition posts.** -/
theorem Transition.posts {l : Ledger Ticket SessionId} (h : Books l c) {op : SimOp}
    (ht : c.Transition op out c') :
    ∃ l', l.postAll (c.postingsOf op out) = some l' ∧ Books l' c' := by
  have hc' := ht.consistent h.consistent
  cases ht with
  | created | handedOut | requeued | parked | woken => exact ⟨l, rfl, h.frame hc' rfl rfl⟩
  | issued s a r hs hrun hrm => exact h.issued hs hrun hrm
  | idled => exact ⟨l, rfl, h⟩
  | completed t s r ho hs =>
    have hpos : c.postingsOf (.complete t .ok) .noop = [.consume t] := by
      simp [postingsOf, ho, effectList, cancels]
    rw [hpos]
    exact h.retired hs ho
  | completedLast t s r ho hs =>
    have hpos : c.postingsOf (.complete t .ok) (.effects [.wake s]) = [.consume t] := by
      simp [postingsOf, ho, effectList, cancels, Effect.cancelled?]
    rw [hpos]
    obtain ⟨l', hl', h'⟩ := h.retired hs ho
    exact ⟨l', hl', h'.frame hc' rfl rfl⟩
  | completedErr t s r e ho hs =>
    have hpos : c.postingsOf (.complete t (.err e))
        (.ofResult (.ok ((r.without t).inflight.map .cancel ++ [.failed s e])))
        = [.consume t] ++ (r.without t).inflight.map .revoke := by
      have hfld : cancels [Effect.failed s e] = [] := rfl
      simp [postingsOf, ho, cancels_append, hfld]
    obtain ⟨l₁, hl₁, h₁⟩ := h.retired hs ho
    obtain ⟨l₂, hl₂, h₂⟩ := h₁.revoked (lookup_retired c t s r) .failed
    refine ⟨l₂, ?_, h₂⟩
    rwa [hpos, Ledger.postAll_append, hl₁]
  | cancelled s r hs =>
    have hpos : c.postingsOf (.cancel s) (.ofResult (.ok (r.inflight.map .cancel)))
        = r.inflight.map .revoke := by
      simp [postingsOf]
    rw [hpos]
    exact h.revoked hs .cancelling
  | terminated _ s r terminal hop hs =>
    have hpos : c.postingsOf op (.ofResult (.ok (r.inflight.map .cancel ++ [terminal.effect s])))
        = r.inflight.map .revoke := by
      rcases hop with ⟨rfl, -⟩ | ⟨e, rfl, -⟩ <;> simp [postingsOf, cancels_append]
    rw [hpos]
    exact h.revoked hs terminal.state
  | refused _ _ hqt hst =>
    have hpos : c.postingsOf op out = [] := by
      have hnil := effectList_of_quiet hqt
      cases op with
      | complete t o =>
        simp [postingsOf, hst t o rfl, hnil, cancels]
      | submit => rcases hqt with rfl | ⟨e, rfl⟩ <;> rfl
      | _ => simp [postingsOf, hnil, cancels]
    rw [hpos]
    exact ⟨l, rfl, h⟩

/-- **The history of the tickets of a run**, oldest first. -/
def history (budget : Budget) (ops : List SimOp) : List (Posting Ticket SessionId) :=
  machine.gather postings (new budget) ops

variable (budget : Budget)

variable (ops : List SimOp)

/-- The ledger accepts the history of every run. -/
theorem books_run : ∃ l, Ledger.blank.postAll (history budget ops) = some l
      ∧ Books l (machine.run (new budget) ops) :=
  Machine.gather_replays Books
    (fun _ _ op hb _ => (execute_transition hb.consistent op).posts hb) (books_new budget)
    (Machine.along_of_step (P := fun _ => True) (C := fun _ _ => True)
      (fun _ _ h => h) (fun _ _ h => h) trivial ops)

/-- **A ticket is live exactly when it was issued and not retired.** -/
theorem ownerOf_run_iff (t : Ticket) (s : SessionId) :
    (machine.run (new budget) ops).ownerOf t = some s
      ↔ .issue t s ∈ history budget ops ∧ .consume t ∉ history budget ops
        ∧ .revoke t ∉ history budget ops := by
  obtain ⟨l, hl, hb⟩ := books_run budget ops
  rw [hb.live, Ledger.live_iff hl]

/-! ## Submission order -/

/-- The ticket an outcome hands to the submitter. -/
def submittedOf : SimOutcome → List Ticket
  | .submitted t _ => [t]
  | _ => []

/-- **The tickets of a run in the order they were submitted.** -/
def submissions (budget : Budget) (ops : List SimOp) : List Ticket :=
  machine.gather (fun c op => submittedOf (c.execute op).1) (new budget) ops

/-- The live tickets of a session, in the order they were submitted. -/
def liveTickets (budget : Budget) (ops : List SimOp) (s : SessionId) : List Ticket :=
  (submissions budget ops).filter (fun t => (machine.run (new budget) ops).ownerOf t = some s)

theorem submittedOf_ofResult (result : Except SchedError (List Effect)) :
    submittedOf (.ofResult result) = [] := by
  match result with
  | .ok [] => rfl
  | .ok (_ :: _) => rfl
  | .error _ => rfl

/-- A submission takes the next ticket, and no other operation takes one. -/
theorem Transition.numbered {op : SimOp} (ht : c.Transition op out c') :
    (submittedOf out = [] ∧ c'.nextTicket = c.nextTicket)
    ∨ (submittedOf out = [⟨c.nextTicket⟩] ∧ c'.nextTicket = c.nextTicket + 1) := by
  cases ht with
  | issued => exact Or.inr ⟨rfl, rfl⟩
  | completedErr | cancelled | terminated => exact Or.inl ⟨submittedOf_ofResult _, rfl⟩
  | refused _ _ hqt => rcases hqt with rfl | ⟨e, rfl⟩ <;> exact Or.inl ⟨rfl, rfl⟩
  | _ => exact Or.inl ⟨rfl, rfl⟩

/-- Tickets are numbered in the order they are submitted. -/
theorem submissions_eq : submissions budget ops
      = (List.range (machine.run (new budget) ops).nextTicket).map Ticket.mk := by
  unfold submissions
  induction ops using List.reverseRecOn with
  | nil => rfl
  | append_singleton ops op ih =>
    rw [Machine.gather_append, Machine.run_append, ih]
    have h := run_consistent (consistent_new budget) ops
    generalize machine.run (new budget) ops = c at h
    show _ ++ (submittedOf (c.execute op).1 ++ []) = (List.range (c.execute op).2.nextTicket).map _
    rcases (execute_transition h op).numbered with ⟨hout, hnex⟩ | ⟨hout, hnex⟩
    · rw [hout, hnex, List.append_nil, List.append_nil]
    · rw [hout, hnex, List.append_nil, range_succ, List.map_append]
      rfl

/-- **A session's list is its live tickets in submission order.** -/
theorem inflight_eq_liveTickets {s : SessionId}
    {r : Session} (hs : (machine.run (new budget) ops).sessions.lookup s = some r) :
    r.inflight = liveTickets budget ops s := by
  have h := run_consistent (consistent_new budget) ops
  unfold liveTickets
  rw [submissions_eq]
  generalize machine.run (new budget) ops = c at h hs
  refine (h.sound s r hs).ordered.eq_of_mem_iff (List.Pairwise.filter _ ?_) (fun t => ?_)
  · rw [pairwise_map]
    exact pairwise_lt_range
  · rw [mem_filter, decide_eq_true_iff, ← h.owner_iff hs]
    refine ⟨fun ho => ⟨?_, ho⟩, fun ho => ho.2⟩
    exact mem_map.mpr ⟨t.val, mem_range.mpr (h.ticket_lt t ⟨s, ho⟩), rfl⟩

/-- A session without a record has no live ticket. -/
theorem liveTickets_of_unknown {s : SessionId}
    (hs : (machine.run (new budget) ops).sessions.lookup s = none) :
    liveTickets budget ops s = [] := by
  have h := run_consistent (consistent_new budget) ops
  refine filter_eq_nil_iff.mpr (fun t _ => ?_)
  rw [decide_eq_true_iff]
  exact h.not_owner_of_unknown hs t

/-! ## Terminal states -/

/-- A session has finished or failed. -/
def Ended (c : SchedulerCore) (s : SessionId) : Prop :=
  c.sessionState s = some .finished ∨ c.sessionState s = some .failed

/-- A rewrite of a session that has not ended changes no terminal state. -/
theorem sessionState_of_open {c : SchedulerCore} {s : SessionId} {r r' : Session}
    (hs : c.sessions.lookup s = some r) (hc : c'.sessions = c.sessions.insert s r')
    (hfin : r.state ≠ .finished) (hfl : r.state ≠ .failed) {j : SessionId}
    (hj : c.Ended j) : c'.sessionState j = c.sessionState j := by
  rw [sessionState_rewrite hc]
  by_cases hjs : j = s
  · subst hjs
    rw [Ended, sessionState_of_lookup hs] at hj
    rcases hj with hj | hj
    · exact absurd (some.inj hj) hfin
    · exact absurd (some.inj hj) hfl
  · rw [if_neg hjs]

section

variable (h : c.Consistent)

include h

/-- The owner of a live ticket has not ended. -/
theorem Consistent.open_of_owner {t : Ticket} {s : SessionId}
    {r : Session} (ho : c.ownerOf t = some s) (hs : c.sessions.lookup s = some r) :
    r.state = .runnable ∨ r.state = .blocked := by
  have hmem := (h.owner_iff hs t).mp ho
  by_contra hno
  rw [not_or] at hno
  rw [(h.sound s r hs).revoked hno.1 hno.2] at hmem
  exact absurd hmem not_mem_nil

/-- **A terminal state is never left.** -/
theorem Transition.ended {op : SimOp} (ht : c.Transition op out c')
    {j : SessionId} (hj : c.Ended j) :
    c'.sessionState j = c.sessionState j := by
  cases ht with
  | created =>
    have hne : j ≠ ⟨c.nextSession⟩ := by
      rintro rfl
      cases hl : c.sessions.lookup ⟨c.nextSession⟩ with
      | none => simp [Ended, sessionState, hl] at hj
      | some r => exact absurd (h.session_lt _ r hl) (Nat.lt_irrefl _)
    rw [sessionState_rewrite (c := c) rfl, if_neg hne]
  | issued s a r hs => exact sessionState_of_same hs rfl (by rfl) j
  | handedOut s rest r hrdy hs => exact sessionState_of_same hs rfl (by rfl) j
  | idled | refused => rfl
  | requeued s r hs hrun => exact sessionState_of_same hs rfl hrun.symm j
  | parked s r hs hrun =>
    exact sessionState_of_open hs rfl (by simp [hrun]) (by simp [hrun]) hj
  | woken s r hs hblk =>
    exact sessionState_of_open hs rfl (by simp [hblk]) (by simp [hblk]) hj
  | completed t s r ho hs => exact sessionState_of_same hs rfl (by rfl) j
  | completedLast t s r ho hs hblk =>
    have hmid : (c.retired t s r).sessionState j = c.sessionState j :=
      sessionState_of_same hs rfl (by rfl) j
    refine Eq.trans ?_ hmid
    refine sessionState_of_open (lookup_retired c t s r) rfl (by simp [Session.without, hblk])
      (by simp [Session.without, hblk]) ?_
    rwa [Ended, hmid]
  | completedErr t s r e ho hs =>
    have hmid : (c.retired t s r).sessionState j = c.sessionState j :=
      sessionState_of_same hs rfl (by rfl) j
    have hope : r.state ≠ .finished ∧ r.state ≠ .failed := by
      rcases h.open_of_owner ho hs with he | he <;> simp [he]
    refine Eq.trans ?_ hmid
    refine sessionState_of_open (lookup_retired c t s r) rfl hope.1 hope.2 ?_
    rwa [Ended, hmid]
  | cancelled s r hs hst =>
    exact sessionState_of_open hs rfl (by rcases hst with he | he <;> simp [he])
      (by rcases hst with he | he <;> simp [he]) hj
  | terminated _ s r terminal hop hs hfin hfl => exact sessionState_of_open hs rfl hfin hfl hj

/-- **A terminal state is reported when it is entered**, by one effect. -/
theorem Transition.reports {op : SimOp} (ht : c.Transition op out c') :
    Logan.reports out.effectList = []
    ∨ ∃ s, Logan.reports out.effectList = [s] ∧ ¬ c.Ended s ∧ c'.Ended s := by
  have hope : ∀ {s r}, c.sessions.lookup s = some r → r.state ≠ .finished →
      r.state ≠ .failed → ¬ c.Ended s := by
    intro s r hs hfin hfl hend
    rw [Ended, sessionState_of_lookup hs] at hend
    rcases hend with he | he
    · exact hfin (some.inj he)
    · exact hfl (some.inj he)
  cases ht with
  | completedErr t s r e ho hs =>
    refine Or.inr ⟨s, ?_, ?_, Or.inr ?_⟩
    · rw [effectList_ofResult_ok, reports_append, reports_map_cancel]
      rfl
    · rcases h.open_of_owner ho hs with he | he
      · exact hope hs (by simp [he]) (by simp [he])
      · exact hope hs (by simp [he]) (by simp [he])
    · rw [sessionState_rewrite (c := c.retired t s r) rfl, if_pos rfl]
  | cancelled => exact Or.inl (by simp)
  | terminated _ s r terminal hop hs hfin hfl =>
    refine Or.inr ⟨s, ?_, hope hs hfin hfl, ?_⟩
    · rw [effectList_ofResult_ok, reports_append, reports_map_cancel, reports_terminal, nil_append]
    · rw [Ended, sessionState_rewrite (c := c) rfl, if_pos rfl]
      cases terminal with
      | finished => exact Or.inl rfl
      | failed => exact Or.inr rfl
  | refused _ _ hqt =>
    exact Or.inl (by rw [effectList_of_quiet hqt]; rfl)
  | _ => exact Or.inl rfl

/-- An ended session stays as it ended, however the run goes on. -/
theorem run_ended {s : SessionId} (hs : c.Ended s) (ops : List SimOp) :
    (machine.run c ops).sessionState s = c.sessionState s := by
  have hinv := Machine.run_of_step (M := machine)
    (P := fun d => d.Consistent ∧ d.sessionState s = c.sessionState s) ?_ ⟨h, rfl⟩ ops
  · exact hinv.2
  · rintro d op ⟨hd, hst⟩
    have hend : d.Ended s := by
      rwa [Ended, hst]
    exact ⟨execute_consistent d op hd, ((execute_transition hd op).ended hd hend).trans hst⟩

/-- `step` returns a runnable session. -/
theorem sessionState_of_step {s : SessionId} (hs : c.step.1 = .run s) :
    c.sessionState s = some .runnable := by
  rcases step_cases h with ⟨-, heq⟩ | ⟨j, rest, r, -, hj, hrun, -, heq⟩
  · rw [heq] at hs
    exact absurd hs (by simp)
  · rw [heq] at hs
    obtain rfl := Step.run.inj hs
    rw [sessionState_of_lookup hj, hrun]

end

theorem cancels_of_quiet {result : Except SchedError (List Effect)} (h : Quiet result) :
    cancels (ofResult result).effectList = [] := by
  rw [effectList_of_quiet (ofResult_of_quiet h)]
  rfl

/-- A session that is neither runnable nor blocked has no live ticket. -/
theorem liveTickets_of_closed {s : SessionId}
    (hs : ∀ r, (machine.run (new budget) ops).sessions.lookup s = some r →
      r.state ≠ .runnable ∧ r.state ≠ .blocked) : liveTickets budget ops s = [] := by
  cases hl : (machine.run (new budget) ops).sessions.lookup s with
  | none => exact liveTickets_of_unknown budget ops hl
  | some r =>
    rw [← inflight_eq_liveTickets budget ops hl]
    obtain ⟨hrun, hblk⟩ := hs r hl
    exact ((run_consistent (consistent_new budget) ops).sound s r hl).revoked hrun hblk

/-! ## The law -/

/-- **What holds of the tickets and terminal states of a run.** -/
structure TicketLaw (budget : Budget) (ops : List SimOp) : Prop where
  /-- A ticket is consumed once or revoked once or neither, and never both. -/
  once : ∀ t, (history budget ops).count (.consume t) + (history budget ops).count (.revoke t) ≤ 1
  /-- Only an issued ticket is retired. -/
  issued : ∀ t, .consume t ∈ history budget ops ∨ .revoke t ∈ history budget ops →
    ∃ s, .issue t s ∈ history budget ops
  /-- A completion of a retired or unissued ticket does nothing. -/
  stale : ∀ t o, (∀ s, .issue t s ∉ history budget ops) ∨ .consume t ∈ history budget ops
      ∨ .revoke t ∈ history budget ops →
    (machine.run (new budget) ops).complete t o = (.ok [], machine.run (new budget) ops)
  /-- Cancelling cancels what the session has live, in submission order. -/
  cancels_cancel : ∀ s, cancels ((machine.run (new budget) ops).execute (.cancel s)).1.effectList
      = liveTickets budget ops s
  /-- So does finishing. -/
  cancels_finish : ∀ s, cancels ((machine.run (new budget) ops).execute (.finish s)).1.effectList
      = liveTickets budget ops s
  /-- So does failing. -/
  cancels_fail : ∀ s e, cancels ((machine.run (new budget) ops).execute (.fail s e)).1.effectList
      = liveTickets budget ops s
  /-- A failing completion of a live ticket cancels the others. -/
  cancels_complete : ∀ t e s, (machine.run (new budget) ops).ownerOf t = some s →
    cancels ((machine.run (new budget) ops).execute (.complete t (.err e))).1.effectList
      = (liveTickets budget ops s).filter (fun u => u ≠ t)
  /-- A terminal state is final. -/
  stable : ∀ s, (machine.run (new budget) ops).Ended s → ∀ later,
    (machine.run (new budget) (ops ++ later)).sessionState s
      = (machine.run (new budget) ops).sessionState s
  /-- A terminal session is never returned by `step`. -/
  never_run : ∀ s, (machine.run (new budget) ops).Ended s → ∀ later,
    (machine.run (new budget) (ops ++ later)).step.1 ≠ .run s
  /-- A session is reported as terminal at most once. -/
  reported_once : (machine.gather (fun c op => Logan.reports (c.execute op).1.effectList)
    (new budget) ops).Nodup

/-- The reports of a run name no session twice. -/
theorem reports_nodup :
    (machine.gather (fun c op => Logan.reports (c.execute op).1.effectList)
      (new budget) ops).Nodup := by
  refine (Machine.gather_nodup (P := Consistent) (C := fun _ _ => True)
    (fun c s => ¬ c.Ended s) (fun c op h _ => execute_consistent c op h) ?_ ?_ ?_
    (consistent_new budget)
    (Machine.along_of_step (P := fun _ => True) (fun _ _ h => h) (fun _ _ h => h) trivial ops)).1
  · intro c op h _
    rcases (execute_transition h op).reports h with hnil | ⟨s, hs, -⟩
    · rw [hnil]
      exact nodup_nil
    · rw [hs]
      exact nodup_singleton s
  · intro c op h _ j hj
    rcases (execute_transition h op).reports h with hnil | ⟨s, hs, hop, -⟩
    · rw [hnil] at hj
      exact absurd hj not_mem_nil
    · rw [hs, mem_singleton] at hj
      exact hj ▸ hop
  · intro c op h _ j hj
    constructor
    · intro hend
      have hkep : (machine.next c op).sessionState j = c.sessionState j :=
        (execute_transition h op).ended h hend
      refine hj ?_
      rwa [Ended, hkep]
    · intro hmem
      rcases (execute_transition h op).reports h with hnil | ⟨s, hs, -, hend⟩
      · rw [hnil] at hmem
        exact absurd hmem not_mem_nil
      · rw [hs, mem_singleton] at hmem
        exact hj (hmem ▸ hend)

/-- **Tickets are single-use and terminal states are final, in every run of
the core.** -/
theorem ticket_law (budget : Budget) (ops : List SimOp) : TicketLaw budget ops where
  once := by
    obtain ⟨l, hl, -⟩ := books_run budget ops
    exact Ledger.retired_at_most_once hl
  issued := by
    obtain ⟨l, hl, -⟩ := books_run budget ops
    exact fun t => Ledger.issued_of_retired hl
  stale := by
    intro t o hst
    have h := run_consistent (consistent_new budget) ops
    rcases complete_cases h t o with ⟨-, heq⟩ | ⟨s, r, ho, -⟩
    · exact heq
    · obtain ⟨hiss, hcon, hrev⟩ := (ownerOf_run_iff budget ops t s).mp ho
      rcases hst with hno | hc | hr
      · exact absurd hiss (hno s)
      · exact absurd hc hcon
      · exact absurd hr hrev
  cancels_cancel := by
    intro s
    show cancels (ofResult (cancel _ s).1).effectList = _
    rcases cancel_cases (machine.run (new budget) ops) s with
      ⟨r, hs, -, heq⟩ | ⟨-, hqt, hcl⟩
    · rw [heq, effectList_ofResult_ok, cancels_map_cancel]
      exact inflight_eq_liveTickets budget ops hs
    · rw [cancels_of_quiet hqt, liveTickets_of_closed budget ops hcl]
  cancels_finish := by
    intro s
    show cancels (ofResult (finish _ s).1).effectList = _
    rcases finish_cases (machine.run (new budget) ops) s with
      ⟨r, hs, -, -, heq⟩ | ⟨-, hqt, hcl⟩
    · rw [heq, effectList_ofResult_ok, cancels_append, cancels_map_cancel,
        inflight_eq_liveTickets budget ops hs]
      exact List.append_nil _
    · rw [cancels_of_quiet hqt, liveTickets_of_closed budget ops (fun r hr => by
        rcases hcl r hr with he | he <;> simp [he])]
  cancels_fail := by
    intro s e
    show cancels (ofResult (fail _ s e).1).effectList = _
    rcases fail_cases (machine.run (new budget) ops) s e with
      ⟨r, hs, -, -, heq⟩ | ⟨-, hqt, hcl⟩
    · rw [heq, effectList_ofResult_ok, cancels_append, cancels_map_cancel,
        inflight_eq_liveTickets budget ops hs]
      exact List.append_nil _
    · rw [cancels_of_quiet hqt, liveTickets_of_closed budget ops (fun r hr => by
        rcases hcl r hr with he | he <;> simp [he])]
  cancels_complete := by
    intro t e s ho
    have h := run_consistent (consistent_new budget) ops
    show cancels (ofResult (complete _ t (.err e)).1).effectList = _
    rcases complete_cases h t (.err e) with ⟨hno, -⟩ | ⟨j, r, hj, hs, hcas⟩
    · rw [ho] at hno
      exact absurd hno (by simp)
    · obtain rfl : s = j := some.inj (ho.symm.trans hj)
      rcases hcas with ⟨hok, -⟩ | ⟨hok, -⟩ | ⟨e', -, heq⟩
      · exact absurd hok (by simp)
      · exact absurd hok (by simp)
      · rw [heq, effectList_ofResult_ok, cancels_append, cancels_map_cancel,
          ← inflight_eq_liveTickets budget ops hs]
        exact List.append_nil _
  stable := by
    intro s hs later
    rw [Machine.run_append]
    exact run_ended (run_consistent (consistent_new budget) ops) hs later
  never_run := by
    intro s hs later hstp
    have hrun := sessionState_of_step (run_consistent (consistent_new budget) _) hstp
    rw [Machine.run_append, run_ended (run_consistent (consistent_new budget) ops) hs] at hrun
    rcases hs with he | he
    · rw [he] at hrun
      exact absurd hrun (by simp)
    · rw [he] at hrun
      exact absurd hrun (by simp)
  reported_once := reports_nodup budget ops

end SchedulerCore

end Logan
