import Logan.Sched.CoreFairness

/-!
# When a blocked session wakes up

Completions race the `block` that waits for them: an executor may answer
before the frontend's `block` is processed, or after. The core wakes a
session inside `complete`, when the last ticket of a *blocked* session
succeeds; `block` does not look at the tickets at all. So whether a session
wakes up depends on one thing only, whether a ticket is still live when it
blocks, and not on how many there are or in which order they come back
(`wakes_iff_live_at_block`). A session that blocks when nothing is left to
wait for stays blocked until an explicit `wake` (`blocked_after_completions`).

The argument follows the record of one session through calls that are about
others (`Transition.frame`) and through the completions of its own tickets.
-/

namespace Logan

open List Table Option

namespace SchedulerCore

variable {c : SchedulerCore} {s : SessionId} {r : Session}

/-- **A call names a session** by its identifier, or by a ticket it owns. -/
def Names (c : SchedulerCore) (s : SessionId) : SimOp → Prop
  | .createSession | .step => False
  | .submit j _ | .requeue j | .block j | .wake j | .cancel j | .finish j | .fail j _ => j = s
  | .complete t _ => c.ownerOf t = some s

/-- A call that, if it names the session, completes one of its tickets
successfully. -/
def Completes (s : SessionId) (c : SchedulerCore) (op : SimOp) : Prop :=
  Names c s op → ∃ t, op = .complete t .ok

/-- A call that, if it names the session, submits an action of it or
completes one of its tickets successfully. -/
def SubmitsOrCompletes (s : SessionId) (c : SchedulerCore) (op : SimOp) : Prop :=
  Names c s op → (∃ a, op = .submit s a) ∨ ∃ t, op = .complete t .ok

/-! ## Calls about other sessions -/

/-- The same session as seen before and after a call about others: its
record and its place in the queue are kept, or it was handed to the
driver. -/
def Kept (s : SessionId) (r : Session) (c c' : SchedulerCore) (out : SimOutcome) : Prop :=
  (c'.sessions.lookup s = some r ∧ (s ∈ c'.ready ↔ s ∈ c.ready))
  ∨ (out = .step (.run s) ∧ r.state = .runnable
      ∧ c'.sessions.lookup s = some { r with inReady := false })

theorem kept_of_rewrite {c' : SchedulerCore} {out : SimOutcome} {j : SessionId} {q : Session}
    (hs : c.sessions.lookup s = some r) (hc : c'.sessions = c.sessions.insert j q)
    (hne : j ≠ s) (hrdy : s ∈ c'.ready ↔ s ∈ c.ready) : Kept s r c c' out := by
  refine Or.inl ⟨?_, hrdy⟩
  rw [hc, lookup_insert_ne _ _ hne.symm, hs]

section

variable (h : c.Consistent)

include h

/-- **A call that does not name a session leaves it as it is**, up to its
turn of `step`. -/
theorem Transition.frame (hs : c.sessions.lookup s = some r)
    {op : SimOp} {out : SimOutcome} {c' : SchedulerCore} (ht : c.Transition op out c')
    (hnam : ¬ Names c s op) : Kept s r c c' out := by
  have hjn : ∀ {j : SessionId}, j ≠ s → (s ∈ c.ready ++ [j] ↔ s ∈ c.ready) := by
    intro j hj
    simp [hj.symm]
  have hdr : ∀ {j : SessionId}, j ≠ s →
      (s ∈ c.ready.filter (fun queued => queued ≠ j) ↔ s ∈ c.ready) := by
    intro j hj
    exact Consistent.mem_removed hj.symm
  have hoth : ∀ {t : Ticket} {j : SessionId}, c.ownerOf t = some j →
      ¬ c.ownerOf t = some s → j ≠ s := by
    rintro t j hj hno rfl
    exact hno hj
  cases ht with
  | created =>
    have hne : (⟨c.nextSession⟩ : SessionId) ≠ s := by
      rintro rfl
      exact absurd (h.session_lt _ r hs) (Nat.lt_irrefl _)
    exact kept_of_rewrite hs rfl hne (hjn hne)
  | issued => exact kept_of_rewrite hs rfl hnam Iff.rfl
  | handedOut j rest q hrdy hq hrun =>
    by_cases hj : j = s
    · subst hj
      obtain rfl : r = q := some.inj (hs.symm.trans hq)
      exact Or.inr ⟨rfl, hrun, lookup_insert_self _ _ _⟩
    · refine kept_of_rewrite hs rfl hj ?_
      show s ∈ rest ↔ s ∈ c.ready
      rw [hrdy, mem_cons]
      simp [Ne.symm hj]
  | idled | refused => exact Or.inl ⟨hs, Iff.rfl⟩
  | requeued | woken => exact kept_of_rewrite hs rfl hnam (hjn hnam)
  | parked | cancelled => exact kept_of_rewrite hs rfl hnam (hdr hnam)
  | completed t j q ho => exact kept_of_rewrite hs rfl (hoth ho hnam) Iff.rfl
  | completedLast t j q ho =>
    have hne := hoth ho hnam
    exact kept_of_rewrite hs (insert_insert _ _ _ _) hne (hjn hne)
  | completedErr t j q e ho =>
    have hne := hoth ho hnam
    exact kept_of_rewrite hs (insert_insert _ _ _ _) hne (hdr hne)
  | terminated _ j q terminal hop =>
    have hne : j ≠ s := by
      rcases hop with ⟨rfl, -⟩ | ⟨e, rfl, -⟩
      · exact hnam
      · exact hnam
    exact kept_of_rewrite hs rfl hne (hdr hne)

/-! ## The session's own completions -/

/-- A successful completion of a ticket a session owns: it wakes the session
exactly if the session is blocked and this was its last ticket. -/
theorem complete_owned (hs : c.sessions.lookup s = some r) {t : Ticket}
    (ho : c.ownerOf t = some s) : machine.next c (.complete t .ok)
      = if r.state = .blocked ∧ (r.without t).inflight = []
        then (c.retired t s r).enqueued s (r.without t) else c.retired t s r := by
  show (c.complete t .ok).2 = _
  rcases complete_cases h t .ok with ⟨hno, -⟩ | ⟨j, q, hj, hq, hcas⟩
  · rw [ho] at hno
    exact absurd hno (by simp)
  · obtain rfl : s = j := some.inj (ho.symm.trans hj)
    obtain rfl : r = q := some.inj (hs.symm.trans hq)
    rcases hcas with ⟨-, hwt, heq⟩ | ⟨-, hblk, hlas, -, heq⟩ | ⟨e, he, -⟩
    · rw [heq, if_neg hwt]
    · rw [heq, if_pos ⟨hblk, hlas⟩]
    · exact absurd he (by simp)

/-! ## The three phases -/

/-- While it is runnable and its tickets are submitted and completed, a
session stays runnable. -/
theorem runnable_phase (hs : c.sessions.lookup s = some r)
    (hrun : r.state = .runnable) {ops : List SimOp}
    (hops : machine.Along (SubmitsOrCompletes s) c ops) :
    ∃ r', (machine.run c ops).sessions.lookup s = some r' ∧ r'.state = .runnable := by
  induction ops generalizing c r with
  | nil => exact ⟨r, hs, hrun⟩
  | cons op ops ih =>
    have h' := execute_consistent c op h
    by_cases hnam : Names c s op
    · rcases hops.1 hnam with ⟨a, rfl⟩ | ⟨t, rfl⟩
      · have hkep : ∃ r', (machine.next c (.submit s a)).sessions.lookup s = some r'
            ∧ r'.state = .runnable := by
          show ∃ r', (c.execute (.submit s a)).2.sessions.lookup s = some r' ∧ _
          rcases submit_cases c s a with ⟨q, hq, hqr, -, heq⟩ | ⟨e, heq⟩
          · simp only [execute, heq]
            exact ⟨_, lookup_insert_self _ _ _, hqr⟩
          · simp only [execute, heq]
            exact ⟨r, hs, hrun⟩
        obtain ⟨r', hs', hrun'⟩ := hkep
        exact ih h' hs' hrun' hops.2
      · have hnex : machine.next c (.complete t .ok) = c.retired t s r := by
          rw [complete_owned h hs hnam, if_neg (by simp [hrun])]
        refine ih (r := r.without t) h' ?_ hrun hops.2
        rw [hnex]
        exact lookup_retired c t s r
    · rcases (execute_transition h op).frame h hs hnam with ⟨hs', -⟩ | ⟨-, -, hs'⟩
      · exact ih h' hs' hrun hops.2
      · exact ih h' hs' hrun hops.2

/-- A runnable session without tickets keeps its place in the queue until it
is handed out, whatever is called on others. -/
theorem woken_phase (hs : c.sessions.lookup s = some r)
    (hrun : r.state = .runnable) (hnil : r.inflight = []) {ops : List SimOp}
    (hops : machine.Along (Completes s) c ops) :
    (machine.run c ops).sessionState s = some .runnable
    ∧ (s ∈ c.ready → s ∈ (machine.run c ops).ready ∨ s ∈ returned c ops) := by
  induction ops generalizing c r with
  | nil => exact ⟨by rw [← hrun]; exact sessionState_of_lookup hs, Or.inl⟩
  | cons op ops ih =>
    have h' := execute_consistent c op h
    have hnam : ¬ Names c s op := by
      intro hnam
      obtain ⟨t, rfl⟩ := hops.1 hnam
      -- a completion that names the session would be of a ticket it owns
      have hmem := (h.owner_iff hs t).mp hnam
      rw [hnil] at hmem
      exact absurd hmem not_mem_nil
    rcases (execute_transition h op).frame h hs hnam with ⟨hs', hrdy⟩ | ⟨hout, -, hs'⟩
    · obtain ⟨hst, hpl⟩ := ih h' hs' hrun hnil hops.2
      refine ⟨hst, fun hin => (hpl (hrdy.mpr hin)).imp_right (fun hret => ?_)⟩
      exact mem_append_right _ hret
    · obtain ⟨hst, -⟩ := ih h' hs' hrun hnil hops.2
      refine ⟨hst, fun _ => Or.inr (mem_append_left _ ?_)⟩
      show s ∈ returnedOf (c.execute op).1
      rw [hout]
      exact mem_cons_self

/-- A blocked session that waits for tickets is woken by the last of them,
in whatever order they complete. -/
theorem waiting_phase (hs : c.sessions.lookup s = some r)
    (hblk : r.state = .blocked) (hliv : r.inflight ≠ []) {ops : List SimOp}
    (hops : machine.Along (Completes s) c ops)
    (hdon : (machine.run c ops).inflightCount s = some 0) :
    (machine.run c ops).sessionState s = some .runnable
    ∧ (s ∈ (machine.run c ops).ready ∨ s ∈ returned c ops) := by
  induction ops generalizing c r with
  | nil =>
    have hlen : some r.inflight.length = some 0 := by
      rw [← hdon, Machine.run_nil, inflightCount, hs]
      rfl
    exact absurd (length_eq_zero_iff.mp (some.inj hlen)) hliv
  | cons op ops ih =>
    have h' := execute_consistent c op h
    by_cases hnam : Names c s op
    · obtain ⟨t, rfl⟩ := hops.1 hnam
      have hnex := complete_owned h hs hnam
      by_cases hlas : (r.without t).inflight = []
      · -- the last ticket: the session is queued, and keeps its place
        rw [if_pos ⟨hblk, hlas⟩] at hnex
        have hs' : (machine.next c (.complete t .ok)).sessions.lookup s
            = some { r.without t with state := .runnable, inReady := true } := by
          rw [hnex]
          exact lookup_insert_self _ _ _
        have hin : s ∈ (machine.next c (.complete t .ok)).ready := by
          rw [hnex]
          exact mem_append_right _ mem_cons_self
        obtain ⟨hst, hpl⟩ := woken_phase h' hs' rfl hlas hops.2
        exact ⟨hst, (hpl hin).imp_right (mem_append_right _)⟩
      · -- other tickets are left: the session stays blocked
        rw [if_neg (fun hc => hlas hc.2)] at hnex
        obtain ⟨hst, hpl⟩ := ih (r := r.without t) h'
          (by rw [hnex]; exact lookup_retired c t s r) hblk hlas hops.2 hdon
        exact ⟨hst, hpl.imp_right (mem_append_right _)⟩
    · rcases (execute_transition h op).frame h hs hnam with ⟨hs', -⟩ | ⟨-, hrun, -⟩
      · obtain ⟨hst, hpl⟩ := ih h' hs' hblk hliv hops.2 hdon
        exact ⟨hst, hpl.imp_right (mem_append_right _)⟩
      · exact absurd (hblk.symm.trans hrun) (by simp)

/-- A blocked session without tickets stays blocked, whatever is called on
others. -/
theorem stuck_phase (hs : c.sessions.lookup s = some r)
    (hblk : r.state = .blocked) (hnil : r.inflight = []) {ops : List SimOp}
    (hops : machine.Along (Completes s) c ops) :
    (machine.run c ops).sessionState s = some .blocked := by
  induction ops generalizing c r with
  | nil => exact (sessionState_of_lookup hs).trans (congrArg some hblk)
  | cons op ops ih =>
    have h' := execute_consistent c op h
    have hnam : ¬ Names c s op := by
      intro hnam
      obtain ⟨t, rfl⟩ := hops.1 hnam
      have hmem := (h.owner_iff hs t).mp hnam
      rw [hnil] at hmem
      exact absurd hmem not_mem_nil
    rcases (execute_transition h op).frame h hs hnam with ⟨hs', -⟩ | ⟨-, hrun, -⟩
    · exact ih h' hs' hblk hnil hops.2
    · exact absurd (hblk.symm.trans hrun) (by simp)

end

/-! ## The dichotomy -/

/-- **A session that blocks wakes up if and only if one of its tickets is
still live when it blocks.** The session is runnable, submits, and blocks
once; its tickets complete successfully on either side of the `block`, and
nothing else names it, while calls about other sessions interleave freely.
Once every ticket is completed, the session is runnable, and queued exactly
once or already handed out by `step`, if some completion came after the
`block`; if all of them came before, it is blocked with no live ticket. -/
theorem wakes_iff_live_at_block (budget : Budget) (before pre post : List SimOp) (s : SessionId)
    (hrun : (machine.run (new budget) before).sessionState s = some .runnable)
    (hpre : machine.Along (SubmitsOrCompletes s) (machine.run (new budget) before) pre)
    (hpost : machine.Along (Completes s)
      (machine.run (new budget) (before ++ pre ++ [SimOp.block s])) post)
    (hdone : (machine.run (new budget) (before ++ pre ++ [SimOp.block s] ++ post)).inflightCount s
      = some 0) : ((∃ t, (machine.run (new budget) (before ++ pre)).ownerOf t = some s) →
      (machine.run (new budget) (before ++ pre ++ [SimOp.block s] ++ post)).sessionState s
          = some .runnable
      ∧ ((machine.run (new budget) (before ++ pre ++ [SimOp.block s] ++ post)).ready.count s = 1
          ∨ s ∈ returned (machine.run (new budget) (before ++ pre ++ [SimOp.block s])) post))
    ∧ ((∀ t, (machine.run (new budget) (before ++ pre)).ownerOf t ≠ some s) →
      (machine.run (new budget) (before ++ pre ++ [SimOp.block s] ++ post)).sessionState s
          = some .blocked
      ∧ s ∉ (machine.run (new budget) (before ++ pre ++ [SimOp.block s] ++ post)).ready) := by
  have hend := run_consistent (consistent_new budget) (before ++ pre ++ [SimOp.block s] ++ post)
  have hst := run_consistent (consistent_new budget) before
  simp only [Machine.run_append] at *
  generalize machine.run (new budget) before = c at *
  obtain ⟨r, hs, hstt⟩ := map_eq_some_iff.mp hrun
  obtain ⟨q, hq, hqr⟩ := runnable_phase hst hs hstt hpre
  have hmid := run_consistent hst pre
  generalize machine.run c pre = d at *
  have hbl : machine.run d [SimOp.block s] = d.parked s q := by
    show (d.block s).2 = _
    rcases block_cases d s with ⟨q', hq', -, heq⟩ | ⟨-, -, hno⟩
    · rw [heq, some.inj (hq.symm.trans hq')]
    · exact absurd ((sessionState_of_lookup hq).trans (congrArg some hqr)) hno
  rw [hbl] at hpost hdone hend ⊢
  have hpar : (d.parked s q).sessions.lookup s
      = some { q with inReady := false, state := .blocked } := lookup_insert_self _ _ _
  constructor
  · rintro ⟨t, ht⟩
    have hliv : q.inflight ≠ [] := ne_nil_of_mem ((hmid.owner_iff hq t).mp ht)
    obtain ⟨hfin, hpl⟩ := waiting_phase (hmid.parked hq) hpar rfl hliv hpost hdone
    exact ⟨hfin, hpl.imp_left (count_eq_one_of_mem hend.ready_nodup)⟩
  · intro hnon
    have hnil : q.inflight = [] := eq_nil_iff_forall_not_mem.mpr
      (fun t ht => hnon t ((hmid.owner_iff hq t).mpr ht))
    have hfin := stuck_phase (hmid.parked hq) hpar rfl hnil hpost
    refine ⟨hfin, fun hin => ?_⟩
    obtain ⟨q', hq', hbit⟩ := (hend.mem_ready s).mp hin
    rw [sessionState_of_lookup hq', (hend.sound s q' hq').queued hbit] at hfin
    exact absurd hfin (by simp)

/-- One ticket completes before the `block` and one after it. -/
theorem wakes_of_split_completions : (machine.run (new ⟨64⟩) ([SimOp.createSession]
      ++ [SimOp.submit ⟨0⟩ ⟨.cpu, []⟩, SimOp.submit ⟨0⟩ ⟨.cpu, []⟩, SimOp.complete ⟨0⟩ .ok]
      ++ [SimOp.block ⟨0⟩] ++ [SimOp.complete ⟨1⟩ .ok])).sessionState ⟨0⟩ = some .runnable :=
  ((wakes_iff_live_at_block ⟨64⟩ [.createSession]
    [.submit ⟨0⟩ ⟨.cpu, []⟩, .submit ⟨0⟩ ⟨.cpu, []⟩, .complete ⟨0⟩ .ok]
    [.complete ⟨1⟩ .ok] ⟨0⟩ (by decide +kernel)
    ⟨fun _ => Or.inl ⟨_, rfl⟩, fun _ => Or.inl ⟨_, rfl⟩, fun _ => Or.inr ⟨_, rfl⟩, trivial⟩
    ⟨fun _ => ⟨_, rfl⟩, trivial⟩ (by decide +kernel)).1 ⟨⟨1⟩, by decide +kernel⟩).1

/-- The only ticket completes before the `block`. The session was runnable
without live tickets, submitted one, and blocked once; every call has been
processed, and it is blocked, owns nothing, is not queued and was not handed
out. -/
theorem blocked_after_completions :
    (machine.run (new ⟨64⟩) [.createSession]).sessionState ⟨0⟩ = some .runnable
    ∧ (machine.run (new ⟨64⟩) [.createSession]).inflightCount ⟨0⟩ = some 0
    ∧ (machine.run (new ⟨64⟩) [.createSession, .submit ⟨0⟩ ⟨.cpu, []⟩]).ownerOf ⟨0⟩ = some ⟨0⟩
    ∧ (machine.run (new ⟨64⟩) [.createSession, .submit ⟨0⟩ ⟨.cpu, []⟩,
        .complete ⟨0⟩ .ok, .block ⟨0⟩]).sessionState ⟨0⟩ = some .blocked
    ∧ (machine.run (new ⟨64⟩) [.createSession, .submit ⟨0⟩ ⟨.cpu, []⟩,
        .complete ⟨0⟩ .ok, .block ⟨0⟩]).inflightCount ⟨0⟩ = some 0
    ∧ (machine.run (new ⟨64⟩) [.createSession, .submit ⟨0⟩ ⟨.cpu, []⟩,
        .complete ⟨0⟩ .ok, .block ⟨0⟩]).ready = []
    ∧ returned (new ⟨64⟩) [.createSession, .submit ⟨0⟩ ⟨.cpu, []⟩,
        .complete ⟨0⟩ .ok, .block ⟨0⟩] = [] :=
  by decide +kernel

end SchedulerCore

end Logan
