import Logan.Sched.Core

/-!
# The two copies of the scheduler's bookkeeping agree

`SchedulerCore` keeps the ready queue beside per-session membership bits and
the ticket map beside per-session ticket lists. `SchedulerCore.Consistent`
says the copies describe the same thing, and adds what the operations rely
on without checking it: a session that is cancelling or terminal owns no
ticket, and a session that is not runnable is not queued. Without these two
the wake-up inside `complete`, which queues its session unconditionally,
would not keep the queue free of duplicates.

Every operation rewrites one session's record and adjusts the queue and the
ticket map around it, so one lemma carries the invariant over all of them:
`Consistent.replace`. The module names the rewrites (`parked`, `enqueued`,
`issued`, `retired`, `revoked`, `handedOut`) and shows that each keeps the
copies in agreement, under the condition its operation checks first.
`Logan.Sched.CoreTransition` says which operation performs which.
-/

namespace Logan

open List Table Option

/-- **What a session record satisfies on its own.** -/
structure Session.Sound (budget : Budget) (record : Session) : Prop where
  /-- Only a runnable session is queued. -/
  queued : record.inReady = true → record.state = .runnable
  /-- A cancelling or terminal session owns no ticket. -/
  revoked : record.state ≠ .runnable → record.state ≠ .blocked → record.inflight = []
  /-- Tickets are listed in the order they were issued, none twice. -/
  ordered : record.inflight.Pairwise (· < ·)
  /-- The session is within its budget. -/
  bounded : record.inflight.length ≤ budget.maxInflightPerSession

theorem Session.Sound.nodup {budget : Budget} {record : Session}
    (h : record.Sound budget) : record.inflight.Nodup :=
  h.ordered.imp (fun {a b} hab => by
    rintro rfl
    exact Nat.lt_irrefl _ hab)

/-- The record once one of its tickets is used up. -/
def Session.without (record : Session) (ticket : Ticket) : Session :=
  { record with inflight := record.inflight.filter (fun owned => owned ≠ ticket) }

@[simp] theorem Session.mem_without {record : Session} {t u : Ticket} :
    u ∈ (record.without t).inflight ↔ u ∈ record.inflight ∧ u ≠ t := by
  simp [Session.without]

/-- The session a ticket map records as a ticket's owner. -/
def ticketOwner (inflight : Table Ticket (SessionId × Generation)) (ticket : Ticket) :
    Option SessionId :=
  (inflight.lookup ticket).map Prod.fst

namespace SchedulerCore

/-- The session that owns a live ticket. -/
def ownerOf (c : SchedulerCore) (ticket : Ticket) : Option SessionId :=
  ticketOwner c.inflight ticket

/-- A ticket is live while the core records an owner for it. -/
def Live (c : SchedulerCore) (ticket : Ticket) : Prop := ∃ s, c.ownerOf ticket = some s

/-- **The two copies agree.** -/
structure Consistent (c : SchedulerCore) : Prop where
  /-- A session is queued at most once. -/
  ready_nodup : c.ready.Nodup
  /-- The queue holds exactly the sessions whose membership bit is set. -/
  mem_ready : ∀ s, s ∈ c.ready ↔ ∃ r, c.sessions.lookup s = some r ∧ r.inReady = true
  /-- Every record is sound. -/
  sound : ∀ s r, c.sessions.lookup s = some r → r.Sound c.budget
  /-- The ticket map and the ticket lists are the same ownership relation. -/
  owner : ∀ t s, c.ownerOf t = some s ↔ ∃ r, c.sessions.lookup s = some r ∧ t ∈ r.inflight
  /-- Live tickets have been issued. -/
  ticket_lt : ∀ t, c.Live t → t.val < c.nextTicket
  /-- Known sessions have been created. -/
  session_lt : ∀ s r, c.sessions.lookup s = some r → s.val < c.nextSession

theorem consistent_new (budget : Budget) : (new budget).Consistent where
  ready_nodup := nodup_nil
  mem_ready := fun s => by simp [new]
  sound := fun s r h => by simp [new] at h
  owner := fun t s => by simp [new, ownerOf, ticketOwner]
  ticket_lt := fun t h => by
    obtain ⟨s, hs⟩ := h
    simp [new, ownerOf, ticketOwner] at hs
  session_lt := fun s r h => by simp [new] at h

namespace Consistent

variable {c : SchedulerCore}

section

variable (h : c.Consistent)

include h

/-- A session with no record owns nothing. -/
theorem not_owner_of_unknown {s : SessionId}
    (hs : c.sessions.lookup s = none) (t : Ticket) : c.ownerOf t ≠ some s := by
  intro ho
  obtain ⟨r, hr, -⟩ := (h.owner t s).mp ho
  rw [hs] at hr
  exact absurd hr (by simp)

/-- What a session owns is what its record lists. -/
theorem owner_iff {s : SessionId} {r : Session}
    (hs : c.sessions.lookup s = some r) (t : Ticket) : c.ownerOf t = some s ↔ t ∈ r.inflight := by
  rw [h.owner]
  constructor
  · rintro ⟨r', hr', ht⟩
    rw [hs] at hr'
    rwa [some.inj hr']
  · exact fun ht => ⟨r, hs, ht⟩

theorem mem_ready_iff {s : SessionId} {r : Session}
    (hs : c.sessions.lookup s = some r) : s ∈ c.ready ↔ r.inReady = true := by
  rw [h.mem_ready]
  constructor
  · rintro ⟨r', hr', hb⟩
    rw [hs] at hr'
    rwa [some.inj hr']
  · exact fun hb => ⟨r, hs, hb⟩

theorem next_unowned : c.ownerOf ⟨c.nextTicket⟩ = none := by
  cases ho : c.ownerOf ⟨c.nextTicket⟩ with
  | none => rfl
  | some j => exact absurd (h.ticket_lt _ ⟨j, ho⟩) (Nat.lt_irrefl _)

theorem out_of_not_runnable {s : SessionId} {r : Session}
    (hs : c.sessions.lookup s = some r) (hrun : r.state ≠ .runnable) : r.inReady = false := by
  cases hin : r.inReady with
  | false => rfl
  | true => exact absurd ((h.sound s r hs).queued hin) hrun

/-- **Rewriting one session's record keeps the copies in agreement**, when
the queue and the ticket map are changed for that session only, and to what
its new record says. -/
theorem replace {s : SessionId} {r r' : Session}
    {ready' : List SessionId} {inflight' : Table Ticket (SessionId × Generation)}
    {nextTicket' : ℕ} (hs : c.sessions.lookup s = some r)
    (hnd : ready'.Nodup) (hrdy : ∀ j, j ≠ s → (j ∈ ready' ↔ j ∈ c.ready))
    (hbit : s ∈ ready' ↔ r'.inReady = true) (hsnd : r'.Sound c.budget)
    (hoth : ∀ t j, j ≠ s → (ticketOwner inflight' t = some j ↔ c.ownerOf t = some j))
    (hsel : ∀ t, ticketOwner inflight' t = some s ↔ t ∈ r'.inflight)
    (hfr : ∀ t ∈ r'.inflight, t.val < nextTicket') (hnex : c.nextTicket ≤ nextTicket') :
    Consistent { c with
      sessions := c.sessions.insert s r'
      ready := ready'
      inflight := inflight'
      nextTicket := nextTicket' } where
  ready_nodup := hnd
  mem_ready := by
    intro j
    show j ∈ ready' ↔ ∃ q, (c.sessions.insert s r').lookup j = some q ∧ _
    by_cases hj : j = s
    · subst hj
      simp [hbit]
    · rw [hrdy j hj, h.mem_ready, lookup_insert_ne _ _ hj]
  sound := by
    intro j q hq
    change (c.sessions.insert s r').lookup j = some q at hq
    rw [lookup_insert] at hq
    by_cases hj : j = s
    · rw [if_pos hj] at hq
      exact some.inj hq ▸ hsnd
    · rw [if_neg hj] at hq
      exact h.sound j q hq
  owner := by
    intro t j
    show ticketOwner inflight' t = some j ↔ ∃ q, (c.sessions.insert s r').lookup j = some q ∧ _
    by_cases hj : j = s
    · subst hj
      simp [hsel]
    · rw [hoth t j hj, h.owner, lookup_insert_ne _ _ hj]
  ticket_lt := by
    rintro t ⟨j, hj⟩
    change ticketOwner inflight' t = some j at hj
    by_cases hjs : j = s
    · exact hfr t ((hsel t).mp (hjs ▸ hj))
    · exact lt_of_lt_of_le (h.ticket_lt t ⟨j, (hoth t j hjs).mp hj⟩) hnex
  session_lt := by
    intro j q hq
    change (c.sessions.insert s r').lookup j = some q at hq
    by_cases hj : j = s
    · exact hj ▸ h.session_lt s r hs
    · rw [lookup_insert_ne _ _ hj] at hq
      exact h.session_lt j q hq

end

end Consistent

/-! ## The rewrites

Each takes the session and the record found for it, and is what one branch
of an operation does. -/

/-- The session leaves the queue, keeping its tickets. -/
def parked (c : SchedulerCore) (s : SessionId) (r : Session) : SchedulerCore :=
  { c with
    sessions := c.sessions.insert s { r with inReady := false, state := .blocked }
    ready := c.ready.filter (fun queued => queued ≠ s) }

/-- The session is runnable and joins the queue at the back. -/
def enqueued (c : SchedulerCore) (s : SessionId) (r : Session) : SchedulerCore :=
  { c with
    sessions := c.sessions.insert s { r with state := .runnable, inReady := true }
    ready := c.ready ++ [s] }

/-- The session is issued the next ticket. -/
def issued (c : SchedulerCore) (s : SessionId) (r : Session) : SchedulerCore :=
  { c with
    sessions := c.sessions.insert s { r with inflight := r.inflight ++ [⟨c.nextTicket⟩] }
    inflight := c.inflight.insert ⟨c.nextTicket⟩ (s, ⟨c.nextTicket⟩)
    nextTicket := c.nextTicket + 1 }

/-- One of the session's tickets is used up. -/
def retired (c : SchedulerCore) (t : Ticket) (s : SessionId) (r : Session) : SchedulerCore :=
  { c with
    sessions := c.sessions.insert s (r.without t)
    inflight := c.inflight.erase t }

/-- The session leaves the queue and loses all its tickets. -/
def revoked (c : SchedulerCore) (s : SessionId) (r : Session) (state : SessionState) :
    SchedulerCore :=
  { c with
    sessions := c.sessions.insert s
      { r with inReady := false, inflight := [], state := state }
    ready := c.ready.filter (fun queued => queued ≠ s)
    inflight := c.inflight.eraseAll r.inflight }

/-- The session at the head of the queue is handed to the driver. -/
def handedOut (c : SchedulerCore) (s : SessionId) (r : Session) (rest : List SessionId) :
    SchedulerCore :=
  { c with
    sessions := c.sessions.insert s { r with inReady := false }
    ready := rest }

variable (c : SchedulerCore)

/-- Whose a ticket is once the next one has been issued. -/
theorem ownerOf_issued (s : SessionId) (r : Session) (u : Ticket) :
    (c.issued s r).ownerOf u = if u = ⟨c.nextTicket⟩ then some s else c.ownerOf u := by
  show ticketOwner (c.inflight.insert _ _) u = _
  unfold ticketOwner
  rw [lookup_insert]
  by_cases hu : u = ⟨c.nextTicket⟩
  · rw [if_pos hu, if_pos hu]
    rfl
  · rw [if_neg hu, if_neg hu]
    rfl

/-- Whose a ticket is once another one is used up. -/
theorem ownerOf_retired (t : Ticket) (s : SessionId) (r : Session)
    (u : Ticket) : (c.retired t s r).ownerOf u = if u = t then none else c.ownerOf u := by
  show ticketOwner (c.inflight.erase t) u = _
  unfold ticketOwner
  rw [lookup_erase]
  by_cases hu : u = t
  · rw [if_pos hu, if_pos hu]
    rfl
  · rw [if_neg hu, if_neg hu]
    rfl

/-- Whose a ticket is once a session has lost its tickets. -/
theorem ownerOf_revoked (s : SessionId) (r : Session) (state : SessionState) (u : Ticket) :
    (c.revoked s r state).ownerOf u = if u ∈ r.inflight then none else c.ownerOf u := by
  show ticketOwner (c.inflight.eraseAll r.inflight) u = _
  unfold ticketOwner
  rw [lookup_eraseAll]
  by_cases hu : u ∈ r.inflight
  · rw [if_pos hu, if_pos hu]
    rfl
  · rw [if_neg hu, if_neg hu]
    rfl

/-! ## The rewrites keep the copies in agreement -/

namespace Consistent

variable {c : SchedulerCore} {s : SessionId} {r : Session}

theorem mem_removed {ready : List SessionId} {j : SessionId} (hj : j ≠ s) :
    j ∈ ready.filter (fun queued => queued ≠ s) ↔ j ∈ ready := by
  rw [mem_filter]
  simp [hj]

section

variable (h : c.Consistent)

include h

theorem parked (hs : c.sessions.lookup s = some r) : (c.parked s r).Consistent := by
  have hr := h.sound s r hs
  refine h.replace hs (h.ready_nodup.filter _) (fun j hj => mem_removed hj) ?_ ?_
    (fun t j _ => Iff.rfl) (fun t => h.owner_iff hs t)
    (fun t ht => h.ticket_lt t ⟨s, (h.owner_iff hs t).mpr ht⟩) le_rfl
  · simp
  · exact ⟨fun hb => absurd hb (by simp), fun _ hb => absurd rfl hb, hr.ordered, hr.bounded⟩

/-- Queueing needs the session to be out of the queue. -/
theorem enqueued (hs : c.sessions.lookup s = some r)
    (hout : r.inReady = false) : (c.enqueued s r).Consistent := by
  have hr := h.sound s r hs
  have hnot : s ∉ c.ready := fun hm => by
    rw [h.mem_ready_iff hs, hout] at hm
    exact absurd hm (by simp)
  refine h.replace hs ?_ ?_ ?_ ?_ (fun t j _ => Iff.rfl) (fun t => h.owner_iff hs t)
    (fun t ht => h.ticket_lt t ⟨s, (h.owner_iff hs t).mpr ht⟩) le_rfl
  · exact nodup_append.mpr ⟨h.ready_nodup, nodup_singleton s, fun a ha b hb he =>
      hnot (by rwa [← mem_singleton.mp hb, ← he])⟩
  · intro j hj
    simp [hj]
  · simp
  · exact ⟨fun _ => rfl, fun hb => absurd rfl hb, hr.ordered, hr.bounded⟩

/-- Issuing needs the session to be runnable and below its budget. -/
theorem issued (hs : c.sessions.lookup s = some r) (hrun : r.state = .runnable)
    (hrm : r.inflight.length < c.budget.maxInflightPerSession) : (c.issued s r).Consistent := by
  have hr := h.sound s r hs
  have hlt : ∀ t ∈ r.inflight, t.val < c.nextTicket := fun t ht =>
    h.ticket_lt t ⟨s, (h.owner_iff hs t).mpr ht⟩
  -- the new ticket is above all live ones, so the list stays in submission order
  have hfr := h.next_unowned
  refine h.replace hs h.ready_nodup (fun j _ => Iff.rfl)
    (show s ∈ c.ready ↔ r.inReady = true from h.mem_ready_iff hs) ?_ ?_ ?_ ?_ (Nat.le_succ _)
  · refine ⟨hr.queued, fun hb => absurd hrun hb, ?_, ?_⟩
    · rw [pairwise_append]
      refine ⟨hr.ordered, pairwise_singleton _ _, fun t ht u hu => ?_⟩
      rw [mem_singleton.mp hu]
      exact hlt t ht
    · rwa [length_append]
  · intro t j hj
    show (c.issued s r).ownerOf t = some j ↔ _
    rw [ownerOf_issued]
    by_cases ht : t = ⟨c.nextTicket⟩
    · rw [if_pos ht, ht, hfr]
      simp [Ne.symm hj]
    · rw [if_neg ht]
  · intro t
    show (c.issued s r).ownerOf t = some s ↔ _
    rw [ownerOf_issued, mem_append, mem_singleton]
    by_cases ht : t = ⟨c.nextTicket⟩
    · simp [ht]
    · rw [if_neg ht, h.owner_iff hs]
      simp [ht]
  · intro t ht
    rcases mem_append.mp ht with hold | hnew
    · exact Nat.lt_succ_of_lt (hlt t hold)
    · rw [mem_singleton.mp hnew]
      exact Nat.lt_succ_self _

/-- Retiring needs the session to own the ticket. -/
theorem retired (hs : c.sessions.lookup s = some r) {t : Ticket}
    (ht : c.ownerOf t = some s) : (c.retired t s r).Consistent := by
  have hr := h.sound s r hs
  refine h.replace hs h.ready_nodup (fun j _ => Iff.rfl)
    (show s ∈ c.ready ↔ r.inReady = true from h.mem_ready_iff hs) ?_ ?_ ?_ ?_ le_rfl
  · refine ⟨hr.queued, fun hrun hblk => ?_, hr.ordered.filter _, ?_⟩
    · show r.inflight.filter _ = []
      rw [hr.revoked hrun hblk]
      rfl
    · exact le_trans (length_filter_le _ _) hr.bounded
  · intro u j hj
    show (c.retired t s r).ownerOf u = some j ↔ _
    rw [ownerOf_retired]
    by_cases hu : u = t
    · rw [if_pos hu, hu, ht]
      simp [Ne.symm hj]
    · rw [if_neg hu]
  · intro u
    show (c.retired t s r).ownerOf u = some s ↔ _
    rw [ownerOf_retired, Session.mem_without]
    by_cases hu : u = t
    · simp [hu]
    · rw [if_neg hu, h.owner_iff hs]
      simp [hu]
  · intro u hu
    exact h.ticket_lt u ⟨s, (h.owner_iff hs u).mpr (Session.mem_without.mp hu).1⟩

theorem revoked (hs : c.sessions.lookup s = some r)
    (state : SessionState) : (c.revoked s r state).Consistent := by
  refine h.replace hs (h.ready_nodup.filter _) (fun j hj => mem_removed hj) ?_ ?_ ?_ ?_
    (fun t ht => absurd ht not_mem_nil) le_rfl
  · simp
  · exact ⟨fun hb => absurd hb (by simp), fun _ _ => rfl, List.Pairwise.nil, Nat.zero_le _⟩
  · intro u j hj
    show (c.revoked s r state).ownerOf u = some j ↔ _
    rw [ownerOf_revoked]
    by_cases hu : u ∈ r.inflight
    · rw [if_pos hu, (h.owner_iff hs u).mpr hu]
      simp [Ne.symm hj]
    · rw [if_neg hu]
  · intro u
    show (c.revoked s r state).ownerOf u = some s ↔ _
    rw [ownerOf_revoked]
    by_cases hu : u ∈ r.inflight
    · simp [hu]
    · rw [if_neg hu, h.owner_iff hs]
      simp [hu]

theorem handedOut (hs : c.sessions.lookup s = some r)
    {rest : List SessionId} (hrdy : c.ready = s :: rest) :
    (c.handedOut s r rest).Consistent := by
  have hr := h.sound s r hs
  have hnd := h.ready_nodup
  rw [hrdy] at hnd
  obtain ⟨hnot, hres⟩ := nodup_cons.mp hnd
  refine h.replace hs hres ?_ ?_ ?_ (fun t j _ => Iff.rfl) (fun t => h.owner_iff hs t)
    (fun t ht => h.ticket_lt t ⟨s, (h.owner_iff hs t).mpr ht⟩) le_rfl
  · intro j hj
    rw [hrdy, mem_cons]
    simp [hj]
  · simp [hnot]
  · exact ⟨fun hb => absurd hb (by simp), hr.revoked, hr.ordered, hr.bounded⟩

/-- A new session is queued, and its identifier is one no record uses. -/
theorem createSession : c.createSession.2.Consistent := by
  have hfr : c.sessions.lookup ⟨c.nextSession⟩ = none := by
    cases hl : c.sessions.lookup ⟨c.nextSession⟩ with
    | none => rfl
    | some r => exact absurd (h.session_lt _ r hl) (Nat.lt_irrefl _)
  -- no record is overwritten, so `replace` does not apply: the clauses are proved one by one
  have hlk : ∀ j, c.createSession.2.sessions.lookup j
      = if j = ⟨c.nextSession⟩ then some (Session.new ⟨c.nextSession⟩)
        else c.sessions.lookup j := fun j => lookup_insert _ _ _ _
  have hnot : (⟨c.nextSession⟩ : SessionId) ∉ c.ready := fun hm => by
    obtain ⟨r, hr, -⟩ := (h.mem_ready _).mp hm
    rw [hfr] at hr
    exact absurd hr (by simp)
  constructor
  · show (c.ready ++ [SessionId.mk c.nextSession]).Nodup
    exact nodup_append.mpr ⟨h.ready_nodup, nodup_singleton _, fun a ha b hb he =>
      hnot (by rwa [← mem_singleton.mp hb, ← he])⟩
  · intro j
    show j ∈ c.ready ++ [SessionId.mk c.nextSession] ↔ _
    rw [hlk, mem_append, mem_singleton, h.mem_ready]
    by_cases hj : j = ⟨c.nextSession⟩
    · simp [hj, Session.new]
    · simp [hj]
  · intro j q hq
    rw [hlk] at hq
    by_cases hj : j = ⟨c.nextSession⟩
    · rw [if_pos hj] at hq
      rw [← some.inj hq]
      exact ⟨fun _ => rfl, fun _ _ => rfl, List.Pairwise.nil, Nat.zero_le _⟩
    · rw [if_neg hj] at hq
      exact h.sound j q hq
  · intro t j
    show c.ownerOf t = some j ↔ _
    rw [hlk]
    by_cases hj : j = ⟨c.nextSession⟩
    · rw [if_pos hj, hj]
      constructor
      · exact fun ho => absurd ho (h.not_owner_of_unknown hfr t)
      · rintro ⟨q, hq, hmem⟩
        rw [← some.inj hq] at hmem
        exact absurd hmem not_mem_nil
    · rw [if_neg hj]
      exact h.owner t j
  · exact fun t ht => h.ticket_lt t ht
  · intro j q hq
    show j.val < c.nextSession + 1
    rw [hlk] at hq
    by_cases hj : j = ⟨c.nextSession⟩
    · rw [hj]
      exact Nat.lt_succ_self _
    · rw [if_neg hj] at hq
      exact Nat.lt_succ_of_lt (h.session_lt j q hq)

end

end Consistent

end SchedulerCore

end Logan
