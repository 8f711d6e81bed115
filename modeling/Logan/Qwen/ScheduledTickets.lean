import Logan.Qwen.Scheduled
import Logan.Sched.CoreTransition

/-!
# One action through the scheduler

The driver has one action in flight at most. Between two actions the
scheduler is **serving**: the session is runnable and owns no ticket, nothing
waits for a lane, and the worker's queue is empty. What is still on its way
then is the completion of the last ticket, if the schedule has not delivered
it, and that ticket has been completed by the driver already.

`Ready.submitAndComplete` is what comes of it: whatever the schedule is, an
action that the worker can carry out is carried out once, under a new ticket,
its outcome is returned, and the scheduler is ready for the next one.
-/

namespace Logan

open List RuntimeLoop Option Table

namespace Qwen

/-! ## The scheduler owner -/

/-- **The scheduler serves a session** that owns at most one ticket. -/
structure Serving (session : SessionId) (live : Option Ticket) (rt : Runtime) : Prop where
  runs : rt.phase ≠ .stopped
  admits : rt.loop.draining = false
  pending : rt.loop.pending = []
  runnable : ∃ record, rt.loop.core.sessions.lookup session = some record
    ∧ record.state = .runnable ∧ record.inflight = live.toList
  inflight : ∀ t, rt.loop.core.inflight.lookup t
    = if live = some t then some (session, ⟨t.val⟩) else none
  room : 0 < rt.loop.core.budget.maxInflightPerSession
  ports : ∀ r ∈ rt.loop.replies, r.1 < rt.ports

variable {session : SessionId} {live : Option Ticket} {rt : Runtime}

variable {l : RuntimeLoop}

theorem retryPending_of_nil (h : l.pending = []) (kind : ActionKind) : l.retryPending kind = l := by
  rw [retryPending, h]
  rfl

/-- A running thread handles what it is sent. -/
theorem step_of_runs (h : rt.phase ≠ .stopped) : (∀ r, rt.step (.request r)
      = ({ rt with ports := rt.ports + 1 }).receive (r.intoCommand ⟨some rt.ports⟩))
    ∧ ∀ t o, rt.step (.sink t o) = rt.receive (.complete t o none) := by
  unfold Runtime.step
  cases hph : rt.phase with
  | stopped => exact absurd hph h
  | waiting | burst => exact ⟨fun _ => rfl, fun _ _ => rfl⟩

theorem receive_of_handle {command : RuntimeCommand} (h : rt.loop.handle command = (false, l)) :
    rt.receive command
      = { rt with loop := l, phase := .burst, handled := rt.handled ++ [command] } := by
  simp only [Runtime.receive, h, Bool.false_eq_true, if_false]

/-- A submission to a lane that has room. -/
theorem handle_submit_of_room {record : Logan.Session} (hadm : l.draining = false)
    (hs : l.core.sessions.lookup session = some record) (hrun : record.state = .runnable)
    (hrm : record.inflight.length < l.core.budget.maxInflightPerSession) (action : Action)
    (hlan : l.executors.submitAnswer l.calls.length = .accepted) (port : ℕ) :
    l.handle (.submit session action ⟨some port⟩) = (false, { l with
          core := l.core.issued session record
          calls := l.calls ++ [.trySubmit ⟨⟨l.core.nextTicket⟩, action⟩ .accepted true]
          replies := l.replies ++ [(port, .submitted ⟨l.core.nextTicket⟩ .accepted)] }) := by
  obtain ⟨r, hr, -, -, hsub⟩ | ⟨e, he⟩ := l.core.submit_cases session action
  · obtain rfl : r = record := some.inj (hr.symm.trans hs)
    have hliv : (l.core.issued session r).inflight.lookup ⟨l.core.nextTicket⟩
        = some (session, ⟨l.core.nextTicket⟩) := lookup_insert_self _ _ _
    unfold handle
    dsimp only
    rw [if_neg (by rw [hadm]; exact Bool.false_ne_true), submit, hsub]
    dsimp only
    rw [trySubmit]
    rw [hlan, hliv]
    rfl
  · exfalso
    unfold SchedulerCore.submit at he
    rw [hs] at he
    dsimp only at he
    rw [if_neg (not_not_intro hrun), if_neg (Nat.not_le.mpr hrm)] at he
    cases he

/-- **A submission is accepted** by a lane that has room, under the next
ticket. -/
theorem Serving.submit (h : Serving session none rt) (action : Action)
    (hlan : rt.loop.executors.submitAnswer rt.loop.calls.length = .accepted) :
    let next : Ticket := ⟨rt.loop.core.nextTicket⟩
    let rt' := rt.step (.request (.submit session action))
    Serving session (some next) rt' ∧ rt'.ports = rt.ports + 1
      ∧ rt'.loop.core.nextTicket = rt.loop.core.nextTicket + 1
      ∧ rt'.loop.replies = rt.loop.replies ++ [(rt.ports, .submitted next .accepted)]
      ∧ rt'.loop.calls = rt.loop.calls ++ [.trySubmit ⟨next, action⟩ .accepted true] := by
  obtain ⟨record, hs, hrun, hrec⟩ := h.runnable
  have hrm : record.inflight.length < rt.loop.core.budget.maxInflightPerSession := by
    rw [hrec]
    exact h.room
  have hhan := handle_submit_of_room h.admits hs hrun hrm action hlan rt.ports
  intro next rt'
  have hst : rt' = _ := ((step_of_runs h.runs).1 _).trans (receive_of_handle hhan)
  rw [hst]
  refine ⟨⟨?_, h.admits, h.pending, ⟨_, lookup_insert_self _ _ _, hrun, ?_⟩, fun t => ?_,
    h.room, fun r hr => ?_⟩, rfl, rfl, rfl, rfl⟩
  · exact nofun
  · rw [hrec]
    rfl
  · show (rt.loop.core.inflight.insert next (session, ⟨next.val⟩)).lookup t = _
    rw [lookup_insert]
    by_cases ht : t = next
    · rw [if_pos ht, if_pos (by rw [ht]), ht]
    · rw [if_neg ht, if_neg fun heq => ht (some.inj heq).symm, h.inflight t]
      exact if_neg nofun
  · rcases mem_append.mp hr with hr | hr
    · exact (h.ports r hr).trans (Nat.lt_succ_self _)
    · rw [mem_singleton.mp hr]
      exact Nat.lt_succ_self _

/-- **A success of a ticket** uses it up if the session owns it, and is
ignored otherwise. -/
theorem Serving.complete (h : Serving session live rt) (ticket : Ticket) :
    ∃ core, rt.loop.core.complete ticket .ok = (.ok [], core)
      ∧ core.nextTicket = rt.loop.core.nextTicket ∧ core.budget = rt.loop.core.budget
      ∧ (∃ record, core.sessions.lookup session = some record ∧ record.state = .runnable
        ∧ record.inflight = (live.filter (· ≠ ticket)).toList) ∧ ∀ t, core.inflight.lookup t
        = if live.filter (· ≠ ticket) = some t then some (session, ⟨t.val⟩) else none := by
  have hlkp := h.inflight ticket
  obtain ⟨record, hs, hrun, hrec⟩ := h.runnable
  by_cases hliv : live = some ticket
  · subst hliv
    rw [if_pos rfl] at hlkp
    have hnon : (some ticket).filter (· ≠ ticket) = none := by simp
    refine ⟨rt.loop.core.retired ticket session record, ?_, rfl, rfl,
      ⟨record.without ticket, lookup_insert_self _ _ _, hrun, ?_⟩, fun t => ?_⟩
    · unfold SchedulerCore.complete
      rw [hlkp]
      dsimp only
      rw [hs]
      exact if_neg fun hbl => by
        rw [show record.state = _ from hbl.1] at hrun
        cases hrun
    · rw [hnon]
      show record.inflight.filter _ = []
      rw [hrec]
      simp
    · rw [hnon, if_neg fun heq => by cases heq]
      show (rt.loop.core.inflight.erase ticket).lookup t = none
      rw [lookup_erase]
      by_cases ht : t = ticket
      · rw [if_pos ht]
      · rw [if_neg ht, h.inflight t]
        exact if_neg fun heq => ht (some.inj heq).symm
  · rw [if_neg hliv] at hlkp
    have hsam : live.filter (· ≠ ticket) = live := by
      cases live with
      | none => rfl
      | some t =>
        have hne : t ≠ ticket := fun ht => hliv (by rw [ht])
        simp [hne]
    rw [hsam]
    refine ⟨rt.loop.core, ?_, rfl, rfl, ⟨record, hs, hrun, hrec⟩, h.inflight⟩
    unfold SchedulerCore.complete
    rw [hlkp]

/-- A completion with a success that has no effects, in a scheduler where
nothing is pending. -/
theorem handle_complete_of_quiet {ticket : Ticket} {core : SchedulerCore}
    (hpen : l.pending = []) (hcpl : l.core.complete ticket .ok = (.ok [], core)) :
    l.handle (.complete ticket .ok none) = (false, { l with core := core })
    ∧ ∀ port, l.handle (.complete ticket .ok (some ⟨some port⟩))
      = (false, { l with core := core, replies := l.replies ++ [(port, .ok)] }) := by
  have hret : ∀ d : RuntimeLoop, d.pending = [] →
      ((d.retryPending .io).retryPending .cpu).retryPending .accelerator = d := by
    intro d hd
    rw [retryPending_of_nil hd, retryPending_of_nil hd, retryPending_of_nil hd]
  constructor
  · unfold handle
    dsimp only
    rw [hcpl]
    exact congrArg (Prod.mk false) (hret { l with core := core } hpen)
  · intro port
    unfold handle
    dsimp only
    rw [hcpl]
    exact congrArg (Prod.mk false)
      (hret { l with core := core, replies := l.replies ++ [(port, .ok)] } hpen)

/-- **The worker's completion of a ticket** reaches the scheduler. -/
theorem Serving.sink (h : Serving session live rt) (ticket : Ticket) :
    let rt' := rt.step (.sink ticket .ok)
    Serving session (live.filter (· ≠ ticket)) rt' ∧ rt'.ports = rt.ports
      ∧ rt'.loop.core.nextTicket = rt.loop.core.nextTicket
      ∧ rt'.loop.replies = rt.loop.replies ∧ rt'.loop.calls = rt.loop.calls := by
  obtain ⟨core, hcpl, hnex, hbud, hrun, hinf⟩ := h.complete ticket
  intro rt'
  have hst : rt' = _ := ((step_of_runs h.runs).2 ticket .ok).trans
    (receive_of_handle (handle_complete_of_quiet h.pending hcpl).1)
  rw [hst]
  refine ⟨⟨nofun, h.admits, h.pending, hrun, hinf, ?_, h.ports⟩, rfl, hnex, rfl, rfl⟩
  show 0 < core.budget.maxInflightPerSession
  rw [hbud]
  exact h.room

/-- **The driver's completion of a ticket** is acknowledged. -/
theorem Serving.request_complete (h : Serving session live rt) (ticket : Ticket) :
    let rt' := rt.step (.request (.complete ticket .ok))
    Serving session (live.filter (· ≠ ticket)) rt' ∧ rt'.ports = rt.ports + 1
      ∧ rt'.loop.core.nextTicket = rt.loop.core.nextTicket
      ∧ rt'.loop.replies = rt.loop.replies ++ [(rt.ports, .ok)]
      ∧ rt'.loop.calls = rt.loop.calls := by
  obtain ⟨core, hcpl, hnex, hbud, hrun, hinf⟩ := h.complete ticket
  intro rt'
  have hst : rt' = _ := ((step_of_runs h.runs).1 _).trans
    (receive_of_handle ((handle_complete_of_quiet h.pending hcpl).2 rt.ports))
  rw [hst]
  refine ⟨⟨nofun, h.admits, h.pending, hrun, hinf, ?_, fun r hr => ?_⟩, rfl, hnex, rfl, rfl⟩
  · show 0 < core.budget.maxInflightPerSession
    rw [hbud]
    exact h.room
  · rcases mem_append.mp hr with hr | hr
    · exact (h.ports r hr).trans (Nat.lt_succ_self _)
    · rw [mem_singleton.mp hr]
      exact Nat.lt_succ_self _

theorem Serving.with_lanes (h : Serving session live rt) (executors : ExecutorSet) :
    Serving session live { rt with loop := { rt.loop with executors := executors } } :=
  ⟨h.runs, h.admits, h.pending, h.runnable, h.inflight, h.room, h.ports⟩

theorem find_reply {replies : List (ℕ × RuntimeReply)} {port : ℕ}
    (h : ∀ r ∈ replies, r.1 < port) (reply : RuntimeReply) :
    (replies ++ [(port, reply)]).find? (fun r => r.1 = port) = some (port, reply) := by
  have hnon : replies.find? (fun r => r.1 = port) = none := by
    rw [List.find?_eq_none]
    intro r hr heq
    exact absurd (of_decide_eq_true heq) (h r hr).ne
  rw [List.find?_append, hnon, none_or, List.find?_singleton]
  exact if_pos (decide_eq_true rfl)

/-! ## The scheduler and the worker -/

namespace System

variable {W : Type} {s : System W}

/-- What the session owns once the worker has sent a completion. -/
def afterSent (unsent : Option (Ticket × Outcome)) (live : Option Ticket) : Option Ticket :=
  match unsent with
  | none => live
  | some (ticket, _) => live.filter (· ≠ ticket)

/-- The scheduler receives a submission: it is on the worker's queue. -/
theorem receive_submit (h : Serving session none s.runtime) (hque : s.queue = [])
    (action : Action) : ∃ rt, s.receive (.request (.submit session action))
        = { s with runtime := rt, queue := [⟨⟨s.runtime.loop.core.nextTicket⟩, action⟩] }
      ∧ Serving session (some ⟨s.runtime.loop.core.nextTicket⟩) rt
      ∧ rt.loop.core.nextTicket = s.runtime.loop.core.nextTicket + 1
      ∧ rt.loop.replies.find? (fun r => r.1 = s.runtime.ports)
        = some (s.runtime.ports, .submitted ⟨s.runtime.loop.core.nextTicket⟩ .accepted) := by
  have hrm : s.lanes.submitAnswer s.runtime.loop.calls.length = .accepted := by
    unfold lanes
    rw [hque]
    rfl
  obtain ⟨hser, -, hnex, hrep, hcal⟩ := (h.with_lanes s.lanes).submit action hrm
  refine ⟨_, ?_, hser, hnex, ?_⟩
  · unfold receive
    dsimp only
    rw [hcal, drop_left, hque]
    rfl
  · rw [hrep]
    exact find_reply h.ports _

theorem receive_complete (h : Serving session live s.runtime) (ticket : Ticket) :
    ∃ rt, s.receive (.request (.complete ticket .ok)) = { s with runtime := rt }
      ∧ Serving session (live.filter (· ≠ ticket)) rt
      ∧ rt.loop.core.nextTicket = s.runtime.loop.core.nextTicket
      ∧ rt.loop.replies.find? (fun r => r.1 = s.runtime.ports) = some (s.runtime.ports, .ok) := by
  obtain ⟨hser, -, hnex, hrep, hcal⟩ := (h.with_lanes s.lanes).request_complete ticket
  refine ⟨_, ?_, hser, hnex, ?_⟩
  · unfold receive
    dsimp only
    rw [hcal, drop_length, filterMap_nil, List.append_nil]
  · rw [hrep]
    exact find_reply h.ports _

/-- The worker sends what it has not sent. -/
theorem deliver_eq (h : Serving session live s.runtime)
    (hok : ∀ t o, s.unsent = some (t, o) → o = .ok) :
    ∃ rt, s.deliver = { s with runtime := rt, unsent := none }
      ∧ Serving session (afterSent s.unsent live) rt
      ∧ rt.loop.core.nextTicket = s.runtime.loop.core.nextTicket := by
  obtain ⟨rt, worker, queue, unsent, completed, turns, log⟩ := s
  cases unsent with
  | none => exact ⟨rt, rfl, h, rfl⟩
  | some sent =>
    obtain ⟨ticket, outcome⟩ := sent
    obtain rfl := hok ticket outcome rfl
    set idle : System W := ⟨rt, worker, queue, none, completed, turns, log⟩
    obtain ⟨hser, -, hnex, -, hcal⟩ := (h.with_lanes idle.lanes).sink ticket
    refine ⟨_, ?_, hser, hnex⟩
    show idle.receive (.sink ticket .ok) = _
    unfold receive
    dsimp only
    rw [hcal, drop_length, filterMap_nil, List.append_nil]

/-- The schedule lets the worker send, or it does not. -/
theorem yield_eq (schedule : ℕ → Bool) (h : Serving session live s.runtime)
    (hok : ∀ t o, s.unsent = some (t, o) → o = .ok) : ∃ rt unsent live', s.yield schedule
        = { s with runtime := rt, unsent := unsent, turns := s.turns + 1 }
      ∧ Serving session live' rt
      ∧ rt.loop.core.nextTicket = s.runtime.loop.core.nextTicket
      ∧ (unsent = s.unsent ∧ live' = live ∨ unsent = none ∧ live' = afterSent s.unsent live) := by
  unfold yield
  by_cases htur : schedule s.turns = true
  · rw [if_pos htur]
    obtain ⟨rt, hdel, hser, hnex⟩ :=
      deliver_eq (s := { s with turns := s.turns + 1 }) h hok
    exact ⟨rt, none, _, hdel, hser, hnex, Or.inr ⟨rfl, rfl⟩⟩
  · rw [if_neg htur]
    exact ⟨s.runtime, s.unsent, live, rfl, h, rfl, Or.inl ⟨rfl, rfl⟩⟩

/-- **The driver can submit its next action**: nothing is in flight but the
completion of a ticket that is used up, and the worker has carried out one
action for each ticket so far. -/
structure Ready (session : SessionId) (s : System W) : Prop where
  serving : Serving session none s.runtime
  queue : s.queue = []
  completed : s.completed = []
  unsent : ∀ t o, s.unsent = some (t, o) → o = .ok ∧ t.val < s.runtime.loop.core.nextTicket
  tickets : s.log.map Answered.ticket = (List.range s.runtime.loop.core.nextTicket).map Ticket.mk

/-- A submission, and what the scheduler replies to it. -/
theorem Ready.request_submit (h : Ready session s) (schedule : ℕ → Bool) (action : Action) :
    ∃ rt unsent turns, s.request schedule (.submit session action)
        = (.ok (.submitted ⟨s.runtime.loop.core.nextTicket⟩ .accepted), { s with
            runtime := rt
            unsent := unsent
            turns := turns
            queue := [⟨⟨s.runtime.loop.core.nextTicket⟩, action⟩] })
      ∧ Serving session (some ⟨s.runtime.loop.core.nextTicket⟩) rt
      ∧ rt.loop.core.nextTicket = s.runtime.loop.core.nextTicket + 1
      ∧ (unsent = s.unsent ∨ unsent = none) := by
  obtain ⟨rt, unsent, live, hyld, hser, hnex, hsen⟩ :=
    yield_eq schedule h.serving fun t o ht => (h.unsent t o ht).1
  have hliv : live = none := by
    rcases hsen with ⟨-, hliv⟩ | ⟨-, hliv⟩
    · exact hliv
    · rw [hliv]
      cases s.unsent with
      | none | some => rfl
  subst hliv
  obtain ⟨rt', hrec, hser', hnex', hfin⟩ := receive_submit
    (s := { s with runtime := rt, unsent := unsent, turns := s.turns + 1 }) hser h.queue action
  dsimp only at hrec hser' hnex' hfin
  rw [hnex] at hrec hser' hnex' hfin
  refine ⟨rt', unsent, s.turns + 1, ?_, hser', hnex', hsen.imp And.left And.left⟩
  unfold request
  dsimp only
  rw [hyld, hrec]
  rw [hfin]

variable {answer : W → List UInt8 → Except String SchedOutcome × W}

/-- The worker carries out the one action on its queue. -/
theorem work_eq {ticket : Ticket} {action : Action} {outcome : SchedOutcome} {worker : W}
    (h : Serving session (some ticket) s.runtime) (hque : s.queue = [⟨ticket, action⟩])
    (huns : ∀ t o, s.unsent = some (t, o) → o = .ok ∧ t ≠ ticket)
    (hans : answer s.worker action.payload = (.ok outcome, worker)) : ∃ rt, s.work answer = { s with
          runtime := rt
          queue := []
          worker := worker
          completed := s.completed ++ [(ticket, .ok outcome)]
          unsent := some (ticket, .ok)
          log := s.log ++ [⟨ticket, action.payload, .ok outcome⟩] }
      ∧ Serving session (some ticket) rt
      ∧ rt.loop.core.nextTicket = s.runtime.loop.core.nextTicket := by
  obtain ⟨rt, hdel, hser, hnex⟩ := deliver_eq h fun t o ht => (huns t o ht).1
  have hliv : afterSent s.unsent (some ticket) = some ticket := by
    unfold afterSent
    cases hsen : s.unsent with
    | none => rfl
    | some sent =>
      have hne := (huns sent.1 sent.2 hsen).2
      exact filter_some_pos (decide_eq_true hne.symm)
  rw [hliv] at hser
  refine ⟨rt, ?_, hser, hnex⟩
  unfold work
  rw [hdel]
  rw [hque]
  dsimp only
  rw [hans]
  rfl

/-- The driver completes the ticket that it has waited for, before the worker
does or after it. -/
theorem request_complete {ticket : Ticket} (h : Serving session (some ticket) s.runtime)
    (huns : s.unsent = some (ticket, .ok)) (schedule : ℕ → Bool) :
    ∃ rt unsent turns, s.request schedule (.complete ticket .ok)
        = (.ok .ok, { s with runtime := rt, unsent := unsent, turns := turns })
      ∧ Serving session none rt
      ∧ rt.loop.core.nextTicket = s.runtime.loop.core.nextTicket
      ∧ (unsent = some (ticket, .ok) ∨ unsent = none) := by
  obtain ⟨rt, unsent, live, hyld, hser, hnex, hsen⟩ :=
    yield_eq schedule h fun t o ht => by
      obtain ⟨rfl, rfl⟩ := Prod.mk.inj (some.inj (huns.symm.trans ht))
      rfl
  rw [huns] at hsen
  have hliv : live.filter (· ≠ ticket) = none := by
    rcases hsen with ⟨-, rfl⟩ | ⟨-, rfl⟩
    · simp
    · simp [afterSent]
  obtain ⟨rt', hrec, hser', hnex', hfin⟩ := receive_complete
    (s := { s with runtime := rt, unsent := unsent, turns := s.turns + 1 }) hser ticket
  rw [hliv] at hser'
  refine ⟨rt', unsent, s.turns + 1, ?_, hser', hnex'.trans hnex, hsen.imp And.left And.left⟩
  unfold request
  dsimp only
  rw [hyld, hrec]
  dsimp only at hfin ⊢
  rw [hfin]

/-- **One action through the scheduler**: whatever the schedule, the worker
carries it out once and its outcome is returned. -/
theorem Ready.submitAndComplete (h : Ready session s) (schedule : ℕ → Bool) (kind : ActionKind)
    {payload : List UInt8} {outcome : SchedOutcome} {worker : W}
    (hans : answer s.worker payload = (.ok outcome, worker)) :
    ∃ s', s.submitAndComplete answer schedule session kind payload = (.ok outcome, s')
      ∧ Ready session s' ∧ s'.worker = worker
      ∧ ∃ ticket, s'.log = s.log ++ [⟨ticket, payload, .ok outcome⟩] := by
  obtain ⟨rt, unsent, turns, hsub, hser, hnex, hsen⟩ :=
    h.request_submit schedule ⟨kind, payload⟩
  set ticket : Ticket := ⟨s.runtime.loop.core.nextTicket⟩ with htic
  set s₁ : System W := { s with
    runtime := rt
    unsent := unsent
    turns := turns
    queue := [⟨ticket, ⟨kind, payload⟩⟩] } with hs₁
  -- a completion that is still unsent belongs to an earlier ticket
  have hold : ∀ t o, unsent = some (t, o) → o = .ok ∧ t ≠ ticket := by
    intro t o ht
    rcases hsen with hsen | hsen
    · obtain ⟨ho, hlt⟩ := h.unsent t o (hsen ▸ ht)
      exact ⟨ho, fun heq => absurd hlt (by rw [heq]; exact lt_irrefl _)⟩
    · rw [hsen] at ht
      cases ht
  obtain ⟨rt₂, hwor, hser₂, hnex₂⟩ := work_eq (s := s₁) hser rfl hold hans
  set s₂ : System W := { s₁ with
    runtime := rt₂
    queue := []
    worker := worker
    completed := s₁.completed ++ [(ticket, .ok outcome)]
    unsent := some (ticket, .ok)
    log := s₁.log ++ [⟨ticket, payload, .ok outcome⟩] } with hs₂
  have hwt : s₂.wait ticket = (.ok outcome, { s₂ with completed := [] }) := by
    have hcom : s₂.completed = [(ticket, .ok outcome)] := by
      show s.completed ++ _ = _
      rw [h.completed]
      rfl
    have her : [(ticket, (.ok outcome : Except String SchedOutcome))].eraseP
        (fun known => known.1 = ticket) = [] :=
      eraseP_cons_of_pos (decide_eq_true rfl)
    unfold wait
    rw [hcom, List.find?_singleton, if_pos (decide_eq_true rfl)]
    rw [her]
    rfl
  obtain ⟨rt₃, unsent₃, turns₃, hcpl, hser₃, hnex₃, hsen₃⟩ :=
    request_complete (s := { s₂ with completed := [] }) hser₂ rfl schedule
  refine ⟨{ s₂ with runtime := rt₃, unsent := unsent₃, completed := [], turns := turns₃ }, ?_,
    ⟨hser₃, rfl, rfl, fun t o ht => ?_, ?_⟩, rfl, ticket, rfl⟩
  · unfold System.submitAndComplete
    rw [hsub]
    dsimp only
    unfold awaitTicket
    rw [hwor, hwt]
    dsimp only
    rw [hcpl]
  · show o = .ok ∧ t.val < rt₃.loop.core.nextTicket
    rw [hnex₃, show s₂.runtime.loop.core.nextTicket = _ from hnex₂.trans hnex]
    rcases hsen₃ with rfl | rfl
    · obtain ⟨rfl, rfl⟩ := Prod.mk.inj (some.inj ht)
      exact ⟨rfl, Nat.lt_succ_self _⟩
    · cases ht
  · show (s.log ++ [_]).map Answered.ticket = (List.range rt₃.loop.core.nextTicket).map Ticket.mk
    rw [hnex₃, show s₂.runtime.loop.core.nextTicket = _ from hnex₂.trans hnex,
      List.map_append, h.tickets, range_succ, List.map_append]
    rfl

theorem ready_opened (w : W) : Ready ⟨0⟩ (opened w) where
  serving := by
    refine ⟨nofun, rfl, rfl, ⟨Session.new ⟨0⟩, rfl, rfl, rfl⟩,
      fun t => rfl, Nat.succ_pos 63, fun r hr => ?_⟩
    rw [mem_singleton.mp hr]
    exact Nat.lt_succ_self 0
  queue := rfl
  completed := rfl
  unsent := fun t o ht => by cases ht
  tickets := rfl

end System

end Qwen

end Logan
