import Logan.Sched.Ids
import Logan.Util.Machine

/-!
# The scheduler core

`SchedulerCore` is a single-owner state machine: it decides lifecycle and
dependency transitions of sessions, and performs none of the work. A driver
executes the effects it returns and calls back with ticket completions.

The state holds every fact twice. A session that may run is in the ready
queue *and* has its membership bit set; a ticket in flight is in the global
ticket map *and* in its owner's list. The operations below are the source's,
each moving both copies; that they keep agreeing is
`SchedulerCore.Consistent`, the subject of `Logan.Sched.CoreInvariant`.

An operation that mutates `self` and returns a `Result` is a function from
the state to the result paired with the state afterwards, so that an error
path keeps whatever was already written.
-/

namespace Logan

/-- Backend class selected by an engine-owned action. -/
inductive ActionKind where
  | io
  | cpu
  | accelerator
deriving DecidableEq

/-- **Engine-owned opaque action payload**, carried without being
interpreted. -/
structure Action where
  kind : ActionKind
  payload : List UInt8
deriving DecidableEq

/-- Result reported by a backend for a submitted ticket. -/
inductive Outcome where
  | ok
  | err (error : String)
deriving DecidableEq

/-- **Work or lifecycle intent returned to the driver.** -/
inductive Effect where
  /-- Execute an opaque action outside the scheduler owner. -/
  | dispatch (ticket : Ticket) (action : Action)
  /-- Best-effort cancellation of an already-submitted action. -/
  | cancel (ticket : Ticket)
  /-- A blocked session became runnable after its dependencies completed. -/
  | wake (session : SessionId)
  /-- A session reached successful terminal state. -/
  | finished (session : SessionId)
  /-- A session reached failed terminal state. -/
  | failed (session : SessionId) (error : String)
deriving DecidableEq

/-- Scheduler policy: how many live action tickets one session may own. -/
structure Budget where
  maxInflightPerSession : ℕ := 64
deriving DecidableEq

/-- Session lifecycle state. -/
inductive SessionState where
  | runnable
  | blocked
  | cancelling
  | finished
  | failed
deriving DecidableEq

/-- **Scheduler-owned session record.** -/
structure Session where
  id : SessionId
  state : SessionState
  /-- The session's live tickets, in submission order. -/
  inflight : List Ticket
  /-- The membership bit: whether the session is in the ready queue. -/
  inReady : Bool

/-- `Session::new`: a session is born runnable and queued. -/
def Session.new (id : SessionId) : Session := ⟨id, .runnable, [], true⟩

/-- One scheduler dispatch quantum. -/
inductive Step where
  | run (session : SessionId)
  | idle
deriving DecidableEq

/-- Errors for invalid session lifecycle operations. -/
inductive SchedError where
  | unknownSession (session : SessionId)
  | illegalTransition (session : SessionId) (from_ : SessionState)
  | notRunnable (session : SessionId)
  | inflightLimit (session : SessionId)
deriving DecidableEq

/-- The terminal states with what each reports: the source's pair of a
terminal `SessionState` and an optional error, of which `terminalize` is
only ever passed these two. -/
inductive Terminal where
  | finished
  | failed (error : String)

/-- The session state a terminal transition leads to. -/
def Terminal.state : Terminal → SessionState
  | .finished => .finished
  | .failed _ => .failed

/-- The effect a terminal transition reports. -/
def Terminal.effect (session : SessionId) : Terminal → Effect
  | .finished => .finished session
  | .failed error => .failed session error

/-- **Deterministic scheduler core.** -/
structure SchedulerCore where
  budget : Budget
  sessions : Table SessionId Session
  ready : List SessionId
  nextSession : ℕ
  nextTicket : ℕ
  /-- Ticket ownership and its reserved resource generation. -/
  inflight : Table Ticket (SessionId × Generation)

namespace SchedulerCore

/-- A core with no session. -/
def new (budget : Budget) : SchedulerCore where
  budget := budget
  sessions := ∅
  ready := []
  nextSession := 0
  nextTicket := 0
  inflight := ∅

variable (c : SchedulerCore)

/-- Remove every queue occurrence of a session and clear its membership
bit. -/
def removeFromReady (session : SessionId) : SchedulerCore :=
  { c with
    ready := c.ready.filter (fun queued => queued ≠ session)
    sessions := c.sessions.modify session (fun record => { record with inReady := false }) }

/-- Queue a session at the back, if it is runnable and not queued. -/
def enqueueIfRunnable (session : SessionId) : SchedulerCore :=
  match c.sessions.lookup session with
  | none => c
  | some record =>
    if record.state = .runnable ∧ record.inReady = false then
      { c with
        sessions := c.sessions.insert session { record with inReady := true }
        ready := c.ready ++ [session] }
    else c

/-- Write a session's lifecycle state. -/
def setState (session : SessionId) (state : SessionState) :
    SchedulerCore :=
  { c with
    sessions := c.sessions.modify session (fun record => { record with state := state }) }

/-- **Create a runnable session**, queued at the back. -/
def createSession : SessionId × SchedulerCore :=
  let id : SessionId := ⟨c.nextSession⟩
  (id,
    { c with
      nextSession := c.nextSession + 1
      sessions := c.sessions.insert id (Session.new id)
      ready := c.ready ++ [id] })

/-- A session's lifecycle state, if it is known. -/
def sessionState (session : SessionId) : Option SessionState :=
  (c.sessions.lookup session).map Session.state

/-- How many live tickets a session owns, if it is known. -/
def inflightCount (session : SessionId) : Option ℕ :=
  (c.sessions.lookup session).map (fun record => record.inflight.length)

/-- All known sessions in deterministic identifier order. -/
def sessionIds : List SessionId :=
  c.sessions.keys.insertionSort (fun a b => a.val ≤ b.val)

/-- The number of live tickets. -/
def totalInflight : ℕ := c.inflight.entries.length

/-- **Move a runnable session to `Blocked`.** The ticket list is not
consulted: a session may block on something other than its tickets, and then
an explicit `wake` resumes it. -/
def block (session : SessionId) :
    Except SchedError (List Effect) × SchedulerCore :=
  match c.sessions.lookup session with
  | none => (.error (.unknownSession session), c)
  | some record =>
    match record.state with
    | .runnable => (.ok [], (c.removeFromReady session).setState session .blocked)
    | .blocked | .cancelling => (.ok [], c)
    | .finished | .failed => (.error (.illegalTransition session record.state), c)

/-- **Wake a blocked session.** Neither cancellation nor a terminal state is
undone. -/
def wake (c : SchedulerCore) (session : SessionId) :
    Except SchedError (List Effect) × SchedulerCore :=
  match c.sessions.lookup session with
  | none => (.error (.unknownSession session), c)
  | some record =>
    match record.state with
    | .blocked =>
      (.ok [.wake session], (c.setState session .runnable).enqueueIfRunnable session)
    | .runnable | .cancelling => (.ok [], c)
    | .finished | .failed => (.error (.illegalTransition session record.state), c)

/-- **Submit one opaque action**: issue a ticket to the session and return
the driver's dispatch intent. -/
def submit (session : SessionId) (action : Action) :
    Except SchedError (Ticket × Effect) × SchedulerCore :=
  match c.sessions.lookup session with
  | none => (.error (.unknownSession session), c)
  | some record =>
    if record.state ≠ .runnable then (.error (.notRunnable session), c)
    else if c.budget.maxInflightPerSession ≤ record.inflight.length then
      (.error (.inflightLimit session), c)
    else
      let ticket : Ticket := ⟨c.nextTicket⟩
      -- the generation is reserved with the ticket and carries its number
      let generation : Generation := ⟨ticket.val⟩
      (.ok (ticket, .dispatch ticket action),
        { c with
          nextTicket := c.nextTicket + 1
          sessions := c.sessions.modify session
            (fun record => { record with inflight := record.inflight ++ [ticket] })
          inflight := c.inflight.insert ticket (session, generation) })

/-- **Shared terminal transition.** Ticket ownership is removed before the
effects are emitted, so all later completions are stale. -/
def terminalize (session : SessionId) (terminal : Terminal) :
    Except SchedError (List Effect) × SchedulerCore :=
  let c := c.removeFromReady session
  match c.sessions.lookup session with
  | none => (.error (.unknownSession session), c)
  | some record =>
    (.ok (record.inflight.map .cancel ++ [terminal.effect session]),
      { c with
        sessions := c.sessions.insert session
          { record with inflight := [], state := terminal.state }
        inflight := c.inflight.eraseAll record.inflight })

/-- **Complete a ticket exactly once.** A success wakes a blocked session
only when the ticket was its final dependency; an error terminalizes the
session and cancels its remaining tickets. -/
def complete (ticket : Ticket) (outcome : Outcome) :
    Except SchedError (List Effect) × SchedulerCore :=
  match c.inflight.lookup ticket with
  -- duplicate, unknown, cancelled, or terminally-stale completion
  | none => (.ok [], c)
  | some (session, _) =>
    let c := { c with inflight := c.inflight.erase ticket }
    match c.sessions.lookup session with
    | none => (.error (.unknownSession session), c)
    | some record =>
      let record := { record with inflight := record.inflight.filter (fun owned => owned ≠ ticket) }
      let c := { c with sessions := c.sessions.insert session record }
      match outcome with
      | .ok =>
        -- the queue is written here directly: a blocked session is not in it
        if record.state = .blocked ∧ record.inflight = [] then
          (.ok [.wake session],
            { c with
              sessions := c.sessions.insert session
                { record with state := .runnable, inReady := true }
              ready := c.ready ++ [session] })
        else (.ok [], c)
      | .err error => c.terminalize session (.failed error)

/-- **Cancel a session**, revoking all of its live tickets. -/
def cancel (c : SchedulerCore) (session : SessionId) :
    Except SchedError (List Effect) × SchedulerCore :=
  match c.sessions.lookup session with
  | none => (.error (.unknownSession session), c)
  | some record =>
    match record.state with
    | .finished | .failed => (.error (.illegalTransition session record.state), c)
    | .cancelling => (.ok [], c)
    | .runnable | .blocked =>
      let c := c.removeFromReady session
      (.ok (record.inflight.map .cancel),
        { c with
          sessions := c.sessions.modify session
            (fun record => { record with inflight := [], state := .cancelling })
          inflight := c.inflight.eraseAll record.inflight })

/-- **Mark successful terminal state.** Outstanding tickets are cancelled
first. -/
def finish (session : SessionId) :
    Except SchedError (List Effect) × SchedulerCore :=
  match c.sessions.lookup session with
  | none => (.error (.unknownSession session), c)
  | some record =>
    match record.state with
    | .finished => (.ok [], c)
    | .failed => (.error (.illegalTransition session record.state), c)
    | .runnable | .blocked | .cancelling => c.terminalize session .finished

/-- **Mark failed terminal state.** Duplicate failure is idempotent. -/
def fail (session : SessionId) (error : String) :
    Except SchedError (List Effect) × SchedulerCore :=
  match c.sessions.lookup session with
  | none => (.error (.unknownSession session), c)
  | some record =>
    match record.state with
    | .failed => (.ok [], c)
    | .finished => (.error (.illegalTransition session record.state), c)
    | .runnable | .blocked | .cancelling => c.terminalize session (.failed error)

/-- The `while let` of `step`, over what is left of the queue: stale
entries are dropped until a runnable session is found. -/
def stepFrom (c : SchedulerCore) : List SessionId → Step × SchedulerCore
  | [] => (.idle, { c with ready := [] })
  | session :: rest =>
    match c.sessions.lookup session with
    | none => stepFrom c rest
    | some record =>
      -- a stale entry leaves the queue, and its record stays as it is
      if record.state ≠ .runnable ∨ record.inReady = false then stepFrom c rest
      else
        (.run session,
          { c with
            ready := rest
            sessions := c.sessions.insert session { record with inReady := false } })

/-- **Return one runnable session.** The session is not requeued: the driver
does that after the quantum. -/
def step : Step × SchedulerCore := c.stepFrom c.ready

/-- Return a still-runnable session to the back of the queue. -/
def requeue (c : SchedulerCore) (session : SessionId) : SchedulerCore :=
  c.enqueueIfRunnable session

end SchedulerCore

/-! ## One operation at a time

The simulator drives the core with explicit operations and records what each
one answers. Its operation type names all ten entry points, so a list of
operations is an arbitrary run of the core. -/

/-- One deterministic operation accepted by the simulator. -/
inductive SimOp where
  | createSession
  | submit (session : SessionId) (action : Action)
  | step
  | requeue (session : SessionId)
  | block (session : SessionId)
  | wake (session : SessionId)
  | complete (ticket : Ticket) (outcome : Outcome)
  | cancel (session : SessionId)
  | finish (session : SessionId)
  | fail (session : SessionId) (error : String)
deriving DecidableEq

/-- Deterministic result of one simulated operation. -/
inductive SimOutcome where
  | sessionCreated (session : SessionId)
  | submitted (ticket : Ticket) (effect : Effect)
  | step (step : Step)
  | effects (effects : List Effect)
  | noop
  | error (error : SchedError)
deriving DecidableEq

/-- `SchedulerSimulator::effects`: an empty effect list is a no-op. -/
def SimOutcome.ofResult : Except SchedError (List Effect) → SimOutcome
  | .ok [] => .noop
  | .ok (e :: es) => .effects (e :: es)
  | .error err => .error err

/-- The effects an outcome carries. -/
def SimOutcome.effectList : SimOutcome → List Effect
  | .effects es => es
  | .submitted _ e => [e]
  | _ => []

namespace SchedulerCore

/-- `SchedulerSimulator::execute`: **apply one operation.** -/
def execute (c : SchedulerCore) : SimOp → SimOutcome × SchedulerCore
  | .createSession => (.sessionCreated c.createSession.1, c.createSession.2)
  | .submit session action =>
    match c.submit session action with
    | (.ok (ticket, effect), c') => (.submitted ticket effect, c')
    | (.error e, c') => (.error e, c')
  | .step => (.step c.step.1, c.step.2)
  | .requeue session => (.noop, c.requeue session)
  | .block session => (.ofResult (c.block session).1, (c.block session).2)
  | .wake session => (.ofResult (c.wake session).1, (c.wake session).2)
  | .complete ticket outcome =>
    (.ofResult (c.complete ticket outcome).1, (c.complete ticket outcome).2)
  | .cancel session => (.ofResult (c.cancel session).1, (c.cancel session).2)
  | .finish session => (.ofResult (c.finish session).1, (c.finish session).2)
  | .fail session error => (.ofResult (c.fail session error).1, (c.fail session error).2)

/-- **The core as a machine** reading operations. -/
def machine : Machine SchedulerCore SimOp SimOutcome := ⟨execute⟩

end SchedulerCore

end Logan
