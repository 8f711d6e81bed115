import Logan.Sched.Core

/-!
# The runtime loop

`RuntimeLoop` owns one `SchedulerCore` and drives it from a channel of
commands. What the core submits is offered to a bounded executor lane; a
lane that is full hands the request back, and the loop keeps it in `pending`
until a later retry. A `Shutdown` that has to drain first parks its reply
port in `shutdownReply`.

The executors and the channel are outside the loop. A lane answers each
offer as it likes, and so does each cancellation probe: `ExecutorSet` reads
the answers off two functions of the number of calls made so far, so that
quantifying over them is quantifying over every sequence of answers. The
loop writes down every call it makes on a lane (`calls`) and every reply it
sends (`replies`); the source keeps no such record, and nothing in the loop
reads it.

`Runtime` adds `RuntimeLoop::run`: where the owner thread stands between a
blocking and a nonblocking receive, and the reply ports handed out to
requests.
-/

namespace Logan

/-! ## What crosses the boundary -/

/-- Whether shutdown cancels immediately or waits for accepted work to
report. -/
inductive ShutdownMode where
  /-- Revoke logical work, issue best-effort executor cancels, then exit. -/
  | cancel
  /-- Stop accepting new work and consume completions until no live ticket
  remains. -/
  | drain
deriving DecidableEq

/-- Result of trying to place an action on its backend queue. -/
inductive SubmitDisposition where
  | accepted
  | backpressured
deriving DecidableEq

/-- **A response returned through a request's reply channel.** -/
inductive RuntimeReply where
  | sessionCreated (session : SessionId)
  | submitted (ticket : Ticket) (disposition : SubmitDisposition)
  | effects (effects : List Effect)
  | ok
  | error (error : String)
  | shutdownComplete
deriving DecidableEq

/-- **An action offered to an executor**, which the runtime retains when the
lane is full. The completion sink a request carries is the way back into the
command channel; here a completion is an inbound command. -/
structure DispatchRequest where
  ticket : Ticket
  action : Action
deriving DecidableEq

/-- What a lane answers to an offer; a refused request is handed back. -/
inductive SubmitResult where
  | accepted
  | full (request : DispatchRequest)
  | closed (request : DispatchRequest)

/-- The answer without the request. -/
inductive Answer where
  | accepted
  | full
  | closed
deriving DecidableEq

/-- The answer to one request: ownership of a refused request returns to the
runtime. -/
def Answer.result (request : DispatchRequest) : Answer → SubmitResult
  | .accepted => .accepted
  | .full => .full request
  | .closed => .closed request

/-- The three executor lanes, seen from the loop: what they will answer to
its calls, numbered from the first. -/
structure ExecutorSet where
  /-- Answers to `try_submit`. -/
  submitAnswer : ℕ → Answer
  /-- Answers to `try_cancel`: whether the lane knew the ticket. -/
  cancelAnswer : ℕ → Bool

/-- **One call on a lane**, as written down by the loop. -/
inductive Call where
  /-- An offer to the lane of the action's kind. `live` is whether the core
  owned the ticket at that moment. -/
  | trySubmit (request : DispatchRequest) (answer : Answer) (live : Bool)
  | tryCancel (lane : ActionKind) (ticket : Ticket) (known : Bool)
  | shutdown (lane : ActionKind)
deriving DecidableEq

/-- A reply channel of capacity one, by number, or no channel at all. -/
structure ReplyPort where
  sender : Option ℕ
deriving DecidableEq

def ReplyPort.none : ReplyPort := ⟨Option.none⟩

/-- Frontend-visible commands, without a reply channel. -/
inductive RuntimeRequest where
  | createSession
  | submit (session : SessionId) (action : Action)
  | block (session : SessionId)
  | wake (session : SessionId)
  | complete (ticket : Ticket) (outcome : Outcome)
  | cancel (session : SessionId)
  | finish (session : SessionId)
  | fail (session : SessionId) (error : String)
  | executorReady (kind : ActionKind)
  | shutdown (mode : ShutdownMode)
deriving DecidableEq

/-- **What the loop receives.** -/
inductive RuntimeCommand where
  | createSession (reply : ReplyPort)
  | submit (session : SessionId) (action : Action) (reply : ReplyPort)
  | block (session : SessionId) (reply : ReplyPort)
  | wake (session : SessionId) (reply : ReplyPort)
  | complete (ticket : Ticket) (outcome : Outcome) (reply : Option ReplyPort)
  | cancel (session : SessionId) (reply : ReplyPort)
  | finish (session : SessionId) (reply : ReplyPort)
  | fail (session : SessionId) (error : String) (reply : ReplyPort)
  | executorReady (kind : ActionKind)
  | shutdown (mode : ShutdownMode) (reply : ReplyPort)
deriving DecidableEq

/-- `RuntimeRequest::into_command`. -/
def RuntimeRequest.intoCommand (reply : ReplyPort) : RuntimeRequest → RuntimeCommand
  | .createSession => .createSession reply
  | .submit session action => .submit session action reply
  | .block session => .block session reply
  | .wake session => .wake session reply
  | .complete ticket outcome =>
    .complete ticket outcome (reply.sender.map (fun sender => ⟨some sender⟩))
  | .cancel session => .cancel session reply
  | .finish session => .finish session reply
  | .fail session error => .fail session error reply
  | .executorReady kind => .executorReady kind
  | .shutdown mode => .shutdown mode reply

/-! ## The texts of errors -/

/-- The `Debug` text of a session state. -/
def SessionState.toText : SessionState → String
  | .runnable => "Runnable"
  | .blocked => "Blocked"
  | .cancelling => "Cancelling"
  | .finished => "Finished"
  | .failed => "Failed"

/-- `SchedError::to_string`: `Display` is the derived `Debug` text. -/
def SchedError.toText : SchedError → String
  | .unknownSession session => "UnknownSession(" ++ session.toText ++ ")"
  | .illegalTransition session from_ =>
    "IllegalTransition \x7b session: " ++ session.toText ++ ", from: " ++ from_.toText ++ " \x7d"
  | .notRunnable session => "NotRunnable(" ++ session.toText ++ ")"
  | .inflightLimit session => "InflightLimit(" ++ session.toText ++ ")"

/-- The `Debug` text of an effect, as far as the loop can be asked for it:
the text of a `Dispatch` is never formatted. -/
def Effect.toText : Effect → String
  | .dispatch ticket _ => "Dispatch \x7b ticket: " ++ ticket.toText ++ " \x7d"
  | .cancel ticket => "Cancel \x7b ticket: " ++ ticket.toText ++ " \x7d"
  | .wake session => "Wake \x7b session: " ++ session.toText ++ " \x7d"
  | .finished session => "Finished \x7b session: " ++ session.toText ++ " \x7d"
  | .failed session error =>
    "Failed \x7b session: " ++ session.toText ++ ", error: " ++ error.quote ++ " \x7d"

/-! ## The loop's state and the calls it makes -/

/-- **The state of the scheduler owner thread.** -/
structure RuntimeLoop where
  core : SchedulerCore
  executors : ExecutorSet
  /-- Requests a full lane handed back, oldest first. -/
  pending : List DispatchRequest
  draining : Bool
  /-- The parked reply port of a `Shutdown` that waits for the drain. -/
  shutdownReply : Option ReplyPort
  /-- Every call made on a lane. -/
  calls : List Call
  /-- Every reply sent, with the port it was sent through. -/
  replies : List (ℕ × RuntimeReply)

namespace RuntimeLoop

def new (budget : Budget) (executors : ExecutorSet) : RuntimeLoop where
  core := SchedulerCore.new budget
  executors := executors
  pending := []
  draining := false
  shutdownReply := none
  calls := []
  replies := []

variable (l : RuntimeLoop)

/-- `ReplyPort::send`. -/
def send (port : ReplyPort) (reply : RuntimeReply) : RuntimeLoop :=
  match port.sender with
  | none => l
  | some sender => { l with replies := l.replies ++ [(sender, reply)] }

/-- `ExecutorSet::try_submit`, on the lane of the action's kind. -/
def trySubmit (l : RuntimeLoop) (request : DispatchRequest) : SubmitResult × RuntimeLoop :=
  let answer := l.executors.submitAnswer l.calls.length
  let live := (l.core.inflight.lookup request.ticket).isSome
  (answer.result request, { l with calls := l.calls ++ [.trySubmit request answer live] })

/-- One cancellation probe. -/
def probe (lane : ActionKind) (ticket : Ticket) : Bool × RuntimeLoop :=
  let known := l.executors.cancelAnswer l.calls.length
  (known, { l with calls := l.calls ++ [.tryCancel lane ticket known] })

/-- `ExecutorSet::try_cancel`: the lanes are probed in turn until one knows
the ticket. -/
def tryCancel (ticket : Ticket) : RuntimeLoop :=
  let (known, l) := l.probe .io ticket
  if known then l
  else
    let (known, l) := l.probe .cpu ticket
    if known then l else (l.probe .accelerator ticket).2

/-- `ExecutorSet::shutdown`. -/
def shutdownExecutors : RuntimeLoop :=
  { l with calls := l.calls ++ [.shutdown .io, .shutdown .cpu, .shutdown .accelerator] }

/-- Probe the lanes for every cancelled ticket. -/
def applyEffects (effects : List Effect) : RuntimeLoop :=
  effects.foldl (fun l effect =>
    match effect with
    | .cancel ticket => l.tryCancel ticket
    | _ => l) l

/-- Remove the requests of cancelled tickets from the backpressure queue. -/
def removeCancelled (effects : List Effect) : RuntimeLoop :=
  effects.foldl (fun l effect =>
    match effect with
    | .cancel ticket =>
      { l with pending := l.pending.filter (fun request => request.ticket ≠ ticket) }
    | _ => l) l

/-- What the handlers do with the effects of a core operation before they
answer. -/
def settle (result : Except SchedError (List Effect)) : RuntimeLoop :=
  match result with
  | .ok effects => (l.removeCancelled effects).applyEffects effects
  | .error _ => l

/-- Nothing is pending and no ticket is live. -/
def isQuiescent : Bool :=
  l.pending.isEmpty && l.core.totalInflight == 0

/-- Answer a request with the result of a core operation. -/
def respondEffects (result : Except SchedError (List Effect))
    (reply : ReplyPort) : RuntimeLoop :=
  match result with
  | .ok effects => l.send reply (if effects.isEmpty then .ok else .effects effects)
  | .error error => l.send reply (.error error.toText)

/-! ## The handlers -/

/-- Submit an action and offer it to its lane. -/
def submit (l : RuntimeLoop) (session : SessionId) (action : Action) (reply : ReplyPort) :
    RuntimeLoop :=
  match l.core.submit session action with
  | (.ok (ticket, .dispatch _ action), core) =>
    match ({ l with core := core }).trySubmit ⟨ticket, action⟩ with
    | (.accepted, l) => l.send reply (.submitted ticket .accepted)
    | (.full request, l) =>
      ({ l with pending := l.pending ++ [request] }).send reply (.submitted ticket .backpressured)
    | (.closed request, l) =>
      let (result, core) := l.core.complete request.ticket (.err "executor closed before dispatch")
      (({ l with core := core }).settle result).send reply (.error "executor closed")
  | (.ok (_, effect), core) =>
    ({ l with core := core }).send reply (.error ("unexpected scheduler effect: " ++ effect.toText))
  | (.error error, core) => ({ l with core := core }).send reply (.error error.toText)

/-- The `while` of `retry_pending`, from an index into the queue. Every
iteration moves past a request or removes one, so the length of the queue
is fuel enough. -/
def retryFrom (kind : ActionKind) : ℕ → RuntimeLoop → ℕ → RuntimeLoop
  | 0, l, _ => l
  | fuel + 1, l, index =>
    match l.pending[index]? with
    | none => l
    | some request =>
      if request.action.kind ≠ kind then retryFrom kind fuel l (index + 1)
      else
        match ({ l with pending := l.pending.eraseIdx index }).trySubmit request with
        | (.accepted, l) => retryFrom kind fuel l index
        | (.full request, l) => { l with pending := l.pending.insertIdx index request }
        | (.closed request, l) =>
          let (result, core) := l.core.complete request.ticket (.err "executor closed before retry")
          retryFrom kind fuel (({ l with core := core }).settle result) index

/-- Offer the pending requests of one kind again, until its lane is full. -/
def retryPending (kind : ActionKind) : RuntimeLoop :=
  retryFrom kind l.pending.length l 0

/-- The second half of a session's part of the shutdown: finish it, and
probe the lanes for what that cancels. -/
def finishSession (session : SessionId) : RuntimeLoop :=
  let (result, core) := l.core.finish session
  match result with
  | .ok effects => ({ l with core := core }).applyEffects effects
  | .error _ => { l with core := core }

/-- One session's part of the shutdown: the body of the `for` loop. -/
def shutdownSession (mode : ShutdownMode) (l : RuntimeLoop) (session : SessionId) :
    RuntimeLoop :=
  if mode = .cancel then
    let (result, core) := l.core.cancel session
    (({ l with core := core }).settle result).finishSession session
  else l.finishSession session

/-- **Close every session and every lane**, and answer. -/
def shutdown (mode : ShutdownMode) (reply : ReplyPort) : RuntimeLoop :=
  let l := l.core.sessionIds.foldl (shutdownSession mode) l
  let l := { l with pending := [] }
  l.shutdownExecutors.send reply .shutdownComplete

/-- `RuntimeLoop::handle`: **process one command.** The flag is true to
terminate the owner thread. -/
def handle : RuntimeCommand → Bool × RuntimeLoop
  | .createSession reply =>
    if l.draining then (false, l.send reply (.error "runtime is draining"))
    else
      let (session, core) := l.core.createSession
      (false, ({ l with core := core }).send reply (.sessionCreated session))
  | .submit session action reply =>
    if l.draining then (false, l.send reply (.error "runtime is draining"))
    else (false, l.submit session action reply)
  | .block session reply =>
    let (result, core) := l.core.block session
    (false, ({ l with core := core }).respondEffects result reply)
  | .wake session reply =>
    let (result, core) := l.core.wake session
    (false, ({ l with core := core }).respondEffects result reply)
  | .complete ticket outcome reply =>
    let (result, core) := l.core.complete ticket outcome
    let l := ({ l with core := core }).settle result
    let l :=
      match reply with
      | some reply => l.respondEffects result reply
      | none => l
    (false, ((l.retryPending .io).retryPending .cpu).retryPending .accelerator)
  | .cancel session reply =>
    let (result, core) := l.core.cancel session
    (false, (({ l with core := core }).settle result).respondEffects result reply)
  | .finish session reply =>
    let (result, core) := l.core.finish session
    (false, (({ l with core := core }).settle result).respondEffects result reply)
  | .fail session error reply =>
    let (result, core) := l.core.fail session error
    (false, (({ l with core := core }).settle result).respondEffects result reply)
  | .executorReady kind => (false, l.retryPending kind)
  | .shutdown mode reply =>
    if mode = .drain ∧ l.isQuiescent = false then
      if l.draining then (false, l.send reply (.error "runtime is already draining"))
      else (false, { l with draining := true, shutdownReply := some reply })
    else (true, l.shutdown mode reply)

end RuntimeLoop

/-! ## The owner thread -/

/-- Where `RuntimeLoop::run` stands: in the blocking `recv`, in the
nonblocking loop behind it, or returned. -/
inductive Phase where
  | waiting
  | burst
  | stopped
deriving DecidableEq

/-- **What the channel brings.** -/
inductive Inbound where
  /-- A frontend request, with a reply port of its own. -/
  | request (request : RuntimeRequest)
  /-- A request that asks for no reply. -/
  | notify (request : RuntimeRequest)
  /-- A completion sent by an executor through its sink. -/
  | sink (ticket : Ticket) (outcome : Outcome)
  /-- The channel is empty, which only the nonblocking receive reports. -/
  | empty
  /-- Every sender is gone. -/
  | disconnected
deriving DecidableEq

/-- **The owner thread**, with the number of reply ports handed out and the
commands it has handled. -/
structure Runtime where
  loop : RuntimeLoop
  phase : Phase
  ports : ℕ
  handled : List RuntimeCommand

namespace Runtime

def new (budget : Budget) (executors : ExecutorSet) : Runtime where
  loop := RuntimeLoop.new budget executors
  phase := .waiting
  ports := 0
  handled := []

/-- Handle one command, and return if it terminates the thread. -/
def receive (rt : Runtime) (command : RuntimeCommand) : Runtime :=
  { rt with
    loop := (rt.loop.handle command).2
    phase := if (rt.loop.handle command).1 then .stopped else .burst
    handled := rt.handled ++ [command] }

/-- Every sender is gone: cancel what is left, and return. -/
def disconnect (rt : Runtime) : Runtime :=
  { rt with loop := rt.loop.shutdown .cancel .none, phase := .stopped }

/-- The end of a burst: a drain that has become quiescent ends the thread,
answering the parked port, and otherwise it blocks again. -/
def endBurst (rt : Runtime) : Runtime :=
  if rt.loop.draining ∧ rt.loop.isQuiescent then
    let reply := rt.loop.shutdownReply.getD .none
    { rt with
      loop := ({ rt.loop with shutdownReply := none }).shutdown .drain reply
      phase := .stopped }
  else { rt with phase := .waiting }

/-- `RuntimeLoop::run`, one receive at a time. -/
def step (rt : Runtime) (inbound : Inbound) : Runtime :=
  match rt.phase, inbound with
  | .stopped, _ => rt
  | _, .request request =>
    ({ rt with ports := rt.ports + 1 }).receive (request.intoCommand ⟨some rt.ports⟩)
  | _, .notify request => rt.receive (request.intoCommand .none)
  | _, .sink ticket outcome => rt.receive (.complete ticket outcome none)
  | .waiting, .empty => rt
  | .burst, .empty => rt.endBurst
  | _, .disconnected => rt.disconnect

/-- **The owner thread as a machine** reading its channel. -/
def machine : Machine Runtime Inbound Unit := ⟨fun rt inbound => ((), rt.step inbound)⟩

end Runtime

end Logan
