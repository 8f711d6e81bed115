import Logan.Qwen.ResidencyBridge
import Logan.Sched.Runtime

/-!
# Scheduled decoding

Three threads decode together. The **driver** feeds the tokens of a session
to the engine, one action at a time. The **scheduler owner** – a `Runtime` –
hands out a ticket for each action and offers it to an executor lane. Behind
the lanes there is a single **worker**, which owns the engine; it takes one
action after another from its queue, carries it out, writes the outcome into
the completion log, and sends the completion of the ticket to the scheduler.

An outcome is a token, or the report that some routed experts are cold. Then
the driver has these loaded, with one action each, and submits the *same*
action again.

The driver blocks whenever it asks: for the reply of the scheduler, or for
the outcome of a ticket. What the threads can still do in any order is this:
the worker sends the completion of a ticket after it has written down the
outcome, so it may reach the scheduler before the driver's next request, or
after that. The worker does not receive again before it has been sent. The
model leaves the choice to a `schedule`, which is asked each time the driver
makes a request; quantifying over it is quantifying over all interleavings.

The engine is a parameter, the `answer` of the worker to the payload of an
action.
-/

namespace Logan

namespace Qwen

/-! ## Actions -/

def opPrefill : UInt8 := 0
def opDecode : UInt8 := 1
def opLoad : UInt8 := 2
def opBytes : ℕ := 17

/-- The payload of an action. -/
def encodeOp (kind : UInt8) (token pos : UInt64) : List UInt8 :=
  kind :: (u64Bytes token ++ u64Bytes pos)

/-- The parts of a payload. -/
def decodeOp (payload : List UInt8) : Except String (UInt8 × UInt64 × UInt64) :=
  if payload.length ≠ opBytes then
    .error ("invalid scheduled Qwen action: " ++ toString payload.length ++ " bytes")
  else
    .ok (payload.headD 0, u64OfBytes (slice payload 1 8), u64OfBytes (slice payload 9 8))

/-- **What is encoded is decoded.** -/
@[simp] theorem decodeOp_encodeOp (kind : UInt8) (token pos : UInt64) :
    decodeOp (encodeOp kind token pos) = .ok (kind, token, pos) := by
  have hlen : (encodeOp kind token pos).length = opBytes := by
    rw [encodeOp, List.length_cons, List.length_append, length_u64Bytes, length_u64Bytes]
    rfl
  have htok : slice (encodeOp kind token pos) 1 8 = u64Bytes token := by
    show (u64Bytes token ++ u64Bytes pos).take 8 = _
    rw [List.take_left' (length_u64Bytes token)]
  have hpos : slice (encodeOp kind token pos) 9 8 = u64Bytes pos := by
    show ((u64Bytes token ++ u64Bytes pos).drop 8).take 8 = _
    rw [List.drop_left' (length_u64Bytes token), List.take_of_length_le (length_u64Bytes pos).le]
  rw [decodeOp, if_neg (not_not_intro hlen), htok, hpos, u64OfBytes_u64Bytes, u64OfBytes_u64Bytes]
  rfl

/-- **What the worker reports** for one dispatched action. -/
inductive SchedOutcome where
  /-- The action completed: with a token, if it is a decode action. -/
  | token (token : Option UInt32)
  /-- The forward stopped at a layer because the listed routed experts are
  cold. -/
  | needExperts (layer : UInt64) (experts : List UInt32)
deriving DecidableEq

/-- The `Debug` text of an outcome. -/
def SchedOutcome.toText : SchedOutcome → String
  | .token none => "Token(None)"
  | .token (some t) => "Token(Some(" ++ toString t ++ "))"
  | .needExperts layer experts =>
    "NeedExperts \x7b layer: " ++ toString layer ++ ", experts: ["
      ++ ", ".intercalate (experts.map toString) ++ "] \x7d"

/-- The `Debug` text of a reply to a request. -/
def replyText : RuntimeReply → String
  | .sessionCreated session => "SessionCreated(" ++ session.toText ++ ")"
  | .submitted ticket .accepted =>
    "Submitted \x7b ticket: " ++ ticket.toText ++ ", disposition: Accepted \x7d"
  | .submitted ticket .backpressured =>
    "Submitted \x7b ticket: " ++ ticket.toText ++ ", disposition: Backpressured \x7d"
  | .effects effects => "Effects([" ++ ", ".intercalate (effects.map Effect.toText) ++ "])"
  | .ok => "Ok"
  | .error error => "Error(" ++ error.quote ++ ")"
  | .shutdownComplete => "ShutdownComplete"

/-! ## The scheduler and the worker -/

/-- An action the worker has carried out, as it is written down in the model:
nothing reads it. -/
structure Answered where
  ticket : Ticket
  payload : List UInt8
  result : Except String SchedOutcome

/-- **The scheduler owner and the worker**, with what is between them. -/
structure System (W : Type) where
  runtime : Runtime
  worker : W
  /-- The worker's channel, which both lanes share. -/
  queue : List DispatchRequest
  /-- A completion that the worker has not sent yet. -/
  unsent : Option (Ticket × Outcome)
  /-- The completion log. -/
  completed : List (Ticket × Except String SchedOutcome)
  /-- How often the schedule has been asked. -/
  turns : ℕ
  /-- All actions the worker has carried out. -/
  log : List Answered

/-- The request that a call has put on the worker's queue. -/
def Call.enqueued : Call → Option DispatchRequest
  | .trySubmit request .accepted _ => some request
  | _ => none

/-- The outcome that is sent to the scheduler. -/
def outcomeOf : Except String SchedOutcome → Outcome
  | .ok _ => .ok
  | .error e => .err e

namespace System

variable {W : Type}

/-- What the lanes answer: the worker's channel has room for one request,
and a ticket is never cancelled. -/
def lanes (s : System W) : ExecutorSet :=
  ⟨fun _ => if s.queue.isEmpty then .accepted else .full, fun _ => false⟩

/-- The scheduler owner receives from its channel. -/
def receive (s : System W) (inbound : Inbound) : System W :=
  let before := s.runtime.loop.calls.length
  let loop := { s.runtime.loop with executors := s.lanes }
  let runtime := ({ s.runtime with loop := loop }).step inbound
  { s with
    runtime := runtime
    queue := s.queue ++ (runtime.loop.calls.drop before).filterMap Call.enqueued }

/-- `send_completion`, as far as it is still to be done. -/
def deliver (s : System W) : System W :=
  match s.unsent with
  | none => s
  | some (ticket, outcome) => ({ s with unsent := none }).receive (.sink ticket outcome)

/-- The driver is about to make a request: the schedule says whether the
worker's completion goes first. -/
def yield (schedule : ℕ → Bool) (s : System W) : System W :=
  if schedule s.turns then ({ s with turns := s.turns + 1 }).deliver
  else { s with turns := s.turns + 1 }

/-- `request`: make a request and wait for its reply. There is always room
for it in the command channel, which holds a completion besides at most. -/
def request (schedule : ℕ → Bool) (r : RuntimeRequest) (s : System W) :
    Except (Failure String) RuntimeReply × System W :=
  let s := s.yield schedule
  let port := s.runtime.ports
  let s := s.receive (.request r)
  match s.runtime.loop.replies.find? (fun reply => reply.1 = port) with
  | some (_, reply) => (.ok reply, s)
  | none => (.error (.error "scheduler stopped"), s)

/-- **The worker takes its next action**, once it has sent the completion of
the last one. -/
def work (answer : W → List UInt8 → Except String SchedOutcome × W) (s : System W) : System W :=
  let s := s.deliver
  match s.queue with
  | [] => s
  | request :: queue =>
    let (result, worker) := answer s.worker request.action.payload
    { s with
      queue := queue
      worker := worker
      completed := s.completed ++ [(request.ticket, result)]
      unsent := some (request.ticket, outcomeOf result)
      log := s.log ++ [⟨request.ticket, request.action.payload, result⟩] }

/-- `CompletionLog::wait`. A ticket that the worker does not carry out is
waited for without end. -/
def wait (ticket : Ticket) (s : System W) : Except (Failure String) SchedOutcome × System W :=
  match s.completed.find? (fun known => known.1 = ticket) with
  | none => (.error .endless, s)
  | some (_, result) =>
    (result.mapError .error,
      { s with completed := s.completed.eraseP (fun known => known.1 = ticket) })

/-- The second half of `submit_and_complete`, when the ticket is known. The
driver completes the ticket once more, after the worker or before it. -/
def awaitTicket (answer : W → List UInt8 → Except String SchedOutcome × W) (schedule : ℕ → Bool)
    (ticket : Ticket) (s : System W) : Except (Failure String) SchedOutcome × System W :=
  match (s.work answer).wait ticket with
  | (.error e, s) => (.error e, s)
  | (.ok output, s) =>
    match s.request schedule (.complete ticket .ok) with
    | (.error e, s) => (.error e, s)
    | (.ok (.error e), s) => (.error (.error e), s)
    | (.ok _, s) => (.ok output, s)

/-- `submit_and_complete` -/
def submitAndComplete (answer : W → List UInt8 → Except String SchedOutcome × W)
    (schedule : ℕ → Bool) (session : SessionId) (kind : ActionKind) (payload : List UInt8)
    (s : System W) : Except (Failure String) SchedOutcome × System W :=
  match s.request schedule (.submit session ⟨kind, payload⟩) with
  | (.error e, s) => (.error e, s)
  | (.ok (.submitted ticket _), s) => s.awaitTicket answer schedule ticket
  | (.ok (.error e), s) => (.error (.error e), s)
  | (.ok other, s) => (.error (.error ("unexpected submit reply: " ++ replyText other)), s)

/-- A scheduler that has just been started, with one session, and a worker
that has nothing to do. -/
def opened (w : W) : System W where
  runtime := (Runtime.new {} ⟨fun _ => .accepted, fun _ => false⟩).step (.request .createSession)
  worker := w
  queue := []
  unsent := none
  completed := []
  turns := 0
  log := []

end System

/-! ## The driver -/

/-- **What the driver works with.** -/
structure Driver (W : Type) where
  system : System W
  bridge : ResidencyBridge

section Driver

variable {W : Type} (answer : W → List UInt8 → Except String SchedOutcome × W)
  (schedule : ℕ → Bool) (session : SessionId)

/-- The body of the `for` loop of `step_op`: one expert is reserved, loaded
and published. -/
def loadExpert (layer : UInt64) (expert : UInt32) (d : Driver W) :
    Except (Failure String) Unit × Driver W :=
  match d.bridge.requestLoad session layer.toUInt32 expert with
  | (.error e, bridge) => (.error e, ⟨d.system, bridge⟩)
  | (.ok loadId, bridge) =>
    match d.system.submitAndComplete answer schedule session .io
        (encodeOp opLoad layer expert.toUInt64) with
    | (.error e, system) => (.error e, ⟨system, bridge⟩)
    | (.ok (.needExperts layer experts), system) =>
      (.error (.error ("load action returned "
        ++ (SchedOutcome.needExperts layer experts).toText)), ⟨system, bridge⟩)
    | (.ok (.token _), system) =>
      match loadId with
      | none => (.ok (), ⟨system, bridge⟩)
      | some loadId =>
        match bridge.publish loadId with
        | (.error e, bridge) => (.error e, ⟨system, bridge⟩)
        | (.ok (), bridge) => (.ok (), ⟨system, bridge⟩)

/-- The `for` loop of `step_op`. -/
def loadExperts (layer : UInt64) : List UInt32 → Driver W →
    Except (Failure String) Unit × Driver W
  | [], d => (.ok (), d)
  | expert :: experts, d =>
    match loadExpert answer schedule session layer expert d with
    | (.error e, d) => (.error e, d)
    | (.ok (), d) => loadExperts layer experts d

/-- The action kind of an operation. -/
def opKind (op : UInt8) : Except String ActionKind :=
  if op = opPrefill ∨ op = opDecode then .ok .accelerator
  else if op = opLoad then .ok .io
  else .error ("unknown scheduled Qwen op " ++ toString op)

/-- The part of an iteration of `step_op` in which the action is checked and
submitted. -/
def dispatchOp (payload : List UInt8) (d : Driver W) :
    Except (Failure String) SchedOutcome × Driver W :=
  match payload with
  | [] => (.error .panic, d)
  | op :: _ =>
    match opKind op with
    | .error e => (.error (.error e), d)
    | .ok kind =>
      match d.bridge.checkTarget kind with
      | .error e => (.error (.error e), d)
      | .ok () =>
        let (result, system) := d.system.submitAndComplete answer schedule session kind payload
        (result, ⟨system, d.bridge⟩)

/-- `step_op`: **submit one action until it completes.** The fuel bounds how
often it is submitted. -/
def stepOp : ℕ → List UInt8 → Driver W → Except (Failure String) (Option UInt32) × Driver W
  | 0, _, d => (.error .endless, d)
  | fuel + 1, payload, d =>
    match dispatchOp answer schedule session payload d with
    | (.error e, d) => (.error e, d)
    | (.ok (.token t), d) => (.ok t, d)
    | (.ok (.needExperts layer experts), d) =>
      match loadExperts answer schedule session layer experts d with
      | (.error e, d) => (.error e, d)
      | (.ok (), d) => stepOp fuel payload d

/-- The `for` loop of `run_session_inner` over the prompt. -/
def prefillPrompt (fuel : ℕ) : List UInt32 → ℕ → Driver W →
    Except (Failure String) Unit × Driver W
  | [], _, d => (.ok (), d)
  | token :: tokens, pos, d =>
    match stepOp answer schedule session fuel (encodeOp opPrefill token.toUInt64 (.ofNat pos)) d with
    | (.error e, d) => (.error e, d)
    | (.ok _, d) => prefillPrompt fuel tokens (pos + 1) d

/-- The `for` loop of `run_session_inner` over the new tokens. -/
def decodeTokens (fuel : ℕ) : ℕ → UInt32 → ℕ → Driver W →
    Except (Failure String) (List UInt32) × Driver W
  | 0, _, _, d => (.ok [], d)
  | n + 1, last, pos, d =>
    match stepOp answer schedule session fuel (encodeOp opDecode last.toUInt64 (.ofNat pos)) d with
    | (.error e, d) => (.error e, d)
    | (.ok none, d) => (.error (.error "decode completion had no token"), d)
    | (.ok (some next), d) =>
      match decodeTokens fuel n next (pos + 1) d with
      | (.error e, d) => (.error e, d)
      | (.ok rest, d) => (.ok (next :: rest), d)

/-- `run_session_inner`. The final prompt token is the first decode quantum;
the output is allocated in full before. -/
def runSessionInner (fuel : ℕ) (prompt : Vec 4 UInt32) (maxNew : ℕ) (d : Driver W) :
    Except (Failure String) (List UInt32) × Driver W :=
  match prompt.toList.getLast? with
  | none => (.ok [], d)
  | some last =>
    if maxNew = 0 then (.ok [], d)
    else
      match prefillPrompt answer schedule session fuel prompt.toList.dropLast 0 d with
      | (.error e, d) => (.error e, d)
      | (.ok (), d) =>
        if isizeMax < 4 * maxNew then (.error .panic, d)
        else
          decodeTokens answer schedule session fuel maxNew last (prompt.toList.length - 1) d

end Driver

end Qwen

end Logan
