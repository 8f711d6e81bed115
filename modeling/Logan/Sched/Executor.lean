import Logan.Sched.Core
import Logan.Sched.Residency

/-!
# The CPU executor

`CpuExecutor` owns persistent worker threads and a bounded job queue behind
a mutex, with a condition variable for the workers that find it empty. Many
threads act on it at once: the workers, the submitters, whoever cancels and
drains, and the thread that shuts it down. The model interleaves their
steps. A worker's place in `worker_loop` is its `WorkerState`, and one step
takes it to the next point where the others can be seen: it acquires or
releases a lock, reads the flag, tries a channel.

The mutex of the queue is held by a worker from the moment it has locked it
until it has popped a job, returned, or entered the wait set. The other
sections under a lock are single steps. A waiting worker that is notified
leaves the wait set and goes on to lock the queue; a notification that finds
nobody waiting is lost, and a waiting worker may also wake up by itself.

What is outside is as general as it can be: a handler returns any outcome,
after any time, or panics; a completion channel is filled by others, emptied
by its receiver, and closed by it.
-/

namespace Logan

/-- Worker-pool configuration. -/
structure CpuConfig where
  /-- Number of persistent worker threads. -/
  workers : ℕ
  /-- Maximum number of queued (not running) jobs. -/
  queueCapacity : ℕ
deriving DecidableEq

/-- Invalid `CpuConfig` values. -/
inductive ExecutorConfigError where
  | zeroWorkers
  | zeroQueueCapacity
deriving DecidableEq

/-! ## Completion channels -/

/-- **A completion path** back to a scheduler: its bounded command channel,
by number. -/
structure CompletionSink where
  channel : ℕ
deriving DecidableEq

inductive CompletionSendError where
  | full
  | closed
deriving DecidableEq

/-- A bounded channel, as its senders can tell: how many messages it holds,
and whether its receiver is gone. -/
structure Channel where
  capacity : ℕ
  messages : ℕ
  closed : Bool
deriving DecidableEq

/-- `SyncSender::try_send`. -/
def Channel.trySend (c : Channel) : Except CompletionSendError Channel :=
  if c.closed then .error .closed
  else if c.messages < c.capacity then .ok { c with messages := c.messages + 1 }
  else .error .full

/-- The receiver takes a message. -/
def Channel.received (c : Channel) : Channel := { c with messages := c.messages - 1 }

/-- Another sender fills a slot, if there is one. -/
def Channel.sent (c : Channel) : Channel := c.trySend.toOption.getD c

/-- The receiver is dropped. -/
def Channel.hungUp (c : Channel) : Channel := { c with closed := true }

/-! ## Jobs and workers -/

/-- **One unit of engine-owned CPU work.** -/
structure Job where
  ticket : Ticket
  action : Action
  /-- Residency leases retained for the duration of this job. -/
  retained : List Lease
  /-- Runtime completion path; `none` for scheduler-owner-driven jobs. -/
  completion : Option CompletionSink
deriving DecidableEq

/-- A job that finished, or was cancelled before dispatch. -/
structure Completed where
  ticket : Ticket
  outcome : Outcome
  /-- Leases retained by the job, to be released by the scheduler owner. -/
  released : List Lease
deriving DecidableEq

/-- Nonblocking result of a job submission. A refused job is handed back. -/
inductive SubmitOutcome where
  | accepted
  | full (job : Job)
  | closed (job : Job)
deriving DecidableEq

/-- A completion on its way to its sink. -/
structure Report where
  sink : CompletionSink
  ticket : Ticket
  outcome : Outcome
deriving DecidableEq

/-- The report of a job that has a sink. -/
def Job.report (job : Job) (outcome : Outcome) : Option Report :=
  job.completion.map (fun sink => ⟨sink, job.ticket, outcome⟩)

/-- Whether a job leaves a record when it has run: jobs without a sink have
no other completion path, and retained leases must come back. -/
def Job.recorded (job : Job) : Bool :=
  job.completion.isNone || !job.retained.isEmpty

/-- The record of a job that has run. -/
def Job.record (job : Job) (outcome : Outcome) : Completed :=
  ⟨job.ticket, outcome, job.retained⟩

/-- The record of a job that was cancelled before dispatch. -/
def Job.cancelledRecord (job : Job) : Completed :=
  ⟨job.ticket, .err "cancelled before dispatch", job.retained⟩

/-- **Where a worker stands in `worker_loop`**: what it does next. -/
inductive WorkerState where
  /-- Takes the parked reports, at the top of the loop. -/
  | retrying
  /-- Tries a report, for the time after `attempts` failures; then the
  others. They were parked, or it is the report of the worker's own job. -/
  | reporting (parked : Bool) (attempts : ℕ) (report : Report) (others : List Report)
  /-- Has given up on a report, and parks it. -/
  | parking (parked : Bool) (report : Report) (others : List Report)
  /-- Locks the queue. -/
  | locking
  /-- Holds the lock, and pops a job. -/
  | checking
  /-- Holds the lock, has found the queue empty, and reads the flag. -/
  | deciding
  /-- Holds the lock, has read the flag as unset, and enters the wait set. -/
  | committed
  /-- In the wait set, without a notification. -/
  | waiting
  /-- Runs the handler. -/
  | running (job : Job)
  /-- The handler has returned; records the job. -/
  | recording (job : Job) (outcome : Outcome)
  /-- Returned from `worker_loop`. -/
  | exited
  /-- Ended by a panic of the handler. -/
  | panicked
deriving DecidableEq

namespace WorkerState

/-- The worker holds the mutex of the queue. -/
def HoldsLock : WorkerState → Prop
  | checking | deciding | committed => True
  | _ => False

instance : DecidablePred HoldsLock := fun w => by
  unfold HoldsLock
  split <;> infer_instance

/-- The thread has ended. -/
def Gone : WorkerState → Prop
  | exited | panicked => True
  | _ => False

instance : DecidablePred Gone := fun w => by
  unfold Gone
  split <;> infer_instance

/-- What a worker does once it is through with a report: the next one, and
after the last, the queue or the top of the loop. -/
def next (parked : Bool) : List Report → WorkerState
  | [] => if parked then locking else retrying
  | report :: others => reporting parked 0 report others

/-- What a waiting worker does when it is notified. -/
def notified : WorkerState → WorkerState
  | waiting => locking
  | w => w

end WorkerState

/-! ## The state -/

/-- How far `shutdown` has come. -/
inductive ShutdownPhase where
  | running
  /-- The flag is stored. -/
  | flagged
  /-- All waiting workers were notified, and so many workers are joined. -/
  | joining (joined : ℕ)
deriving DecidableEq

/-- **What has happened**, in order; the executor reads none of it. -/
structure ExecutorLog where
  /-- Jobs that were submitted. -/
  submitted : List Job := []
  /-- Jobs that were pushed to the queue. -/
  accepted : List Job := []
  /-- Jobs that were handed back. -/
  refused : List SubmitOutcome := []
  /-- Jobs that were popped and given to the handler, with the worker. -/
  claimed : List (ℕ × Job) := []
  /-- Jobs whose handler has returned. -/
  returned : List (Job × Outcome) := []
  /-- Jobs whose handler has panicked. -/
  lost : List Job := []
  /-- Jobs whose worker is through with recording them. -/
  finished : List (Job × Outcome) := []
  /-- Jobs that were removed from the queue by a cancellation. -/
  cancelled : List Job := []
  /-- Records that were drained. -/
  drained : List Completed := []
  /-- Reports that a channel has taken. -/
  delivered : List Report := []
  /-- Reports whose channel was closed. -/
  dropped : List Report := []
deriving DecidableEq

/-- **The worker pool, the threads around it and the channels.** -/
structure CpuExecutor where
  queueCapacity : ℕ
  queue : List Job
  shuttingDown : Bool
  completed : List Completed
  pendingSink : List Report
  workers : List WorkerState
  /-- Jobs whose submitter has read the flag as unset, and locks the queue
  next. -/
  offered : List Job
  /-- Calls of `notify_one` that submitters have yet to make. -/
  notices : ℕ
  shutdown : ShutdownPhase
  channels : ℕ → Channel
  log : ExecutorLog

/-- One step of one of the threads, or of the other ends of the channels. -/
inductive ExecutorEvent where
  /-- `try_submit_job` is called, and reads the flag. -/
  | submit (job : Job)
  /-- A submitter locks the queue. -/
  | enqueue (submitter : ℕ)
  /-- A submitter calls `notify_one`; if anybody waits, this worker is
  chosen. -/
  | notifyOne (worker : ℕ)
  | cancelTicket (ticket : Ticket)
  | drainCompleted
  /-- `shutdown` stores the flag. -/
  | storeFlag
  | notifyAll
  /-- `shutdown` joins one more worker. -/
  | join
  /-- A worker goes on. -/
  | work (worker : ℕ)
  /-- The handler returns to a worker. -/
  | finish (worker : ℕ) (outcome : Outcome)
  /-- The handler panics. -/
  | panic (worker : ℕ)
  /-- A waiting worker wakes up by itself. -/
  | wakeUp (worker : ℕ)
  /-- The receiver takes a message. -/
  | receive (channel : ℕ)
  /-- Another sender fills a slot. -/
  | send (channel : ℕ)
  /-- The receiver is dropped. -/
  | hangUp (channel : ℕ)
deriving DecidableEq

namespace CpuExecutor

/-- The executor with all its workers spawned. -/
def spawned (config : CpuConfig) (channels : ℕ → Channel) : CpuExecutor where
  queueCapacity := config.queueCapacity
  queue := []
  shuttingDown := false
  completed := []
  pendingSink := []
  workers := List.replicate config.workers .retrying
  offered := []
  notices := 0
  shutdown := .running
  channels := channels
  log := {}

/-- Check the configuration, and spawn the workers. -/
def new (config : CpuConfig) (channels : ℕ → Channel) :
    Except ExecutorConfigError CpuExecutor :=
  if config.workers = 0 then .error .zeroWorkers
  else if config.queueCapacity = 0 then .error .zeroQueueCapacity
  else .ok (spawned config channels)

/-- Nobody holds the mutex of the queue. -/
def Unlocked (s : CpuExecutor) : Prop := ∀ w ∈ s.workers, ¬ w.HoldsLock

instance (s : CpuExecutor) : Decidable s.Unlocked :=
  inferInstanceAs (Decidable (∀ w ∈ s.workers, ¬ w.HoldsLock))

/-! ## The submitters and the owner -/

variable (s : CpuExecutor)

/-- `try_submit_job`, until it has read the flag. -/
def submit (job : Job) : CpuExecutor :=
  if s.shuttingDown then
    { s with log := { s.log with
        submitted := s.log.submitted ++ [job]
        refused := s.log.refused ++ [.closed job] } }
  else
    { s with
      offered := s.offered ++ [job]
      log := { s.log with submitted := s.log.submitted ++ [job] } }

/-- The rest of `try_submit_job`, until it has released the lock. -/
def enqueue (submitter : ℕ) : CpuExecutor :=
  match s.offered[submitter]? with
  | none => s
  | some job =>
    if ¬ s.Unlocked then s
    else if s.queueCapacity ≤ s.queue.length then
      { s with
        offered := s.offered.eraseIdx submitter
        log := { s.log with refused := s.log.refused ++ [.full job] } }
    else
      { s with
        offered := s.offered.eraseIdx submitter
        queue := s.queue ++ [job]
        notices := s.notices + 1
        log := { s.log with accepted := s.log.accepted ++ [job] } }

/-- `notify_one`. -/
def notifyOne (worker : ℕ) : CpuExecutor :=
  if s.notices = 0 then s
  else if .waiting ∉ s.workers then { s with notices := s.notices - 1 }
  else if s.workers[worker]? = some .waiting then
    { s with notices := s.notices - 1, workers := s.workers.set worker .locking }
  else s

/-- **Cancel one queued job** and return its retained leases immediately. -/
def cancelTicket (ticket : Ticket) : CpuExecutor :=
  if ¬ s.Unlocked then s
  else
    match s.queue.findIdx? (fun job => job.ticket = ticket) with
    | none => s
    | some index =>
      match s.queue[index]? with
      | none => s
      | some job =>
        { s with
          queue := s.queue.eraseIdx index
          completed :=
            if job.retained.isEmpty then s.completed else s.completed ++ [job.cancelledRecord]
          log := { s.log with cancelled := s.log.cancelled ++ [job] } }

/-- Drain every finished job in completion order. -/
def drainCompleted : CpuExecutor :=
  { s with
    completed := []
    log := { s.log with drained := s.log.drained ++ s.completed } }

/-- `shutdown` stores the flag. -/
def storeFlag : CpuExecutor :=
  match s.shutdown with
  | .running => { s with shuttingDown := true, shutdown := .flagged }
  | .flagged | .joining _ => s

/-- `shutdown` notifies whoever is waiting. -/
def notifyAll : CpuExecutor :=
  match s.shutdown with
  | .flagged => { s with workers := s.workers.map .notified, shutdown := .joining 0 }
  | .running | .joining _ => s

/-- `shutdown` joins the next worker, once it is gone. -/
def join : CpuExecutor :=
  match s.shutdown with
  | .joining joined =>
    match s.workers[joined]? with
    | some w => if w.Gone then { s with shutdown := .joining (joined + 1) } else s
    | none => s
  | .running | .flagged => s

/-! ## The workers -/

/-- **The next step of a worker**: where it stands then, and what it has
done. A worker that waits for something else stays where it is. -/
def act (worker : ℕ) : WorkerState → WorkerState × CpuExecutor
  -- `retry_parked` takes all parked reports at once
  | .retrying => (.next true s.pendingSink, { s with pendingSink := [] })
  -- `report_to_sink`: eight more attempts, then the report is parked
  | .reporting parked attempts report others =>
    match (s.channels report.sink.channel).trySend with
    | .ok channel =>
      (.next parked others,
        { s with
          channels := Function.update s.channels report.sink.channel channel
          log := { s.log with delivered := s.log.delivered ++ [report] } })
    | .error .full =>
      if attempts < 8 then (.reporting parked (attempts + 1) report others, s)
      else (.parking parked report others, s)
    | .error .closed =>
      (.next parked others, { s with log := { s.log with dropped := s.log.dropped ++ [report] } })
  | .parking parked report others =>
    (.next parked others, { s with pendingSink := s.pendingSink ++ [report] })
  -- the inner loop, up to the job it breaks with
  | .locking => if s.Unlocked then (.checking, s) else (.locking, s)
  | .checking =>
    match s.queue with
    | [] => (.deciding, s)
    | job :: queue =>
      (.running job,
        { s with
          queue := queue
          log := { s.log with claimed := s.log.claimed ++ [(worker, job)] } })
  | .deciding => if s.shuttingDown then (.exited, s) else (.committed, s)
  | .committed => (.waiting, s)
  -- what follows the handler
  | .recording job outcome =>
    (.next false (job.report outcome).toList,
      { s with
        completed :=
          if job.recorded then s.completed ++ [job.record outcome] else s.completed
        log := { s.log with finished := s.log.finished ++ [(job, outcome)] } })
  | .waiting => (.waiting, s)
  | .running job => (.running job, s)
  | .exited => (.exited, s)
  | .panicked => (.panicked, s)

/-- A worker goes on. -/
def work (worker : ℕ) : CpuExecutor :=
  match s.workers[worker]? with
  | none => s
  | some w =>
    let (w', t) := s.act worker w
    { t with workers := t.workers.set worker w' }

/-- The handler returns. -/
def finish (worker : ℕ) (outcome : Outcome) : CpuExecutor :=
  match s.workers[worker]? with
  | some (.running job) =>
    { s with
      workers := s.workers.set worker (.recording job outcome)
      log := { s.log with returned := s.log.returned ++ [(job, outcome)] } }
  | _ => s

/-- The handler panics: the job is dropped with its leases. -/
def panic (worker : ℕ) : CpuExecutor :=
  match s.workers[worker]? with
  | some (.running job) =>
    { s with
      workers := s.workers.set worker .panicked
      log := { s.log with lost := s.log.lost ++ [job] } }
  | _ => s

/-- A waiting worker wakes up by itself. -/
def wakeUp (worker : ℕ) : CpuExecutor :=
  if s.workers[worker]? = some .waiting then
    { s with workers := s.workers.set worker .locking }
  else s

/-! ## The other ends of the channels -/

/-- A channel changes. -/
def updateChannel (channel : ℕ) (f : Channel → Channel) : CpuExecutor :=
  { s with channels := Function.update s.channels channel (f (s.channels channel)) }

/-- **One step.** An event that is not possible changes nothing. -/
def step : ExecutorEvent → CpuExecutor
  | .submit job => s.submit job
  | .enqueue submitter => s.enqueue submitter
  | .notifyOne worker => s.notifyOne worker
  | .cancelTicket ticket => s.cancelTicket ticket
  | .drainCompleted => s.drainCompleted
  | .storeFlag => s.storeFlag
  | .notifyAll => s.notifyAll
  | .join => s.join
  | .work worker => s.work worker
  | .finish worker outcome => s.finish worker outcome
  | .panic worker => s.panic worker
  | .wakeUp worker => s.wakeUp worker
  | .receive channel => s.updateChannel channel .received
  | .send channel => s.updateChannel channel .sent
  | .hangUp channel => s.updateChannel channel .hungUp

/-- **All interleavings**: the executor as a machine reading events. -/
def machine : Machine CpuExecutor ExecutorEvent Unit := ⟨fun s event => ((), s.step event)⟩

end CpuExecutor

end Logan
