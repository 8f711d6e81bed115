import Logan.Sched.Core
import Logan.Sched.ResidencyLeases

/-!
# Asynchronous accelerator submissions

An accelerator action references resident expert generations. `Accel` pins
each of them by a residency lease when the action is submitted, keeps the
leases under the ticket, and returns them when the backend reports the
native completion of that ticket. Logical cancellation returns nothing: the
backend may still be reading the generation.

A submission and a completion each work on three state machines, the
bookkeeping, the scheduler core and the residency manager, which other code
drives as well. `AccelSystem` is the three of them together, with two logs
that nothing reads: the operations performed on the manager (`calls`), and
the leases that the manager handed to the other code (`handed`).
-/

namespace Logan

/-- Broad execution-device class. -/
inductive DeviceKind where
  | cpu
  | gpu
  | neural
  | io
  | other
deriving DecidableEq

/-- **A compiler-approved execution choice**: one device and the action
classes it accepts. -/
structure ExecutionTarget where
  device : DeviceId
  kind : DeviceKind
  capabilities : List ActionKind
deriving DecidableEq

/-- The target accepts work of the given kind. -/
def ExecutionTarget.accepts (target : ExecutionTarget) (kind : ActionKind) : Bool :=
  target.capabilities.contains kind

/-- The registered execution targets, one a device. -/
structure DeviceRegistry where
  targets : Table DeviceId ExecutionTarget

/-- The target registered for a device. -/
def DeviceRegistry.get (registry : DeviceRegistry) (device : DeviceId) :
    Option ExecutionTarget :=
  registry.targets.lookup device

/-- **Opaque accelerator work**: a payload and the resident resources it
references. -/
structure AccelAction where
  payload : List UInt8
  references : List ExpertKey
deriving DecidableEq

/-- What the backend reports for one submitted ticket. -/
inductive AccelOutcome where
  | success
  | failed (message : String)
  | cancelled
deriving DecidableEq

/-- The outcome forwarded to the core. -/
def AccelOutcome.forwarded : AccelOutcome → Outcome
  | .success => .ok
  | .failed message => .err message
  | .cancelled => .err "accelerator action cancelled"

/-- Completion event delivered to the scheduler. -/
structure AccelCompletion where
  ticket : Ticket
  outcome : AccelOutcome
deriving DecidableEq

/-- What the driver hands to the backend. -/
structure AccelDispatch where
  ticket : Ticket
  target : ExecutionTarget
  action : AccelAction
deriving DecidableEq

/-- Invalid accelerator contract operations. -/
inductive AccelError where
  | unknownTarget (device : DeviceId)
  | unsupportedTarget (device : DeviceId)
  | notResident (key : ExpertKey)
  | core (error : SchedError)
  /-- A retained lease could not be returned during completion processing. -/
  | release (ticket : Ticket) (error : ResidencyError)
deriving DecidableEq

/-- **The leases retained by each live ticket.** -/
structure Accel where
  inflight : Table Ticket (List Lease)

/-- The bookkeeping, the scheduler core and the residency manager. -/
structure AccelSystem where
  accel : Accel
  core : SchedulerCore
  residency : ResidencyManager
  /-- The operations performed on the manager so far. -/
  calls : List ResidencyOp
  /-- The leases that the manager handed to other code. -/
  handed : List Lease

namespace AccelSystem

/-- Nothing submitted, no session, no pool. -/
def new (budget : Budget) : AccelSystem where
  accel := ⟨∅⟩
  core := .new budget
  residency := .new
  calls := []
  handed := []

/-- `residency.acquire(key, owner)`. -/
def acquire (s : AccelSystem) (key : ExpertKey) (owner : SessionId) :
    Except ResidencyError Lease × AccelSystem :=
  let (result, residency) := s.residency.acquire key owner
  (result, { s with residency := residency, calls := s.calls ++ [.acquire key owner] })

/-- `residency.release(lease)`. -/
def release (s : AccelSystem) (lease : Lease) : Except ResidencyError Unit × AccelSystem :=
  let (result, residency) := s.residency.release lease
  (result, { s with residency := residency, calls := s.calls ++ [.release lease] })

/-- `for lease in leases.drain(..) { let _ = residency.release(lease); }`:
what has been pinned is returned, whatever the manager answers. -/
def rollBack (s : AccelSystem) : List Lease → AccelSystem
  | [] => s
  | lease :: leases => (s.release lease).2.rollBack leases

/-- The loop of `submit` that pins the references, in order; it gives up at
the first that is not resident, and returns what it has pinned so far. -/
def pin (s : AccelSystem) (session : SessionId) :
    List ExpertKey → List Lease → Except AccelError (List Lease) × AccelSystem
  | [], leases => (.ok leases, s)
  | key :: keys, leases =>
    match s.acquire key session with
    | (.ok lease, s) => s.pin session keys (leases ++ [lease])
    | (.error _, s) => (.error (.notResident key), s.rollBack leases)

/-- **Nonblocking submission**: validate the target, pin every referenced
generation, and allocate the core ticket. -/
def submit (s : AccelSystem) (registry : DeviceRegistry) (session : SessionId)
    (target : ExecutionTarget) (action : AccelAction) :
    Except AccelError (Ticket × AccelDispatch) × AccelSystem :=
  match (registry.get target.device).filter (fun registered => registered = target) with
  | none => (.error (.unknownTarget target.device), s)
  | some registered =>
    if registered.accepts .accelerator = false then
      (.error (.unsupportedTarget target.device), s)
    else
      match s.pin session action.references [] with
      | (.error e, s) => (.error e, s)
      | (.ok leases, s) =>
        match s.core.submit session ⟨.accelerator, action.payload⟩ with
        | (.error e, core) => (.error (.core e), { s with core := core }.rollBack leases)
        | (.ok (ticket, _), core) =>
          (.ok (ticket, ⟨ticket, registered, action⟩),
            { s with
              core := core
              accel := ⟨s.accel.inflight.insert ticket leases⟩ })

/-- The loop of `complete` that releases the retained leases; it returns at
the first release that fails. -/
def releaseAll (s : AccelSystem) (ticket : Ticket) :
    List Lease → Except AccelError Unit × AccelSystem
  | [] => (.ok (), s)
  | lease :: leases =>
    match s.release lease with
    | (.error e, s) => (.error (.release ticket e), s)
    | (.ok (), s) => s.releaseAll ticket leases

/-- Forward an outcome into the core's exact-once ticket path. -/
def forward (s : AccelSystem) (completion : AccelCompletion) :
    Except AccelError (List Effect) × AccelSystem :=
  match s.core.complete completion.ticket completion.outcome.forwarded with
  | (.ok effects, core) => (.ok effects, { s with core := core })
  | (.error e, core) => (.error (.core e), { s with core := core })

/-- **Completion processing**: release the ticket's retained generations,
then forward the outcome. A ticket without a record releases nothing. -/
def complete (s : AccelSystem) (completion : AccelCompletion) :
    Except AccelError (List Effect) × AccelSystem :=
  match s.accel.inflight.lookup completion.ticket with
  | none => s.forward completion
  | some leases =>
    let s := { s with accel := ⟨s.accel.inflight.erase completion.ticket⟩ }
    match s.releaseAll completion.ticket leases with
    | (.error e, s) => (.error e, s)
    | (.ok (), s) => s.forward completion

/-- **Logical cancellation**: whether the ticket still awaits its native
completion. Nothing is released. -/
def cancelTicket (s : AccelSystem) (ticket : Ticket) : Bool × AccelSystem :=
  ((s.accel.inflight.lookup ticket).isSome, s)

end AccelSystem

/-! ## One operation at a time -/

/-- One operation on the three machines: the calls on `Accel`, and whatever
other code does to the core and to the manager. -/
inductive AccelOp where
  | submit (registry : DeviceRegistry) (session : SessionId) (target : ExecutionTarget)
    (action : AccelAction)
  | complete (completion : AccelCompletion)
  | cancelTicket (ticket : Ticket)
  | core (op : SimOp)
  | residency (op : ResidencyOp)

/-- Result of one operation. -/
inductive AccelAnswer where
  | submitted (result : Except AccelError (Ticket × AccelDispatch))
  | completed (result : Except AccelError (List Effect))
  | cancelled (awaited : Bool)
  | core (outcome : SimOutcome)
  | residency (outcome : ResidencyOutcome)

namespace AccelSystem

/-- **Apply one operation.** The leases in the manager's answers to other
code are handed to that code. -/
def execute (s : AccelSystem) : AccelOp → AccelAnswer × AccelSystem
  | .submit registry session target action =>
    ((s.submit registry session target action).map .submitted id)
  | .complete completion => ((s.complete completion).map .completed id)
  | .cancelTicket ticket => ((s.cancelTicket ticket).map .cancelled id)
  | .core op => (.core (s.core.execute op).1, { s with core := (s.core.execute op).2 })
  | .residency op =>
    (.residency (s.residency.execute op).1,
      { s with
        residency := (s.residency.execute op).2
        calls := s.calls ++ [op]
        handed := s.handed ++ (s.residency.execute op).1.leases })

/-- **The three machines as one.** -/
def machine : Machine AccelSystem AccelOp AccelAnswer := ⟨execute⟩

/-- Other code releases only leases that were handed to it. -/
def Disciplined (s : AccelSystem) : AccelOp → Prop
  | .residency (.release lease) => lease ∈ s.handed
  | _ => True

instance (s : AccelSystem) (op : AccelOp) : Decidable (Disciplined s op) := by
  unfold Disciplined
  split <;> infer_instance

end AccelSystem

end Logan
