import Logan.State.Snapshot
import Logan.Util.Machine

/-!
# State transactions

A `TransactionManager` hands out checkpoints of a causal state, and takes
them back: a rollback restores the captured state, and a commit accepts the
live one. Both move the manager to its next generation, and so does a
cancellation, which forgets all checkpoints.

The checkpoints are plain values, which can be kept and presented again, to
any manager. Here all managers of a process form one system, in which they
are created one after the other and operated on in any order.
-/

namespace Logan

/-- **A checkpoint**, as its holder has it. -/
structure TransactionCheckpoint where
  managerId : UInt64
  generation : UInt64
  transactionId : UInt64
  schemaId : StateSchemaId
deriving DecidableEq

inductive TransactionResult where
  | committed
  | rolledBack
  | staleCheckpoint
  | wrongSession
  | cancelled
deriving DecidableEq

/-- A checkpoint, with the state captured for it. -/
structure TransactionInfo where
  checkpoint : TransactionCheckpoint
  state : CausalState
deriving DecidableEq

structure TransactionManager where
  managerId : UInt64
  schemaId : StateSchemaId
  currentGeneration : UInt64
  nextTransactionId : UInt64
  active : List TransactionInfo
deriving DecidableEq

namespace TransactionManager

/-- A new manager, of the number that has been drawn for it. -/
def new (number : UInt64) (schemaId : StateSchemaId) : TransactionManager where
  managerId := max number 1
  schemaId := schemaId
  currentGeneration := 0
  nextTransactionId := 1
  active := []

variable (m : TransactionManager)

/-- The checkpoint that is handed out next. -/
def nextCheckpoint : TransactionCheckpoint where
  managerId := m.managerId
  generation := m.currentGeneration
  transactionId := m.nextTransactionId
  schemaId := m.schemaId

/-- **`begin`** -/
def begin (currentState : CausalState) :
    TransactionCheckpoint × TransactionManager :=
  (m.nextCheckpoint,
    { m with
      nextTransactionId := max (m.nextTransactionId + 1) 1
      active := m.active ++ [{ checkpoint := m.nextCheckpoint, state := currentState }] })

/-- The place of the checkpoint among the active ones. -/
def validate (checkpoint : TransactionCheckpoint) :
    Except TransactionResult ℕ :=
  if checkpoint.managerId ≠ m.managerId ∨ checkpoint.schemaId ≠ m.schemaId then
    .error .wrongSession
  else if checkpoint.generation ≠ m.currentGeneration then .error .staleCheckpoint
  else match m.active.findIdx? (fun info => info.checkpoint = checkpoint) with
    | some index => .ok index
    | none => .error .staleCheckpoint

/-- The next generation, in which no checkpoint is active. -/
def advanceGeneration : TransactionManager :=
  { m with currentGeneration := m.currentGeneration + 1, active := [] }

/-- The manager without an active checkpoint. -/
def removeActive (index : ℕ) : TransactionManager :=
  { m with active := m.active.eraseIdx index }

/-- **`commit`** -/
def commit (checkpoint : TransactionCheckpoint) :
    TransactionResult × TransactionManager :=
  match m.validate checkpoint with
  | .ok index => (.committed, (m.removeActive index).advanceGeneration)
  | .error result => (result, m)

/-- The captured state: `self.active[index].state`. -/
def captured (index : ℕ) (currentState : CausalState) : CausalState :=
  match m.active[index]? with
  | some info => info.state
  | none => currentState

/-- **`rollback`**, with the live state before and after. -/
def rollback (checkpoint : TransactionCheckpoint)
    (currentState : CausalState) : TransactionResult × CausalState × TransactionManager :=
  match m.validate checkpoint with
  | .ok index =>
    (.rolledBack, m.captured index currentState, (m.removeActive index).advanceGeneration)
  | .error result => (result, currentState, m)

/-- **`cancel`** -/
def cancel (m : TransactionManager) : TransactionResult × TransactionManager :=
  (.cancelled, { m with active := [], currentGeneration := m.currentGeneration + 1 })

end TransactionManager

/-- What is asked of a manager. `retain_prefix` is a rollback. -/
inductive ManagerOp where
  | begin (currentState : CausalState)
  | commit (checkpoint : TransactionCheckpoint)
  | rollback (checkpoint : TransactionCheckpoint) (currentState : CausalState)
  | cancel
deriving DecidableEq

inductive TransactionAnswer where
  | created
  | issued (checkpoint : TransactionCheckpoint)
  | finished (result : TransactionResult)
  /-- The result of a rollback, and the live state after it. -/
  | restored (result : TransactionResult) (state : CausalState)
  /-- There is no such manager. -/
  | absent
deriving DecidableEq

/-- An operation of a manager. -/
def TransactionManager.operate (m : TransactionManager) :
    ManagerOp → TransactionAnswer × TransactionManager
  | .begin state => (.issued (m.begin state).1, (m.begin state).2)
  | .commit cp => (.finished (m.commit cp).1, (m.commit cp).2)
  | .rollback cp state =>
    (.restored (m.rollback cp state).1 (m.rollback cp state).2.1, (m.rollback cp state).2.2)
  | .cancel => (.finished m.cancel.1, m.cancel.2)

/-! ## All managers of a process -/

/-- The managers that have been created, in order, and the number that the
next is to draw: `NEXT_MANAGER_ID`. -/
structure TransactionManagers where
  managers : List TransactionManager
  nextManagerId : UInt64

inductive TransactionOp where
  | create (schemaId : StateSchemaId)
  /-- An operation of the manager at this place. -/
  | on (i : ℕ) (op : ManagerOp)
deriving DecidableEq

namespace TransactionManagers

/-- A process starts without managers. -/
def initial : TransactionManagers := ⟨[], 1⟩

/-- A manager is created with the number that the counter had. -/
def create (S : TransactionManagers) (schemaId : StateSchemaId) : TransactionManagers where
  managers := S.managers ++ [TransactionManager.new S.nextManagerId schemaId]
  nextManagerId := S.nextManagerId + 1

/-- The system with another manager in place of one. -/
def put (S : TransactionManagers) (i : ℕ) (m : TransactionManager) : TransactionManagers :=
  { S with managers := S.managers.set i m }

/-- **One operation.** -/
def step (S : TransactionManagers) : TransactionOp → TransactionAnswer × TransactionManagers
  | .create schemaId => (.created, S.create schemaId)
  | .on i op =>
    match S.managers[i]? with
    | some m => ((m.operate op).1, S.put i (m.operate op).2)
    | none => (.absent, S)

/-- The system of all managers. -/
def machine : Machine TransactionManagers TransactionOp TransactionAnswer := ⟨step⟩

end TransactionManagers

/-- The checkpoint that is presented. -/
def ManagerOp.presents : ManagerOp → Option TransactionCheckpoint
  | commit cp => some cp
  | rollback cp _ => some cp
  | _ => none

/-- A checkpoint has taken effect. -/
def TransactionAnswer.TakesEffect : TransactionAnswer → Prop
  | finished .committed => True
  | restored .rolledBack _ => True
  | _ => False

/-- A checkpoint has taken effect, or there has been a cancellation. -/
def TransactionAnswer.EndsGeneration : TransactionAnswer → Prop
  | finished .committed => True
  | finished .cancelled => True
  | restored .rolledBack _ => True
  | _ => False

end Logan
