import Logan.Util.Machine
import Logan.Util.Memory

/-!
# The staging arena

The bytes of the experts that the next token is predicted to want are read
ahead of it into a **staging arena**: two rows of slots per layer, chosen by
the parity of the token, so that a token takes its experts from one row while
the other is filled for the token after it. A slot carries the expert it was
claimed for, the *tag* of the request and the token it was claimed for, and
the event of the load submitted into it; whether that load is over is asked
of the device, by probing the slot.

The operations are those of `hybrid_stage.rs`, with the probe of the device
as a parameter. `StageArena.machine` runs them one after another, the answers
of the device changing from one call to the next as they like.

The generations count in `u64`, and saturate; the parity of `t + 1` is the
same in `ℕ` and in wrapping arithmetic.
-/

namespace Logan

namespace Stage

/-- The mark of an available slot: `u32::MAX`, which no checkpoint can
address. -/
def free : UInt32 := 0xffffffff

/-- **Which generation the bytes of a slot belong to.** -/
structure SlotTag where
  requestGeneration : ℕ
  tokenGeneration : ℕ
  deriving DecidableEq

/-- One expert slot inside a staging row. -/
structure StageSlot where
  /-- The expert whose bytes are in this slot, or `free`. -/
  expert : UInt32
  tag : SlotTag
  /-- The event of the load submitted into this slot; `0` if none was. -/
  event : ℤ
  consumed : Bool
  deriving DecidableEq

/-- What a staged slot is worth: nothing if no load was submitted, and
otherwise whether the load is over – a slot that cannot be probed has no
transfer to wait for. -/
def classifyStaged (event : ℤ) (complete : Option Bool) : Option Bool :=
  if event ≤ 0 then none else some (complete.getD true)

/-- What a lookup found for one route expert. -/
inductive StagedTake where
  | hit (slot : ℤ)
  | late (slot : ℤ) (event : ℤ)
  | miss
  deriving DecidableEq

/-- The slot whose bytes a lookup hands out, at once or after a wait. -/
def StagedTake.slot? : StagedTake → Option ℤ
  | .hit slot => some slot
  | .late slot _ => some slot
  | .miss => none

/-- **A staging row**: as many device slots as there are candidates, each
with its entry. -/
structure StageLayer (candidates : ℕ) where
  slots : Fin candidates → ℤ
  stage : Fin candidates → StageSlot

namespace StageLayer

variable {candidates : ℕ} (row : StageLayer candidates)

/-- A slot is one expert block, with no offset inside its buffer. -/
def baseOffset (_ : StageLayer candidates) : ℕ := 0

/-- The first entry with a property. -/
def position (p : StageSlot → Bool) : Option (Fin candidates) :=
  (List.finRange candidates).find? fun i => p (row.stage i)

/-- The entry of the expert under the tag. -/
def find (expert : UInt32) (tag : SlotTag) : Option (Fin candidates) :=
  row.position fun e => e.expert = expert ∧ e.tag = tag

/-- **A slot to load into**: the one that is this expert's under the tag, or
an empty one. -/
def claim (expert : UInt32) (tag : SlotTag) : Option (Fin candidates) :=
  match row.find expert tag with
  | some index => some index
  | none => row.position fun e => e.expert = free

/-- Whether the row holds the expert under any tag. -/
def holds (expert : UInt32) : Bool := (row.position fun e => e.expert = expert).isSome

/-- Writes the entry of a slot. -/
def put (index : Fin candidates) (e : StageSlot) : StageLayer candidates :=
  { row with stage := Function.update row.stage index e }

/-- Rewrites every entry, knowing the device slot it is of. -/
def mapStage (f : ℤ → StageSlot → StageSlot) : StageLayer candidates :=
  { row with stage := fun i => f (row.slots i) (row.stage i) }

/-- An entry that is released: available, without a load. -/
def released (e : StageSlot) : StageSlot :=
  { e with expert := free, event := 0, consumed := false }

/-- Frees every slot of the row. -/
def releaseAll : StageLayer candidates := row.mapStage fun _ e => released e

end StageLayer

/-- **The staging arena**: two rows per layer, the row of a layer and a
parity at `layer * 2 + parity`. Of the statistics it keeps the two that the
operations below count. -/
structure StageArena (candidates : ℕ) where
  rows : List (StageLayer candidates)
  layerCount : ℕ
  stride : ℕ
  requestGeneration : ℕ
  tokenGeneration : ℕ
  enabled : Bool
  staleRejected : ℕ
  unplaced : ℕ

namespace StageArena

variable {candidates : ℕ}

/-- The arena as it is built: the given device slots, every one of them
available. -/
def built (layers stride : ℕ) (slots : ℕ → Fin candidates → ℤ) : StageArena candidates where
  rows := (List.range (layers * 2)).map fun index =>
    { slots := slots index
      stage := fun _ => { expert := free, tag := ⟨0, 0⟩, event := 0, consumed := false } }
  layerCount := layers
  stride := stride
  requestGeneration := 0
  tokenGeneration := 0
  enabled := true
  staleRejected := 0
  unplaced := 0

variable (s : StageArena candidates)

/-- The index of the row of a layer and a parity. -/
def rowIndex (layer parity : ℕ) : Option ℕ :=
  if s.layerCount ≤ layer then none else some (layer * 2 + parity)

/-- The row of a layer and a parity, with its index. -/
def rowAt (layer parity : ℕ) : Option (ℕ × StageLayer candidates) := do
  let index ← s.rowIndex layer parity
  let row ← s.rows[index]?
  pure (index, row)

/-- Rewrites the entry of a slot. -/
def put (index : ℕ) (i : Fin candidates) (e : StageSlot) : StageArena candidates :=
  { s with rows := s.rows.modify index fun row => row.put i e }

/-- The tag of the generation this token consumes. -/
def consumeTag : SlotTag := ⟨s.requestGeneration, s.tokenGeneration⟩

/-- The tag of the generation that staging now fills: the next token. -/
def stageTag : SlotTag := ⟨s.requestGeneration, saturatingAdd u64Max s.tokenGeneration 1⟩

/-- The parity of the rows this token consumes. -/
def consumeParity : ℕ := s.tokenGeneration % 2

/-- The parity of the rows that are filled for the next token. -/
def stageParity : ℕ := (s.tokenGeneration + 1) % 2

/-- **A new request**: every slot is released, and the token generation
starts over. -/
def beginRequest : StageArena candidates :=
  let requestGeneration := saturatingAdd u64Max s.requestGeneration 1
  { s with
    requestGeneration
    tokenGeneration := 0
    rows := s.rows.map fun row => row.releaseAll.mapStage fun _ e =>
      if e.expert = free then { e with tag := ⟨requestGeneration, 0⟩ } else e }

variable (probe : ℤ → Option Bool)

/-- What the next token does to an entry of the rows that the last one
consumed: it is released, unless a load into it is still outstanding. -/
def expire (slot : ℤ) (e : StageSlot) : StageSlot :=
  if e.expert = free then e
  else if 0 < e.event ∧ probe slot = some false then e
  else StageLayer.released e

/-- **The next token**: the rows filled for it become the rows it consumes,
and those just consumed are released. -/
def beginToken : StageArena candidates :=
  let tokenGeneration := saturatingAdd u64Max s.tokenGeneration 1
  { s with
    tokenGeneration
    rows := s.rows.mapIdx fun index row =>
      -- the rows of the stale parity, of the layers there are
      if index % 2 = (tokenGeneration + 1) % 2 ∧ index / 2 < s.layerCount then
        row.mapStage (expire probe)
      else row }

/-- **Looks up a route expert for the current token**, in the rows that this
token consumes only. -/
def lookup (layer : ℕ) (expert : UInt32) :
    Option StagedTake × StageArena candidates :=
  if ¬ s.enabled then (none, s) else
  match s.rowAt layer s.consumeParity with
  | none => (none, s)
  | some (_, row) =>
    match row.find expert s.consumeTag with
    | some i =>
      match classifyStaged (row.stage i).event (probe (row.slots i)) with
      | some true => (some (.hit (row.slots i)), s)
      | some false => (some (.late (row.slots i) (row.stage i).event), s)
      | none => (some .miss, { s with staleRejected := s.staleRejected + 1 })
    | none =>
      -- held under another generation in this parity: counted, and a miss
      if row.holds expert then (some .miss, { s with staleRejected := s.staleRejected + 1 })
      else (some .miss, s)

/-- **Claims a slot of this token** to load an expert into on demand. -/
def claimDemand (layer : ℕ) (expert : UInt32) : Option (ℤ × ℕ) × StageArena candidates :=
  if ¬ s.enabled then (none, s) else
  match s.rowAt layer s.consumeParity with
  | none => (none, s)
  | some (index, row) =>
    match row.claim expert s.consumeTag with
    | none => (none, s)
    | some i =>
      (some (row.slots i, row.baseOffset),
        s.put index i { expert, tag := s.consumeTag, event := 0, consumed := false })

/-- **Records the event of a load** submitted into a slot claimed for the
next token. -/
def setEvent (layer : ℕ) (expert : UInt32) (event : ℤ) : StageArena candidates :=
  match s.rowAt layer s.stageParity with
  | none => s
  | some (index, row) =>
    match row.find expert s.stageTag with
    | none => s
    | some i => s.put index i { row.stage i with event }

/-- **Marks a route expert consumed** on this token. -/
def consume (layer : ℕ) (expert : UInt32) : Bool × StageArena candidates :=
  match s.rowAt layer s.consumeParity with
  | none => (false, s)
  | some (index, row) =>
    match row.find expert s.consumeTag with
    | some i => (true, s.put index i { row.stage i with consumed := true })
    | none => (false, s)

/-- **Claims a slot of the next token** to stage an expert in; the flag tells
a slot to load into from one that this expert has already been staged in. -/
def claimStage (layer : ℕ) (expert : UInt32) :
    Option (ℤ × ℕ × Bool) × StageArena candidates :=
  if ¬ s.enabled then (none, s) else
  match s.rowAt layer s.stageParity with
  | none => (none, s)
  | some (index, row) =>
    match row.find expert s.stageTag with
    | some i => (some (row.slots i, row.baseOffset, false), s)
    | none =>
      match row.claim expert s.stageTag with
      | none => (none, { s with unplaced := s.unplaced + 1 })
      | some i =>
        (some (row.slots i, row.baseOffset, true),
          s.put index i { expert, tag := s.stageTag, event := 0, consumed := false })

/-! ## Runs -/

/-- A call of the arena. -/
inductive Op where
  | beginRequest
  | beginToken
  | claimStage (layer : ℕ) (expert : UInt32)
  | claimDemand (layer : ℕ) (expert : UInt32)
  | setEvent (layer : ℕ) (expert : UInt32) (event : ℤ)
  | consume (layer : ℕ) (expert : UInt32)
  | lookup (layer : ℕ) (expert : UInt32)
  deriving DecidableEq

/-- The answer to a call. -/
inductive Reply where
  | done
  | staged (slot : Option (ℤ × ℕ × Bool))
  | demanded (slot : Option (ℤ × ℕ))
  | consumed (found : Bool)
  | taken (take : Option StagedTake)
  deriving DecidableEq

/-- One call, with what the device answers to probes during it. -/
def call : Op → Reply × StageArena candidates
  | .beginRequest => (.done, s.beginRequest)
  | .beginToken => (.done, s.beginToken probe)
  | .claimStage layer expert => let (slot, s') := s.claimStage layer expert; (.staged slot, s')
  | .claimDemand layer expert =>
    let (slot, s') := s.claimDemand layer expert; (.demanded slot, s')
  | .setEvent layer expert event => (.done, s.setEvent layer expert event)
  | .consume layer expert => let (found, s') := s.consume layer expert; (.consumed found, s')
  | .lookup layer expert => let (take, s') := s.lookup probe layer expert; (.taken take, s')

/-- **The arena as a machine**: it reads calls, with the answers of the
device during each of them. -/
def machine (candidates : ℕ) :
    Machine (StageArena candidates) ((ℤ → Option Bool) × Op) Reply where
  step s i := s.call i.1 i.2

end StageArena

end Stage

end Logan
