import Logan.Util.Table
import Logan.Util.Memory
import Logan.Util.Lru

/-!
# The expert store

`ExpertStore` is the engine's cache of experts, by layer and expert number.
The entries are nodes in a slab, chained by index into a list from the most
to the least recently used; a map finds the node of a key. An entry that is
taken leaves a hole in the slab, and an entry that is evicted leaves its
place to the new one.

A store from `new_layered` is partitioned: it counts the entries of every
layer, and when a layer is full, walks back from the tail to find the least
recently used entry *of that layer*.

Wherever the code could panic – an index out of bounds, an `unwrap` of a
hole – the model does. A slab that cannot grow any more is a panic, too:
a vector has at most `isize::MAX` bytes, so never more elements than that.
The walk from the tail is given a bound on its steps, and reports if it
reaches it.
-/

namespace Logan

/-- A layer, and an expert of it. -/
abbrev StoreKey : Type := UInt32 × UInt32

/-- **How an operation can fail** to return. -/
inductive ExpertPanic where
  | indexOutOfBounds
  | unwrapNone
  /-- "expert store map/slab mismatch" -/
  | mapSlabMismatch
  /-- `Vec::push` on a vector that cannot grow. -/
  | capacityOverflow
  /-- A walk that does not end. -/
  | endless
deriving DecidableEq

/-- An entry, and its neighbours in the list. -/
structure Node (V : Type) where
  key : StoreKey
  value : V
  prev : Option ℕ
  next : Option ℕ
deriving DecidableEq

/-- **O(1) LRU keyed by (layer, expert).** -/
structure ExpertStore (V : Type) where
  map : Table StoreKey ℕ
  slab : List (Option (Node V))
  /-- Most recently used. -/
  head : Option ℕ
  /-- Least recently used. -/
  tail : Option ℕ
  cap : ℕ
  /-- Optional per-layer capacity. -/
  layerCap : Option ℕ
  layerCounts : Table UInt32 ℕ
  hits : UInt64
  misses : UInt64
  evictions : UInt64

namespace ExpertStore

variable {V : Type}

/-- `new` -/
def new (cap : ℕ) : ExpertStore V where
  map := ∅
  slab := []
  head := none
  tail := none
  cap := max cap 1
  layerCap := none
  layerCounts := ∅
  hits := 0
  misses := 0
  evictions := 0

/-- **Layer-partitioned LRU.** Each layer owns `perLayerCap` entries; the
capacity is their sum, or `usize::MAX`. -/
def newLayered (layers perLayerCap : ℕ) : ExpertStore V where
  map := ∅
  slab := []
  head := none
  tail := none
  cap := min (max layers 1 * max perLayerCap 1) usizeMax
  layerCap := some (max perLayerCap 1)
  layerCounts := ∅
  hits := 0
  misses := 0
  evictions := 0

variable (s : ExpertStore V)

def capacity : ℕ := s.cap

def perLayerCapacity : Option ℕ := s.layerCap

def len : ℕ := s.map.keys.length

def isEmpty : Bool := s.len = 0

/-! ## The slab and the list -/

/-- `self.slab[idx].as_ref().unwrap()` -/
def node (idx : ℕ) : Except ExpertPanic (Node V) :=
  match s.slab[idx]? with
  | some (some n) => .ok n
  | some none => .error .unwrapNone
  | none => .error .indexOutOfBounds

/-- `self.slab[idx].as_mut().unwrap()`, and what is written through it. -/
def modify (idx : ℕ) (f : Node V → Node V) :
    Except ExpertPanic (ExpertStore V) := do
  let n ← s.node idx
  return { s with slab := s.slab.set idx (some (f n)) }

/-- Write what follows a node, or the head of the list. -/
def setNext (idx : Option ℕ) (next : Option ℕ) :
    Except ExpertPanic (ExpertStore V) :=
  match idx with
  | some p => s.modify p (fun n => { n with next := next })
  | none => .ok { s with head := next }

/-- Write what precedes a node, or the tail of the list. -/
def setPrev (idx : Option ℕ) (prev : Option ℕ) :
    Except ExpertPanic (ExpertStore V) :=
  match idx with
  | some nx => s.modify nx (fun n => { n with prev := prev })
  | none => .ok { s with tail := prev }

/-- Take a node out of the list. -/
def unlink (idx : ℕ) : Except ExpertPanic (ExpertStore V) := do
  let n ← s.node idx
  let s ← s.setNext n.prev n.next
  s.setPrev n.next n.prev

/-- Put a node in front. -/
def pushFront (idx : ℕ) : Except ExpertPanic (ExpertStore V) := do
  let head := s.head
  let s ← s.modify idx (fun n => { n with prev := none, next := head })
  let s ← s.setPrev head (some idx)
  return { s with head := some idx }

/-- One entry of a layer less, if layers are counted. -/
def countDown (layer : UInt32) : ExpertStore V :=
  if s.layerCap.isSome then
    { s with layerCounts := s.layerCounts.modify layer (fun count => count - 1) }
  else s

/-- One entry of a layer more, if layers are counted. -/
def countUp (layer : UInt32) : ExpertStore V :=
  if s.layerCap.isSome then
    { s with
      layerCounts := s.layerCounts.insert layer ((s.layerCounts.lookup layer).getD 0 + 1) }
  else s

/-! ## The operations -/

variable (key : StoreKey)

/-- **Get a cached expert**, promoting it to most recently used. -/
def get : Except ExpertPanic (Option V × ExpertStore V) :=
  match s.map.lookup key with
  | none => .ok (none, s)
  | some idx => do
    let s := { s with hits := s.hits + 1 }
    let s ← s.unlink idx
    let s ← s.pushFront idx
    let n ← s.node idx
    return (some n.value, s)

/-- Look up without counting a hit or promoting. -/
def peek : Except ExpertPanic (Option V) :=
  match s.map.lookup key with
  | none => .ok none
  | some idx => do
    let n ← s.node idx
    return some n.value

/-- Promote a resident expert without counting a cache hit. -/
def promoteIfPresent :
    Except ExpertPanic (Bool × ExpertStore V) :=
  match s.map.lookup key with
  | none => .ok (false, s)
  | some idx => do
    let s ← s.unlink idx
    let s ← s.pushFront idx
    return (true, s)

/-- Remove a resident value without releasing its underlying slot. -/
def take : Except ExpertPanic (Option V × ExpertStore V) :=
  match s.map.lookup key with
  | none => .ok (none, s)
  | some idx => do
    let s := { s with map := s.map.erase key }
    let s ← s.unlink idx
    match s.slab[idx]? with
    | none => .error .indexOutOfBounds
    | some none => .error .mapSlabMismatch
    | some (some n) => return (some n.value, countDown { s with slab := s.slab.set idx none } key.1)

/-- The walk back from the tail to the last entry of a layer. -/
def walkBack (s : ExpertStore V) (layer : UInt32) : ℕ → Option ℕ → Except ExpertPanic (Option ℕ)
  | _, none => .ok none
  | 0, some _ => .error .endless
  | fuel + 1, some idx => do
    let n ← s.node idx
    if n.key.1 = layer then return some idx else s.walkBack layer fuel n.prev

/-- The entry that has to go for a new one of its layer, or of all. -/
def partVictim : Except ExpertPanic (Option ℕ) :=
  match s.layerCap with
  | some layerCap =>
    if layerCap ≤ (s.layerCounts.lookup key.1).getD 0 then
      s.walkBack key.1 s.slab.length s.tail
    else .ok none
  | none => .ok (if s.cap ≤ s.len then s.tail else none)

/-- The entry that has to go for a new one, if any. The global bound comes
in if no layer had to give way. -/
def victim (s : ExpertStore V) (key : StoreKey) : Except ExpertPanic (Option ℕ) := do
  let victim ← s.partVictim key
  return if victim.isNone ∧ s.cap ≤ s.len then s.tail else victim

/-- Remove an entry, and hand out its value. -/
def evict (t : ℕ) : Except ExpertPanic (V × ExpertStore V) := do
  let m ← s.node t
  let s ← s.unlink t
  let s := { s with map := s.map.erase m.key }
  let n ← s.node t
  return (n.value,
    countDown { s with slab := s.slab.set t none, evictions := s.evictions + 1 } m.key.1)

/-- Remove the entry that has to go, if any. -/
def makeRoom (victim : Option ℕ) :
    Except ExpertPanic (Option V × ExpertStore V) :=
  match victim with
  | some t => do
    let (value, s) ← s.evict t
    return (some value, s)
  | none => .ok (none, s)

/-- Store a node, in the place that has become free or in a new one. -/
def store (reuse : Option ℕ) (n : Node V) :
    Except ExpertPanic (ℕ × ExpertStore V) :=
  match reuse with
  | some idx =>
    if idx < s.slab.length then .ok (idx, { s with slab := s.slab.set idx (some n) })
    else .error .indexOutOfBounds
  | none =>
    if s.slab.length < isizeMax then
      .ok (s.slab.length, { s with slab := s.slab ++ [some n] })
    else .error .capacityOverflow

/-- **Insert (or replace) an expert**, evicting when over capacity. The answer
names the evicted value, the replaced one, which is released, and the
inserted one. -/
def insert (s : ExpertStore V) (key : StoreKey) (value : V) :
    Except ExpertPanic (CacheAnswer V × ExpertStore V) :=
  match s.map.lookup key with
  | some idx => do
    let old ← s.node idx
    let s := { s with slab := s.slab.set idx (some { old with value := value }) }
    let s ← s.unlink idx
    let s ← s.pushFront idx
    let n ← s.node idx
    return (.inserted none (some old.value) n.value, s)
  | none => do
    let s := { s with misses := s.misses + 1 }
    let victim ← s.victim key
    let (evicted, s) ← s.makeRoom victim
    let (idx, s) ← s.store victim ⟨key, value, none, none⟩
    let s := countUp { s with map := s.map.insert key idx } key.1
    let s ← s.pushFront idx
    let n ← s.node idx
    return (.inserted evicted none n.value, s)

/-! ## Runs -/

/-- **One operation.** -/
def step :
    CacheOp StoreKey V → Except ExpertPanic (CacheAnswer V × ExpertStore V)
  | .get key => do
    let (value, s) ← s.get key
    return (.found value, s)
  | .peek key => do
    let value ← s.peek key
    return (.found value, s)
  | .promote key => do
    let (present, s) ← s.promoteIfPresent key
    return (.promoted present, s)
  | .take key => do
    let (value, s) ← s.take key
    return (.taken value, s)
  | .insert key value => s.insert key value

/-- **A list of operations**, and their answers. -/
def run (s : ExpertStore V) :
    List (CacheOp StoreKey V) → Except ExpertPanic (List (CacheAnswer V) × ExpertStore V)
  | [] => .ok ([], s)
  | op :: ops => do
    let (answer, s) ← s.step op
    let (answers, s) ← s.run ops
    return (answer :: answers, s)

end ExpertStore

end Logan
