import Logan.State.ByteCursor

/-!
# State snapshots

A `StateSnapshot` holds the causal state of an engine after a prefix of
tokens: its payload, with a checksum, under the schema of the engine and the
identity of the prefix. It has a binary form, `toBytes` and `fromBytes`, and
so has the causal state in its payload.

The readers are metered: they list the allocations that they request for
what they read. The texts of errors are not counted, and neither is what the
writers allocate, which is in proportion to what there is to write. The hash
function SHA-256 is a parameter.
-/

namespace Logan

open Reader Metered

/-! ## Causal states -/

structure AppendOnlyState where
  keys : Vec 4 F32
  values : Vec 4 F32
  position : UInt64
  nHeads : UInt64
  dim : UInt64
deriving DecidableEq

structure RingState where
  buffer : Vec 4 F32
  capacity : UInt64
  writePos : UInt64
  readPos : UInt64
  len : UInt64
deriving DecidableEq

structure MutableFixedState where
  data : Vec 4 F32
  writePos : UInt64
  len : UInt64
  hasWrapped : Bool
deriving DecidableEq

/-- An `Option<u64>` has 16 bytes, and a vector – the record of one – 24. -/
structure SparsePagedState where
  pageTable : Vec 16 (Option UInt64)
  pages : Vec 24 (Vec 4 F32)
  pageEntries : UInt64
  maxPages : UInt64
  pinned : Bool
deriving DecidableEq

/-- **Model-neutral causal state.** -/
inductive CausalState where
  | appendOnly (s : AppendOnlyState)
  | ring (s : RingState)
  | mutableFixed (s : MutableFixedState)
  | sparsePaged (s : SparsePagedState)
  /-- Engine-defined bytes. -/
  | opaqueData (data : Vec 1 UInt8)
deriving DecidableEq

/-- `b"LCS1"` -/
def statePayloadMagic : List UInt8 := [76, 67, 83, 49]

open ByteCursor

/-- `push_usize` of a length. -/
def lengthBytes (n : ℕ) : List UInt8 := u64Bytes (UInt64.ofNat n)

def appendOnlyBytes (s : AppendOnlyState) : List UInt8 :=
  u64Bytes s.position ++ (u64Bytes s.nHeads ++ (u64Bytes s.dim ++
    (f32VecBytes s.keys ++ f32VecBytes s.values)))

def ringBytes (s : RingState) : List UInt8 :=
  u64Bytes s.capacity ++ (u64Bytes s.writePos ++ (u64Bytes s.readPos ++
    (u64Bytes s.len ++ f32VecBytes s.buffer)))

def mutableFixedBytes (s : MutableFixedState) : List UInt8 :=
  u64Bytes s.writePos ++ (u64Bytes s.len ++ ([flagByte s.hasWrapped] ++ f32VecBytes s.data))

/-- An entry of the page table. -/
def pageEntryBytes : Option UInt64 → List UInt8
  | some offset => 1 :: u64Bytes offset
  | none => [0]

def sparsePagedBytes (s : SparsePagedState) : List UInt8 :=
  u64Bytes s.pageEntries ++ (u64Bytes s.maxPages ++ ([flagByte s.pinned] ++
    (lengthBytes s.pageTable.toList.length ++ (s.pageTable.toList.flatMap pageEntryBytes ++
      (lengthBytes s.pages.toList.length ++ s.pages.toList.flatMap f32VecBytes)))))

def opaqueBytes (data : Vec 1 UInt8) : List UInt8 :=
  lengthBytes data.toList.length ++ data.toList

/-- The tag of the kind of state, and the state. -/
def kindBytes : CausalState → List UInt8
  | .appendOnly s => 0 :: appendOnlyBytes s
  | .ring s => 1 :: ringBytes s
  | .mutableFixed s => 2 :: mutableFixedBytes s
  | .sparsePaged s => 3 :: sparsePagedBytes s
  | .opaqueData data => 4 :: opaqueBytes data

/-- The bytes of a causal state. -/
def causalStateBytes (state : CausalState) : List UInt8 :=
  statePayloadMagic ++ kindBytes state

/-- **`encode_causal_state`**. A vector that cannot hold all the bytes panics
when it is to grow. -/
def encodeCausalState (state : CausalState) : Except (Failure String) (Vec 1 UInt8) :=
  Vec.ofList 1 (causalStateBytes state)

section Decoding

variable {bytes : Vec 1 UInt8}

def readAppendOnly : Reader (ByteCursor bytes) String CausalState := do
  let position ← usize
  let nHeads ← usize
  let dim ← usize
  let keys ← f32Vec
  let values ← f32Vec
  pure (.appendOnly
    { keys := keys, values := values, position := position, nHeads := nHeads, dim := dim })

def readRing : Reader (ByteCursor bytes) String CausalState := do
  let capacity ← usize
  let writePos ← usize
  let readPos ← usize
  let len ← usize
  let buffer ← f32Vec
  pure (.ring
    { buffer := buffer, capacity := capacity, writePos := writePos, readPos := readPos,
      len := len })

def readMutableFixed : Reader (ByteCursor bytes) String CausalState := do
  let writePos ← usize
  let len ← usize
  let hasWrapped ← flag "invalid mutable-state wrapped flag"
  let data ← f32Vec
  pure (.mutableFixed
    { data := data, writePos := writePos, len := len, hasWrapped := hasWrapped })

def readPageEntry : Reader (ByteCursor bytes) String (Option UInt64) := do
  let tag ← u8
  if tag = 0 then pure none
  else if tag = 1 then do
    let offset ← u64
    pure (some offset)
  else fail "invalid sparse page-table tag"

/-- The two vectors are reserved for the numbers of elements that the bytes
announce, whatever they are. -/
def readSparsePaged : Reader (ByteCursor bytes) String CausalState := do
  let pageEntries ← usize
  let maxPages ← usize
  let pinned ← flag "invalid sparse-state pinned flag"
  let tableLen ← usize
  let pageTable ← vec 16 tableLen.toNat readPageEntry
  let pageCount ← usize
  let pages ← vec 24 pageCount.toNat f32Vec
  pure (.sparsePaged
    { pageTable := pageTable, pages := pages, pageEntries := pageEntries, maxPages := maxPages,
      pinned := pinned })

def readOpaque : Reader (ByteCursor bytes) String CausalState := do
  let len ← usize
  let raw ← take len.toNat
  let data ← lift (collect 1 raw)
  pure (.opaqueData data)

/-- The state of the kind that the tag tells. -/
def readKind (tag : UInt8) : Reader (ByteCursor bytes) String CausalState :=
  if tag = 0 then readAppendOnly
  else if tag = 1 then readRing
  else if tag = 2 then readMutableFixed
  else if tag = 3 then readSparsePaged
  else if tag = 4 then readOpaque
  else fail s!"unknown causal-state kind {tag}"

def readCausalState : Reader (ByteCursor bytes) String CausalState := do
  let magic ← take 4
  if magic ≠ statePayloadMagic then fail "bad causal-state payload magic"
  else do
    let tag ← u8
    readKind tag

end Decoding

/-- **`decode_causal_state`** -/
def decodeCausalState (bytes : Vec 1 UInt8) : Metered String CausalState :=
  readCausalState.complete isDone "trailing bytes in causal-state payload" (start bytes)

/-! ## Snapshots -/

structure StateSchemaId where
  engine : String
  version : UInt32
  subVersion : UInt32
deriving DecidableEq

inductive SectionKind where
  | appendOnlyKeys
  | appendOnlyValues
  | position
  | ringBuffer
  | mutableFixed
  | pageTable
  | opaqueData
deriving DecidableEq

namespace SectionKind

def tag : SectionKind → UInt8
  | appendOnlyKeys => 1
  | appendOnlyValues => 2
  | position => 3
  | ringBuffer => 4
  | mutableFixed => 5
  | pageTable => 6
  | opaqueData => 7

def fromTag (tag : UInt8) : Option SectionKind :=
  if tag = 1 then some appendOnlyKeys
  else if tag = 2 then some appendOnlyValues
  else if tag = 3 then some position
  else if tag = 4 then some ringBuffer
  else if tag = 5 then some mutableFixed
  else if tag = 6 then some pageTable
  else if tag = 7 then some opaqueData
  else none

end SectionKind

/-- A section, of 24 bytes in memory. -/
structure Section where
  kind : SectionKind
  offset : UInt64
  length : UInt64
deriving DecidableEq

inductive SnapshotPayload where
  | raw (bytes : Vec 1 UInt8)
  | sections (sections : Vec 24 Section)
deriving DecidableEq

/-- **A state snapshot.** -/
structure StateSnapshot where
  schemaId : StateSchemaId
  prefixLen : UInt64
  prefixHash : UInt64
  payload : SnapshotPayload
  checksum : Bytes 32
  generation : UInt64
deriving DecidableEq

/-- What is wrong with a snapshot. -/
inductive SnapshotError where
  | checksumMismatch
deriving DecidableEq

/-- The text of an error. -/
def SnapshotError.describe : SnapshotError → String
  | checksumMismatch => "checksum mismatch"

/-- `FORMAT_VERSION` -/
def formatVersion : UInt32 := 1

/-- `STATE_ABI_VERSION` -/
def stateAbiVersion : UInt32 := 1

/-- `b"LOGANST0"` -/
def snapshotMagic : List UInt8 := [76, 79, 71, 65, 78, 83, 84, 48]

def sectionBytes (s : Section) : List UInt8 :=
  s.kind.tag :: (u64Bytes s.offset ++ u64Bytes s.length)

namespace SnapshotPayload

/-- The tag of the kind of payload. -/
def kindTag : SnapshotPayload → UInt8
  | raw _ => 0
  | sections _ => 1

/-- The bytes of a payload. -/
def bytes : SnapshotPayload → List UInt8
  | raw b => b.toList
  | sections l => l.toList.flatMap sectionBytes

end SnapshotPayload

section Sha

variable (sha256 : List UInt8 → Bytes 32)

/-- The checksum is over the tag of the kind, and the bytes. -/
def computeChecksum (payload : SnapshotPayload) : Bytes 32 :=
  sha256 (payload.kindTag :: payload.bytes)

namespace StateSnapshot

/-- A snapshot of a causal state. -/
def new (schemaId : StateSchemaId) (prefixLen prefixHash : UInt64) (state : CausalState) :
    Except (Failure String) StateSnapshot := do
  let encoded ← encodeCausalState state
  let payload := SnapshotPayload.raw encoded
  pure
    { schemaId := schemaId, prefixLen := prefixLen, prefixHash := prefixHash, payload := payload,
      checksum := computeChecksum sha256 payload, generation := 0 }

def validate (s : StateSnapshot) : Except SnapshotError Unit :=
  if computeChecksum sha256 s.payload ≠ s.checksum then .error .checksumMismatch else .ok ()

/-- `validate().map_err(|e| e.to_string())?` -/
def validated (s : StateSnapshot) : Metered String Unit :=
  match s.validate sha256 with
  | .ok () => pure ()
  | .error e => fail e.describe

def intoCausalState (s : StateSnapshot) : Metered String CausalState := do
  s.validated sha256
  match s.payload with
  | .raw bytes => decodeCausalState bytes
  | .sections _ => fail "section snapshots are metadata-only"

/-- Everything in front of the payload, and the payload, and the checksum. -/
def encoded (schemaId : StateSchemaId) (prefixLen prefixHash generation : UInt64)
    (kindTag : UInt8) (payload : List UInt8) (checksum : Bytes 32) : List UInt8 :=
  snapshotMagic ++ (u32Bytes formatVersion ++
    (u32Bytes (UInt32.ofNat (utf8 schemaId.engine).length) ++ (utf8 schemaId.engine ++
      (u32Bytes schemaId.version ++ (u32Bytes schemaId.subVersion ++ (u64Bytes prefixLen ++
        (u64Bytes prefixHash ++ (u64Bytes generation ++ ([kindTag] ++
          (lengthBytes payload.length ++ (payload ++ checksum.val)))))))))))

/-- **The stable snapshot encoding.** -/
def toBytes (s : StateSnapshot) : Except (Failure String) (Vec 1 UInt8) :=
  match s.validate sha256 with
  | .error e => .error (.error e.describe)
  | .ok () =>
    if 2 ^ 32 ≤ (utf8 s.schemaId.engine).length then
      .error (.error "state schema engine name too long")
    else
      Vec.ofList 1 (encoded s.schemaId s.prefixLen s.prefixHash s.generation s.payload.kindTag
        s.payload.bytes s.checksum)

end StateSnapshot

/-- What `from_bytes` reads before it looks into the payload. -/
structure SnapshotFields where
  schemaId : StateSchemaId
  prefixLen : UInt64
  prefixHash : UInt64
  generation : UInt64
  payloadKind : UInt8
  payloadBytes : Vec 1 UInt8
  checksum : Bytes 32

section Decoding

variable {bytes : Vec 1 UInt8}

/-- `str::from_utf8(..)?.to_string()` -/
def toEngine (raw : List UInt8) : Metered String String :=
  match fromUtf8 raw with
  | none => fail "state schema engine is not UTF-8"
  | some engine => do
    reserve raw.length
    pure engine

/-- The fields after the version. -/
def readFields : Reader (ByteCursor bytes) String SnapshotFields := do
  let engineLen ← u32
  let rawEngine ← take engineLen.toNat
  let engine ← lift (toEngine rawEngine)
  let version ← u32
  let subVersion ← u32
  let prefixLen ← usize
  let prefixHash ← u64
  let generation ← u64
  let payloadKind ← u8
  let payloadLen ← usize
  let rawPayload ← take payloadLen.toNat
  let payloadBytes ← lift (collect 1 rawPayload)
  let checksum ← arrayOr "snapshot offset overflow" "truncated snapshot payload"
    (fail "truncated snapshot checksum")
  pure
    { schemaId := { engine := engine, version := version, subVersion := subVersion },
      prefixLen := prefixLen, prefixHash := prefixHash, generation := generation,
      payloadKind := payloadKind, payloadBytes := payloadBytes, checksum := checksum }

def readSnapshotFields : Reader (ByteCursor bytes) String SnapshotFields := do
  let magic ← take 8
  if magic ≠ snapshotMagic then fail "bad state snapshot magic"
  else do
    let format ← u32
    if format ≠ formatVersion then
      fail s!"unsupported state snapshot version {format}"
    else readFields

/-- `SectionKind::from_tag(..).ok_or_else(..)` -/
def toSectionKind (tag : UInt8) : Metered String SectionKind :=
  match SectionKind.fromTag tag with
  | some kind => pure kind
  | none => fail "invalid section kind"

def readSection : Reader (ByteCursor bytes) String Section := do
  let tag ← u8
  let kind ← lift (toSectionKind tag)
  let offset ← usize
  let length ← usize
  pure { kind := kind, offset := offset, length := length }

/-- The loop `while !c.is_done()`, with a bound on its rounds. -/
def readSections : ℕ → Reader (ByteCursor bytes) String (List Section)
  | 0 => fun _ => ⟨.error .endless, []⟩
  | fuel + 1 => ifDone isDone (pure []) do
    let s ← readSection
    let l ← readSections fuel
    pure (s :: l)

end Decoding

/-- The sections in a payload. There are as many as room is reserved for. -/
def decodeSections (payload : Vec 1 UInt8) : Metered String SnapshotPayload :=
  if payload.toList.length % 17 ≠ 0 then fail "invalid section payload length"
  else do
    reserve (24 * (payload.toList.length / 17))
    let p ← readSections (payload.toList.length + 1) (start payload)
    let sections ← lift (Vec.ofList 24 p.1)
    pure (.sections sections)

def decodePayload (kind : UInt8) (payload : Vec 1 UInt8) : Metered String SnapshotPayload :=
  if kind = 0 then pure (.raw payload)
  else if kind = 1 then decodeSections payload
  else fail s!"unknown snapshot payload kind {kind}"

/-- **`StateSnapshot::from_bytes`** -/
def StateSnapshot.fromBytes (bytes : Vec 1 UInt8) : Metered String StateSnapshot := do
  let fields ←
    readSnapshotFields.complete isDone "trailing bytes after state snapshot" (start bytes)
  let payload ← decodePayload fields.payloadKind fields.payloadBytes
  let snapshot : StateSnapshot :=
    { schemaId := fields.schemaId, prefixLen := fields.prefixLen,
      prefixHash := fields.prefixHash, payload := payload, checksum := fields.checksum,
      generation := fields.generation }
  snapshot.validated sha256
  pure snapshot

end Sha

end Logan
