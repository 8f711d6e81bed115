import Logan.Prefix.PrefixKey

/-!
# The prefix container

A file of the prefix store is a **container**: a header of 204 bytes, which
repeats the identity of the prefix, then the tokens, then the snapshot in
its own format. `writeSnapshot` makes one, and `readSnapshot` reads one from
a reader, which is here the list of the bytes that are still to come.

`readSnapshot` makes a buffer for the tokens and another for the snapshot,
each of the length that the header tells, before it reads them.
-/

namespace Logan

open Reader Metered

/-- The kinds of I/O errors that are told apart. -/
inductive ErrorKind where
  | notFound
  | invalidData
  | unexpectedEof
  | other
deriving DecidableEq

structure IoError where
  kind : ErrorKind
  message : String
deriving DecidableEq

/-- `invalid_data` -/
def invalidData (message : String) : IoError := ⟨.invalidData, message⟩

/-- `b"LOGANPF1"` -/
def containerMagic : List UInt8 := [76, 79, 71, 65, 78, 80, 70, 49]

def containerVersion : UInt32 := 2

/-- `HEADER_BYTES` -/
def headerLength : ℕ := 204

/-- **The header of a container.** -/
structure ContainerHeader where
  magic : Bytes 8
  version : UInt32
  stateAbiVersion : UInt32
  modelFingerprint : Bytes 32
  tokenizerFingerprint : Bytes 32
  stateSchemaFingerprint : Bytes 32
  planFingerprint : Bytes 32
  prefixTokenHash : UInt64
  prefixLen : UInt64
  payloadSize : UInt64
  sectionCount : UInt32
  checksum : Bytes 32
deriving DecidableEq

open ByteCursor

section Header

variable {bytes : Vec 1 UInt8}

/-- `Cursor::array` of the header's own cursor. -/
def headerArray (n : ℕ) : Reader (ByteCursor bytes) String (Bytes n) :=
  arrayOr "prefix header offset overflow" "truncated prefix header" (fail "truncated prefix header")

def headerU32 : Reader (ByteCursor bytes) String UInt32 := u32From (headerArray 4)

def headerU64 : Reader (ByteCursor bytes) String UInt64 := u64From (headerArray 8)

def readHeader : Reader (ByteCursor bytes) String ContainerHeader := do
  let magic ← headerArray 8
  let version ← headerU32
  let stateAbiVersion ← headerU32
  let modelFingerprint ← headerArray 32
  let tokenizerFingerprint ← headerArray 32
  let stateSchemaFingerprint ← headerArray 32
  let planFingerprint ← headerArray 32
  let prefixTokenHash ← headerU64
  let prefixLen ← headerU64
  let payloadSize ← headerU64
  let sectionCount ← headerU32
  let checksum ← headerArray 32
  pure
    { magic := magic, version := version, stateAbiVersion := stateAbiVersion,
      modelFingerprint := modelFingerprint, tokenizerFingerprint := tokenizerFingerprint,
      stateSchemaFingerprint := stateSchemaFingerprint, planFingerprint := planFingerprint,
      prefixTokenHash := prefixTokenHash, prefixLen := prefixLen, payloadSize := payloadSize,
      sectionCount := sectionCount, checksum := checksum }

end Header

section Sha

variable (sha256 : List UInt8 → Bytes 32)

namespace ContainerHeader

def toBytes (h : ContainerHeader) : List UInt8 :=
  h.magic.val ++ (u32Bytes h.version ++ (u32Bytes h.stateAbiVersion ++
    (h.modelFingerprint.val ++ (h.tokenizerFingerprint.val ++ (h.stateSchemaFingerprint.val ++
      (h.planFingerprint.val ++ (u64Bytes h.prefixTokenHash ++ (u64Bytes h.prefixLen ++
        (u64Bytes h.payloadSize ++ (u32Bytes h.sectionCount ++ h.checksum.val))))))))))

def fromBytes (bytes : Vec 1 UInt8) : Metered String ContainerHeader :=
  if bytes.toList.length ≠ headerLength then
    fail s!"prefix header has {bytes.toList.length} bytes, expected {headerLength}"
  else readHeader.complete isDone "trailing bytes in prefix header" (start bytes)

/-- The key that has these tokens, and the identity that the header tells. -/
def keyWith (h : ContainerHeader) (tokens : Vec 4 UInt32) : PrefixKey :=
  PrefixKey.new sha256 ⟨h.modelFingerprint⟩ ⟨h.stateSchemaFingerprint⟩
    ⟨h.tokenizerFingerprint⟩ ⟨h.planFingerprint⟩ tokens

/-- The key, if the header agrees with the tokens. -/
def keyForTokens (h : ContainerHeader) (tokens : Vec 4 UInt32) : Except String PrefixKey :=
  if tokens.toList.length ≠ h.prefixLen.toNat then
    .error "prefix token count does not match header"
  else if (h.keyWith sha256 tokens).prefixTokenHash ≠ h.prefixTokenHash then
    .error "prefix token hash does not match header"
  else .ok (h.keyWith sha256 tokens)

end ContainerHeader

/-- `compute_checksum(tokens, snapshot)` -/
def containerChecksum (tokens snapshot : List UInt8) : Bytes 32 := sha256 (tokens ++ snapshot)

/-- The header that `write_snapshot` writes. -/
def headerFor (key : PrefixKey) (tokens snapshot : List UInt8) : ContainerHeader where
  magic := ⟨containerMagic, rfl⟩
  version := containerVersion
  stateAbiVersion := stateAbiVersion
  modelFingerprint := key.modelFingerprint.digest
  tokenizerFingerprint := key.tokenizerFingerprint.digest
  stateSchemaFingerprint := key.stateSchemaFingerprint.digest
  planFingerprint := key.planFingerprint.digest
  prefixTokenHash := key.prefixTokenHash
  prefixLen := key.prefixLen
  payloadSize := UInt64.ofNat snapshot.length
  sectionCount := 1
  checksum := containerChecksum sha256 tokens snapshot

/-- **`write_snapshot`**, to a writer that takes all that it is given. -/
def writeSnapshot (key : PrefixKey) (state : StateSnapshot) :
    Except (Failure IoError) (List UInt8) :=
  if state.prefixLen ≠ key.prefixLen ∨ state.prefixHash ≠ key.prefixTokenHash then
    .error (.error (invalidData "state snapshot prefix identity does not match cache key"))
  else do
    let snapshot ← (state.toBytes sha256).mapError (Failure.map invalidData)
    let tokens := wordsBytes key.prefixTokens.toList
    pure ((headerFor sha256 key tokens snapshot.toList).toBytes ++ (tokens ++ snapshot.toList))

/-- `read_exact`, into a buffer of `n` bytes. -/
def readExact (n : ℕ) : Reader (List UInt8) IoError (Vec 1 UInt8) := fun s =>
  if n ≤ s.length then do
    let buffer ← lift (Vec.ofList 1 (s.take n))
    pure (buffer, s.drop n)
  else fail ⟨.unexpectedEof, "failed to fill whole buffer"⟩

/-- The snapshot, which must have the identity of the key. -/
def readState (header : ContainerHeader) (key : PrefixKey) (tokenBytes : List UInt8) :
    Reader (List UInt8) IoError (ContainerHeader × PrefixKey × StateSnapshot) := do
  lift (reserve header.payloadSize.toNat)
  let snapshotBytes ← readExact header.payloadSize.toNat
  if containerChecksum sha256 tokenBytes snapshotBytes.toList ≠ header.checksum then
    fail (invalidData "prefix cache checksum mismatch")
  else do
    let snapshot ←
      lift ((StateSnapshot.fromBytes sha256 snapshotBytes).mapError invalidData)
    if snapshot.prefixLen ≠ key.prefixLen ∨ snapshot.prefixHash ≠ key.prefixTokenHash then
      fail (invalidData "embedded state snapshot prefix identity mismatch")
    else pure (header, key, snapshot)

/-- The tokens, as many as the header tells, and then the snapshot. -/
def readBody (header : ContainerHeader) :
    Reader (List UInt8) IoError (ContainerHeader × PrefixKey × StateSnapshot) :=
  if usizeMax < header.prefixLen.toNat * 4 then
    fail (invalidData "prefix token byte length overflow")
  else do
    lift (reserve (header.prefixLen.toNat * 4))
    let tokenBytes ← readExact (header.prefixLen.toNat * 4)
    let tokens ← lift (collect 4 (wordsOfBytes tokenBytes.toList))
    let key ← lift (lift
      ((header.keyForTokens sha256 tokens).mapError fun e => Failure.error (invalidData e)))
    readState sha256 header key tokenBytes.toList

/-- The header must be one of this format. -/
def readChecked (header : ContainerHeader) :
    Reader (List UInt8) IoError (ContainerHeader × PrefixKey × StateSnapshot) :=
  if header.magic.val ≠ containerMagic then
    fail (invalidData "bad prefix cache magic")
  else if header.version ≠ containerVersion then
    fail (invalidData s!"unsupported prefix container version {header.version}")
  else if header.stateAbiVersion ≠ stateAbiVersion then
    fail (invalidData s!"unsupported state ABI version {header.stateAbiVersion}")
  else readBody sha256 header

/-- **`read_snapshot`** -/
def readSnapshot : Reader (List UInt8) IoError (ContainerHeader × PrefixKey × StateSnapshot) := do
  let headerBytes ← readExact headerLength
  let header ← lift ((ContainerHeader.fromBytes headerBytes).mapError invalidData)
  readChecked sha256 header

end Sha

end Logan
