import Logan.Util.Pieces
import Logan.Util.Fields

/-!
# The payload of a checkpoint

What a checkpoint keeps of a model is the causal state that its tokens have
left: of every layer with a recurrence, its state and the tail of its
convolution; of every layer with attention, the keys and the values at the
positions of the prefix, head by head; of every layer with an index, its
entries; and the rings of the n-gram embedding. `visit_live_payload` writes
it, `restore_payload_into` reads it from a file and
`restore_payload_from_bytes` from memory, and `expected_payload_bytes` says
how long it is.

The single-precision numbers are their bit patterns. There are as many
layers as the configuration says (its constructor refuses anything else); a
drafter's layer is not part of the payload. On a host with a direct backend
the recurrent state lives in aligned buffers, which are built on demand;
whether that succeeds is a parameter. An error leaves a model that has been
changed in part, which nobody decodes with: what it leaves is not modelled.
-/

namespace Logan

open Function

namespace Qwen

open Result

/-- What a configuration says of the causal state. -/
structure Geometry where
  layers : ℕ
  /-- Whether a layer is one with a recurrence. -/
  gdnLayers : Fin layers → Bool
  /-- Whether a layer has an index. -/
  qsaLayers : Fin layers → Bool
  kvHeads : ℕ
  headDim : ℕ
  maxT : ℕ
  idxKvHeads : ℕ
  idxHeadDim : ℕ
  linKHeads : ℕ
  linKDim : ℕ
  linVHeads : ℕ
  linVDim : ℕ
  convKernel : ℕ

namespace Geometry

variable (cfg : Geometry)

/-- The layers, in order. -/
def all : List (Fin cfg.layers) := List.finRange cfg.layers

/-- The length of a recurrent state. -/
def stateLen : ℕ := cfg.linVHeads * cfg.linKDim * cfg.linVDim

/-- The length of the tail of a convolution. -/
def convLen : ℕ :=
  (cfg.linKDim * cfg.linKHeads * 2 + cfg.linVDim * cfg.linVHeads) * (cfg.convKernel - 1)

/-- The distance between two heads in the storage of keys and values. -/
def kvStride : ℕ := cfg.maxT * cfg.headDim

end Geometry

/-- The aligned buffers of a layer with a recurrence. -/
structure GdnMetal where
  state : List UInt32
  convState : List UInt32
  deriving DecidableEq

/-- **The causal state of a model**, layer by layer. -/
structure LiveModel (cfg : Geometry) where
  gdnS : Fin cfg.layers → List UInt32
  gdnConv : Fin cfg.layers → List UInt32
  gdnMetal : Fin cfg.layers → Option GdnMetal
  kvK : Fin cfg.layers → List UInt32
  kvV : Fin cfg.layers → List UInt32
  idxCache : Fin cfg.layers → List UInt32
  pleRing : List UInt64
  pleConvState : List UInt32
  /-- Whether a token is blocked, and whether it is paused, by the
  scheduler. -/
  schedBlocked : Bool
  schedPause : Bool

/-- The bytes of a list of 64-bit words. -/
def dwordsBytes (l : List UInt64) : List UInt8 := l.flatMap u64Bytes

/-- `chunks_exact(8)`, each chunk read as a word. -/
def dwordsOfBytes : List UInt8 → List UInt64
  | a :: b :: c :: d :: e :: f :: g :: h :: rest =>
    u64OfBytes [a, b, c, d, e, f, g, h] :: dwordsOfBytes rest
  | _ => []

/-! ## Its length -/

/-- **`expected_payload_bytes`**, computed in `u128`. -/
def expectedPayloadBytes {cfg : Geometry} (m : LiveModel cfg) (prefixLen : ℕ) : Except String ℕ :=
  let gdn := (cfg.all.filter fun li => cfg.gdnLayers li).length
  let attn := (cfg.all.filter fun li => !cfg.gdnLayers li).length
  let qsa := (cfg.all.filter fun li => cfg.qsaLayers li).length
  let state := cfg.linVHeads * cfg.linKDim * cfg.linVDim
  let cdim := cfg.linKDim * cfg.linKHeads * 2 + cfg.linVDim * cfg.linVHeads
  let conv := cdim * (cfg.convKernel - 1)
  let kvPerLayer := 2 * cfg.kvHeads * prefixLen * cfg.headDim
  let idxPerLayer := prefixLen * cfg.idxKvHeads * cfg.idxHeadDim
  let f32Elems := gdn * (state + conv) + attn * kvPerLayer + qsa * idxPerLayer
    + m.pleConvState.length
  let bytes := f32Elems * 4 + m.pleRing.length * 8
  if bytes ≤ u64Max then .ok bytes else .error "prefix cache payload size overflows u64"

/-! ## Writing -/

/-- The name of a layer in an error. -/
def layerError {n : ℕ} (li : Fin n) (what : String) : String :=
  "layer " ++ toString li.val ++ ": " ++ what

section Visit

variable {cfg : Geometry} (m : LiveModel cfg) (prefixLen : ℕ)

/-- What is written of a layer with a recurrence: the aligned buffers, if it
has them. -/
def visitGdn (li : Fin cfg.layers) : Except String (List UInt8) :=
  if ¬ cfg.gdnLayers li then .ok []
  else match m.gdnMetal li with
    | some gm =>
      .ok (wordsBytes (gm.state.take cfg.stateLen) ++ wordsBytes (gm.convState.take cfg.convLen))
    | none =>
      if (m.gdnS li).length ≠ cfg.stateLen ∨ (m.gdnConv li).length ≠ cfg.convLen then
        .error (layerError li "malformed GDN state")
      else .ok (wordsBytes (m.gdnS li) ++ wordsBytes (m.gdnConv li))

/-- What is written of the storage of keys or of values: of every head the
positions of the prefix. -/
def visitHeads (cfg : Geometry) (prefixLen : ℕ) (storage : List UInt32) : List UInt8 :=
  (List.range cfg.kvHeads).flatMap fun h =>
    wordsBytes (slice storage (h * cfg.maxT * cfg.headDim) (prefixLen * cfg.headDim))

/-- What is written of a layer with attention. -/
def visitKv (li : Fin cfg.layers) : Except String (List UInt8) :=
  if cfg.gdnLayers li then .ok []
  else
    let expected := cfg.kvHeads * cfg.maxT * cfg.headDim
    if (m.kvK li).length ≠ expected ∨ (m.kvV li).length ≠ expected then
      .error (layerError li "malformed attention KV storage")
    else .ok (visitHeads cfg prefixLen (m.kvK li) ++ visitHeads cfg prefixLen (m.kvV li))

/-- What is written of a layer with an index. -/
def visitIdx (li : Fin cfg.layers) : Except String (List UInt8) :=
  if ¬ cfg.qsaLayers li then .ok []
  else
    let idxActive := prefixLen * cfg.idxKvHeads * cfg.idxHeadDim
    if (m.idxCache li).length < idxActive then
      .error (layerError li "malformed QSA index storage")
    else .ok (wordsBytes ((m.idxCache li).take idxActive))

/-- **`visit_live_payload`**: all that the visitor is given, in order. -/
def visitLivePayload : Except String (List UInt8) :=
  if cfg.maxT < prefixLen then .error "prefix exceeds current context"
  else do
    let gdn ← List.flatten <$> cfg.all.mapM (visitGdn m)
    let kv ← List.flatten <$> cfg.all.mapM (visitKv m prefixLen)
    let idx ← List.flatten <$> cfg.all.mapM (visitIdx m prefixLen)
    pure (gdn ++ kv ++ idx ++ dwordsBytes m.pleRing ++ wordsBytes m.pleConvState)

end Visit

/-! ## What both readers begin and end with -/

section Restore

variable {cfg : Geometry}

/-- The aligned buffers of a layer are built with zeroes, where a layer has
none yet. -/
def buildLayer (build : Fin cfg.layers → Bool) (m : LiveModel cfg) (li : Fin cfg.layers) :
    Except (Failure String) (LiveModel cfg) :=
  if cfg.gdnLayers li ∧ m.gdnMetal li = none then
    if build li then
      .ok { m with
        gdnMetal := update m.gdnMetal li
          (some ⟨List.replicate cfg.stateLen 0, List.replicate cfg.convLen 0⟩) }
    else .error (.error (layerError li "failed to initialize aligned GDN state for restore"))
  else .ok m

/-- The first loop of the readers, on a host with a direct backend. -/
def buildAligned (direct : Bool) (build : Fin cfg.layers → Bool) (m : LiveModel cfg) :
    Except (Failure String) (LiveModel cfg) :=
  if direct then cfg.all.foldlM (buildLayer build) m else .ok m

/-- The recurrent state of a layer is replaced, in its aligned buffers
too. -/
def setGdn (m : LiveModel cfg) (li : Fin cfg.layers) (state conv : List UInt32) : LiveModel cfg :=
  { m with
    gdnS := update m.gdnS li state
    gdnConv := update m.gdnConv li conv
    gdnMetal := update m.gdnMetal li
      ((m.gdnMetal li).map fun gm => ⟨put gm.state 0 state, put gm.convState 0 conv⟩) }

/-! ## Reading from a file -/

/-- `read_exact` into a buffer of some words; the file is what is left of
it. -/
def readWords (file : List UInt8) (n : ℕ) (what : String) :
    Except (Failure String) (List UInt32 × List UInt8) :=
  if 4 * n ≤ file.length then .ok (wordsOfBytes (file.take (4 * n)), file.drop (4 * n))
  else .error (.error (what ++ ": failed to fill whole buffer"))

/-- `read_exact` into a buffer of some 64-bit words. -/
def readDwords (file : List UInt8) (n : ℕ) (what : String) :
    Except (Failure String) (List UInt64 × List UInt8) :=
  if 8 * n ≤ file.length then .ok (dwordsOfBytes (file.take (8 * n)), file.drop (8 * n))
  else .error (.error (what ++ ": failed to fill whole buffer"))

/-- `read_exact` into a part of a buffer; a part that is not inside the
buffer is a panic. -/
def readSlice (file : List UInt8) (buffer : List UInt32) (start n : ℕ) (what : String) :
    Except (Failure String) (List UInt32 × List UInt8) :=
  if start + n ≤ buffer.length then do
    let (v, file) ← readWords file n what
    pure (put buffer start v, file)
  else .error .panic

/-- The recurrent state of a layer is read. -/
def readGdn (s : LiveModel cfg × List UInt8) (li : Fin cfg.layers) :
    Except (Failure String) (LiveModel cfg × List UInt8) :=
  if ¬ cfg.gdnLayers li then .ok s
  else if (s.1.gdnS li).length ≠ cfg.stateLen ∨ (s.1.gdnConv li).length ≠ cfg.convLen then
    .error (.error (layerError li "incompatible GDN target"))
  else do
    let (state, file) ← readWords s.2 (s.1.gdnS li).length
      ("read GDN state layer " ++ toString li.val)
    let (conv, file) ← readWords file (s.1.gdnConv li).length
      ("read GDN conv layer " ++ toString li.val)
    pure (setGdn s.1 li state conv, file)

/-- The positions of the prefix of one head are read. -/
def readHead (cfg : Geometry) (prefixLen : ℕ) (what : String) (s : List UInt32 × List UInt8)
    (h : ℕ) : Except (Failure String) (List UInt32 × List UInt8) :=
  readSlice s.2 s.1 (h * cfg.maxT * cfg.headDim) (prefixLen * cfg.headDim) what

/-- The keys and values of a layer are read, head by head. -/
def readKv (prefixLen : ℕ) (s : LiveModel cfg × List UInt8) (li : Fin cfg.layers) :
    Except (Failure String) (LiveModel cfg × List UInt8) :=
  if cfg.gdnLayers li then .ok s
  else
    let expected := cfg.kvHeads * cfg.maxT * cfg.headDim
    if (s.1.kvK li).length ≠ expected ∨ (s.1.kvV li).length ≠ expected then
      .error (.error (layerError li "incompatible KV target"))
    else do
      let (k, file) ← (List.range cfg.kvHeads).foldlM
        (readHead cfg prefixLen ("read KV K layer " ++ toString li.val)) (s.1.kvK li, s.2)
      let (v, file) ← (List.range cfg.kvHeads).foldlM
        (readHead cfg prefixLen ("read KV V layer " ++ toString li.val)) (s.1.kvV li, file)
      pure ({ s.1 with kvK := update s.1.kvK li k
                       kvV := update s.1.kvV li v }, file)

/-- The index of a layer is read. -/
def readIdx (prefixLen : ℕ) (s : LiveModel cfg × List UInt8) (li : Fin cfg.layers) :
    Except (Failure String) (LiveModel cfg × List UInt8) :=
  if ¬ cfg.qsaLayers li then .ok s
  else
    let idxActive := prefixLen * cfg.idxKvHeads * cfg.idxHeadDim
    if (s.1.idxCache li).length < idxActive then
      .error (.error (layerError li "incompatible QSA target"))
    else do
      let (idx, file) ← readSlice s.2 (s.1.idxCache li) 0 idxActive
        ("read QSA index layer " ++ toString li.val)
      pure ({ s.1 with idxCache := update s.1.idxCache li idx }, file)

/-- **`restore_payload_into`**, with what is left of the file. -/
def restorePayloadInto (direct : Bool) (build : Fin cfg.layers → Bool) (m : LiveModel cfg)
    (prefixLen : ℕ) (file : List UInt8) : Except (Failure String) (LiveModel cfg × List UInt8) := do
  let m ← buildAligned direct build m
  let s ← cfg.all.foldlM readGdn (m, file)
  let s ← cfg.all.foldlM (readKv prefixLen) s
  let (m, file) ← cfg.all.foldlM (readIdx prefixLen) s
  let (ring, file) ← readDwords file m.pleRing.length "read PLE ring"
  let (conv, file) ← readWords file m.pleConvState.length "read PLE conv"
  pure ({ m with pleRing := ring, pleConvState := conv
                 schedBlocked := false, schedPause := false }, file)

/-! ## Reading from memory -/

variable (bytes : List UInt8)

/-- `copy_f32_from_le`: the words that are copied, and the offset after
them. -/
def copyF32FromLe (off : ℕ) (dst : List UInt32) :
    Except (Failure String) (List UInt32 × ℕ) := do
  let byteLen ← okOr (checkedProduct dst.length 4) (.error "f32 prefix slice size overflow")
  let stop ← okOr (checkedSum off byteLen) (.error "prefix payload offset overflow")
  let src ← okOr (range? bytes off stop) (.error "truncated f32 prefix payload")
  pure (wordsOfBytes src, stop)

/-- `copy_i64_from_le` -/
def copyI64FromLe (off : ℕ) (dst : List UInt64) :
    Except (Failure String) (List UInt64 × ℕ) := do
  let byteLen ← okOr (checkedProduct dst.length 8) (.error "i64 prefix slice size overflow")
  let stop ← okOr (checkedSum off byteLen) (.error "prefix payload offset overflow")
  let src ← okOr (range? bytes off stop) (.error "truncated i64 prefix payload")
  pure (dwordsOfBytes src, stop)

/-- One head of `copy_head_major_prefix_from_le`. -/
def copyHead (stride active : ℕ) (s : List UInt32 × ℕ) (head : ℕ) :
    Except (Failure String) (List UInt32 × ℕ) :=
  let start := head * stride
  if start + active ≤ s.1.length then do
    let (v, off) ← copyF32FromLe bytes s.2 (slice s.1 start active)
    pure (put s.1 start v, off)
  else .error .panic

/-- `copy_head_major_prefix_from_le` -/
def copyHeadMajorPrefixFromLe (off : ℕ) (dst : List UInt32)
    (heads stride active : ℕ) : Except (Failure String) (List UInt32 × ℕ) := do
  refuse (stride < active) (.error "active KV prefix exceeds head stride")
  let expected ← okOr (checkedProduct heads stride) (.error "KV destination size overflow")
  refuse (dst.length ≠ expected) (.error ("KV destination has " ++ toString dst.length
    ++ " values, expected " ++ toString expected))
  (List.range heads).foldlM (copyHead bytes stride active) (dst, off)

/-- The recurrent state of a layer is copied. -/
def copyGdn (s : LiveModel cfg × ℕ) (li : Fin cfg.layers) :
    Except (Failure String) (LiveModel cfg × ℕ) :=
  if ¬ cfg.gdnLayers li then .ok s
  else if (s.1.gdnS li).length ≠ cfg.stateLen ∨ (s.1.gdnConv li).length ≠ cfg.convLen then
    .error (.error (layerError li "incompatible GDN target"))
  else do
    let (state, off) ← copyF32FromLe bytes s.2 (s.1.gdnS li)
    let (conv, off) ← copyF32FromLe bytes off (s.1.gdnConv li)
    pure (setGdn s.1 li state conv, off)

/-- The keys and values of a layer are copied. -/
def copyKv (prefixLen : ℕ) (s : LiveModel cfg × ℕ) (li : Fin cfg.layers) :
    Except (Failure String) (LiveModel cfg × ℕ) :=
  if cfg.gdnLayers li then .ok s
  else
    let active := prefixLen * cfg.headDim
    let expected := cfg.kvHeads * cfg.kvStride
    if (s.1.kvK li).length ≠ expected ∨ (s.1.kvV li).length ≠ expected then
      .error (.error (layerError li "incompatible KV target"))
    else do
      let (k, off) ← copyHeadMajorPrefixFromLe bytes s.2 (s.1.kvK li) cfg.kvHeads cfg.kvStride
        active
      let (v, off) ← copyHeadMajorPrefixFromLe bytes off (s.1.kvV li) cfg.kvHeads cfg.kvStride
        active
      pure ({ s.1 with kvK := update s.1.kvK li k
                       kvV := update s.1.kvV li v }, off)

/-- The index of a layer is copied. -/
def copyIdx (prefixLen : ℕ) (s : LiveModel cfg × ℕ) (li : Fin cfg.layers) :
    Except (Failure String) (LiveModel cfg × ℕ) :=
  if ¬ cfg.qsaLayers li then .ok s
  else
    let idxActive := prefixLen * cfg.idxKvHeads * cfg.idxHeadDim
    if (s.1.idxCache li).length < idxActive then
      .error (.error (layerError li "incompatible QSA target"))
    else do
      let (idx, off) ← copyF32FromLe bytes s.2 ((s.1.idxCache li).take idxActive)
      pure ({ s.1 with idxCache := update s.1.idxCache li (put (s.1.idxCache li) 0 idx) }, off)

/-- **`restore_payload_from_bytes`** -/
def restorePayloadFromBytes (direct : Bool) (build : Fin cfg.layers → Bool) (m : LiveModel cfg)
    (prefixLen : ℕ) (bytes : List UInt8) : Except (Failure String) (LiveModel cfg) := do
  let expected ← (expectedPayloadBytes m prefixLen).mapError .error
  refuse (bytes.length ≠ expected) (.error ("prefix payload length " ++ toString bytes.length
    ++ " does not match expected " ++ toString expected))
  let m ← buildAligned direct build m
  let s ← cfg.all.foldlM (copyGdn bytes) (m, 0)
  let s ← cfg.all.foldlM (copyKv bytes prefixLen) s
  let (m, off) ← cfg.all.foldlM (copyIdx bytes prefixLen) s
  let (ring, off) ← copyI64FromLe bytes off m.pleRing
  let (conv, off) ← copyF32FromLe bytes off m.pleConvState
  refuse (off ≠ bytes.length) (.error ("prefix payload parser consumed " ++ toString off
    ++ " bytes, payload has " ++ toString bytes.length))
  pure { m with pleRing := ring, pleConvState := conv
                schedBlocked := false, schedPause := false }

end Restore

end Qwen

end Logan
