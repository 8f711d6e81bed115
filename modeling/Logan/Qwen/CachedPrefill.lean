import Logan.Qwen.MtpDecode
import Logan.Util.Buffer

/-!
# Decoding from a cached prefix

A greedy run looks in a directory of checkpoints for the longest prefix of
its prompt that has been persisted, restores the model from it, feeds the
model the rest of the prompt and decodes. A checkpoint that cannot be
restored may have left the model in any state, and so the package is loaded
again before a shorter one is tried.

The model is a parameter (`Engine`): it is fed tokens at their positions. So
are the files (`CacheFiles`): what the directory lists, what is a file, and
what the restoration of a checkpoint does to a model. A `Session` is the
model with a record of what it has been fed since it was loaded or restored,
and of whether a restoration of it has failed.
-/

namespace Logan

namespace Qwen

open Result

/-- The state after tokens at consecutive positions. -/
def feedTokens {M : Type} (feed : M → UInt32 → ℕ → Option M) (m : M) : List UInt32 → ℕ → Option M
  | [], _ => some m
  | token :: tokens, pos => (feed m token pos).bind fun m => feedTokens feed m tokens (pos + 1)

/-- **A model that is fed tokens**, at their positions. Feeding panics where
it has no result. -/
structure Engine (M F : Type) where
  /-- `load_model` -/
  load : Except String M
  /-- `model_digest` -/
  modelDigest : M → Except String (Bytes 32)
  mtpEnabled : M → Bool
  /-- What the model decodes to with a drafter. -/
  mtp : M → List UInt32 → ℕ → Except (Failure String) (List UInt32)
  /-- The model after one token at its position. -/
  feed : M → UInt32 → ℕ → Option M
  /-- The logits after the last token. -/
  logits : M → List F
  /-- `prefill_chunk`; a panic is `none`. -/
  prefillChunk : M → List UInt32 → ℕ → Bool → Option (Except String (Option (List F)) × M)
  /-- `forward_token` -/
  forwardToken : M → UInt32 → ℕ → Option (List F × M)
  partialCmp : F → F → Option Ordering

namespace Engine

variable {M F : Type} (E : Engine M F)

/-- The model after tokens at consecutive positions. -/
def feedAll (m : M) (tokens : List UInt32) (pos : ℕ) : Option M := feedTokens E.feed m tokens pos

/-- `argmax` -/
def argmax (logits : List F) : Except (Failure String) UInt32 :=
  Target.argmax ⟨fun _ => [], E.partialCmp⟩ logits

end Engine

/-! ## Checkpoints -/

/-- The key of a checkpoint: the model, and the tokens that it has been
fed. -/
structure PrefixCacheKey where
  model : Bytes 32
  digest : Bytes 32
  prefixLen : ℕ
  deriving DecidableEq

/-- `PrefixCacheKey::with_salt` -/
def PrefixCacheKey.withSalt {M F : Type} (E : Engine M F) (sha256 : List UInt8 → Bytes 32) (m : M)
    (tokens : List UInt32) (salt : List UInt8) : Except String PrefixCacheKey := do
  let model ← E.modelDigest m
  pure
    { model
      digest := sha256 (utf8 "logan-qwen4-prefix-key-v1" ++ [0] ++ model.val
        ++ u64Bytes (UInt64.ofNat salt.length) ++ salt
        ++ u64Bytes (UInt64.ofNat tokens.length) ++ wordsBytes tokens)
      prefixLen := tokens.length }

/-- An entry of a directory, as far as it can be read. -/
structure DirEntry where
  /-- Whether it is a file, if that can be told. -/
  isFile : Option Bool
  /-- Its name, if it is text. -/
  name : Option String

/-- **The files of the cache.** -/
structure CacheFiles (M : Type) where
  /-- `read_dir` of the directory of a model; `none` if there is no such
  directory. -/
  readDir : Bytes 32 → Except String (Option (List (Option DirEntry)))
  /-- Whether the path of a key is a file. -/
  isFile : PrefixCacheKey → Bool
  /-- `PrefixCacheStore::restore`, and the model after it. -/
  restore : M → PrefixCacheKey → Except String Unit × M
  /-- `PrefixCacheStore::store` -/
  store : M → PrefixCacheKey → Except String Unit

/-- No checkpoints. -/
def CacheFiles.cleared {M : Type} (files : CacheFiles M) : CacheFiles M :=
  { files with readDir := fun _ => .ok none, isFile := fun _ => false }

/-- `str::parse::<usize>`: digits, after a plus sign or none. -/
def parseUsize (s : String) : Option ℕ :=
  let digits := if s.startsWith "+" then (s.drop 1).toString else s
  if digits ≠ "" ∧ digits.all Char.isDigit then
    digits.toNat?.bind fun n => if n ≤ usizeMax then some n else none
  else none

section Candidates

variable {M F : Type} (E : Engine M F) (sha256 : List UInt8 → Bytes 32)

end Candidates

/-! ## A run -/

/-- What the environment decides. -/
structure CacheEnv where
  prefixCache : Bool
  writes : Bool
  minPersistTokens : ℕ
  salt : List UInt8
  /-- `QWEN_PREFILL_CHUNK`, if it is a number. -/
  prefillChunk : Option ℕ

/-- The number of rows of a chunk. -/
def CacheEnv.chunk (env : CacheEnv) : ℕ := max 1 (min (env.prefillChunk.getD 8) 64)

/-- **A model in use**: what it has been fed since it was loaded or restored,
with the positions, and whether a restoration of it has failed. -/
structure Session (M : Type) where
  model : M
  fed : List (UInt32 × ℕ)
  spoiled : Bool
  deriving DecidableEq

namespace Session

variable {M : Type}

/-- A model that has just been loaded. -/
def loaded (m : M) : Session M := ⟨m, [], false⟩

/-- A checkpoint is restored into the model; a failure spoils it. -/
def restore (files : CacheFiles M) (s : Session M) (key : PrefixCacheKey) :
    Except String Unit × Session M :=
  match files.restore s.model key with
  | (.ok u, m) => (.ok u, { s with model := m, fed := [] })
  | (.error e, m) => (.error e, { s with model := m, spoiled := true })

end Session

section Run

variable {M F : Type} (E : Engine M F) (sha256 : List UInt8 → Bytes 32) (env : CacheEnv)

end Run

end Qwen

end Logan
