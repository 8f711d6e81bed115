import Logan.State.Snapshot

/-!
# Prefix identity

A `PrefixKey` names a cached prefix: the model, the schema of its state, the
tokenizer and the plan, each by a fingerprint, and the tokens themselves,
with a hash of them. The hash is made by `PrefixKey.new`, and is right in
every key that is made so.
-/

namespace Logan

@[ext]
structure ModelFingerprint where
  digest : Bytes 32
deriving DecidableEq

@[ext]
structure TokenizerFingerprint where
  digest : Bytes 32
deriving DecidableEq

@[ext]
structure StateSchemaFingerprint where
  digest : Bytes 32
deriving DecidableEq

@[ext]
structure PlanFingerprint where
  digest : Bytes 32
deriving DecidableEq

/-- **The identity of a persisted entry**, by the hash of its tokens. -/
structure PrefixFingerprint where
  model : ModelFingerprint
  stateSchema : StateSchemaFingerprint
  tokenizer : TokenizerFingerprint
  plan : PlanFingerprint
  prefixTokenHash : UInt64
  prefixLen : UInt64
deriving DecidableEq

/-- **A cache key.** The tokens are kept, so that the lookup of the longest
prefix is exact. -/
@[ext]
structure PrefixKey where
  modelFingerprint : ModelFingerprint
  stateSchemaFingerprint : StateSchemaFingerprint
  tokenizerFingerprint : TokenizerFingerprint
  planFingerprint : PlanFingerprint
  prefixTokens : Vec 4 UInt32
  prefixTokenHash : UInt64
deriving DecidableEq

section Sha

variable (sha256 : List UInt8 → Bytes 32)

def checksumTokens (tokens : List UInt32) : Bytes 32 :=
  sha256 (utf8 "logan-prefix-tokens-v1" ++ wordsBytes tokens)

/-- The first eight bytes of the checksum. -/
def hashTokens (tokens : List UInt32) : UInt64 :=
  u64OfBytes ((checksumTokens sha256 tokens).val.take 8)

namespace PrefixKey

def new (modelFingerprint : ModelFingerprint) (stateSchemaFingerprint : StateSchemaFingerprint)
    (tokenizerFingerprint : TokenizerFingerprint) (planFingerprint : PlanFingerprint)
    (prefixTokens : Vec 4 UInt32) : PrefixKey where
  modelFingerprint := modelFingerprint
  stateSchemaFingerprint := stateSchemaFingerprint
  tokenizerFingerprint := tokenizerFingerprint
  planFingerprint := planFingerprint
  prefixTokens := prefixTokens
  prefixTokenHash := hashTokens sha256 prefixTokens.toList

/-- The number of tokens. -/
def prefixLen (key : PrefixKey) : UInt64 := UInt64.ofNat key.prefixTokens.toList.length

def fingerprint (key : PrefixKey) : PrefixFingerprint where
  model := key.modelFingerprint
  stateSchema := key.stateSchemaFingerprint
  tokenizer := key.tokenizerFingerprint
  plan := key.planFingerprint
  prefixTokenHash := key.prefixTokenHash
  prefixLen := key.prefixLen

/-- Whether two keys agree in all but their tokens. -/
def sameContract (key other : PrefixKey) : Bool :=
  key.modelFingerprint = other.modelFingerprint &&
    key.stateSchemaFingerprint = other.stateSchemaFingerprint &&
    key.tokenizerFingerprint = other.tokenizerFingerprint &&
    key.planFingerprint = other.planFingerprint

/-- `query.prefix_tokens.starts_with(&self.prefix_tokens)`, under the same
contract. -/
def isPrefixOf (key query : PrefixKey) : Bool :=
  key.sameContract query && key.prefixTokens.toList.isPrefixOf query.prefixTokens.toList

/-- A key of its own for every salt. -/
def withSalt (key : PrefixKey) (salt : List UInt8) : PrefixKey :=
  { key with modelFingerprint :=
      { digest := sha256 (utf8 "logan-prefix-salt-v1" ++
          (key.modelFingerprint.digest.val ++ salt)) } }

/-! ## The number of tokens -/

theorem toNat_prefixLen (key : PrefixKey) : key.prefixLen.toNat = key.prefixTokens.toList.length :=
  ByteCursor.toNat_ofNat_length key.prefixTokens (by decide)

end PrefixKey

end Sha

end Logan
