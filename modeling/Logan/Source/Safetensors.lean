import Logan.Util.Fields
import Logan.Util.Intervals
import Logan.Util.Json

/-!
# The header of a shard

A shard of a model is a file in the safetensors format. Its header, a JSON object,
has an entry for each tensor: the type of its numbers, its shape, and where its
bytes are in the data that follows the header. `parseSafetensors` takes the object
apart, entry by entry, checks that the bytes of each tensor are as many as its
shape and type say and that they are in the file, and then sorts their ranges to
find out whether two of them overlap.

The sort is not stable: of ranges with the same start, either may come first.
-/

namespace Logan

namespace Source

open Json Result

/-- How a source cannot be read. -/
inductive ColicError where
  | invalidSource (path detail : String)
deriving DecidableEq

/-- **Where the bytes of a tensor are.** -/
structure TensorRef where
  source : String
  offset : ℕ
  len : ℕ
  dtype : String
  shape : List UInt64
deriving DecidableEq

/-- A file, of which the header has been read. -/
structure Shard where
  path : String
  payloadStart : ℕ
  fileLen : ℕ
  payload : payloadStart ≤ fileLen
  fits : fileLen ≤ usizeMax

/-- How many bytes of data there are. -/
def Shard.dataLen (shard : Shard) : ℕ := shard.fileLen - shard.payloadStart

/-- The range of a tensor, in the data. -/
structure TensorSpan where
  start : ℕ
  stop : ℕ
  name : String
deriving DecidableEq

/-- **`sort_unstable_by_key`**, of ranges by their starts. -/
structure SortByStart where
  sort : List TensorSpan → List TensorSpan
  perm : ∀ l, (sort l).Perm l
  sorted : ∀ l, (sort l).Pairwise fun a b => a.start ≤ b.start

/-- A merge sort does. -/
def SortByStart.mergeSort : SortByStart where
  sort l := l.mergeSort fun a b => a.start ≤ b.start
  perm l := l.mergeSort_perm _
  sorted l := by
    refine (l.pairwise_mergeSort (fun a b c hab hbc => ?_) fun a b => ?_).imp of_decide_eq_true
    · exact decide_eq_true ((of_decide_eq_true hab).trans (of_decide_eq_true hbc))
    · simpa using Nat.le_total a.start b.start

/-- `known_dtype` -/
def knownDtype (dtype : String) : Bool :=
  ["BOOL", "U8", "I8", "I16", "U16", "I32", "U32", "I64", "U64", "F16", "BF16", "F32", "F64",
    "F8_E4M3", "F8_E4M3FN", "F8_E4M3FNUZ", "F8_E5M2", "F8_E5M2FNUZ", "F8_E8M0",
    "F8_E8M0FNU"].contains dtype

/-- `dtype_size`, which is not called with another type. -/
def dtypeSize (dtype : String) : Option ℕ :=
  if ["BOOL", "U8", "I8", "F8_E4M3", "F8_E4M3FN", "F8_E4M3FNUZ", "F8_E5M2", "F8_E5M2FNUZ",
      "F8_E8M0", "F8_E8M0FNU"].contains dtype then some 1
  else if ["I16", "U16", "F16", "BF16"].contains dtype then some 2
  else if ["I32", "U32", "F32"].contains dtype then some 4
  else if ["I64", "U64", "F64"].contains dtype then some 8
  else none

/-- `invalid` -/
def Shard.invalid (shard : Shard) (detail : String) : Failure ColicError :=
  .error (.invalidSource shard.path detail)

/-- A pair of values: an array of another length is not one. -/
def pair? : List Value → Option (Value × Value)
  | [first, second] => some (first, second)
  | _ => none

/-- The number of elements of a shape, as long as it can be computed. -/
def elementCount (shape : List UInt64) : Option ℕ :=
  shape.foldlM (fun total dimension => checkedProduct total dimension.toNat) 1

/-- The body of the loop over the entries: the range of a tensor, and where its bytes are. -/
def parseTensor (shard : Shard) (entry : String × Value) :
    Except (Failure ColicError) (TensorSpan × String × TensorRef) := do
  let tensor := "tensor `" ++ entry.1 ++ "`"
  let descriptor ← okOr entry.2.asObject (shard.invalid (tensor ++ " descriptor is not an object"))
  let dtype ← okOr (((descriptor.lookup "dtype").bind Value.asStr).filter knownDtype)
    (shard.invalid (tensor ++ " has unsupported or missing dtype"))
  let dimensions ← okOr ((descriptor.lookup "shape").bind Value.asArray)
    (shard.invalid (tensor ++ " has missing shape"))
  let shape ← dimensions.mapM fun value =>
    okOr value.asU64 (shard.invalid (tensor ++ " has invalid shape dimension"))
  let offsets ← okOr (((descriptor.lookup "data_offsets").bind Value.asArray).bind pair?)
    (shard.invalid (tensor ++ " has invalid data_offsets"))
  let start ← okOr offsets.1.asU64 (shard.invalid (tensor ++ " has invalid start offset"))
  let stop ← okOr offsets.2.asU64 (shard.invalid (tensor ++ " has invalid end offset"))
  refuse (stop.toNat < start.toNat) (shard.invalid (tensor ++ " end offset precedes start"))
  let absoluteEnd ← okOr (checkedSum shard.payloadStart stop.toNat)
    (shard.invalid (tensor ++ " offset overflows u64"))
  refuse (shard.fileLen < absoluteEnd) (shard.invalid (tensor ++ " extends beyond file"))
  let elements ← okOr (elementCount shape)
    (shard.invalid (tensor ++ " element count overflows u64"))
  let size ← okOr (dtypeSize dtype) .panic
  let expectedBytes ← okOr (checkedProduct elements size)
    (shard.invalid (tensor ++ " byte count overflows u64"))
  refuse (stop.toNat - start.toNat ≠ expectedBytes)
    (shard.invalid (tensor ++ " span does not match its dtype and shape"))
  pure (⟨start.toNat, stop.toNat, entry.1⟩, entry.1,
    ⟨shard.path, shard.payloadStart + start.toNat, stop.toNat - start.toNat, dtype, shape⟩)

/-- The loop over neighbouring ranges. -/
def checkOverlap (shard : Shard) : List TensorSpan → Except (Failure ColicError) Unit
  | first :: second :: rest => do
    refuse (second.start < first.stop) (shard.invalid
      ("tensor ranges `" ++ first.name ++ "` and `" ++ second.name ++ "` overlap"))
    checkOverlap shard (second :: rest)
  | _ => pure ()

/-- **`parse_safetensors`**, of a header that has been parsed. -/
def parseSafetensors (sort : SortByStart) (shard : Shard) (header : Object) :
    Except (Failure ColicError) (List (String × TensorRef)) := do
  let tensors ← (header.fields.filter fun entry => entry.1 ≠ "__metadata__").mapM
    (parseTensor shard)
  checkOverlap shard (sort.sort (tensors.map Prod.fst))
  pure (tensors.map Prod.snd)

end Source

end Logan
