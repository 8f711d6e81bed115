import Logan.Qwen.ColiMatrices

/-!
# The experts of a package

The runtime reads the matrices of an expert from the record that has them: as BF16
bytes, for a processor to compute with, or as tiles, for the GPU. There is a reader
for each of the two, with its own way through the bytes of the record – an envelope,
and a descriptor for each of three matrices, with the formats of the matrix, its size
and the places of its weights and scales.

A package is opened without a look at these bytes. Both readers slice them wherever the
descriptors say, and panic where there is nothing.
-/

namespace Logan

namespace Coli

open Result Format Fault

/-- An error, which is a text: that of an error of the package reader, or one of its own. -/
inductive ColiError where
  | format (e : FormatError)
  | text (message : String)
deriving DecidableEq

/-! ## Opening a package -/

/-- `HF_PREFIX` -/
def hfPrefix : String := "model.language_model."

/-- The number that some decimal digits are, if there are any. -/
def digitsValue? (digits : List Char) : Option ℕ :=
  if digits = [] then none
  else digits.foldlM (fun n c => if c.isDigit then some (n * 10 + (c.toNat - 48)) else none) 0

/-- `parse::<i32>` -/
def parseI32 : List Char → Option ℤ
  | '-' :: digits => (digitsValue? digits).bind fun n => if n ≤ 2 ^ 31 then some (-n) else none
  | '+' :: digits => (digitsValue? digits).bind fun n => if n < 2 ^ 31 then some n else none
  | digits => (digitsValue? digits).bind fun n => if n < 2 ^ 31 then some n else none

/-- `parse::<usize>` -/
def parseUsize : List Char → Option ℕ
  | '+' :: digits => (digitsValue? digits).bind (fitting usizeMax)
  | digits => (digitsValue? digits).bind (fitting usizeMax)

/-- `split_once` -/
def splitOnce (pattern : List Char) : List Char → Option (List Char × List Char)
  | [] => if pattern = [] then some ([], []) else none
  | c :: rest =>
    if pattern.isPrefixOf (c :: rest) then some ([], (c :: rest).drop pattern.length)
    else (splitOnce pattern rest).map fun parts => (c :: parts.1, parts.2)

/-- The layer and the number of a shard of n-gram rows, if a record is one. -/
def pleShardOf (record : RecordInfo) : Except ColiError (Option (ℤ × ℕ)) :=
  match record.name with
  | none => .ok none
  | some full =>
    let name := (full.toList.dropPrefix? hfPrefix.toList).getD full.toList
    match name.dropPrefix? "layers.".toList >>=
        splitOnce ".ple.ple_embedding.ngram_embedding.shard_".toList with
    | none => .ok none
    | some (layer, shard) => do
      let layer ← okOr (parseI32 layer)
        (.text ("invalid PLE layer in " ++ String.ofList name))
      let shard ← okOr (parseUsize shard)
        (.text ("invalid PLE shard in " ++ String.ofList name))
      pure (some (layer, shard))

/-- `entry(layer).or_default().push(entry)`, in a map given by its entries. -/
def pushTo (layer : ℤ) (entry : ℕ × ℕ) : List (ℤ × List (ℕ × ℕ)) → List (ℤ × List (ℕ × ℕ))
  | [] => [(layer, [entry])]
  | (other, entries) :: rest =>
    if other = layer then (other, entries ++ [entry]) :: rest
    else (other, entries) :: pushTo layer entry rest

/-- The shards of a layer, in the order of their numbers. -/
def layerShards (layer : ℤ) (shards : List (ℕ × ℕ)) : Except ColiError (ℤ × List ℕ) := do
  let sorted := shards.mergeSort fun a b => decide (a.1 < b.1 ∨ a.1 = b.1 ∧ a.2 ≤ b.2)
  refuse (sorted.zipIdx.any fun s => s.2 ≠ s.1.1)
    (.text s!"PLE layer {layer}: shard indices must be unique and contiguous from zero")
  pure (layer, sorted.map Prod.snd)

/-- `index_ple_shards`. The entries of the map that it returns are in no order of importance. -/
def indexPleShards (records : List RecordInfo) : Except ColiError (List (ℤ × List ℕ)) := do
  let grouped ← records.zipIdx.foldlM (fun grouped rec =>
      if rec.1.kind ≠ 1 then pure grouped
      else do
        match ← pleShardOf rec.1 with
        | none => pure grouped
        | some (layer, shard) => pure (pushTo layer (shard, rec.2) grouped)) []
  grouped.mapM fun entry => layerShards entry.1 entry.2

/-- `ColiSource` -/
structure ColiSource where
  pkg : Package
  pleShards : List (ℤ × List ℕ)

/-- `ColiSource::open` -/
def ColiSource.openDir (crc32c : List UInt8 → UInt32) (d : Directory) :
    Except ColiError ColiSource := do
  let pkg ← (openPackage crc32c d).mapError ColiError.format
  let pleShards ← indexPleShards pkg.records
  pure { pkg, pleShards }

/-! ## What both readers call -/

/-- `map_err(|e| e.to_string())` -/
def orText {A : Type} : Except (Fault FormatError) A → Except (Fault ColiError) A
  | .ok a => .ok a
  | .error (.failed e) => .error (.failed (.format e))
  | .error .panicked => .error .panicked

/-- `&raw[offset as usize..(offset + len) as usize]` -/
def slicedAt (raw : List UInt8) (offset len : ℕ) : Option (List UInt8) :=
  checkedSum offset len >>= range? raw offset

/-- The bytes of an expert, after the magic of its envelope has been asserted. -/
def expertRecord (crc32c : List UInt8 → UInt32) (source : ColiSource) (layer expert : Int32) :
    Except (Fault ColiError) (List UInt8) := do
  let rec ← lift (okOr (source.pkg.expertRecords layer.toUInt32 expert.toUInt32).head?
    (.text ("missing expert (" ++ toString layer.toInt ++ "," ++ toString expert.toInt ++ ")")))
  let raw ← orText (lift (readRecord crc32c source.pkg rec))
  let magic ← orPanic (range? raw 0 8)
  orPanic (if magic = expertMagic then some raw else none)

/-! ## Matrices -/

/-- `ColiWt`, a matrix as it is kept in memory. -/
structure ColiWt where
  bytes : List UInt8
  scales : List UInt8
  fmt : ℕ
  o : ℕ
  i : ℕ
deriving DecidableEq

section Matrices

variable {F : Type} (fl : Floats F) (crc32c : List UInt8 → UInt32) (source : ColiSource)
  (layer expert : Int32) (raw : List UInt8)

/-- The numbers of a matrix, as BF16 bytes. -/
def bf16Matrix (f : List F) : List UInt8 := f.flatMap (bf16Bytes fl)

/-- The beginning of an error about a matrix. -/
def matrixLabel (i : ℕ) : String :=
  "expert " ++ toString layer.toInt ++ "/" ++ toString expert.toInt ++ " m" ++ toString i

/-- The tiles of a matrix: those of its weights, which may be coded. -/
def matrixTiles (i : ℕ) (wc : UInt16) (wt : UInt32) (rows cols wDecoded : ℕ) (w : List UInt8) :
    Except (Fault ColiError) (List UInt8) :=
  if wc = RansReader.codecId then do
    let table ← orText (RansReader.Guarded.fromManifest crc32c source.pkg.manifest wt wc)
    orText (apple8Decode w table rows cols)
  else do
    lift (refuse (w.length ≠ wDecoded) (.text (matrixLabel layer expert i ++ " raw tile size")))
    pure w

/-- The BF16 bytes of a matrix, by its formats. -/
def matrixBytes (i d : ℕ) (math scale wc : UInt16) (wt : UInt32)
    (rows cols wDecoded sOff sStored : ℕ) (w : List UInt8) :
    Except (Fault ColiError) (List UInt8) :=
  if math = 0x0003 ∧ scale = 0x0000 then pure w
  else if math = int4MathFormat ∧ scale = int4ScaleFormat then do
    let s ← orPanic (slicedAt raw sOff sStored)
    let f ← orText (lift (int4GroupedDecode fl w s rows cols))
    pure (bf16Matrix fl f)
  else if (0x23 ≤ math ∧ math ≤ 0x26) ∧ scale = 0x0003 then do
    let aux ← orPanic (slicedAt raw sOff sStored)
    let groupSize ← orPanic (u32At? raw (d + 104))
    let f ← lift ((decodeMlxAffineExpertMatrix fl math groupSize.toNat w aux rows cols).mapError
      ColiError.text)
    pure (bf16Matrix fl f)
  else if math = 0x0020 ∧ scale = 0x0004 then do
    let tiles ← matrixTiles crc32c source layer expert i wc wt rows cols wDecoded w
    let f ← orText (lift (apple8Mxfp4Decode fl tiles rows cols))
    pure (bf16Matrix fl f)
  else lift (.error (.text (matrixLabel layer expert i ++ " unsupported math=0x" ++ hex4 math ++
    " scale=0x" ++ hex4 scale)))

/-- One round of the loop of `expert_matrices`. -/
def expertMatrix (descSize i : ℕ) : Except (Fault ColiError) ColiWt := do
  let d := 64 + i * descSize
  let _ ← orPanic (u16At? raw d)
  let math ← orPanic (u16At? raw (d + 4))
  let scale ← orPanic (u16At? raw (d + 6))
  let wc ← orPanic (u16At? raw (d + 8))
  let wt ← orPanic (u32At? raw (d + 40))
  let rows ← orPanic (u64At? raw (d + 16))
  let cols ← orPanic (u64At? raw (d + 24))
  let wOff ← orPanic (u64At? raw (d + 48))
  let wStored ← orPanic (u64At? raw (d + 56))
  let wDecoded ← orPanic (u64At? raw (d + 64))
  let sOff ← orPanic (u64At? raw (d + 72))
  let sStored ← orPanic (u64At? raw (d + 80))
  let w ← orPanic (slicedAt raw wOff.toNat wStored.toNat)
  let bytes ← matrixBytes fl crc32c source layer expert raw i d math scale wc wt rows.toNat
    cols.toNat wDecoded.toNat sOff.toNat sStored.toNat w
  pure { bytes, scales := [], fmt := 5, o := rows.toNat, i := cols.toNat }

/-- `expert_matrices`: the three matrices of an expert. -/
def ColiSource.expertMatrices : Except (Fault ColiError) (List ColiWt) := do
  let raw ← expertRecord crc32c source layer expert
  let descSize ← orPanic (u32At? raw 28)
  (List.range 3).mapM (expertMatrix fl crc32c source layer expert raw descSize.toNat)

end Matrices

/-! ## Tiles -/

/-- `RawExpert`, a matrix as the GPU has it. -/
structure RawExpert where
  tiles : List UInt8
  scales : List UInt8
  rows : ℕ
  cols : ℕ
  fmt : ℕ
deriving DecidableEq

section Tiles

variable (crc32c : List UInt8 → UInt32) (source : ColiSource) (layer expert : Int32)
  (raw : List UInt8)

/-- The tiles of a matrix, for the GPU. The table of a coded matrix is the one whose number is
that of the codec. -/
def gpuTiles (i : ℕ) (math scale wc : UInt16) (rows cols : ℕ) (w : List UInt8) :
    Except (Fault ColiError) (List UInt8) :=
  if math = 0x0020 ∧ scale = 0x0004 then
    if wc ≠ RansReader.codecId then pure w
    else do
      let table ← orText
        (RansReader.Guarded.fromManifest crc32c source.pkg.manifest wc.toUInt32 wc)
      orText (apple8Decode w table rows cols)
  else lift (.error (.text (matrixLabel layer expert i ++ " math=0x" ++ hex4 math ++
    " scale=0x" ++ hex4 scale ++ " not raw-GPU")))

/-- One round of the loop of `expert_tiles`. -/
def expertTile (descSize i : ℕ) : Except (Fault ColiError) RawExpert := do
  let d := 64 + i * descSize
  let math ← orPanic (u16At? raw (d + 4))
  let scale ← orPanic (u16At? raw (d + 6))
  let wc ← orPanic (u16At? raw (d + 8))
  let rows ← orPanic (u64At? raw (d + 16))
  let cols ← orPanic (u64At? raw (d + 24))
  let wOff ← orPanic (u64At? raw (d + 48))
  let wStored ← orPanic (u64At? raw (d + 56))
  let _ ← orPanic (u64At? raw (d + 64))
  let sOff ← orPanic (u64At? raw (d + 72))
  let sStored ← orPanic (u64At? raw (d + 80))
  let w ← orPanic (slicedAt raw wOff.toNat wStored.toNat)
  let s ← orPanic (slicedAt raw sOff.toNat sStored.toNat)
  let tiles ← gpuTiles crc32c source layer expert i math scale wc rows.toNat cols.toNat w
  pure { tiles, scales := s, rows := rows.toNat, cols := cols.toNat, fmt := 7 }

/-- `expert_tiles`: the three matrices of an expert, for the GPU. -/
def ColiSource.expertTiles : Except (Fault ColiError) (List RawExpert) := do
  let raw ← expertRecord crc32c source layer expert
  let descSize ← orPanic (u32At? raw 28)
  (List.range 3).mapM (expertTile crc32c source layer expert raw descSize.toNat)

end Tiles

end Coli

end Logan
