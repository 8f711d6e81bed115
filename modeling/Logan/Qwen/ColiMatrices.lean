import Logan.Format.Payload

/-!
# Decoding the matrices of a package

A matrix of a package is stored in one of several formats: as tiles of four-bit
floats, as groups of four-bit integers, or as codes of four to eight bits with a
scale and a bias for each group. The runtime decodes it to numbers of 32 bits, row
by row, and keeps the upper half of each of them.

What a processor does with these numbers is a parameter here. It is given by their
bits, by the numbers that integers are turned into, and by sums and products.
-/

namespace Logan

/-- **The arithmetic of `f32`.** -/
structure Floats (F : Type) where
  /-- `f32::from_bits` -/
  ofBits : UInt32 → F
  /-- `f32::to_bits` -/
  toBits : F → UInt32
  /-- `as f32` -/
  ofInt : ℤ → F
  add : F → F → F
  mul : F → F → F

namespace Coli

open Result Format

variable {F : Type}

/-! ## Numbers of 16 bits -/

variable (fl : Floats F)

/-- `f32_to_bf16`. The sum of the bits and of what rounds them wraps around. -/
def f32ToBf16 (f : F) : UInt16 :=
  let bits := fl.toBits f
  let rounding := (0x7fff : UInt32) + (bits >>> 16 &&& 1)
  ((bits + rounding) >>> 16).toUInt16

/-- `bf16_bytes` -/
def bf16Bytes (f : F) : List UInt8 := u16Bytes (f32ToBf16 fl f)

/-- `bf16_to_f32` -/
def bf16ToF32 (u : UInt16) : F := fl.ofBits (u.toUInt32 <<< 16)

/-! ## Tiles of four-bit floats -/

/-- `E2M1_MAGNITUDES`, by their bits: 0, 1/2, 1, 3/2, 2, 3, 4 and 6. -/
def e2m1Magnitudes : List UInt32 :=
  [0x00000000, 0x3f000000, 0x3f800000, 0x3fc00000, 0x40000000, 0x40400000, 0x40800000, 0x40c00000]

/-- The nibble of a column: the lower one of a byte comes first. -/
def nibbleOf (byte : UInt8) (c : ℕ) : UInt8 := if c % 2 = 0 then byte &&& 0x0f else byte >>> 4

/-- The value of a nibble of a row whose scale has the given code. -/
def e2m1Value (nibble code : UInt8) : F :=
  let scale := fl.ofBits (code.toUInt32 <<< 23)
  let mag := fl.ofBits (e2m1Magnitudes.getD (nibble &&& 0x07).toNat 0)
  let sign := fl.ofBits (if nibble &&& 0x08 ≠ 0 then 0xbf800000 else 0x3f800000)
  fl.mul (fl.mul sign mag) scale

/-- One round of the loop over the rows and columns of a tile. -/
def decodeTileEntry (tiles : List UInt8) (rows columns : ℕ) (rt ct r c : ℕ)
    (out : List F) : List F :=
  let tile := rt * ((columns + 31) / 32) + ct
  let base := tile * 136
  let byte := tiles.getD (base + (r * 16 + c / 2)) 0
  let code := tiles.getD (base + 128 + r) 0
  let outRow := rt * 8 + r
  let outCol := ct * 32 + c
  if outRow < rows ∧ outCol < columns then
    out.set (outRow * columns + outCol) (e2m1Value fl (nibbleOf byte c) code)
  else out

/-- `apple8_mxfp4_decode`. The product of the rows and the columns, whose tiles are in memory,
does not overflow. -/
def apple8Mxfp4Decode (tiles : List UInt8) (rows columns : ℕ) :
    Except FormatError (List F) := do
  let expected ← apple8TileBytes rows columns
  refuse (tiles.length ≠ expected)
    (invalid s!"Apple8 tile payload {tiles.length} != expected {expected}")
  pure ((List.range ((rows + 7) / 8)).foldl (fun out rt =>
    (List.range ((columns + 31) / 32)).foldl (fun out ct =>
      (List.range 8).foldl (fun out r =>
        (List.range 32).foldl (fun out c => decodeTileEntry fl tiles rows columns rt ct r c out)
          out) out) out)
    (List.replicate (rows * columns) (fl.ofBits 0)))

/-! ## Groups of four-bit integers -/

/-- The entry of a matrix in groups of 32 four-bit integers. -/
def int4Value (weights scales : List UInt8) (cols r c : ℕ) : F :=
  let byte := weights.getD (r * ((cols + 1) / 2) + c / 2) 0
  let q := (nibbleOf byte c).toNat - (8 : ℤ)
  let scale := u32OfBytes (slice scales ((r * ((cols + 31) / 32) + c / 32) * 4) 4)
  fl.mul (fl.ofInt q) (fl.ofBits scale)

/-- `int4_grouped_decode`. All places are inside the weights and the scales, whose lengths are
checked. -/
def int4GroupedDecode (weights scales : List UInt8) (rows cols : ℕ) :
    Except FormatError (List F) := do
  let wantWeights ← okOr (checkedProduct rows ((cols + 1) / 2))
    (usage "INT4 weight length overflows")
  let wantScales ← okOr (checkedProduct rows ((cols + 31) / 32))
    (usage "INT4 scale length overflows")
  refuse (weights.length ≠ wantWeights)
    (invalid s!"INT4 weight length {weights.length} != expected {wantWeights}")
  refuse (scales.length ≠ wantScales * 4)
    (invalid s!"INT4 scale length {scales.length} != expected {wantScales * 4}")
  pure ((List.range rows).flatMap fun r =>
    (List.range cols).map fun c => int4Value fl weights scales cols r c)

/-! ## Codes with a scale and a bias -/

/-- `mlx_affine_bits_from_math` -/
def mlxAffineBitsFromMath (math : UInt16) : Option ℕ :=
  if math = 0x23 then some 4
  else if math = 0x24 then some 5
  else if math = 0x25 then some 6
  else if math = 0x26 then some 8
  else none

/-- The entry of a matrix of codes, which are one stream of bits in each row. -/
def mlxAffineValue (packed scales biases : List UInt8)
    (columns bits groupSize row column : ℕ) : F :=
  let rowData := slice packed (row * (columns * bits / 8)) (columns * bits / 8)
  let bit := column * bits
  let byte := bit / 32 * 4
  let shift := bit % 32
  let lo := leNat (slice rowData byte 4)
  let combined :=
    if shift + bits > 32 then lo + leNat (slice rowData (byte + 4) 4) * 2 ^ 32 else lo
  let code := combined / 2 ^ shift % 2 ^ bits
  let group := row * (columns / groupSize) + column / groupSize
  let bf16At := fun bytes => bf16ToF32 fl (u16OfBytes (slice bytes (group * 2) 2))
  fl.add (fl.mul (fl.ofInt code) (bf16At scales)) (bf16At biases)

/-- `mlx_affine_decode` -/
def mlxAffineDecode (packed scales biases : List UInt8)
    (rows columns bits groupSize : ℕ) : Except String (List F) := do
  refuse (bits ∉ [4, 5, 6, 8]) s!"unsupported MLX affine bit width {bits}"
  refuse (rows = 0 ∨ columns = 0 ∨ groupSize = 0 ∨ columns % groupSize ≠ 0)
    s!"invalid MLX affine geometry rows={rows} columns={columns} group_size={groupSize}"
  let rowBits ← okOr (checkedProduct columns bits) "MLX affine row bit count overflows"
  refuse (rowBits % 32 ≠ 0)
    s!"MLX affine row uses {rowBits} bits, not an integral number of U32 words"
  let wantWeights ← okOr (checkedProduct rows (rowBits / 8))
    "MLX affine packed byte count overflows"
  refuse (packed.length ≠ wantWeights)
    s!"MLX affine packed payload {packed.length} bytes != expected {wantWeights}"
  let params ← okOr (checkedProduct rows (columns / groupSize))
    "MLX affine parameter count overflows"
  let wantParams ← okOr (checkedProduct params 2) "MLX affine parameter byte count overflows"
  refuse (scales.length ≠ wantParams ∨ biases.length ≠ wantParams)
    (s!"MLX affine scale/bias payloads {scales.length}/{biases.length} bytes " ++
      s!"!= expected {wantParams}")
  pure ((List.range rows).flatMap fun row => (List.range columns).map fun column =>
    mlxAffineValue fl packed scales biases columns bits groupSize row column)

/-- `decode_mlx_affine_expert_matrix` -/
def decodeMlxAffineExpertMatrix (math : UInt16) (groupSize : ℕ)
    (packed aux : List UInt8) (rows columns : ℕ) : Except String (List F) := do
  let bits ← okOr (mlxAffineBitsFromMath math)
    ("unsupported MLX affine math format 0x" ++ hex4 math)
  refuse (groupSize = 0 ∨ columns % groupSize ≠ 0)
    s!"invalid MLX affine expert group_size={groupSize} for {columns} columns"
  let paramBytes ← okOr (checkedProduct rows (columns / groupSize) >>= (checkedProduct · 2))
    "MLX affine expert parameter size overflows"
  let wantAux ← okOr (checkedProduct paramBytes 2) "MLX affine expert aux size overflows"
  refuse (aux.length ≠ wantAux)
    (s!"MLX affine expert aux payload {aux.length} bytes != expected {wantAux} " ++
      s!"({paramBytes} scales + {paramBytes} biases)")
  mlxAffineDecode fl packed (aux.take paramBytes) (aux.drop paramBytes) rows columns bits groupSize

end Coli

end Logan
