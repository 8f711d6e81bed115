import Logan.Qwen.ColiAgreement
import Logan.Util.BitStream
import Logan.Util.Chunks

/-!
# Codes in a stream of bits

The codes of a matrix are one stream of bits in each row. The decoder reads them by words
of 32 bits, one or two of them, since a code of five or six bits may begin in one word and
end in the next. It is shown that it gets the window of the stream that the code is, for
every payload that it accepts; that all that it reads is inside; and that codes which have
been packed in a stream come back.
-/

namespace Logan

open List

namespace Coli

open Result

variable {F : Type} {fl : Floats F} {packed scales biases : List UInt8}
  {rows columns bits groupSize : ℕ} {out : List F}

/-- The code of an entry: a window of the bits of its row. -/
def codeAt (packed : List UInt8) (columns bits row column : ℕ) : ℕ :=
  bitsAt (slice packed (row * (columns * bits / 8)) (columns * bits / 8)) (column * bits) bits

/-- An entry of the scales or of the biases. -/
def paramAt (fl : Floats F) (params : List UInt8) (group : ℕ) : F :=
  bf16ToF32 fl (u16OfBytes (slice params (group * 2) 2))

/-- **The one word or the two words of an entry have its code.** -/
theorem mlxAffineValue_eq (hbit : bits ≤ 32) (row column : ℕ) :
    mlxAffineValue fl packed scales biases columns bits groupSize row column
      = fl.add (fl.mul (fl.ofInt (codeAt packed columns bits row column))
          (paramAt fl scales (row * (columns / groupSize) + column / groupSize)))
        (paramAt fl biases (row * (columns / groupSize) + column / groupSize)) := by
  have hwor (l : List UInt8) (bit : ℕ) : (if bit % 32 + bits > 32 then
          leNat (slice l (bit / 32 * 4) 4) + leNat (slice l (bit / 32 * 4 + 4) 4) * 2 ^ 32
        else leNat (slice l (bit / 32 * 4) 4)) / 2 ^ (bit % 32) % 2 ^ bits = bitsAt l bit bits := by
    have hst : 8 * (bit / 32 * 4) + bit % 32 = bit := by omega
    have hnex : 8 * (bit / 32 * 4 + 4) = 8 * (bit / 32 * 4) + 32 := by omega
    split_ifs with htwo
    · rw [leNat_slice, leNat_slice, hnex, ← bitsAt_add, bitsAt_window (by omega), hst]
    · rw [leNat_slice, bitsAt_window (by omega), hst]
  unfold mlxAffineValue
  dsimp only
  rw [hwor]
  rfl

/-- **What the decoder accepts**, by the lengths of the payloads. -/
def Accepted (weights scales biases rows columns bits groupSize : ℕ) : Prop :=
  bits ∈ [4, 5, 6, 8] ∧
  (rows ≠ 0 ∧ columns ≠ 0 ∧ groupSize ≠ 0 ∧ columns % groupSize = 0) ∧
  columns * bits ≤ usizeMax ∧ columns * bits % 32 = 0 ∧
  rows * (columns * bits / 8) ≤ usizeMax ∧ weights = rows * (columns * bits / 8) ∧
  rows * (columns / groupSize) ≤ usizeMax ∧ rows * (columns / groupSize) * 2 ≤ usizeMax ∧
  scales = rows * (columns / groupSize) * 2 ∧ biases = rows * (columns / groupSize) * 2

theorem mlxAffineDecode_eq_ok :
    mlxAffineDecode fl packed scales biases rows columns bits groupSize = .ok out ↔
      Accepted packed.length scales.length biases.length rows columns bits groupSize ∧
      out = (List.range rows).flatMap fun row => (List.range columns).map fun column =>
        mlxAffineValue fl packed scales biases columns bits groupSize row column := by
  simp only [mlxAffineDecode, Accepted, bind_eq_ok, refuse_eq_ok, okOr_eq_ok,
    checkedProduct_eq_some, exists_const, and_assoc, exists_eq_left', not_or, ne_eq,
    not_not, pure_eq, Except.ok.injEq, eq_comm (a := out)]

/-- What is read for an entry is inside the payloads. -/
structure Inside (packed scales biases : List UInt8) (columns bits groupSize row column : ℕ) :
    Prop where
  row_le : (row + 1) * (columns * bits / 8) ≤ packed.length
  word : column * bits / 32 * 4 + 4 ≤ columns * bits / 8
  next : column * bits % 32 + bits > 32 → column * bits / 32 * 4 + 8 ≤ columns * bits / 8
  scale : (row * (columns / groupSize) + column / groupSize) * 2 + 2 ≤ scales.length
  bias : (row * (columns / groupSize) + column / groupSize) * 2 + 2 ≤ biases.length

theorem Accepted.inside {row column : ℕ} (hrow : row < rows) (hcol : column < columns)
    (h : Accepted packed.length scales.length biases.length rows columns bits groupSize) :
    Inside packed scales biases columns bits groupSize row column := by
  obtain ⟨hbit, ⟨-, -, hsiz, hgr⟩, -, hwor, -, hpac, -, -, hsc, hbss⟩ := h
  have hfr : 4 ≤ bits := by
    fin_cases hbit <;> decide
  have hend : column * bits + bits ≤ columns * bits := by
    rw [← Nat.succ_mul]
    exact Nat.mul_le_mul_right bits hcol
  have hgrp : (row * (columns / groupSize) + column / groupSize) * 2 + 2
      ≤ rows * (columns / groupSize) * 2 := by
    have hlt : column / groupSize < columns / groupSize :=
      Nat.div_lt_div_of_lt_of_dvd (Nat.dvd_of_mod_eq_zero hgr) hcol
    have hrws : (row + 1) * (columns / groupSize) ≤ rows * (columns / groupSize) :=
      Nat.mul_le_mul_right _ hrow
    rw [Nat.succ_mul] at hrws
    omega
  exact ⟨hpac ▸ Nat.mul_le_mul_right _ hrow, by omega, by omega, hsc ▸ hgrp,
    hbss ▸ hgrp⟩

/-- The bytes of a matrix of codes, row by row. -/
def packCodes (rows columns bits : ℕ) (codes : ℕ → ℕ → ℕ) : List UInt8 :=
  ((List.range rows).map fun row => packBits bits ((List.range columns).map (codes row))).flatten

/-- **Decoding reads the streams of bits** of the rows, inside the payloads; and a matrix of codes
that has been packed in such a stream is got back. -/
theorem mlxAffineDecode_stream
    (h : mlxAffineDecode fl packed scales biases rows columns bits groupSize = .ok out) :
    out.length = rows * columns ∧ (∀ row < rows, ∀ column < columns,
      Inside packed scales biases columns bits groupSize row column ∧
      out[row * columns + column]? = some (fl.add (fl.mul
        (fl.ofInt (codeAt packed columns bits row column))
        (paramAt fl scales (row * (columns / groupSize) + column / groupSize)))
        (paramAt fl biases (row * (columns / groupSize) + column / groupSize))) ∧
      codeAt packed columns bits row column < 2 ^ bits ∧
      ∀ k < bits, (codeAt packed columns bits row column).testBit k
        = (packed.getD (row * (columns * bits / 8) + (column * bits + k) / 8) 0).toNat.testBit
            ((column * bits + k) % 8)) ∧
    ∀ codes : ℕ → ℕ → ℕ, (∀ row column, codes row column < 2 ^ bits) →
      (∃ out', mlxAffineDecode fl (packCodes rows columns bits codes) scales biases rows columns
        bits groupSize = .ok out') ∧ ∀ row < rows, ∀ column < columns,
        codeAt (packCodes rows columns bits codes) columns bits row column = codes row column := by
  obtain ⟨hacc, rfl⟩ := mlxAffineDecode_eq_ok.mp h
  have hbit : 0 < bits ∧ bits ≤ 32 := by
    have hmem := hacc.1
    fin_cases hmem <;> decide
  have hwor : 32 ∣ columns * bits := Nat.dvd_of_mod_eq_zero hacc.2.2.2.1
  have hrws : ∀ r ∈ (List.range rows).map fun row => (List.range columns).map fun column =>
      mlxAffineValue fl packed scales biases columns bits groupSize row column,
      r.length = columns := by
    intro r hr
    obtain ⟨row, -, rfl⟩ := mem_map.mp hr
    rw [length_map, length_range]
  have hpac : ∀ codes : ℕ → ℕ → ℕ, ∀ r ∈ (List.range rows).map fun row =>
      packBits bits ((List.range columns).map (codes row)), r.length = columns * bits / 8 := by
    intro codes r hr
    obtain ⟨row, -, rfl⟩ := mem_map.mp hr
    rw [length_packBits, length_map, length_range]
  refine ⟨?_, fun row hrow column hcol => ?_, fun codes hcod => ⟨?_, ?_⟩⟩
  · rw [List.flatMap, length_flatten_of_rows hrws, length_map, length_range, Nat.mul_comm]
  · have hins := hacc.inside hrow hcol
    refine ⟨hins, ?_, Nat.mod_lt _ (Nat.two_pow_pos bits), fun k hk => ?_⟩
    · rw [List.flatMap, Nat.mul_comm, getElem?_flatten_of_rows hrws
        (by rw [length_map, length_range]; exact hrow) hcol, getElem_map,
        getElem_range, List.getElem?_map, List.getElem?_range hcol, Option.map_some,
        mlxAffineValue_eq hbit.2]
    · have hend := (Nat.succ_mul column bits).symm.trans_le (Nat.mul_le_mul_right bits hcol)
      rw [codeAt, testBit_bitsAt hk, getD_eq_getElem?_getD, getD_eq_getElem?_getD,
        getElem?_slice (by omega)]
  · refine ⟨_, mlxAffineDecode_eq_ok.mpr ⟨?_, rfl⟩⟩
    rwa [packCodes, length_flatten_of_rows (hpac codes), length_map, length_range,
      Nat.mul_comm, ← hacc.2.2.2.2.2.1]
  · intro row hrow column hcol
    have hlen : ((List.range columns).map (codes row)).length = columns := by
      rw [length_map, length_range]
    have hful : 8 ∣ ((List.range columns).map (codes row)).length * bits :=
      hlen.symm ▸ (by decide : 8 ∣ 32).trans hwor
    have hlt : ∀ code ∈ (List.range columns).map (codes row), code < 2 ^ bits := by
      intro code hcd
      obtain ⟨column, -, rfl⟩ := mem_map.mp hcd
      exact hcod row column
    rw [codeAt, slice, packCodes, Nat.mul_comm row, slice_flatten_of_rows (hpac codes)
      (by rw [length_map, length_range]; exact hrow), getElem_map,
      getElem_range, bitsAt_packBits hbit.1.ne' hful hlt (hlen.symm ▸ hcol),
      getElem_map, getElem_range]

/-- Numbers that are integers, with the bits of the first ones. -/
def smallFloats : Floats ℤ where
  ofBits b := if b = 0x40000000 then 2 else if b = 0x3f800000 then 1 else 0
  toBits f := if f = 2 then 0x40000000 else if f = 1 then 0x3f800000 else 0
  ofInt := id
  add := (· + ·)
  mul := (· * ·)

/-- A row of 32 codes of five bits, in two groups: both are scaled by 2, and the second one is
moved by 1. -/
theorem mlxAffineDecode_stream_five : ∃ out,
    mlxAffineDecode smallFloats (packCodes 1 32 5 fun _ column => 31 - column) [0, 0x40, 0, 0x40]
        [0, 0, 0x80, 0x3f] 1 32 5 16 = .ok out ∧
      ∀ column < 32, out[column]? = some (2 * (31 - column : ℕ) + (column / 16 : ℕ) : ℤ) := by
  refine ⟨_, rfl, fun column hcol => ?_⟩
  have hstr := @mlxAffineDecode_stream _ smallFloats (packCodes 1 32 5 fun _ column => 31 - column)
    [0, 0x40, 0, 0x40] [0, 0, 0x80, 0x3f] 1 32 5 16 _ rfl
  have hout := (hstr.2.1 0 Nat.zero_lt_one column hcol).2.1
  have hcod := (hstr.2.2 (fun _ column => 31 - column) fun _ _ => by omega).2 0 Nat.zero_lt_one
    column hcol
  have hpar : ∀ group < 2, paramAt smallFloats [0, 0x40, 0, 0x40] group = 2 ∧
      paramAt smallFloats [0, 0, 0x80, 0x3f] group = group := by decide +kernel
  obtain ⟨hsc, hbss⟩ := hpar (column / 16) (Nat.div_lt_of_lt_mul hcol)
  rw [hcod, Nat.zero_mul, Nat.zero_add, Nat.zero_add, hsc, hbss] at hout
  refine hout.trans (congrArg some ?_)
  show ((31 - column : ℕ) : ℤ) * 2 + _ = _
  ring

end Coli
end Logan
