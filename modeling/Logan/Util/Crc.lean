import Mathlib.Tactic

/-!
# CRC-32C

The Castagnoli checksum: a state of 32 bits takes in the bytes one at a time,
each of them bit by bit, from the lowest on.
-/

namespace Logan

/-- One bit is shifted out of the state. -/
def crcShift (state : UInt32) : UInt32 :=
  if state &&& 1 = 1 then (state >>> 1) ^^^ 0x82f63b78 else state >>> 1

/-- One byte is taken in. -/
def crcByte (state : UInt32) (byte : UInt8) : UInt32 :=
  Nat.iterate crcShift 8 (state ^^^ byte.toUInt32)

/-- `crc32c_update`: some bytes are taken in. -/
def crc32cUpdate (state : UInt32) (bytes : List UInt8) : UInt32 := bytes.foldl crcByte state

/-- **The checksum** of some bytes. -/
def crc32c (bytes : List UInt8) : UInt32 := crc32cUpdate 0xffffffff bytes ^^^ 0xffffffff

/-- **Bytes can be taken in piece by piece.** -/
theorem crc32cUpdate_append (state : UInt32) (a b : List UInt8) :
    crc32cUpdate state (a ++ b) = crc32cUpdate (crc32cUpdate state a) b := List.foldl_append

/-- The check value of the Castagnoli polynomial. -/
example : crc32c [0x31, 0x32, 0x33, 0x34, 0x35, 0x36, 0x37, 0x38, 0x39] = 0xe3069283 := by
  decide +kernel

/-! ## One byte makes a difference -/

/-- A state is its half, and its lowest bit. -/
theorem toNat_eq_half (s : UInt32) : s.toNat = 2 * (s >>> 1).toNat + (s &&& 1).toNat ∧
    (s >>> 1).toNat < 2 ^ 31 ∧ (s &&& 1).toNat < 2 := by
  have hlt := s.toNat_lt
  have hone : (1 : UInt32).toNat = 1 := rfl
  rw [UInt32.toNat_shiftRight, UInt32.toNat_and, hone, Nat.and_one_is_mod,
    Nat.mod_eq_of_lt (by decide : 1 < 32), Nat.shiftRight_one]
  omega

/-- **A bit is shifted out of one state only**: a half has not the highest bit,
which the polynomial has. -/
theorem crcShift_injective : Function.Injective crcShift := by
  have hap (s u : UInt32) : s >>> 1 ^^^ (0x82f63b78 : UInt32) ≠ u >>> 1 := by
    intro h
    have hbit := congrArg (fun x : UInt32 => x.toNat.testBit 31) h
    rw [UInt32.toNat_xor, Nat.testBit_xor, Nat.testBit_lt_two_pow (toNat_eq_half s).2.1,
      Nat.testBit_lt_two_pow (toNat_eq_half u).2.1] at hbit
    exact absurd hbit (by decide)
  have hlow (s : UInt32) (hs : ¬ s &&& 1 = 1) : (s &&& 1).toNat = 0 := by
    have hne : (s &&& 1).toNat ≠ 1 := fun h => hs (UInt32.toNat_inj.mp h)
    have hlt := (toNat_eq_half s).2.2
    omega
  intro a b h
  obtain ⟨ha, -⟩ := toNat_eq_half a
  obtain ⟨hb, -⟩ := toNat_eq_half b
  unfold crcShift at h
  split_ifs at h with hbit hbit' hbit'
  · rw [UInt32.xor_left_inj] at h
    rw [hbit, h] at ha
    rw [hbit'] at hb
    exact UInt32.toNat_inj.mp (ha.trans hb.symm)
  · exact absurd h (hap a b)
  · exact absurd h.symm (hap b a)
  · rw [hlow a hbit, h] at ha
    rw [hlow b hbit'] at hb
    exact UInt32.toNat_inj.mp (ha.trans hb.symm)

theorem crcByte_injective (byte : UInt8) : Function.Injective fun state => crcByte state byte :=
  fun _ _ h => (UInt32.xor_left_inj _).mp (crcShift_injective.iterate 8 h)

/-- Of two bytes, a state takes in either in another way. -/
theorem crcByte_ne {a b : UInt8} (h : a ≠ b) (state : UInt32) : crcByte state a ≠ crcByte state b :=
  fun heq => h (UInt8.toUInt32_inj.mp
    ((UInt32.xor_right_inj state).mp (crcShift_injective.iterate 8 heq)))

theorem crc32cUpdate_injective (bytes : List UInt8) :
    Function.Injective fun state => crc32cUpdate state bytes := by
  induction bytes with
  | nil => exact fun _ _ h => h
  | cons byte bytes ih => exact fun _ _ h => crcByte_injective byte (ih h)

/-- **Bytes that differ in one place have different checksums.** -/
theorem crc32c_ne {a b : UInt8} (h : a ≠ b) (l r : List UInt8) :
    crc32c (l ++ a :: r) ≠ crc32c (l ++ b :: r) := by
  intro heq
  have hsam := (UInt32.xor_left_inj _).mp heq
  rw [crc32cUpdate_append, crc32cUpdate_append] at hsam
  exact crcByte_ne h _ (crc32cUpdate_injective r hsam)

end Logan
