import Mathlib.Tactic

/-!
# Little-endian numbers

The bytes of a number, the lowest first, and the number that some bytes are.
Each undoes the other, as long as the number of bytes is fixed. A list of
32-bit words is the list of their bytes; it is read back four bytes at a
time.
-/

namespace Logan

open List

/-- The lowest `n` bytes of a number, the lowest first. -/
def leBytes : ℕ → ℕ → List UInt8
  | 0, _ => []
  | n + 1, v => UInt8.ofNat v :: leBytes n (v / 256)

/-- The number that these bytes are. -/
def leNat : List UInt8 → ℕ
  | [] => 0
  | b :: bs => b.toNat + 256 * leNat bs

@[simp] theorem length_leBytes (n v : ℕ) : (leBytes n v).length = n := by
  induction n generalizing v with
  | zero => rfl
  | succ n ih => rw [leBytes, length_cons, ih]

theorem leNat_lt (l : List UInt8) : leNat l < 256 ^ l.length := by
  induction l with
  | nil => exact Nat.one_pos
  | cons b =>
    have hb : b.toNat < 256 := b.toNat_lt
    rw [leNat, length_cons, pow_succ]
    omega

/-- **A number is read back** from its bytes. -/
theorem leNat_leBytes {n v : ℕ} (h : v < 256 ^ n) : leNat (leBytes n v) = v := by
  induction n generalizing v with
  | zero => rw [pow_zero] at h; simp only [leBytes, leNat]; omega
  | succ n ih =>
    have hres : v / 256 < 256 ^ n := by
      rw [pow_succ] at h
      exact Nat.div_lt_of_lt_mul (by rw [mul_comm]; exact h)
    rw [leBytes, leNat, ih hres, UInt8.toNat_ofNat']
    exact Nat.mod_add_div v 256

/-- **Bytes are got back** from the number that they are. -/
theorem leBytes_leNat (l : List UInt8) : leBytes l.length (leNat l) = l := by
  induction l with
  | nil => rfl
  | cons b bs ih =>
    have hb : b.toNat < 256 := b.toNat_lt
    rw [length_cons, leBytes, leNat, Nat.add_mul_div_left _ _ (by decide : 0 < 256),
      Nat.div_eq_of_lt hb, zero_add, ih]
    refine congrArg (· :: bs) (UInt8.toNat_inj.mp ?_)
    rw [UInt8.toNat_ofNat']
    omega

/-! ## Words -/

/-- `u16::to_le_bytes` -/
def u16Bytes (x : UInt16) : List UInt8 := leBytes 2 x.toNat

/-- `u32::to_le_bytes` -/
def u32Bytes (x : UInt32) : List UInt8 := leBytes 4 x.toNat

/-- `u64::to_le_bytes` -/
def u64Bytes (x : UInt64) : List UInt8 := leBytes 8 x.toNat

/-- `u16::from_le_bytes` -/
def u16OfBytes (l : List UInt8) : UInt16 := UInt16.ofNat (leNat l)

/-- `u32::from_le_bytes` -/
def u32OfBytes (l : List UInt8) : UInt32 := UInt32.ofNat (leNat l)

/-- `u64::from_le_bytes` -/
def u64OfBytes (l : List UInt8) : UInt64 := UInt64.ofNat (leNat l)

@[simp] theorem length_u16Bytes (x : UInt16) : (u16Bytes x).length = 2 := length_leBytes _ _

@[simp] theorem length_u32Bytes (x : UInt32) : (u32Bytes x).length = 4 := length_leBytes _ _

@[simp] theorem length_u64Bytes (x : UInt64) : (u64Bytes x).length = 8 := length_leBytes _ _

@[simp] theorem u16OfBytes_u16Bytes (x : UInt16) : u16OfBytes (u16Bytes x) = x := by
  unfold u16OfBytes u16Bytes
  rw [leNat_leBytes (by have := x.toNat_lt; norm_num; omega)]
  exact UInt16.ofNat_toNat

@[simp] theorem u32OfBytes_u32Bytes (x : UInt32) : u32OfBytes (u32Bytes x) = x := by
  unfold u32OfBytes u32Bytes
  rw [leNat_leBytes (by have := x.toNat_lt; norm_num; omega)]
  exact UInt32.ofNat_toNat

@[simp] theorem u64OfBytes_u64Bytes (x : UInt64) : u64OfBytes (u64Bytes x) = x := by
  unfold u64OfBytes u64Bytes
  rw [leNat_leBytes (by have := x.toNat_lt; norm_num; omega)]
  exact UInt64.ofNat_toNat

variable {l : List UInt8}

/-- Two bytes are those of the word read from them. -/
theorem u16Bytes_u16OfBytes (h : l.length = 2) : u16Bytes (u16OfBytes l) = l := by
  have hlt := leNat_lt l
  rw [h] at hlt
  unfold u16Bytes u16OfBytes
  rw [UInt16.toNat_ofNat', Nat.mod_eq_of_lt (by norm_num at hlt ⊢; exact hlt), ← h]
  exact leBytes_leNat l

/-- Four bytes are those of the word read from them. -/
theorem u32Bytes_u32OfBytes (h : l.length = 4) : u32Bytes (u32OfBytes l) = l := by
  have hlt := leNat_lt l
  rw [h] at hlt
  unfold u32Bytes u32OfBytes
  rw [UInt32.toNat_ofNat', Nat.mod_eq_of_lt (by norm_num at hlt ⊢; exact hlt), ← h]
  exact leBytes_leNat l

/-- Eight bytes are those of the word read from them. -/
theorem u64Bytes_u64OfBytes (h : l.length = 8) : u64Bytes (u64OfBytes l) = l := by
  have hlt := leNat_lt l
  rw [h] at hlt
  unfold u64Bytes u64OfBytes
  rw [UInt64.toNat_ofNat', Nat.mod_eq_of_lt (by norm_num at hlt ⊢; exact hlt), ← h]
  exact leBytes_leNat l

/-! ## Lists of words -/

/-- The bytes of a list of words, one word after the other. -/
def wordsBytes (l : List UInt32) : List UInt8 := l.flatMap u32Bytes

/-- `chunks_exact(4)`, each chunk read as a word. -/
def wordsOfBytes : List UInt8 → List UInt32
  | a :: b :: c :: d :: rest => u32OfBytes [a, b, c, d] :: wordsOfBytes rest
  | _ => []

@[simp] theorem length_wordsBytes (l : List UInt32) : (wordsBytes l).length = 4 * l.length := by
  induction l with
  | nil => rfl
  | cons x l ih =>
    rw [wordsBytes, flatMap_cons, length_append, length_u32Bytes]
    rw [wordsBytes] at ih
    rw [ih, length_cons]
    omega

/-- **A list of words is read back** from its bytes. -/
@[simp] theorem wordsOfBytes_wordsBytes (l : List UInt32) : wordsOfBytes (wordsBytes l) = l := by
  induction l with
  | nil => rfl
  | cons x l ih =>
    have hx : u32OfBytes (u32Bytes x) = x := u32OfBytes_u32Bytes x
    rw [wordsBytes] at ih
    rw [wordsBytes, flatMap_cons]
    simp only [u32Bytes, leBytes, cons_append, nil_append, wordsOfBytes] at hx ih ⊢
    rw [hx, ih]

/-- **Bytes are those of the words read from them**, if they are a whole
number of words. -/
theorem wordsBytes_wordsOfBytes {n : ℕ} (h : l.length = 4 * n) :
    wordsBytes (wordsOfBytes l) = l := by
  induction n generalizing l with
  | zero => rw [length_eq_zero_iff.mp h]; rfl
  | succ n ih =>
    obtain _ | ⟨a, _ | ⟨b, _ | ⟨c, _ | ⟨d, rest⟩⟩⟩⟩ := l
    all_goals simp only [length_nil, length_cons] at h
    all_goals try omega
    have hres : rest.length = 4 * n := by omega
    rw [wordsOfBytes, wordsBytes, flatMap_cons, u32Bytes_u32OfBytes rfl]
    show [a, b, c, d] ++ wordsBytes (wordsOfBytes rest) = _
    rw [ih hres]
    rfl

/-! ## A fixed number of bytes -/

/-- `[u8; n]` -/
abbrev Bytes (n : ℕ) : Type := {l : List UInt8 // l.length = n}

/-- `try_into` from a slice to an array. -/
def Bytes.ofList? (n : ℕ) (l : List UInt8) : Option (Bytes n) :=
  if h : l.length = n then some ⟨l, h⟩ else none

theorem Bytes.ofList?_eq_some {n : ℕ} {a : Bytes n} :
    Bytes.ofList? n l = some a ↔ l = a.val := by
  unfold Bytes.ofList?
  constructor
  · intro h
    split at h
    · rw [← Option.some.inj h]
    · cases h
  · rintro rfl
    rw [dif_pos a.property]

theorem Bytes.ofList?_of_length {n : ℕ} (h : l.length = n) :
    Bytes.ofList? n l = some ⟨l, h⟩ := dif_pos h

/-! ## Texts -/

/-- `as_bytes` -/
def utf8 (s : String) : List UInt8 := s.toByteArray.data.toList

theorem utf8_injective : Function.Injective utf8 := fun _ _ h =>
  String.toByteArray_inj.mp (ByteArray.ext (Array.toList_inj.mp h))

/-- `std::str::from_utf8` -/
def fromUtf8 (l : List UInt8) : Option String := String.fromUTF8? ⟨l.toArray⟩

/-- **A string is its bytes.** -/
theorem fromUtf8_eq_some {s : String} : fromUtf8 l = some s ↔ l = utf8 s := by
  unfold fromUtf8 String.fromUTF8? utf8
  constructor
  · intro h
    split at h
    · rw [← Option.some.inj h]
      rfl
    · cases h
  · rintro rfl
    have hbytes : (⟨s.toByteArray.data.toList.toArray⟩ : ByteArray) = s.toByteArray := by
      rw [Array.toArray_toList]
    rw [hbytes, dif_pos s.isValidUTF8]
    rfl

/-- A digit of `hex::encode`. -/
def hexDigit (n : ℕ) : Char :=
  if n < 10 then Char.ofNat (48 + n) else Char.ofNat (87 + n)

/-- `hex::encode` -/
def hexEncode (l : List UInt8) : String :=
  String.ofList (l.flatMap fun b => [hexDigit (b.toNat / 16), hexDigit (b.toNat % 16)])

end Logan
