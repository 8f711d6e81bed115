import Logan.Util.Bytes
import Logan.Util.Codec

/-!
# The byte cursor

`ByteCursor` reads numbers off the front of a byte slice. A place in the
slice is never beyond its end, which is a field of the cursor. The header of
a prefix container has a cursor of its own, which differs in the texts of
its errors only.

The host is a 64-bit one: a `usize` is a `u64`, and the conversions between
the two, which the program checks, do not fail.
-/

namespace Logan

open List Metered Reader

/-- **A place in a byte slice.** -/
@[ext]
structure ByteCursor (bytes : Vec 1 UInt8) where
  off : ℕ
  inside : off ≤ bytes.toList.length

/-- A 32-bit floating point number, by its bits. -/
@[ext]
structure F32 where
  bits : UInt32
deriving DecidableEq

namespace ByteCursor

variable {bytes : Vec 1 UInt8}

instance : Source (ByteCursor bytes) UInt8 where
  rest c := bytes.toList.drop c.off
  rest_injective := by
    intro c d h
    have hlen := congrArg List.length h
    simp only [length_drop] at hlen
    have hc := c.inside
    have hd := d.inside
    exact ByteCursor.ext (by omega)
  advance := by
    intro c w t h
    have hlen := congrArg List.length h
    simp only [length_drop, length_append] at hlen
    have hc := c.inside
    refine ⟨⟨bytes.toList.length - t.length, Nat.sub_le _ _⟩, ?_⟩
    have hoff : bytes.toList.length - t.length = c.off + w.length ∨ t = [] ∧ w = [] := by
      rcases Nat.eq_zero_or_pos (bytes.toList.length - c.off) with h0 | h0
      · exact Or.inr ⟨length_eq_zero_iff.mp (by omega), length_eq_zero_iff.mp (by omega)⟩
      · exact Or.inl (by omega)
    rcases hoff with hoff | ⟨rfl, rfl⟩
    · show bytes.toList.drop (bytes.toList.length - t.length) = t
      rw [hoff, ← drop_drop, h, drop_left]
    · show bytes.toList.drop (bytes.toList.length - 0) = []
      rw [Nat.sub_zero, drop_length]

variable (c : ByteCursor bytes)

theorem rest_eq : rest c = bytes.toList.drop c.off := rfl

theorem length_rest : (rest c).length = bytes.toList.length - c.off := length_drop

/-- The beginning of the slice: `ByteCursor::new`. -/
def start (bytes : Vec 1 UInt8) : ByteCursor bytes := ⟨0, Nat.zero_le _⟩

@[simp] theorem rest_start : rest (start bytes) = bytes.toList := rfl

def isDone (c : ByteCursor bytes) : Bool := c.off = bytes.toList.length

theorem isDone_iff : c.isDone = true ↔ rest c = [] := by
  have hc := c.inside
  rw [rest_eq, drop_eq_nil_iff, isDone, decide_eq_true_eq]
  omega

/-- `take`, with the texts of its errors. -/
def takeOr (overflow truncated : String) (len : ℕ) :
    Reader (ByteCursor bytes) String (List UInt8) := fun c =>
  if usizeMax < c.off + len then fail overflow
  else if h : c.off + len ≤ bytes.toList.length then
    pure ((bytes.toList.drop c.off).take len, ⟨c.off + len, h⟩)
  else fail truncated

/-- The next `len` bytes. -/
def take (len : ℕ) : Reader (ByteCursor bytes) String (List UInt8) :=
  takeOr "snapshot offset overflow" "truncated snapshot payload" len

/-- `raw[0]`, which panics if there is nothing there. -/
def first (raw : List UInt8) : Reader (ByteCursor bytes) String UInt8 :=
  match raw with
  | b :: _ => pure b
  | [] => panic

def u8 : Reader (ByteCursor bytes) String UInt8 := do
  let raw ← take 1
  first raw

/-- `raw.try_into()`, and what happens if the slice has another length. -/
def tryInto {n : ℕ} (otherwise : Reader (ByteCursor bytes) String (Bytes n))
    (raw : List UInt8) : Reader (ByteCursor bytes) String (Bytes n) :=
  match Bytes.ofList? n raw with
  | some a => pure a
  | none => otherwise

/-- A fixed number of bytes. -/
def arrayOr (overflow truncated : String) {n : ℕ}
    (otherwise : Reader (ByteCursor bytes) String (Bytes n)) :
    Reader (ByteCursor bytes) String (Bytes n) := do
  let raw ← takeOr overflow truncated n
  tryInto otherwise raw

/-- `take(n)?.try_into().unwrap()` -/
def array (n : ℕ) : Reader (ByteCursor bytes) String (Bytes n) :=
  arrayOr "snapshot offset overflow" "truncated snapshot payload" panic

/-- `u32::from_le_bytes` of four bytes. -/
def u32From (raw : Reader (ByteCursor bytes) String (Bytes 4)) :
    Reader (ByteCursor bytes) String UInt32 := do
  let a ← raw
  pure (u32OfBytes a.val)

/-- `u64::from_le_bytes` of eight bytes. -/
def u64From (raw : Reader (ByteCursor bytes) String (Bytes 8)) :
    Reader (ByteCursor bytes) String UInt64 := do
  let a ← raw
  pure (u64OfBytes a.val)

def u32 : Reader (ByteCursor bytes) String UInt32 := u32From (array 4)

def u64 : Reader (ByteCursor bytes) String UInt64 := u64From (array 8)

/-- A `u64` that is used as a `usize`. -/
def usize : Reader (ByteCursor bytes) String UInt64 := u64

def f32Vec : Reader (ByteCursor bytes) String (Vec 4 F32) := do
  let len ← usize
  if usizeMax < len.toNat * 4 then
    fail "f32 vector byte length overflow"
  else do
    let raw ← take (len.toNat * 4)
    lift (collect 4 ((wordsOfBytes raw).map F32.mk))

/-- A byte that is 0 or 1. -/
def flag (invalid : String) : Reader (ByteCursor bytes) String Bool := do
  let b ← u8
  if b = 0 then pure false
  else if b = 1 then pure true
  else fail invalid

/-! ## What is read

How each value is written, and that the cursor reads just that. -/

/-- The bytes that `push_f32_vec` pushes. -/
def f32VecBytes (v : Vec 4 F32) : List UInt8 :=
  u64Bytes (UInt64.ofNat v.toList.length) ++ wordsBytes (v.toList.map F32.bits)

/-- `u8::from` of a flag. -/
def flagByte (b : Bool) : UInt8 := if b then 1 else 0

theorem length_lt_usize (v : Vec 1 UInt8) : v.toList.length ≤ isizeMax := by
  have h := v.fits
  rwa [one_mul] at h

/-- **Taking bytes** reads any bytes of that number. An offset within the
slice does not overflow. -/
theorem reads_takeOr (overflow truncated : String) (len : ℕ) :
    Reads (takeOr overflow truncated len : Reader (ByteCursor bytes) String _)
      (fun l w => l.length = len ∧ w = l) := by
  intro c l c'
  have hbytes := length_lt_usize bytes
  have hlen := length_rest c
  have hc := c.inside
  unfold takeOr
  constructor
  · intro h
    split at h
    · cases h
    · split at h
      · cases h
        refine ⟨_, ⟨?_, rfl⟩, ?_⟩
        · rw [length_take, length_drop]
          omega
        · rw [rest_eq, rest_eq, ← drop_drop, take_append_drop]
      · cases h
  · rintro ⟨l, ⟨rfl, rfl⟩, hres⟩
    have hsum := congrArg List.length hres
    rw [length_append, length_rest, length_rest] at hsum
    have hc' := c'.inside
    have hno : ¬ usizeMax < c.off + l.length := by
      unfold usizeMax
      unfold isizeMax at hbytes
      omega
    have hfit : c.off + l.length ≤ bytes.toList.length := by omega
    rw [if_neg hno, dif_pos hfit]
    have htak : (bytes.toList.drop c.off).take l.length = l := by
      rw [← rest_eq, hres, take_left]
    have hpl : (⟨c.off + l.length, hfit⟩ : ByteCursor bytes) = c' := by
      refine Source.rest_injective ?_
      show bytes.toList.drop (c.off + l.length) = _
      rw [← drop_drop, ← rest_eq c, hres, drop_left]
    rw [htak, hpl]
    rfl

theorem reads_take (len : ℕ) :
    Reads (take len : Reader (ByteCursor bytes) String _) (fun l w => l.length = len ∧ w = l) :=
  reads_takeOr _ _ len

theorem reads_first (raw : List UInt8) : Reads (first raw : Reader (ByteCursor bytes) String _)
      (fun b w => raw.head? = some b ∧ w = []) := by
  rcases raw with _ | ⟨b, l⟩
  · exact Reads.panic.congr fun b w => iff_of_false id (by rintro ⟨⟨⟩, -⟩)
  · refine (Reads.pure b).congr fun b' w => ?_
    rw [List.head?_cons, Option.some.injEq, eq_comm]

/-- **A byte** is written as it is. -/
theorem reads_u8 : Reads (u8 : Reader (ByteCursor bytes) String _) (fun b w => w = [b]) := by
  refine (Reads.bind (reads_take 1) reads_first).congr fun b w => ?_
  constructor
  · rintro ⟨raw, _, _, ⟨hlen, rfl⟩, ⟨hb, rfl⟩, rfl⟩
    obtain ⟨b', rfl⟩ := length_eq_one_iff.mp hlen
    cases hb
    rfl
  · rintro rfl
    exact ⟨[b], [b], [], ⟨rfl, rfl⟩, ⟨rfl, rfl⟩, rfl⟩

theorem reads_tryInto {n : ℕ} {raw : List UInt8}
    {otherwise : Reader (ByteCursor bytes) String (Bytes n)}
    (h : Reads otherwise (fun _ _ => False)) :
    Reads (tryInto otherwise raw) (fun a w => raw = a.val ∧ w = []) := by
  unfold tryInto
  cases hraw : Bytes.ofList? n raw with
  | some a =>
    obtain rfl := Bytes.ofList?_eq_some.mp hraw
    refine (Reads.pure a).congr fun a' w => and_congr_left' ?_
    rw [Subtype.val_inj, eq_comm]
  | none =>
    refine h.congr fun a w => iff_of_false id ?_
    rintro ⟨hval, -⟩
    rw [Bytes.ofList?_eq_some.mpr hval] at hraw
    cases hraw

variable {overflow truncated : String}

/-- **A fixed number of bytes** is written as it is. -/
theorem reads_arrayOr {n : ℕ} {otherwise : Reader (ByteCursor bytes) String (Bytes n)}
    (h : Reads otherwise (fun _ _ => False)) :
    Reads (arrayOr overflow truncated otherwise) (fun a w => w = a.val) := by
  refine (Reads.bind (reads_takeOr _ _ n) fun raw => reads_tryInto h).congr fun a w => ?_
  constructor
  · rintro ⟨_, _, _, ⟨-, rfl⟩, ⟨rfl, rfl⟩, rfl⟩
    exact List.append_nil _
  · rintro rfl
    exact ⟨a.val, a.val, [], ⟨a.property, rfl⟩, ⟨rfl, rfl⟩, (List.append_nil _).symm⟩

theorem reads_array (n : ℕ) :
    Reads (array n : Reader (ByteCursor bytes) String _) (fun a w => w = a.val) :=
  reads_arrayOr Reads.panic

variable {raw : Reader (ByteCursor bytes) String (Bytes 4)}

/-- **A 32-bit number** is written as its bytes. -/
theorem reads_u32From
    (h : Reads raw (fun a w => w = a.val)) : Reads (u32From raw) (fun x w => w = u32Bytes x) := by
  refine (Reads.bind_written h fun a => Reads.pure (u32OfBytes a.val)).congr fun x w => ?_
  constructor
  · rintro ⟨a, _, ⟨rfl, rfl⟩, rfl⟩
    rw [List.append_nil, u32Bytes_u32OfBytes a.property]
  · rintro rfl
    exact ⟨⟨u32Bytes x, length_u32Bytes x⟩, [], ⟨(u32OfBytes_u32Bytes x).symm, rfl⟩,
      (List.append_nil _).symm⟩

/-- **A 64-bit number** is written as its bytes. -/
theorem reads_u64From {raw : Reader (ByteCursor bytes) String (Bytes 8)}
    (h : Reads raw (fun a w => w = a.val)) : Reads (u64From raw) (fun x w => w = u64Bytes x) := by
  refine (Reads.bind_written h fun a => Reads.pure (u64OfBytes a.val)).congr fun x w => ?_
  constructor
  · rintro ⟨a, _, ⟨rfl, rfl⟩, rfl⟩
    rw [List.append_nil, u64Bytes_u64OfBytes a.property]
  · rintro rfl
    exact ⟨⟨u64Bytes x, length_u64Bytes x⟩, [], ⟨(u64OfBytes_u64Bytes x).symm, rfl⟩,
      (List.append_nil _).symm⟩

theorem reads_u32 : Reads (u32 : Reader (ByteCursor bytes) String _) (fun x w => w = u32Bytes x) :=
  reads_u32From (reads_array 4)

theorem reads_u64 : Reads (u64 : Reader (ByteCursor bytes) String _) (fun x w => w = u64Bytes x) :=
  reads_u64From (reads_array 8)

theorem reads_usize :
    Reads (usize : Reader (ByteCursor bytes) String _) (fun x w => w = u64Bytes x) :=
  reads_u64

/-- A flag is written as 0 or 1. -/
theorem reads_flag (invalid : String) :
    Reads (flag invalid : Reader (ByteCursor bytes) String _) (fun b w => w = [flagByte b]) := by
  have hch : ∀ b : UInt8, Reads (E := String) (S := ByteCursor bytes)
      (if b = 0 then pure false else if b = 1 then pure true else fail invalid)
      (fun x w => b = flagByte x ∧ w = []) := by
    intro b
    by_cases h0 : b = 0
    · rw [if_pos h0, h0]
      refine (Reads.pure false).congr fun x w => and_congr_left' ?_
      cases x <;> decide
    · rw [if_neg h0]
      by_cases h1 : b = 1
      · rw [if_pos h1, h1]
        refine (Reads.pure true).congr fun x w => and_congr_left' ?_
        cases x <;> decide
      · rw [if_neg h1]
        refine (Reads.fail invalid).congr fun x w => iff_of_false id ?_
        rintro ⟨h, -⟩
        cases x
        · exact h0 h
        · exact h1 h
  refine (Reads.bind_written reads_u8 hch).congr fun x w => ?_
  constructor
  · rintro ⟨_, _, ⟨rfl, rfl⟩, rfl⟩
    rfl
  · rintro rfl
    exact ⟨flagByte x, [], ⟨rfl, rfl⟩, rfl⟩

theorem toNat_ofNat_length {A : Type} {size : ℕ} (v : Vec size A) (h : 0 < size) :
    (UInt64.ofNat v.toList.length).toNat = v.toList.length := by
  have hfit := v.fits
  rw [UInt64.toNat_ofNat', Nat.mod_eq_of_lt]
  have hle : v.toList.length ≤ size * v.toList.length := Nat.le_mul_of_pos_left _ h
  unfold isizeMax at hfit
  omega

/-- **A vector of numbers** is written as its length and its numbers. -/
theorem reads_f32Vec :
    Reads (f32Vec : Reader (ByteCursor bytes) String _) (fun v w => w = f32VecBytes v) := by
  refine (Reads.bind_written reads_usize fun len => Reads.guard
    (Reads.bind (reads_take _) fun raw => Reads.lift)).congr fun v w => ?_
  constructor
  · rintro ⟨len, _, ⟨-, _, raw, _, ⟨hlen, rfl⟩, ⟨hv, rfl⟩, rfl⟩, rfl⟩
    have hv := collect_eq_ok.mp hv
    rw [mul_comm] at hlen
    have hwor : v.toList.map F32.bits = wordsOfBytes raw := by
      rw [← hv, map_map]
      exact map_id _
    have hraw := wordsBytes_wordsOfBytes hlen
    have hcount : v.toList.length = len.toNat := by
      have := congrArg List.length hraw
      rw [length_wordsBytes, ← hwor, length_map] at this
      omega
    rw [f32VecBytes, hcount, UInt64.ofNat_toNat, hwor, hraw, List.append_nil]
  · rintro rfl
    have hlen := toNat_ofNat_length v (by decide)
    have hfit := v.fits
    refine ⟨UInt64.ofNat v.toList.length, wordsBytes (v.toList.map F32.bits),
      ⟨?_, _, _, [], ⟨?_, rfl⟩, ⟨collect_eq_ok.mpr ?_, rfl⟩, (List.append_nil _).symm⟩, rfl⟩
    · rw [hlen]
      unfold usizeMax
      unfold isizeMax at hfit
      omega
    · rw [length_wordsBytes, length_map, hlen, mul_comm]
    · rw [wordsOfBytes_wordsBytes, map_map]
      exact map_id _

/-! ## What is requested

Reading a number requests nothing; a vector of numbers is no longer than the
bytes it is read from. -/

variable {n : ℕ}

theorem frugal_takeOr (overflow truncated : String) (len : ℕ) :
    Frugal n (takeOr overflow truncated len : Reader (ByteCursor bytes) String _) := by
  intro c
  unfold takeOr
  split
  · exact harmless_fail _
  · split
    · exact harmless_pure _
    · exact harmless_fail _

theorem frugal_take (len : ℕ) :
    Frugal n (take len : Reader (ByteCursor bytes) String _) := frugal_takeOr _ _ len

/-- What is taken has the length asked for. -/
theorem length_of_takeOr {len : ℕ} {c c' : ByteCursor bytes} {l : List UInt8}
    (h : (takeOr overflow truncated len c).result = .ok (l, c')) :
    l.length = len ∧ len ≤ bytes.toList.length := by
  obtain ⟨_, ⟨hlen, rfl⟩, hres⟩ := (reads_takeOr overflow truncated len c l c').mp h
  have hsum := congrArg List.length hres
  rw [length_append, length_rest] at hsum
  exact ⟨hlen, by omega⟩

/-- What takes bytes and goes on is harmless, if it is for as many bytes. -/
theorem frugal_takeOr_bind {A : Type} {len : ℕ}
    {f : List UInt8 → Reader (ByteCursor bytes) String A}
    (h : ∀ l, l.length = len → len ≤ bytes.toList.length → Frugal n (f l)) :
    Frugal n (takeOr overflow truncated len >>= f) := by
  intro c
  rw [harmless_bind_reader]
  refine ⟨frugal_takeOr _ _ _ c, fun l t hl => ?_⟩
  obtain ⟨hlen, hle⟩ := length_of_takeOr hl
  exact h l hlen hle t

theorem frugal_u8 : Frugal n (u8 : Reader (ByteCursor bytes) String _) := by
  refine frugal_takeOr_bind fun l hlen _ => ?_
  obtain ⟨b, rfl⟩ := length_eq_one_iff.mp hlen
  exact Frugal.pure b

theorem frugal_arrayOr {k : ℕ} {otherwise : Reader (ByteCursor bytes) String (Bytes k)} :
    Frugal n (arrayOr overflow truncated otherwise) := by
  refine frugal_takeOr_bind fun l hlen _ => ?_
  rw [tryInto, Bytes.ofList?_of_length hlen]
  exact Frugal.pure _

theorem frugal_u32From (h : Frugal n raw) : Frugal n (u32From raw) := h.bind fun _ => Frugal.pure _

theorem frugal_u64From {raw : Reader (ByteCursor bytes) String (Bytes 8)} (h : Frugal n raw) :
    Frugal n (u64From raw) := h.bind fun _ => Frugal.pure _

theorem frugal_u32 : Frugal n (u32 : Reader (ByteCursor bytes) String _) :=
  frugal_u32From frugal_arrayOr

theorem frugal_u64 : Frugal n (u64 : Reader (ByteCursor bytes) String _) :=
  frugal_u64From frugal_arrayOr

theorem frugal_usize : Frugal n (usize : Reader (ByteCursor bytes) String _) := frugal_u64

theorem frugal_flag (invalid : String) :
    Frugal n (flag invalid : Reader (ByteCursor bytes) String _) := by
  refine frugal_u8.bind fun b => ?_
  split
  · exact Frugal.pure _
  · split
    · exact Frugal.pure _
    · exact Frugal.fail _

theorem four_mul_length_wordsOfBytes {l : List UInt8} {k : ℕ} (h : l.length = k * 4) :
    4 * (wordsOfBytes l).length = l.length := by
  rw [← length_wordsBytes, wordsBytes_wordsOfBytes (h.trans (mul_comm k 4))]

theorem frugal_f32Vec (h : bytes.toList.length ≤ n) :
    Frugal n (f32Vec : Reader (ByteCursor bytes) String _) := by
  refine frugal_usize.bind fun len => Frugal.guard (frugal_takeOr_bind fun l hlen hle => ?_)
  have hbytes := length_lt_usize bytes
  refine Frugal.lift (harmless_collect ?_ ?_)
  all_goals
    rw [length_map, four_mul_length_wordsOfBytes hlen]
    omega

end ByteCursor

end Logan
