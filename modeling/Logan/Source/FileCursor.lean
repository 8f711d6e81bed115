import Logan.Util.Buffer
import Logan.Util.Codec

/-!
# Reading a file from its front

A program that reads a file has a position in it. It reads some bytes from
there, or skips some by seeking, which does not look at the file at all: the
position may then be beyond the end, and only the next attempt to read
fails.

What is still to be read is therefore the rest of the file, followed by
nothing – `none` – up to the last position that a file can have. In it a
reader of a grammar may be put together from readers and from skips, which
take anything.
-/

namespace Logan

open List

/-- **A file**: its bytes, of which it has at most `i64::MAX`. -/
structure FileBytes where
  bytes : List UInt8
  fits : bytes.length ≤ isizeMax

/-- The bytes, and the nothing after them. -/
def FileBytes.padded (file : FileBytes) : List (Option UInt8) :=
  file.bytes.map some ++ List.replicate (isizeMax - file.bytes.length) none

theorem FileBytes.length_padded (file : FileBytes) : file.padded.length = isizeMax := by
  unfold padded
  rw [length_append, length_map, length_replicate, Nat.add_sub_cancel' file.fits]

/-- **A position in a file**, or beyond its end. -/
@[ext]
structure FileCursor (file : FileBytes) where
  pos : ℕ
  le : pos ≤ isizeMax

namespace FileCursor

variable {file : FileBytes}

instance : Source (FileCursor file) (Option UInt8) where
  rest c := file.padded.drop c.pos
  rest_injective := by
    intro c d h
    have hlen := congrArg List.length h
    simp only [length_drop, file.length_padded] at hlen
    have hc := c.le
    have hd := d.le
    exact FileCursor.ext (by omega)
  advance := by
    intro c w t h
    have hlen := congrArg List.length h
    rw [length_drop, file.length_padded, length_append] at hlen
    have hc := c.le
    refine ⟨⟨c.pos + w.length, by omega⟩, ?_⟩
    show file.padded.drop (c.pos + w.length) = t
    rw [← drop_drop, h, drop_left]

theorem rest_eq (c : FileCursor file) : rest c = file.padded.drop c.pos := rfl

/-- `File::open` -/
def start (file : FileBytes) : FileCursor file := ⟨0, Nat.zero_le _⟩

/-- `file.read_exact(&mut [0; n])`; nothing is read for no bytes at all. -/
def readExact (n : ℕ) : Reader (FileCursor file) String (List UInt8) := fun c =>
  if n = 0 then pure ([], c)
  else if h : c.pos + n ≤ file.bytes.length then
    pure (slice file.bytes c.pos n, ⟨c.pos + n, h.trans file.fits⟩)
  else Metered.fail "failed to fill whole buffer"

/-- `skip_bytes`: a position beyond `i64::MAX` is refused by the system. -/
def skipBytes (n : ℕ) : Reader (FileCursor file) String Unit := fun c =>
  if isizeMax < n then Metered.fail "GGUF skip exceeds i64"
  else if h : c.pos + n ≤ isizeMax then pure ((), ⟨c.pos + n, h⟩)
  else Metered.fail "Invalid argument"

/-! ## What is read -/

theorem pos_of_rest {c c' : FileCursor file} {w : List (Option UInt8)}
    (h : rest c = w ++ rest c') : c'.pos = c.pos + w.length := by
  have hlen := congrArg List.length h
  rw [rest_eq, rest_eq, length_drop, length_append, length_drop, file.length_padded] at hlen
  have hc := c.le
  have hc' := c'.le
  omega

/-- A grammar may be written in another way, which need not be the same for
what is longer than any file. -/
theorem reads_congr {A : Type} {r : Reader (FileCursor file) String A}
    {W W' : A → List (Option UInt8) → Prop} (h : Reads r W)
    (hW : ∀ a w, w.length ≤ isizeMax → (W a w ↔ W' a w)) : Reads r W' := by
  intro c a c'
  rw [h c a c']
  refine exists_congr fun w => and_congr_left fun hres => hW a w ?_
  have hpos := pos_of_rest hres
  have hc' := c'.le
  omega

theorem slice_padded {start n : ℕ} (h : start + n ≤ file.bytes.length) :
    slice file.padded start n = (slice file.bytes start n).map some := by
  rw [FileBytes.padded, slice_append_left (by rwa [length_map]), slice, slice, map_take, map_drop]

/-- Beyond the end there is nothing. -/
theorem getElem?_padded {i : ℕ} (h : file.bytes.length ≤ i) (hi : i < isizeMax) :
    file.padded[i]? = some none := by
  unfold FileBytes.padded
  rw [List.getElem?_append_right (by rwa [length_map]), length_map,
    List.getElem?_replicate_of_lt (by omega)]

/-- **Some bytes are read**, if the file has them. -/
theorem reads_readExact (n : ℕ) : Reads (readExact n : Reader (FileCursor file) String _)
      (fun l w => l.length = n ∧ w = l.map some) := by
  intro c l c'
  unfold readExact
  constructor
  · intro h
    split at h
    case isTrue hn =>
      cases h
      exact ⟨[], ⟨hn.symm, rfl⟩, rfl⟩
    case isFalse hn =>
      split at h
      case isTrue hle =>
        cases h
        refine ⟨_, ⟨length_slice hle, rfl⟩, ?_⟩
        rw [← slice_padded hle, rest_eq, rest_eq, ← drop_drop, slice, take_append_drop]
      case isFalse => cases h
  · rintro ⟨_, ⟨rfl, rfl⟩, hres⟩
    have hpos := pos_of_rest hres
    rw [length_map] at hpos
    split
    case isTrue hn =>
      obtain rfl := length_eq_zero_iff.mp hn
      obtain rfl := FileCursor.ext (x := c) (y := c') hpos.symm
      rfl
    case isFalse hn =>
      have hle : c.pos + l.length ≤ file.bytes.length := by
        -- otherwise the last byte that is read would be nothing
        by_contra hgt
        have hlas : (rest c)[l.length - 1]? = some none := by
          have hc' := c'.le
          rw [rest_eq, List.getElem?_drop]
          exact getElem?_padded (by omega) (by omega)
        rw [hres, List.getElem?_append_left (by rw [length_map]; omega), List.getElem?_map] at hlas
        obtain ⟨_, -, hsom⟩ := Option.map_eq_some_iff.mp hlas
        cases hsom
      rw [dif_pos hle]
      have hsl : slice file.bytes c.pos l.length = l := by
        refine map_injective_iff.mpr (Option.some_injective _) ?_
        rw [← slice_padded hle, slice, ← rest_eq, hres, take_left' (length_map _)]
      rw [hsl]
      exact congrArg (fun d => Except.ok (l, d)) (FileCursor.ext hpos.symm)

/-- **Some bytes are skipped**, whatever they are. -/
theorem reads_skipBytes (n : ℕ) :
    Reads (skipBytes n : Reader (FileCursor file) String _) (fun _ w => w.length = n) := by
  intro c _ c'
  unfold skipBytes
  constructor
  · intro h
    split at h
    case isTrue => cases h
    case isFalse =>
      split at h
      case isTrue hle =>
        cases h
        refine ⟨slice file.padded c.pos n, length_slice (by rwa [file.length_padded]), ?_⟩
        rw [rest_eq, rest_eq, ← drop_drop, slice, take_append_drop]
      case isFalse => cases h
  · rintro ⟨w, rfl, hres⟩
    have hpos := pos_of_rest hres
    have hc' := c'.le
    have hle : c.pos + w.length ≤ isizeMax := by omega
    rw [if_neg (by omega), dif_pos hle]
    exact congrArg (fun d => Except.ok ((), d)) (FileCursor.ext hpos.symm)

end FileCursor

end Logan
