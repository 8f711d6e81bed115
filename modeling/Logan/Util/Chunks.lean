import Mathlib.Data.List.Basic
import Mathlib.Tactic

/-!
# Chunks of a list

A list is cut into chunks of one size, of which the last may be shorter, or only
into those that are full. Chunks in a row are the list, and where a list is made of
rows of one length, they are the rows; chunks of several rows at a time are chunks
of the list of rows.
-/

namespace Logan

open List

variable {A B : Type}

/-- `slice.chunks(k)` -/
def chunks (k : ℕ) (l : List A) : List (List A) :=
  (List.range ((l.length + k - 1) / k)).map fun g => (l.drop (k * g)).take k

/-- `slice.chunks_exact(k)` -/
def chunksExact (k : ℕ) (l : List A) : List (List A) :=
  (List.range (l.length / k)).map fun g => (l.drop (k * g)).take k

section Chunks

variable {k : ℕ}

theorem length_chunks (k : ℕ) (l : List A) : (chunks k l).length = (l.length + k - 1) / k := by
  rw [chunks, length_map, length_range]

theorem chunks_nil (hk : 0 < k) : chunks k ([] : List A) = [] := by
  refine eq_nil_of_length_eq_zero ?_
  rw [length_chunks, length_nil, Nat.zero_add, Nat.div_eq_of_lt (Nat.sub_lt hk Nat.one_pos)]

/-- **The first chunk, and those after it.** -/
theorem chunks_of_ne_nil (hk : 0 < k) {l : List A} (hl : l ≠ []) :
    chunks k l = l.take k :: chunks k (l.drop k) := by
  have hpos : 0 < l.length := length_pos_of_ne_nil hl
  have hcount : (l.length + k - 1) / k = ((l.drop k).length + k - 1) / k + 1 := by
    rw [length_drop]
    rcases Nat.le_total l.length k with hle | hle
    · rw [Nat.sub_eq_zero_of_le hle, Nat.zero_add, Nat.div_eq_of_lt (Nat.sub_lt hk Nat.one_pos)]
      exact Nat.div_eq_of_lt_le (by omega) (by omega)
    · rw [← Nat.add_div_right _ hk]
      exact congrArg (· / k) (by omega)
  unfold chunks
  rw [hcount, range_succ_eq_map, map_cons, map_map, Nat.mul_zero, drop_zero]
  refine congrArg _ (map_congr_left fun g _ => ?_)
  show (l.drop (k * (g + 1))).take k = ((l.drop k).drop (k * g)).take k
  rw [drop_drop, Nat.mul_succ, Nat.add_comm]

/-- **Induction on the number of chunks.** -/
theorem chunks_induction (hk : 0 < k) {P : List A → Prop} (hnil : P [])
    (hdr : ∀ l, l ≠ [] → P (l.drop k) → P l) (l : List A) : P l := by
  induction hn : l.length using Nat.strong_induction_on generalizing l with
  | _ n ih =>
    by_cases hl : l = []
    · exact hl ▸ hnil
    · have hpos := length_pos_of_ne_nil hl
      exact hdr l hl (ih _ (by rw [length_drop]; omega) _ rfl)

/-- **Chunks in a row are the list.** -/
theorem flatten_chunks (hk : 0 < k) (l : List A) : (chunks k l).flatten = l := by
  induction l using chunks_induction hk with
  | hnil =>
    rw [chunks_nil hk]
    rfl
  | hdr l hl ih => rw [chunks_of_ne_nil hk hl, flatten_cons, ih, take_append_drop]

theorem chunks_map (f : A → B) (l : List A) :
    chunks k (l.map f) = (chunks k l).map (List.map f) := by
  unfold chunks
  rw [length_map, map_map]
  refine map_congr_left fun g _ => ?_
  show _ = List.map f _
  rw [map_take, map_drop]

/-- A chunk comes before the chunks of what is after it. -/
theorem chunks_append (hk : 0 < k) {l l' : List A} (hl : l.length = k) :
    chunks k (l ++ l') = l :: chunks k l' := by
  have hne : l ++ l' ≠ [] := fun h => by
    rw [(append_eq_nil_iff.mp h).1] at hl
    exact absurd hl (ne_of_lt hk)
  rw [chunks_of_ne_nil hk hne, take_left' hl, drop_left' hl]

variable {rows : List (List A)}

/-- **Chunks of rows are the rows.** -/
theorem chunks_flatten (hk : 0 < k) (hrow : ∀ r ∈ rows, r.length = k) :
    chunks k rows.flatten = rows := by
  induction rows with
  | nil => exact chunks_nil hk
  | cons r rows ih =>
    rw [flatten_cons, chunks_append hk (hrow r mem_cons_self),
      ih fun r' hr' => hrow r' (mem_cons_of_mem r hr')]

theorem length_flatten_of_rows (hrow : ∀ r ∈ rows, r.length = k) :
    rows.flatten.length = k * rows.length := by
  induction rows with
  | nil => rfl
  | cons r rows ih =>
    rw [flatten_cons, length_append, hrow r mem_cons_self,
      ih fun r' hr' => hrow r' (mem_cons_of_mem r hr'), length_cons, Nat.mul_succ,
      Nat.add_comm]

theorem drop_flatten_of_rows (hrow : ∀ r ∈ rows, r.length = k) (n : ℕ) :
    rows.flatten.drop (k * n) = (rows.drop n).flatten := by
  induction n generalizing rows with
  | zero => rfl
  | succ n ih =>
    cases rows with
    | nil => exact drop_nil
    | cons r =>
      have hr := hrow r mem_cons_self
      rw [flatten_cons, drop_succ_cons, Nat.mul_succ, Nat.add_comm, ← drop_drop, drop_left' hr]
      exact ih fun r' hr' => hrow r' (mem_cons_of_mem r hr')

/-- **One of the rows.** -/
theorem slice_flatten_of_rows {rows : List (List A)} (hrow : ∀ r ∈ rows, r.length = k) {n : ℕ}
    (hn : n < rows.length) : (rows.flatten.drop (k * n)).take k = rows[n] := by
  rw [drop_flatten_of_rows hrow, drop_eq_getElem_cons hn, flatten_cons,
    take_left' (hrow _ (getElem_mem hn))]

theorem getElem?_flatten_of_rows {rows : List (List A)} (hrow : ∀ r ∈ rows, r.length = k) {n : ℕ}
    (hn : n < rows.length) {i : ℕ} (hi : i < k) :
    rows.flatten[k * n + i]? = rows[n][i]? := by
  rw [← slice_flatten_of_rows hrow hn, List.getElem?_take_of_lt hi, List.getElem?_drop]

theorem take_flatten_of_rows (hrow : ∀ r ∈ rows, r.length = k) (n : ℕ) :
    rows.flatten.take (k * n) = (rows.take n).flatten := by
  induction n generalizing rows with
  | zero => rfl
  | succ n ih =>
    cases rows with
    | nil => exact take_nil
    | cons r =>
      have hr := hrow r mem_cons_self
      rw [flatten_cons, take_succ_cons, flatten_cons, Nat.mul_succ, Nat.add_comm,
        List.take_append, hr, Nat.add_sub_cancel_left,
        ih fun r' hr' => hrow r' (mem_cons_of_mem r hr'),
        take_of_length_le (hr.trans_le (Nat.le_add_right _ _))]

/-- **Chunks of several rows** are what chunks of the list of rows are. -/
theorem chunks_mul_flatten (hk : 0 < k) {n : ℕ} (hn : 0 < n) (hrow : ∀ r ∈ rows, r.length = k) :
    chunks (k * n) rows.flatten = (chunks n rows).map List.flatten := by
  have hpos := Nat.mul_pos hk hn
  induction rows using chunks_induction hn with
  | hnil =>
    rw [chunks_nil hn, flatten_nil, chunks_nil hpos]
    rfl
  | hdr rows hne ih =>
    have hfl : rows.flatten ≠ [] := fun h => by
      have hlen := length_flatten_of_rows hrow
      rw [h] at hlen
      exact absurd hlen (ne_of_lt (Nat.mul_pos hk (length_pos_of_ne_nil hne)))
    rw [chunks_of_ne_nil hn hne, chunks_of_ne_nil hpos hfl, map_cons,
      take_flatten_of_rows hrow, drop_flatten_of_rows hrow,
      ih fun r hr => hrow r (mem_of_mem_drop hr)]

/-- **All chunks of rows are full.** -/
theorem chunksExact_flatten (hk : 0 < k) (hrow : ∀ r ∈ rows, r.length = k) :
    chunksExact k rows.flatten = rows := by
  have hlen := length_flatten_of_rows hrow
  have hcount : rows.flatten.length / k = (rows.flatten.length + k - 1) / k := by
    rw [hlen, Nat.mul_div_cancel_left _ hk]
    refine (Nat.div_eq_of_lt_le ?_ ?_).symm
    · rw [Nat.mul_comm]
      omega
    · rw [Nat.succ_mul, Nat.mul_comm]
      omega
  rw [chunksExact, hcount]
  exact chunks_flatten hk hrow

/-- **Full chunks in a row** are the list, but for the rest. -/
theorem flatten_chunksExact (l : List A) :
    (chunksExact k l).flatten = l.take (k * (l.length / k)) := by
  have hpr : ∀ m, ((List.range m).map fun g => (l.drop (k * g)).take k).flatten
      = l.take (k * m) := by
    intro m
    induction m with
    | zero => rfl
    | succ m ih =>
      rw [range_succ, List.map_append, flatten_append, ih, Nat.mul_succ, List.take_add]
      exact congrArg _ (List.append_nil _)
  exact hpr _

theorem length_of_mem_chunksExact {l : List A} {c : List A} (hc : c ∈ chunksExact k l) :
    c.length = k := by
  obtain ⟨g, hg, rfl⟩ := mem_map.mp hc
  have hle : (g + 1) * k ≤ l.length / k * k := Nat.mul_le_mul_right k (mem_range.mp hg)
  have hfit := Nat.div_mul_le_self l.length k
  rw [Nat.succ_mul, Nat.mul_comm g] at hle
  rw [length_take, length_drop]
  omega

end Chunks

end Logan
