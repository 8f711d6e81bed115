import Logan.Coding.Rans256

/-!
# Fused projections, split

Qwen3-Next stores some of its projections fused: for each key head, one group of rows has
the queries, the keys, the values and the gates of this head, or its `b` and `a` rows. Two
virtual views of such a tensor are emitted, each of which visits the groups once for
each of its components, so that all queries come before all keys, and so on.

What a view copies is a list of **spans**, a first row and a number of rows. The rows of both
views are those of the tensor, each of them once. The first row of a span is computed
in 32 bits, though, from products of which one is not checked: it wraps around where the last
span of the last group begins at row 2³² or later, and a wrapped span is another part of the
tensor.
-/

namespace Logan

open List

namespace FusedSplit

open Rans256 Result

/-- **A fused tensor**: `Qwen3NextSplit` without the choice of a view. -/
inductive Geometry where
  | qkvz (keyHeads keyDim valueHeads valueDim hidden : UInt32)
  | ba (keyHeads valueHeads hidden : UInt32)

/-- The length of a row. -/
def Geometry.hidden : Geometry → UInt32
  | qkvz _ _ _ _ hidden => hidden
  | ba _ _ hidden => hidden

/-- `u32::checked_mul` -/
def checkedProductU32 (a b : ℕ) : Option ℕ := if a * b ≤ u32Max then some (a * b) else none

/-- **The groups of a tensor**, and the components of each, by view: where they are in the group,
and how many rows they have. -/
structure Layout where
  groups : ℕ
  groupRows : ℕ
  components : Bool → List (ℕ × ℕ)
  lastStart : ℕ

/-- The first part of `copy_qwen3_next_split`, for both views: the first is `qkv`, or `b`. -/
def layout : Geometry → Except String Layout
  | .qkvz keyHeads keyDim valueHeads valueDim _ => do
    refuse (keyHeads = 0 ∨ valueHeads = 0 ∨ valueHeads % keyHeads ≠ 0)
      "invalid Qwen3-Next qkvz head geometry"
    let keyDim := keyDim.toNat
    let rep := valueHeads.toNat / keyHeads.toNat
    let valueGroup ← okOr (checkedProductU32 rep valueDim.toNat)
      "Qwen3-Next qkvz value-group size overflow"
    let groupRows ← okOr ((checkedProductU32 keyDim 2).bind fun v =>
        (checkedProductU32 valueGroup 2).bind fun vv => checkedSumU32 v vv)
      "Qwen3-Next qkvz group size overflow"
    pure ⟨keyHeads.toNat, groupRows, fun first =>
      if first then [(0, keyDim), (keyDim, keyDim), (2 * keyDim, valueGroup)]
      else [(2 * keyDim + valueGroup, valueGroup)], 2 * keyDim + valueGroup⟩
  | .ba keyHeads valueHeads _ => do
    refuse (keyHeads = 0 ∨ valueHeads = 0 ∨ valueHeads % keyHeads ≠ 0)
      "invalid Qwen3-Next ba head geometry"
    let rep := valueHeads.toNat / keyHeads.toNat
    let groupRows ← okOr (checkedProductU32 rep 2) "Qwen3-Next ba group size overflow"
    pure ⟨keyHeads.toNat, groupRows, fun first => [(if first then 0 else rep, rep)], rep⟩

/-- The first row of a component of a group. -/
def Layout.start (l : Layout) (group : ℕ) (component : ℕ × ℕ) : ℕ :=
  group * l.groupRows + component.1

/-- **The spans of a view**, whose first rows have 32 bits. -/
def Layout.spans (l : Layout) (first : Bool) : List (ℕ × ℕ) :=
  (l.components first).flatMap fun component =>
    (range l.groups).map fun group => (l.start group component % 2 ^ 32, component.2)

variable (file : List UInt8)

/-- `seek` and `read_exact`, which reads nothing at any place. -/
def readExact (offset n : ℕ) : Except String (List UInt8) :=
  if n = 0 then .ok [] else okOr (range? file offset (offset + n)) "failed to fill whole buffer"

/-- **`copy_qwen3_next_split`**, of a tensor that begins at an offset of a file and for which so
many bytes are expected. -/
def copy (offset len : ℕ) (g : Geometry) (first : Bool) :
    Except String (List UInt8) := do
  let l ← layout g
  refuse (g.hidden = 0) "Qwen3-Next split hidden size is zero"
  let rowBytes := g.hidden.toNat * 2
  let buffers ← (l.spans first).mapM fun span => do
    let relative ← okOr (checkedProduct span.1 rowBytes)
      "Qwen3-Next split source offset overflow"
    let offset ← okOr (checkedSum offset relative) "Qwen3-Next split source offset overflow"
    let bytes ← okOr (checkedProduct span.2 rowBytes) "Qwen3-Next split block size overflow"
    readExact file offset bytes
  let output := buffers.flatten
  refuse (output.length ≠ len) s!"Qwen3-Next split emitted {output.length} bytes, expected {len}"
  pure output

/-! ## What a view should be -/

/-- **The rows of a view**, in its order: component by component, and group by group. -/
def Layout.order (l : Layout) (first : Bool) : List ℕ :=
  (l.components first).flatMap fun component => (range l.groups).flatMap fun group =>
    (range component.2).map (l.start group component + ·)

/-- Some rows of a tensor. -/
def rowsAt (offset rowBytes : ℕ) (rows : List ℕ) : List UInt8 :=
  rows.flatMap fun row => slice file (offset + row * rowBytes) rowBytes

/-- **A tensor is split without loss**: no row number wraps around, and if both views are emitted,
they are rows of the tensor, each of which is in one of them, once. -/
def Lossless (offset : ℕ) (g : Geometry) : Prop :=
  ∀ l, layout g = .ok l → (∀ first, ∀ component ∈ l.components first, ∀ group < l.groups,
      l.start group component < 2 ^ 32) ∧
    ∀ len₁ len₂ out₁ out₂, copy file offset len₁ g true = .ok out₁ →
      copy file offset len₂ g false = .ok out₂ →
        out₁ = rowsAt file offset (g.hidden.toNat * 2) (l.order true) ∧
        out₂ = rowsAt file offset (g.hidden.toNat * 2) (l.order false) ∧
        (l.order true ++ l.order false).Perm (range (l.groups * l.groupRows))

/-! ## Layouts -/

/-- **What a layout is like.** -/
structure Layout.Sound (l : Layout) : Prop where
  pos : 0 < l.groups
  tiled : (l.components true ++ l.components false).flatMap
    (fun component => (range component.2).map (component.1 + ·)) = range l.groupRows
  le : ∀ first, ∀ component ∈ l.components first, component.1 ≤ l.lastStart
  last : ∃ component ∈ l.components false, component.1 = l.lastStart

theorem checkedProductU32_eq_some {a b c : ℕ} (h : checkedProductU32 a b = some c) : c = a * b := by
  unfold checkedProductU32 at h
  split_ifs at h
  exact (Option.some.inj h).symm

/-- **A layout that is accepted is sound.** -/
theorem sound_of_layout {g : Geometry} {l : Layout} (h : layout g = .ok l) : l.Sound := by
  have hpos (heads : UInt32) (hne : heads ≠ 0) : 0 < heads.toNat :=
    Nat.pos_of_ne_zero fun h => hne (UInt32.toNat_inj.mp h)
  cases g with
  | qkvz keyHeads keyDim valueHeads valueDim hidden =>
    obtain ⟨_, hhds, h⟩ := bind_eq_ok.mp h
    obtain ⟨valueGroup, -, h⟩ := bind_eq_ok.mp h
    obtain ⟨groupRows, hrow, h⟩ := bind_eq_ok.mp h
    cases h
    obtain ⟨v, hv, hrow⟩ := Option.bind_eq_some_iff.mp (okOr_eq_ok.mp hrow)
    obtain ⟨vv, hvv, hrow⟩ := Option.bind_eq_some_iff.mp hrow
    rw [checkedProductU32_eq_some hv, checkedProductU32_eq_some hvv] at hrow
    unfold checkedSumU32 at hrow
    split_ifs at hrow
    refine ⟨hpos _ fun h => refuse_eq_ok.mp hhds (Or.inl h), ?_, fun first c hc => ?_,
      _, mem_singleton_self _, rfl⟩
    · rw [← Option.some.inj hrow, show keyDim.toNat * 2 + valueGroup * 2
        = keyDim.toNat + keyDim.toNat + valueGroup + valueGroup by omega, range_add, range_add,
        range_add]
      simp [two_mul]
    · cases first with
      | true =>
        simp only [if_true, mem_cons, not_mem_nil, or_false] at hc
        rcases hc with rfl | rfl | rfl <;> dsimp only <;> omega
      | false =>
        rw [mem_singleton.mp hc]
  | ba keyHeads valueHeads hidden =>
    obtain ⟨_, hhds, h⟩ := bind_eq_ok.mp h
    obtain ⟨groupRows, hrow, h⟩ := bind_eq_ok.mp h
    cases h
    refine ⟨hpos _ fun h => refuse_eq_ok.mp hhds (Or.inl h), ?_, fun first c hc => ?_,
      _, mem_singleton_self _, rfl⟩
    · rw [checkedProductU32_eq_some (okOr_eq_ok.mp hrow), Nat.mul_two, range_add]
      simp
    · rw [mem_singleton.mp hc]
      dsimp only
      split_ifs
      · exact Nat.zero_le _
      · exact le_rfl

/-- Two loops may be exchanged, up to the order of what they make. -/
theorem flatMap_swap {A B C : Type} (l : List A) (m : List B) (f : A → B → List C) :
    (l.flatMap fun a => m.flatMap fun b => f a b).Perm
      (m.flatMap fun b => l.flatMap fun a => f a b) := by
  have h : ((l : Multiset A).bind fun a => (m : Multiset B).bind fun b => (f a b : Multiset C)) = _ :=
    Multiset.bind_bind _ _
  simp only [Multiset.coe_bind] at h
  exact Multiset.coe_eq_coe.mp h

/-- **Both views together** are all rows. -/
theorem order_perm {l : Layout} (h : l.Sound) :
    (l.order true ++ l.order false).Perm (range (l.groups * l.groupRows)) := by
  have hgr (n : ℕ) : (range n).flatMap (fun group =>
      (range l.groupRows).map (group * l.groupRows + ·)) = range (n * l.groupRows) := by
    induction n with
    | zero => rw [Nat.zero_mul]; rfl
    | succ n ih =>
      rw [range_succ, flatMap_append, ih, Nat.succ_mul, range_add]
      simp
  rw [Layout.order, Layout.order, ← flatMap_append, ← hgr]
  refine (flatMap_swap _ _ _).trans (Perm.of_eq (flatMap_congr fun group _ => ?_))
  rw [← h.tiled, map_flatMap]
  refine flatMap_congr fun component _ => ?_
  rw [map_map]
  exact map_congr_left fun i _ => Nat.add_assoc _ _ _

/-! ## Copies -/

/-- A span is its rows. -/
theorem slice_eq_rowsAt (offset rowBytes start n : ℕ) :
    slice file (offset + start * rowBytes) (n * rowBytes)
      = rowsAt file offset rowBytes ((range n).map (start + ·)) := by
  induction n with
  | zero => rw [Nat.zero_mul, slice_zero]; rfl
  | succ n ih =>
    rw [Nat.succ_mul, slice_add, ih, rowsAt, rowsAt, range_succ, map_append, flatMap_append,
      Nat.add_assoc, ← Nat.add_mul]
    simp

/-- What is read is there. -/
theorem readExact_eq_ok {file v : List UInt8} {offset n : ℕ} (h : readExact file offset n = .ok v) :
    v = slice file offset n := by
  unfold readExact at h
  split_ifs at h with hzer
  · cases h
    rw [hzer, slice_zero]
  · have hv := (range?_eq_some.mp (okOr_eq_ok.mp h)).2.2
    rw [Nat.add_sub_cancel_left] at hv
    exact hv.symm

/-- **A view whose rows do not wrap around is its rows.** -/
theorem copy_eq_rowsAt {file out : List UInt8} {offset len : ℕ} {g : Geometry} {first : Bool}
    {l : Layout} (hl : layout g = .ok l)
    (hfit : ∀ component ∈ l.components first, ∀ group < l.groups,
      l.start group component < 2 ^ 32) (h : copy file offset len g first = .ok out) :
    out = rowsAt file offset (g.hidden.toNat * 2) (l.order first) := by
  obtain ⟨_, hl', h⟩ := bind_eq_ok.mp h
  cases hl.symm.trans hl'
  obtain ⟨_, -, h⟩ := bind_eq_ok.mp h
  obtain ⟨buffers, hbuf, h⟩ := bind_eq_ok.mp h
  obtain ⟨_, -, h⟩ := bind_eq_ok.mp h
  cases h
  have hsp (spans : List (ℕ × ℕ)) (buffers : List (List UInt8))
      (h : Forall₂ (fun span b => b = rowsAt file offset (g.hidden.toNat * 2)
        ((range span.2).map (span.1 + ·))) spans buffers) :
      buffers.flatten = rowsAt file offset (g.hidden.toNat * 2)
        (spans.flatMap fun span => (range span.2).map (span.1 + ·)) := by
    induction h with
    | nil => rfl
    | cons hb _ ih =>
      rw [flatten_cons, ih, hb, flatMap_cons]
      exact flatMap_append.symm
  rw [hsp _ _ ((mapM_eq_ok.mp hbuf).imp fun span b hb => ?_)]
  · congr 1
    rw [Layout.spans, Layout.order, flatMap_assoc]
    refine flatMap_congr fun component hc => ?_
    rw [flatMap_map]
    refine flatMap_congr fun group hg => ?_
    rw [Nat.mod_eq_of_lt (hfit component hc group (mem_range.mp hg))]
  · obtain ⟨_, hrel, hb⟩ := bind_eq_ok.mp hb
    obtain ⟨_, hoff, hb⟩ := bind_eq_ok.mp hb
    obtain ⟨_, hbytes, hb⟩ := bind_eq_ok.mp hb
    obtain ⟨rfl, -⟩ := checkedProduct_eq_some.mp (okOr_eq_ok.mp hrel)
    obtain ⟨rfl, -⟩ := checkedSum_eq_some.mp (okOr_eq_ok.mp hoff)
    obtain ⟨rfl, -⟩ := checkedProduct_eq_some.mp (okOr_eq_ok.mp hbytes)
    rw [readExact_eq_ok hb, slice_eq_rowsAt]

/-- **A tensor is split without loss exactly if** its last span begins below row 2³². -/
theorem lossless_iff (file : List UInt8) (offset : ℕ) (g : Geometry) : Lossless file offset g
      ↔ ∀ l, layout g = .ok l → (l.groups - 1) * l.groupRows + l.lastStart < 2 ^ 32 := by
  refine ⟨fun h l hl => ?_, fun h l hl => ?_⟩
  · obtain ⟨hpos, -, -, component, hc, hlas⟩ := sound_of_layout hl
    rw [← hlas]
    exact (h l hl).1 false component hc _ (Nat.sub_lt hpos Nat.one_pos)
  · have hsnd := sound_of_layout hl
    have hfit (first : Bool) : ∀ component ∈ l.components first, ∀ group < l.groups,
        l.start group component < 2 ^ 32 := fun component hc group hg =>
      (Nat.add_le_add (Nat.mul_le_mul_right _ (Nat.le_sub_one_of_lt hg))
        (hsnd.le first component hc)).trans_lt (h l hl)
    exact ⟨hfit, fun _ _ _ _ h₁ h₂ => ⟨copy_eq_rowsAt hl (hfit true) h₁,
      copy_eq_rowsAt hl (hfit false) h₂, order_perm hsnd⟩⟩

/-- **A geometry that is accepted, and whose row numbers wrap around**: the last of its groups
begins at row 2³², and the queries that are copied for it are those of the first. -/
theorem not_lossless : (∃ l, layout (.qkvz 65537 16384 65537 16384 1) = .ok l ∧
      l.start 65536 (0, 16384) % 2 ^ 32 = 0) ∧
    ¬ Lossless [] 0 (.qkvz 65537 16384 65537 16384 1) := by
  obtain ⟨l, hl, hst, hgr, hmem⟩ : ∃ l, layout (.qkvz 65537 16384 65537 16384 1) = .ok l ∧
    l.start 65536 (0, 16384) = 2 ^ 32 ∧ 65536 < l.groups ∧
    (0, 16384) ∈ l.components true := ⟨_, rfl, by decide, by decide, by decide⟩
  refine ⟨⟨l, hl, by rw [hst, Nat.mod_self]⟩, fun h => ?_⟩
  exact absurd ((h l hl).1 true _ hmem _ hgr) (hst ▸ Nat.lt_irrefl _)

end FusedSplit

end Logan
