import Logan.Util.Bytes

/-!
# Buffers written in place

A program that knows the layout of a file beforehand allocates the whole of
it, as zeros, and copies each field to its place. A **write** is a place with
what goes there, and `puts` performs a list of them, in their order.

Nothing is lost as long as no two of the writes overlap and none is beyond
the end, which is what `Laid` says of a list of writes. The list can then be
read back from the buffer – `HasWrites` – and so can any field that is nowhere
written, which is still zero. Where the writes follow one another without a
gap, the buffer is just their concatenation.
-/

namespace Logan

open List

variable {A : Type}

/-! ## Slices -/

/-- `bytes[start..start + n]`, or what there is of it. -/
def slice (b : List A) (start n : ℕ) : List A := (b.drop start).take n

/-- `bytes.get(start..stop)` -/
def range? (b : List A) (start stop : ℕ) : Option (List A) :=
  if start ≤ stop ∧ stop ≤ b.length then some (slice b start (stop - start)) else none

variable {start n : ℕ}

theorem length_slice {b : List A} (h : start + n ≤ b.length) : (slice b start n).length = n := by
  rw [slice, length_take, length_drop]
  omega

variable (b : List A)

theorem length_slice_le (start n : ℕ) : (slice b start n).length ≤ n := by
  rw [slice, length_take]
  exact Nat.min_le_left _ _

@[simp] theorem slice_zero (start : ℕ) : slice b start 0 = [] := by
  rw [slice, take_zero]

theorem slice_all : slice b 0 b.length = b := by
  rw [slice, drop_zero, take_length]

theorem slice_slice {b : List A} {i k : ℕ} (h : i + k ≤ n) :
    slice (slice b start n) i k = slice b (start + i) k := by
  rw [slice, slice, slice, drop_take, take_take, drop_drop]
  congr 1
  omega

theorem slice_add (start m n : ℕ) :
    slice b start (m + n) = slice b start m ++ slice b (start + m) n := by
  rw [slice, slice, slice, List.take_add, drop_drop]

theorem slice_append_left {a b : List A} (h : start + n ≤ a.length) :
    slice (a ++ b) start n = slice a start n := by
  rw [slice, slice, drop_append_of_le_length (by omega), take_append_of_le_length]
  rw [length_drop]
  omega

theorem slice_append_right {a b : List A} (h : a.length ≤ start) :
    slice (a ++ b) start n = slice b (start - a.length) n := by
  rw [slice, slice, drop_append, drop_eq_nil_of_le h, nil_append]

theorem slice_replicate {a : A} {size : ℕ} (h : start + n ≤ size) :
    slice (List.replicate size a) start n = List.replicate n a := by
  rw [slice, drop_replicate, take_replicate]
  congr 1
  omega

theorem getElem?_slice {b : List A} {i : ℕ} (h : i < n) :
    (slice b start n)[i]? = b[start + i]? := by
  rw [slice, List.getElem?_take_of_lt h, List.getElem?_drop]

variable {v : List A}

theorem range?_eq_some {b : List A} {stop : ℕ} : range? b start stop = some v
      ↔ start ≤ stop ∧ stop ≤ b.length ∧ slice b start (stop - start) = v := by
  unfold range?
  split_ifs with h
  · rw [Option.some_inj]
    exact ⟨fun hv => ⟨h.1, h.2, hv⟩, fun hv => hv.2.2⟩
  · exact ⟨fun hv => (by cases hv), fun hv => absurd ⟨hv.1, hv.2.1⟩ h⟩

theorem range?_of_le {b : List A} {stop : ℕ} (h : start ≤ stop) (h' : stop ≤ b.length) :
    range? b start stop = some (slice b start (stop - start)) := if_pos ⟨h, h'⟩

theorem range?_eq_none {b : List A} {stop : ℕ} :
    range? b start stop = none ↔ ¬ (start ≤ stop ∧ stop ≤ b.length) := by
  unfold range?
  split_ifs with h
  · exact ⟨fun hv => (by cases hv), fun hv => absurd h hv⟩
  · exact ⟨fun _ => h, fun _ => rfl⟩

/-! ## Writes -/

/-- A place, with what is written there. -/
abbrev Write (A : Type) : Type := ℕ × List A

/-- `bytes[at..at + v.len()].copy_from_slice(v)` -/
def put (b : List A) (start : ℕ) (v : List A) : List A :=
  b.take start ++ v ++ b.drop (start + v.length)

/-- Performs some writes, one after the other. -/
def puts (b : List A) (ws : List (Write A)) : List A :=
  ws.foldl (fun b w => put b w.1 w.2) b

@[simp] theorem puts_cons (b : List A) (w : Write A) (ws : List (Write A)) :
    puts b (w :: ws) = puts (put b w.1 w.2) ws := rfl

theorem puts_append (b : List A) (ws vs : List (Write A)) :
    puts b (ws ++ vs) = puts (puts b ws) vs := foldl_append

theorem length_put {b : List A} (h : start + v.length ≤ b.length) :
    (put b start v).length = b.length := by
  simp only [put, length_append, length_take, length_drop]
  omega

/-- **What is written is read back.** -/
theorem slice_put_self {b : List A} (h : start + v.length ≤ b.length) :
    slice (put b start v) start v.length = v := by
  have hlen : (b.take start).length = start := by rw [length_take]; omega
  rw [put, append_assoc, slice_append_right (by omega), hlen, Nat.sub_self,
    slice_append_left (by omega), slice_all]

/-- **The rest is unchanged** by a write. -/
theorem slice_put_of_apart {b : List A} {i : ℕ} (h : start + v.length ≤ b.length)
    (hap : start + v.length ≤ i ∨ i + n ≤ start) : slice (put b start v) i n = slice b i n := by
  have hlen : (b.take start).length = start := by rw [length_take]; omega
  rcases hap with haft | hbef
  · have hlen' : (b.take start ++ v).length = start + v.length := by
      rw [length_append, hlen]
    rw [put, slice_append_right (by omega), hlen', slice, slice, drop_drop]
    congr 2
    omega
  · rw [put, append_assoc, slice_append_left (by omega), slice, slice, drop_take, take_take]
    congr 1
    omega

theorem getElem?_put {b v : List A} {start i : ℕ} (h : start + v.length ≤ b.length) :
    (put b start v)[i]? = if start ≤ i ∧ i < start + v.length then v[i - start]? else b[i]? := by
  have htak : (b.take start).length = start := by rw [length_take, Nat.min_eq_left (by omega)]
  unfold put
  split_ifs with hi
  · rw [append_assoc, List.getElem?_append_right (by omega), htak,
      List.getElem?_append_left (by omega)]
  · rcases Nat.lt_or_ge i start with hlt | hge
    · rw [append_assoc, List.getElem?_append_left (by omega), List.getElem?_take_of_lt hlt]
    · rw [List.getElem?_append_right (by rw [length_append]; omega), length_append, htak,
        List.getElem?_drop, Nat.add_sub_cancel' (by omega)]

/-- Buffers that differ in one element have the same before it and after it. -/
theorem exists_split {b a : List A} {i : ℕ} {x y : A} (h : ∀ j ≠ i, b[j]? = a[j]?)
    (hb : b[i]? = some x) (hc : a[i]? = some y) : ∃ l r, b = l ++ x :: r ∧ a = l ++ y :: r := by
  have hspl {d : List A} {z : A} (hz : d[i]? = some z) : d = d.take i ++ z :: d.drop (i + 1) := by
    obtain ⟨hlt, rfl⟩ := List.getElem?_eq_some_iff.mp hz
    rw [getElem_cons_drop, take_append_drop]
  have htak : a.take i = b.take i := by
    refine ext_getElem? fun j => ?_
    rcases Nat.lt_or_ge j i with hlt | hge
    · rw [List.getElem?_take_of_lt hlt, List.getElem?_take_of_lt hlt, h j hlt.ne]
    · rw [List.getElem?_take_eq_none hge, List.getElem?_take_eq_none hge]
  have hdr : a.drop (i + 1) = b.drop (i + 1) := by
    refine ext_getElem? fun j => ?_
    rw [List.getElem?_drop, List.getElem?_drop, h _ (by omega)]
  refine ⟨b.take i, b.drop (i + 1), hspl hb, ?_⟩
  rw [← htak, ← hdr]
  exact hspl hc

/-! ## Layouts -/

/-- Two writes that do not overlap. -/
def Write.Apart (w v : Write A) : Prop :=
  w.1 + w.2.length ≤ v.1 ∨ v.1 + v.2.length ≤ w.1

theorem Write.Apart.symm {w v : Write A} (h : w.Apart v) : v.Apart w := Or.symm h

/-- **Writes between two places**, no two of which overlap. -/
structure Laid (lo hi : ℕ) (ws : List (Write A)) : Prop where
  /-- They are all between the two places. -/
  within : ∀ w ∈ ws, lo ≤ w.1 ∧ w.1 + w.2.length ≤ hi
  /-- No two overlap. -/
  apart : ws.Pairwise Write.Apart

/-- **The buffer has what these writes write.** -/
def HasWrites (b : List A) (ws : List (Write A)) : Prop :=
  ∀ w ∈ ws, slice b w.1 w.2.length = w.2

namespace Laid

variable {lo hi mid : ℕ} {ws vs : List (Write A)} {w : Write A}

theorem nil : Laid lo hi ([] : List (Write A)) :=
  ⟨fun _ h => absurd h not_mem_nil, List.Pairwise.nil⟩

theorem mono {lo' hi' : ℕ} (h : Laid lo hi ws) (hlo : lo' ≤ lo) (hhi : hi ≤ hi') :
    Laid lo' hi' ws :=
  ⟨fun w hw => ⟨le_trans hlo (h.within w hw).1, le_trans (h.within w hw).2 hhi⟩, h.apart⟩

theorem perm (h : Laid lo hi ws) (hp : ws.Perm vs) : Laid lo hi vs :=
  ⟨fun w hw => h.within w (hp.mem_iff.mpr hw), h.apart.perm hp (fun hab => Write.Apart.symm hab)⟩

theorem append (h : Laid lo mid ws) (h' : Laid mid hi vs) (hlo : lo ≤ mid) (hhi : mid ≤ hi) :
    Laid lo hi (ws ++ vs) := by
  refine ⟨fun w hw => ?_, pairwise_append.mpr ⟨h.apart, h'.apart, fun w hw v hv => ?_⟩⟩
  · rcases mem_append.mp hw with hw | hw
    · exact ⟨(h.within w hw).1, le_trans (h.within w hw).2 hhi⟩
    · exact ⟨le_trans hlo (h'.within w hw).1, (h'.within w hw).2⟩
  · exact Or.inl (le_trans (h.within w hw).2 (h'.within v hv).1)

theorem cons (hlo : lo ≤ w.1) (hmid : w.1 + w.2.length ≤ mid) (h : Laid mid hi ws)
    (hhi : mid ≤ hi) : Laid lo hi (w :: ws) := by
  have hw : Laid lo mid [w] := ⟨fun v hv => by
    rw [mem_singleton.mp hv]
    exact ⟨hlo, hmid⟩, pairwise_singleton _ _⟩
  exact hw.append h (by omega) hhi

theorem sublist (h : Laid lo hi ws) (hs : vs.Sublist ws) : Laid lo hi vs :=
  ⟨fun w hw => h.within w (hs.subset hw), h.apart.sublist hs⟩

/-- Writes in the order of their places. -/
def InOrder : ℕ → ℕ → List (Write A) → Prop
  | lo, hi, [] => lo ≤ hi
  | lo, hi, w :: ws => lo ≤ w.1 ∧ InOrder (w.1 + w.2.length) hi ws

theorem InOrder.le (h : InOrder lo hi ws) : lo ≤ hi := by
  induction ws generalizing lo with
  | nil => exact h
  | cons w ws ih => exact le_trans h.1 (le_trans (Nat.le_add_right _ _) (ih h.2))

theorem of_inOrder (h : InOrder lo hi ws) : Laid lo hi ws := by
  induction ws generalizing lo with
  | nil => exact nil
  | cons w ws ih => exact cons h.1 le_rfl (ih h.2) h.2.le

/-- A table: the writes of each entry are inside the entry. -/
theorem table {B : Type} {f : B × ℕ → List (Write A)} {base size : ℕ} (l : List B) (n : ℕ)
    (h : ∀ x k, (x, k) ∈ l.zipIdx n → Laid (base + k * size) (base + (k + 1) * size) (f (x, k))) :
    Laid (base + n * size) (base + (n + l.length) * size) ((l.zipIdx n).flatMap f) := by
  induction l generalizing n with
  | nil => exact nil
  | cons x l ih =>
    rw [zipIdx_cons, flatMap_cons]
    have hres := ih (n + 1) fun y k hy => h y k (by
      rw [zipIdx_cons]
      exact mem_cons_of_mem _ hy)
    have hend : n + 1 + l.length = n + (x :: l).length := by rw [length_cons]; omega
    rw [hend] at hres
    refine append (h x n (by rw [zipIdx_cons]; exact mem_cons_self)) hres ?_ ?_
    · exact Nat.add_le_add_left (Nat.mul_le_mul_right _ (Nat.le_succ n)) _
    · refine Nat.add_le_add_left (Nat.mul_le_mul_right _ ?_) _
      rw [length_cons]
      omega

end Laid

/-! ## Reading back -/

namespace HasWrites

variable {b : List A} {ws vs : List (Write A)}

theorem append (h : HasWrites b ws) (h' : HasWrites b vs) : HasWrites b (ws ++ vs) := fun w hw =>
  (mem_append.mp hw).elim (h w) (h' w)

theorem left (h : HasWrites b (ws ++ vs)) : HasWrites b ws := fun w hw =>
  h w (mem_append_left _ hw)

theorem right (h : HasWrites b (ws ++ vs)) : HasWrites b vs := fun w hw =>
  h w (mem_append_right _ hw)

theorem subset (h : HasWrites b ws) (hs : ∀ w ∈ vs, w ∈ ws) : HasWrites b vs := fun w hw =>
  h w (hs w hw)

end HasWrites

theorem length_puts {b : List A} {ws : List (Write A)}
    (h : ∀ w ∈ ws, w.1 + w.2.length ≤ b.length) : (puts b ws).length = b.length := by
  induction ws generalizing b with
  | nil => rfl
  | cons w ws ih =>
    have hw := length_put (h w mem_cons_self)
    rw [puts_cons, ih fun v hv => by rw [hw]; exact h v (mem_cons_of_mem _ hv), hw]

/-- **What no write overlaps is unchanged.** -/
theorem slice_puts_of_apart {b : List A} {ws : List (Write A)} {i : ℕ}
    (h : ∀ w ∈ ws, w.1 + w.2.length ≤ b.length)
    (hap : ∀ w ∈ ws, w.1 + w.2.length ≤ i ∨ i + n ≤ w.1) :
    slice (puts b ws) i n = slice b i n := by
  induction ws generalizing b with
  | nil => rfl
  | cons w ws ih =>
    have hw := h w mem_cons_self
    rw [puts_cons, ih (fun v hv => by
        rw [length_put hw]; exact h v (mem_cons_of_mem _ hv))
      (fun v hv => hap v (mem_cons_of_mem _ hv)),
      slice_put_of_apart hw (hap w mem_cons_self)]

/-- **All that is written is read back**, as no write overlaps another. -/
theorem holds_puts {b : List A} {lo : ℕ} {ws : List (Write A)} (h : Laid lo b.length ws) :
    HasWrites (puts b ws) ws := by
  induction ws generalizing b with
  | nil => exact fun _ hw => absurd hw not_mem_nil
  | cons w ws ih =>
    have hw := (h.within w mem_cons_self).2
    have hres : Laid lo (put b w.1 w.2).length ws := by
      rw [length_put hw]
      exact h.sublist (sublist_cons_self _ _)
    intro v hv
    rcases mem_cons.mp hv with rfl | hv
    · rw [puts_cons, slice_puts_of_apart (fun u hu => (hres.within u hu).2) fun u hu =>
        ((pairwise_cons.mp h.apart).1 u hu).symm]
      exact slice_put_self hw
    · exact ih hres v hv

/-- **Fields that are nowhere written are still zero**, and read back with the rest. -/
theorem holds_puts_replicate {a : A} {size lo : ℕ} {ws zs : List (Write A)}
    (h : Laid lo size (ws ++ zs)) (hzer : ∀ z ∈ zs, z.2 = List.replicate z.2.length a) :
    HasWrites (puts (List.replicate size a) ws) (ws ++ zs) := by
  have hlen : (List.replicate size a).length = size := length_replicate
  have hwr : Laid lo (List.replicate size a).length ws := by
    rw [hlen]
    exact h.sublist (sublist_append_left _ _)
  refine (holds_puts hwr).append fun z hz => ?_
  rw [slice_puts_of_apart (fun w hw => (hwr.within w hw).2) (fun w hw => ?_),
    slice_replicate, ← hzer z hz]
  · exact (h.within z (mem_append_right _ hz)).2
  · exact (pairwise_append.mp h.apart).2.2 w hw z hz

/-! ## Writing twice -/

theorem put_append_left {a b : List A} (h : start + v.length ≤ a.length) :
    put (a ++ b) start v = put a start v ++ b := by
  rw [put, put, take_append_of_le_length (by omega), drop_append_of_le_length h,
    append_assoc, append_assoc, append_assoc]

theorem puts_append_left {a b : List A} {ws : List (Write A)}
    (h : ∀ w ∈ ws, w.1 + w.2.length ≤ a.length) : puts (a ++ b) ws = puts a ws ++ b := by
  induction ws generalizing a with
  | nil => rfl
  | cons w ws ih =>
    have hw := h w mem_cons_self
    rw [puts_cons, puts_cons, put_append_left hw]
    refine ih fun v hv => ?_
    rw [length_put hw]
    exact h v (mem_cons_of_mem _ hv)

/-- The extents of some writes. -/
def extents (ws : List (Write A)) : List (ℕ × ℕ) := ws.map fun w => (w.1, w.2.length)

theorem getElem?_puts_of_apart {b : List A} {ws : List (Write A)} {i : ℕ}
    (h : ∀ w ∈ ws, w.1 + w.2.length ≤ b.length)
    (hap : ∀ w ∈ ws, w.1 + w.2.length ≤ i ∨ i + 1 ≤ w.1) : (puts b ws)[i]? = b[i]? := by
  have hsl := congrArg (fun l => l[0]?) (slice_puts_of_apart h hap)
  simpa only [getElem?_slice Nat.one_pos, Nat.add_zero] using hsl

/-- **What has been overwritten is restored** by writing again what was there. -/
theorem puts_restore {b : List A} {us vs : List (Write A)} (h : Laid 0 b.length vs)
    (hext : extents us = extents vs) (hb : HasWrites b vs) : puts (puts b us) vs = b := by
  have hmem : ∀ u ∈ us, ∃ v ∈ vs, (v.1, v.2.length) = (u.1, u.2.length) := by
    intro u hu
    have hin : (u.1, u.2.length) ∈ extents vs := hext ▸ mem_map_of_mem hu
    exact mem_map.mp hin
  have hus : ∀ u ∈ us, u.1 + u.2.length ≤ b.length := by
    intro u hu
    obtain ⟨v, hv, heq⟩ := hmem u hu
    obtain ⟨hst, hlen⟩ := Prod.mk.inj heq
    rw [← hst, ← hlen]
    exact (h.within v hv).2
  have hlen : (puts b us).length = b.length := length_puts hus
  have hvs : Laid 0 (puts b us).length vs := by rwa [hlen]
  refine ext_getElem? fun i => ?_
  by_cases hcov : ∃ v ∈ vs, v.1 ≤ i ∧ i < v.1 + v.2.length
  · -- written again: the value is the one that the buffer had
    obtain ⟨v, hv, hlo, hhi⟩ := hcov
    have hnew := congrArg (fun l => l[i - v.1]?) (holds_puts hvs v hv)
    have hold := congrArg (fun l => l[i - v.1]?) (hb v hv)
    simp only [getElem?_slice (show i - v.1 < v.2.length by omega),
      Nat.add_sub_cancel' hlo] at hnew hold
    exact hnew.trans hold.symm
  · have hap : ∀ v ∈ vs, v.1 + v.2.length ≤ i ∨ i + 1 ≤ v.1 := by
      intro v hv
      by_contra hno
      exact hcov ⟨v, hv, by omega, by omega⟩
    rw [getElem?_puts_of_apart (fun v hv => (hvs.within v hv).2) hap,
      getElem?_puts_of_apart hus fun u hu => ?_]
    obtain ⟨v, hv, heq⟩ := hmem u hu
    obtain ⟨hst, hlng⟩ := Prod.mk.inj heq
    rw [← hst, ← hlng]
    exact hap v hv

/-! ## Buffers without a gap -/

/-- Writes that follow one another, without a gap, from one place to another. -/
def Tiles : ℕ → ℕ → List (Write A) → Prop
  | lo, hi, [] => lo = hi
  | lo, hi, w :: ws => w.1 = lo ∧ Tiles (lo + w.2.length) hi ws

theorem Tiles.append {lo mid hi : ℕ} {ws vs : List (Write A)} (h : Tiles lo mid ws)
    (h' : Tiles mid hi vs) : Tiles lo hi (ws ++ vs) := by
  induction ws generalizing lo with
  | nil => exact (show lo = mid from h) ▸ h'
  | cons w ws ih => exact ⟨h.1, ih h.2⟩

theorem Tiles.le {lo hi : ℕ} {ws : List (Write A)} (h : Tiles lo hi ws) : lo ≤ hi := by
  induction ws generalizing lo with
  | nil => exact le_of_eq h
  | cons w ws ih => exact le_trans (Nat.le_add_right _ _) (ih h.2)

theorem Tiles.inOrder {lo hi : ℕ} {ws : List (Write A)} (h : Tiles lo hi ws) :
    Laid.InOrder lo hi ws := by
  induction ws generalizing lo with
  | nil => exact le_of_eq h
  | cons w ws ih =>
    refine ⟨le_of_eq h.1.symm, ?_⟩
    rw [h.1]
    exact ih h.2

theorem Tiles.laid {lo hi : ℕ} {ws : List (Write A)} (h : Tiles lo hi ws) : Laid lo hi ws :=
  Laid.of_inOrder h.inOrder

/-- **Writes without a gap are the concatenation** of what they write. -/
theorem slice_eq_of_tiles {b : List A} {lo hi : ℕ} {ws : List (Write A)}
    (h : Tiles lo hi ws) (hb : HasWrites b ws) :
    slice b lo (hi - lo) = (ws.map Prod.snd).flatten := by
  induction ws generalizing lo with
  | nil =>
    rw [show lo = hi from h, Nat.sub_self, slice_zero]
    rfl
  | cons w ws ih =>
    have hle := h.2.le
    have hspl : hi - lo = w.2.length + (hi - (lo + w.2.length)) := by omega
    have hw := hb w mem_cons_self
    rw [h.1] at hw
    rw [hspl, slice_add, hw, ih h.2 fun v hv => hb v (mem_cons_of_mem _ hv)]
    rfl

theorem eq_of_tiles {b c : List A} {ws : List (Write A)} (h : Tiles 0 b.length ws)
    (hlen : c.length = b.length) (hb : HasWrites b ws) (hc : HasWrites c ws) : b = c := by
  rw [← slice_all b, ← slice_all c, hlen]
  exact (slice_eq_of_tiles h hb).trans (slice_eq_of_tiles h hc).symm

end Logan
