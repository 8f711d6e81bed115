import Logan.Coding.RansNibbles
import Logan.Coding.RansStreams
import Logan.Util.Double

/-!
# Sharing out the slots

`Table::from_histogram`, for any number of symbols, and for any way to compute a
quotient: in double precision, as the program does it, or exactly. Frequencies
are rounded down, but a symbol that occurs gets at least one slot; then slots
that are left are given out, and slots that are missing are taken away. The loop
that takes them away has no bound in the program, so it is modelled as one that
may be endless: it is given some steps, and fails if these are not enough.

Whatever the arithmetic is, as long as no share is too small: no more slots can
be left than there are symbols that occur. And where slots are missing, there are
more than there are symbols, so that some symbol has two: in each round around
the symbols a slot is taken away, and the loop ends.
-/

namespace Logan

open List Function
open List (finRange)

theorem Result.mapError_eq_ok {A E F : Type} {f : E → F} {x : Except E A} {a : A} :
    x.mapError f = .ok a ↔ x = .ok a := by
  cases x with
  | ok => exact ⟨fun h => congrArg _ (Except.ok.inj h), fun h => congrArg _ (Except.ok.inj h)⟩
  | error => exact iff_of_false nofun nofun

namespace Rans256

open Result

/-! ## Quotients -/

/-- The share of a symbol, in slots, as it is computed. -/
def rawShare (count total : ℕ) : ℚ :=
  Double.round (Double.round (Double.round count / Double.round total) * scale)

theorem cast_scale : ((scale : ℕ) : ℚ) = 2 ^ 14 := by norm_num [scale, scaleBits]

/-- The quotient of two counts, before the last two roundings. -/
theorem le_quotient {count total : ℚ} (hcount : 0 < count) (htot : 0 < total) :
    count / total * ((1 - 1 / 2 ^ 53) / (1 + 1 / 2 ^ 53))
      ≤ Double.round count / Double.round total := by
  rw [div_mul_div_comm]
  exact div_le_div₀ (le_of_lt (Double.round_pos hcount)) (Double.le_round hcount)
    (Double.round_pos htot) (Double.round_le htot)

/-- **A share is computed almost exactly**: four roundings do not take half a
slot from all of them. -/
theorem le_rawShare {count total : ℕ} (hcount : 0 < count) (htot : 0 < total) :
    ((2 : ℚ) ^ 14 - 1 / 2) * (count / total) ≤ rawShare count total := by
  have hc : (0 : ℚ) < count := Nat.cast_pos.mpr hcount
  have ht : (0 : ℚ) < total := Nat.cast_pos.mpr htot
  have hqt := div_pos (Double.round_pos hc) (Double.round_pos ht)
  have hrq := Double.round_pos hqt
  have hcon : ((2 : ℚ) ^ 14 - 1 / 2) ≤ (1 - 1 / 2 ^ 53) / (1 + 1 / 2 ^ 53)
      * (1 - 1 / 2 ^ 53) * 2 ^ 14 * (1 - 1 / 2 ^ 53) := by norm_num
  unfold rawShare
  rw [cast_scale]
  calc ((2 : ℚ) ^ 14 - 1 / 2) * (count / total)
      ≤ (1 - 1 / 2 ^ 53) / (1 + 1 / 2 ^ 53) * (1 - 1 / 2 ^ 53) * 2 ^ 14 * (1 - 1 / 2 ^ 53)
          * (count / total) := mul_le_mul_of_nonneg_right hcon (le_of_lt (div_pos hc ht))
    _ = count / total * ((1 - 1 / 2 ^ 53) / (1 + 1 / 2 ^ 53)) * (1 - 1 / 2 ^ 53) * 2 ^ 14
          * (1 - 1 / 2 ^ 53) := by ring
    _ ≤ Double.round count / Double.round total * (1 - 1 / 2 ^ 53) * 2 ^ 14
          * (1 - 1 / 2 ^ 53) := by
        have hle := le_quotient hc ht
        gcongr
    _ ≤ Double.round (Double.round count / Double.round total) * 2 ^ 14
          * (1 - 1 / 2 ^ 53) := by
        have hle := Double.le_round hqt
        gcongr
    _ ≤ Double.round (Double.round (Double.round count / Double.round total) * 2 ^ 14) :=
        Double.le_round (mul_pos hrq (by norm_num))

/-- **How shares are computed**: a count out of a total, in slots, and what is
left of a share when it is rounded down. -/
structure Arithmetic where
  share : ℕ → ℕ → ℚ
  rest : ℚ → ℚ

namespace Arithmetic

/-- Exact quotients. -/
def exact : Arithmetic where
  share count total := count / total * scale
  rest share := share - ⌊share⌋

/-- Double precision. -/
def double : Arithmetic where
  share := rawShare
  rest share := Double.round (share - ⌊share⌋)

/-- **Shares are not too small**: together, they lack less than a slot. -/
def Enough (A : Arithmetic) : Prop :=
  ∀ count total, 0 < count → 0 < total →
    ((2 : ℚ) ^ 14 - 1 / 2) * (count / total) ≤ A.share count total

theorem enough_double : double.Enough := fun _ _ => le_rawShare

theorem enough_exact : exact.Enough := by
  intro count total _ _
  show _ ≤ (count : ℚ) / total * (scale : ℕ)
  rw [cast_scale, mul_comm]
  exact mul_le_mul_of_nonneg_left (by norm_num) (by positivity)

end Arithmetic

/-- Frequencies of `n` symbols, and where their slots begin. -/
structure Shares (n : ℕ) where
  freq : Fin n → ℕ
  start : Fin n → ℕ
deriving DecidableEq

section Loops

variable {n : ℕ}

/-! ## The loops -/

/-- The loop that gives out slots, in some order. -/
def giveFrom (hist : Fin n → ℕ) : List (Fin n) → (Fin n → ℕ) → ℕ →
    Except ColicError ((Fin n → ℕ) × ℕ)
  | [], freq, deficit => pure (freq, deficit)
  | s :: rest, freq, deficit =>
    if deficit = 0 then pure (freq, deficit)
    else if hist s ≠ 0 then do
      let more ← okOr (checkedSumU32 (freq s) 1) (.usage "rANS frequency overflows u32")
      giveFrom hist rest (update freq s more) (deficit - 1)
    else giveFrom hist rest freq deficit

def give (hist : Fin n → ℕ) (order : List (Fin n)) (freq : Fin n → ℕ) (deficit : ℕ) :
    Except ColicError (Fin n → ℕ) := do
  let (freq, deficit) ← giveFrom hist order freq deficit
  refuse (deficit ≠ 0)
    (.usage "rANS largest-remainder normalization left a positive deficit")
  pure freq

/-- `while deficit < 0`: slots are taken away, around an order, in so many steps. -/
def takeFrom (order : List (Fin n)) : ℕ → ℕ → (Fin n → ℕ) → ℕ →
    Except (Failure ColicError) (Fin n → ℕ)
  | _, _, freq, 0 => pure freq
  | 0, _, _, _ + 1 => .error .endless
  | fuel + 1, cursor, freq, excess + 1 => do
    let s ← okOr order[cursor % order.length]? .panic
    let next ← okOr (checkedSum cursor 1)
      (.error (.usage "rANS normalization cursor overflows"))
    if freq s > 1 then takeFrom order fuel next (update freq s (freq s - 1)) excess
    else takeFrom order fuel next freq (excess + 1)

/-- The loop that places the symbols one after the other. -/
def placeFrom (freq : Fin n → ℕ) : List (Fin n) → ℕ → Except ColicError (List ℕ × ℕ)
  | [], cursor => pure ([], cursor)
  | s :: rest, cursor => do
    let next ← okOr (checkedSumU32 cursor (freq s)) (.usage "rANS start table overflows u32")
    let (starts, stop) ← placeFrom freq rest next
    pure (cursor :: starts, stop)

/-! ## The shares -/

variable (A : Arithmetic)

/-- The frequencies that are assigned first. -/
def assigned (hist : Fin n → ℕ) (total : ℕ) (s : Fin n) : ℕ :=
  if hist s = 0 then 0 else max (min ⌊A.share (hist s) total⌋.toNat u32Max) 1

/-- What rounding down has left. -/
def remainder (hist : Fin n → ℕ) (total : ℕ) (s : Fin n) : ℚ :=
  if hist s = 0 then -1 else A.rest (A.share (hist s) total)

/-- The sum over all symbols. -/
def sumShares (f : Fin n → ℕ) : ℕ := ((finRange n).map f).sum

/-- The frequencies, after the slots that are left or missing. The loop that takes
slots away has `fuel` steps for each. -/
def normalize (fuel : ℕ) (hist : Fin n → ℕ) (total : ℕ) :
    Except (Failure ColicError) (Fin n → ℕ) :=
  let freq := assigned A hist total
  let sum := sumShares freq
  if sum < scale then
    (give hist ((finRange n).mergeSort fun left right =>
      decide (remainder A hist total right < remainder A hist total left ∨
        remainder A hist total left = remainder A hist total right ∧ left ≤ right))
      freq (scale - sum)).mapError .error
  else if sum > scale then
    takeFrom ((finRange n).mergeSort fun left right =>
      decide (freq right < freq left ∨ freq left = freq right ∧ left ≤ right))
      (fuel * (sum - scale)) 0 freq (sum - scale)
  else pure freq

/-- **`Table::from_histogram`**, for `n` symbols. -/
def sharesOf (fuel : ℕ) (hist : Fin n → ℕ) :
    Except (Failure ColicError) (Shares n) := do
  let total ← okOr ((finRange n).foldlM (fun sum s => checkedSum sum (hist s)) 0)
    (.error (.usage "rANS histogram total overflows u64"))
  refuse (total = 0) (.error (.usage "rANS table requires at least one nibble"))
  refuse (((finRange n).filter fun s => hist s ≠ 0).length > scale)
    (.error (.usage "rANS table scale cannot represent every present symbol"))
  let freq ← normalize A fuel hist total
  let placed ← (placeFrom freq (finRange n) 0).mapError Failure.error
  refuse (placed.2 ≠ scale)
    (.error (.usage s!"rANS frequency sum is {placed.2}, expected {scale}"))
  pure ⟨freq, fun s => placed.1.getD s.val 0⟩

/-! ## What is assigned first -/

variable (f : Fin n → ℕ)

theorem sumShares_eq : sumShares f = ∑ s, f s := (Fin.sum_univ_def f).symm

theorem le_sumShares (s : Fin n) : f s ≤ sumShares f := by
  rw [sumShares_eq]
  exact Finset.single_le_sum (fun _ _ => Nat.zero_le _) (Finset.mem_univ s)

theorem sumShares_update (s : Fin n) (v : ℕ) :
    sumShares (update f s v) + f s = sumShares f + v := by
  rw [sumShares_eq, sumShares_eq, Finset.sum_update_of_mem (Finset.mem_univ s),
    ← Finset.add_sum_erase Finset.univ f (Finset.mem_univ s), Finset.sdiff_singleton_eq_erase]
  ring

theorem assigned_le (hist : Fin n → ℕ) (total : ℕ) (s : Fin n) :
    assigned A hist total s ≤ u32Max := by
  have hmax : 1 ≤ u32Max := by decide
  unfold assigned
  split_ifs
  · exact Nat.zero_le _
  · exact max_le (min_le_right _ _) hmax

variable {hist : Fin n → ℕ}

/-- **A symbol has slots if it occurs**, and only then. -/
theorem assigned_eq_zero {A : Arithmetic} {total : ℕ} {s : Fin n} :
    assigned A hist total s = 0 ↔ hist s = 0 := by
  unfold assigned
  by_cases hs : hist s = 0
  · rw [if_pos hs]
    exact iff_of_true rfl hs
  · rw [if_neg hs]
    exact iff_of_false (ne_of_gt (Nat.one_pos.trans_le (le_max_right _ _))) hs

/-- What is assigned to a symbol is less than a slot below its share. -/
theorem le_assigned {A : Arithmetic} (hA : A.Enough) {total : ℕ} {s : Fin n}
    (hs : hist s ≠ 0) (hle : hist s ≤ total) :
    ((2 : ℚ) ^ 14 - 1 / 2) * (hist s / total) ≤ assigned A hist total s + 1 := by
  have hpos := Nat.pos_of_ne_zero hs
  have hraw := hA _ _ hpos (hpos.trans_le hle)
  have hfl := Int.lt_floor_add_one (A.share (hist s) total)
  unfold assigned
  rw [if_neg hs]
  rcases le_total ⌊A.share (hist s) total⌋.toNat u32Max with hmin | hmin
  · have hnat : (⌊A.share (hist s) total⌋ : ℚ) ≤ (⌊A.share (hist s) total⌋.toNat : ℚ) := by
      exact_mod_cast Int.self_le_toNat _
    have hmax : ((⌊A.share (hist s) total⌋.toNat : ℕ) : ℚ)
        ≤ ((max ⌊A.share (hist s) total⌋.toNat 1 : ℕ) : ℚ) := by
      exact_mod_cast le_max_left _ _
    rw [min_eq_left hmin]
    linarith
  · -- a share that is cut to a word is all slots, and more
    have hone : (hist s : ℚ) / total ≤ 1 :=
      div_le_one_of_le₀ (by exact_mod_cast hle) (by positivity)
    have hmax : (2 : ℚ) ^ 14 ≤ ((max u32Max 1 : ℕ) : ℚ) := by norm_num [u32Max]
    rw [min_eq_right hmin]
    linarith

/-- **No more slots are left than there are symbols** that occur. -/
theorem scale_le_sumShares {A : Arithmetic} (hA : A.Enough)
    (htot : 0 < sumShares hist) : scale ≤ sumShares (assigned A hist (sumShares hist))
      + sumShares fun s => if hist s = 0 then 0 else 1 := by
  have ht : (0 : ℚ) < (sumShares hist : ℕ) := Nat.cast_pos.mpr htot
  have hsh : ∀ s, ((2 : ℚ) ^ 14 - 1 / 2) * (hist s / (sumShares hist : ℕ))
      ≤ assigned A hist (sumShares hist) s + ((if hist s = 0 then 0 else 1 : ℕ) : ℚ) := by
    intro s
    by_cases hs : hist s = 0
    · rw [hs, if_pos rfl, Nat.cast_zero, zero_div, mul_zero, add_zero]
      exact Nat.cast_nonneg _
    · rw [if_neg hs, Nat.cast_one]
      exact le_assigned hA hs (le_sumShares hist s)
  have hsum := Finset.sum_le_sum fun s (_ : s ∈ Finset.univ) => hsh s
  rw [← Finset.mul_sum, ← Finset.sum_div, Finset.sum_add_distrib, ← Nat.cast_sum, ← Nat.cast_sum,
    ← Nat.cast_sum, ← sumShares_eq, ← sumShares_eq, ← sumShares_eq,
    div_self (ne_of_gt ht), mul_one, ← Nat.cast_add] at hsum
  generalize (sumShares (assigned A hist (sumShares hist))
    + sumShares fun s => if hist s = 0 then 0 else 1) = m at hsum ⊢
  have hlt : ((scale : ℕ) : ℚ) < ((m + 1 : ℕ) : ℚ) := by
    rw [cast_scale, Nat.cast_add, Nat.cast_one]
    linarith
  exact Nat.lt_succ_iff.mp (Nat.cast_lt.mp hlt)

/-- Symbols that occur are counted. -/
theorem length_present (hist : Fin n → ℕ) : ((finRange n).filter fun s => hist s ≠ 0).length
      = sumShares fun s => if hist s = 0 then 0 else 1 := by
  unfold sumShares
  induction finRange n with
  | nil => rfl
  | cons s rest ih =>
    rw [map_cons, sum_cons, ← ih]
    by_cases hs : hist s = 0
    · rw [filter_cons_of_neg (by simpa using hs), if_pos hs, Nat.zero_add]
    · rw [filter_cons_of_pos (by simpa using hs), if_neg hs, length_cons, Nat.add_comm]

/-! ## The loops end -/

/-- **Frequencies of a histogram**: they are not zero where counts are not zero. -/
def Marks (freq hist : Fin n → ℕ) : Prop := ∀ s, freq s = 0 ↔ hist s = 0

/-- One more slot for a symbol that occurs. -/
theorem Marks.update {freq hist : Fin n → ℕ} (h : Marks freq hist) {s : Fin n} {v : ℕ}
    (hs : hist s ≠ 0) (hv : v ≠ 0) : Marks (update freq s v) hist := by
  intro r
  by_cases hr : r = s
  · rw [hr, update_self]
    exact iff_of_false hv hs
  · rw [update_of_ne hr]
    exact h r

variable {order : List (Fin n)}

/-- **The slots that are left are given out**, if enough symbols occur. -/
theorem giveFrom_eq_ok {freq : Fin n → ℕ} {deficit : ℕ}
    (hmar : Marks freq hist) (hmax : sumShares freq + deficit ≤ u32Max)
    (hle : deficit ≤ (order.filter fun s => hist s ≠ 0).length) :
    ∃ freq', giveFrom hist order freq deficit = .ok (freq', 0) ∧
      sumShares freq' = sumShares freq + deficit ∧ Marks freq' hist := by
  induction order generalizing freq deficit with
  | nil =>
    have hzer : deficit = 0 := Nat.le_zero.mp hle
    rw [hzer, Nat.add_zero]
    exact ⟨freq, rfl, rfl, hmar⟩
  | cons s rest ih =>
    rw [giveFrom]
    by_cases hdef : deficit = 0
    · rw [if_pos hdef, hdef, Nat.add_zero]
      exact ⟨freq, rfl, rfl, hmar⟩
    · rw [if_neg hdef]
      by_cases hs : hist s ≠ 0
      · have hsum := sumShares_update freq s (freq s + 1)
        have hone := le_sumShares freq s
        have hfit : checkedSumU32 (freq s) 1 = some (freq s + 1) := if_pos (by omega)
        rw [filter_cons_of_pos (by exact decide_eq_true hs), length_cons] at hle
        obtain ⟨freq', heq, hsum', hmar'⟩ := @ih (update freq s (freq s + 1))
          (deficit - 1) (hmar.update hs (Nat.succ_ne_zero _)) (by omega) (by omega)
        rw [if_pos hs, hfit, okOr_some, ok_bind]
        exact ⟨freq', heq, by omega, hmar'⟩
      · rw [if_neg hs]
        rw [filter_cons_of_neg (by simpa using hs)] at hle
        exact ih hmar hmax hle

/-- More slots than symbols: some symbol has two. -/
theorem exists_two {freq : Fin n → ℕ} (h : n < sumShares freq) : ∃ s, 1 < freq s := by
  by_contra hnon
  have hle : ∀ s ∈ Finset.univ, freq s ≤ 1 := fun s _ => not_lt.mp fun hs => hnon ⟨s, hs⟩
  have hsum := Finset.sum_le_sum hle
  rw [← sumShares_eq, Finset.sum_const, Finset.card_univ, Fintype.card_fin, smul_eq_mul,
    mul_one] at hsum
  exact absurd h (not_lt.mpr hsum)

/-- A place of a round is reached from anywhere, in less than a round. -/
theorem reaches_place {i n : ℕ} (hi : i < n) (cursor : ℕ) :
    (cursor + (i + n - cursor % n) % n) % n = i := by
  have hlt : cursor % n < n := Nat.mod_lt _ (Nat.zero_lt_of_lt hi)
  calc (cursor + (i + n - cursor % n) % n) % n
      = (cursor % n + (i + n - cursor % n)) % n := by rw [Nat.add_mod_mod, Nat.mod_add_mod]
    _ = (i + n) % n := by rw [Nat.add_sub_cancel' (by omega)]
    _ = i := by rw [Nat.add_mod_right, Nat.mod_eq_of_lt hi]

/-- **A symbol with two slots is less than a round ahead**, if there are more
slots than symbols. -/
theorem exists_ahead (hper : order.Perm (finRange n))
    {freq : Fin n → ℕ} (h : n < sumShares freq) (cursor : ℕ) :
    ∃ j < n, ∃ s, order[(cursor + j) % order.length]? = some s ∧ 1 < freq s := by
  have hlen : order.length = n := hper.length_eq.trans length_finRange
  obtain ⟨s, hs⟩ := exists_two h
  obtain ⟨i, hi, hget⟩ := getElem_of_mem (hper.mem_iff.mpr (mem_finRange s))
  rw [hlen] at hi
  refine ⟨(i + n - cursor % n) % n, Nat.mod_lt _ (Nat.zero_lt_of_lt hi), s, ?_, hs⟩
  rw [hlen, reaches_place hi cursor, List.getElem?_eq_getElem (hlen.symm ▸ hi), hget]

/-- **The slots that are missing are taken away.** The next symbol that can
give one is fewer than `wait` steps ahead: after it has given one there is
another at most a round ahead. -/
theorem takeFrom_eq_ok
    (hper : order.Perm (finRange n)) (hscale : n ≤ scale) {fuel cursor excess wait : ℕ}
    {freq : Fin n → ℕ} (hmar : Marks freq hist) (hsum : sumShares freq = scale + excess)
    (hwt : excess = 0 ∨
      ∃ j < wait, ∃ s, order[(cursor + j) % order.length]? = some s ∧ 1 < freq s)
    (hfuel : n * (excess - 1) + wait ≤ fuel) (hcur : cursor + fuel ≤ usizeMax) :
    ∃ freq', takeFrom order fuel cursor freq excess = .ok freq' ∧
      sumShares freq' = scale ∧ Marks freq' hist := by
  have hlen : order.length = n := hper.length_eq.trans length_finRange
  induction fuel generalizing cursor excess wait freq with
  | zero =>
    rcases hwt with rfl | ⟨j, hj, -⟩
    · exact ⟨freq, rfl, hsum, hmar⟩
    · omega
  | succ fuel ih =>
    cases excess with
    | zero => exact ⟨freq, rfl, hsum, hmar⟩
    | succ excess =>
      obtain ⟨j, hj, s, hget, hs⟩ := hwt.resolve_left (Nat.succ_ne_zero _)
      have hpos : 0 < order.length := hlen.symm ▸ Fin.pos s
      have hpl : order[cursor % order.length]?
          = some (order.get ⟨cursor % order.length, Nat.mod_lt _ hpos⟩) :=
        List.getElem?_eq_getElem _
      generalize order.get ⟨cursor % order.length, Nat.mod_lt _ hpos⟩ = r at hpl
      rw [takeFrom, hpl, okOr_some, ok_bind, checkedSum_of_le (by omega), okOr_some, ok_bind]
      by_cases hr : freq r > 1
      · have hupd := sumShares_update freq r (freq r - 1)
        have hnex : sumShares (update freq r (freq r - 1)) = scale + excess := by omega
        have hocc : hist r ≠ 0 := fun hzer => by
          rw [(hmar r).mpr hzer] at hr
          exact absurd hr (Nat.not_lt_zero _)
        rw [if_pos hr]
        refine @ih (cursor + 1) excess (if excess = 0 then 0 else n) _
          (hmar.update hocc (by omega)) hnex ?_ ?_ (by omega)
        · refine (Nat.eq_zero_or_pos excess).imp_right fun hexc => ?_
          rw [if_neg (ne_of_gt hexc)]
          exact exists_ahead hper (by omega) (cursor + 1)
        · cases excess with
          | zero => exact Nat.zero_le _
          | succ =>
            rw [if_neg (Nat.succ_ne_zero _), Nat.add_sub_cancel]
            rw [Nat.add_sub_cancel, Nat.mul_succ] at hfuel
            omega
      · rw [if_neg hr]
        cases j with
        | zero =>
          rw [Nat.add_zero, hpl, Option.some.injEq] at hget
          rw [hget] at hr
          exact absurd hs hr
        | succ j =>
          refine ih hmar hsum (Or.inr ⟨j, (by omega : j < wait - 1), s, ?_, hs⟩) (by omega)
            (by omega)
          rwa [show cursor + 1 + j = cursor + (j + 1) by omega]

/-- **More steps change nothing.** -/
theorem takeFrom_of_le {fuel fuel' cursor excess : ℕ}
    {freq freq' : Fin n → ℕ} (h : takeFrom order fuel cursor freq excess = .ok freq')
    (hle : fuel ≤ fuel') : takeFrom order fuel' cursor freq excess = .ok freq' := by
  induction fuel generalizing fuel' cursor excess freq with
  | zero =>
    cases excess with
    | zero =>
      rw [takeFrom] at h ⊢
      exact h
    | succ =>
      rw [takeFrom] at h
      exact nomatch h
  | succ fuel ih =>
    cases excess with
    | zero =>
      rw [takeFrom] at h ⊢
      exact h
    | succ =>
      obtain ⟨fuel', rfl⟩ : ∃ f, fuel' = f + 1 := ⟨fuel' - 1, by omega⟩
      rw [takeFrom] at h ⊢
      obtain ⟨s, hs, h⟩ := bind_eq_ok.mp h
      obtain ⟨next, hnex, h⟩ := bind_eq_ok.mp h
      rw [hs, ok_bind, hnex, ok_bind]
      split_ifs at h ⊢
      · exact ih h (Nat.le_of_succ_le_succ hle)
      · exact ih h (Nat.le_of_succ_le_succ hle)

/-- **The symbols are placed** one after the other: where a symbol begins, all
symbols before it have been placed. -/
theorem placeFrom_eq_ok {freq : Fin n → ℕ} {l : List (Fin n)} {cursor : ℕ}
    (h : cursor + (l.map freq).sum ≤ u32Max) :
    ∃ starts, placeFrom freq l cursor = .ok (starts, cursor + (l.map freq).sum) ∧
      ∀ i < l.length, starts.getD i 0 = cursor + ((l.map freq).take i).sum := by
  induction l generalizing cursor with
  | nil => exact ⟨[], rfl, fun i hi => absurd hi (Nat.not_lt_zero i)⟩
  | cons s rest ih =>
    rw [map_cons, sum_cons, ← Nat.add_assoc] at h ⊢
    obtain ⟨starts, heq, hst⟩ := ih h
    have hfit : checkedSumU32 cursor (freq s) = some (cursor + freq s) := if_pos (by omega)
    refine ⟨cursor :: starts, ?_, fun i hi => ?_⟩
    · rw [placeFrom, hfit, okOr_some, ok_bind, heq]
      rfl
    · cases i with
      | zero => rfl
      | succ i =>
        rw [getD_cons_succ, hst i (Nat.lt_of_succ_lt_succ hi), take_succ_cons,
          sum_cons, Nat.add_assoc]

/-! ## Every histogram has shares -/

/-- **Whichever way the sum is off**, it is corrected, with a round of steps for
each slot, or more. -/
theorem normalize_eq_ok {A : Arithmetic} (hA : A.Enough) (hn : n ≤ scale)
    (htot : 0 < sumShares hist) :
    ∃ freq, (∀ fuel, n ≤ fuel → normalize A fuel hist (sumShares hist) = .ok freq) ∧
      sumShares freq = scale ∧ Marks freq hist := by
  set freq := assigned A hist (sumShares hist) with hfr
  have hmar : Marks freq hist := fun _ => assigned_eq_zero
  rcases lt_trichotomy (sumShares freq) scale with hlt | heq | hgt
  · -- slots are left
    have hscale : scale ≤ u32Max := by decide
    have hle := scale_le_sumShares hA htot
    rw [← length_present, ← hfr] at hle
    set order := (finRange n).mergeSort fun left right =>
      decide (remainder A hist (sumShares hist) right < remainder A hist (sumShares hist) left ∨
        remainder A hist (sumShares hist) left = remainder A hist (sumShares hist) right ∧
          left ≤ right) with hord
    have hper : order.Perm (finRange n) := mergeSort_perm _ _
    have hcount : (order.filter fun s => hist s ≠ 0).length
        = ((finRange n).filter fun s => hist s ≠ 0).length := (hper.filter _).length_eq
    obtain ⟨freq', heq, hsum, hmar'⟩ := @giveFrom_eq_ok n hist order freq (scale - sumShares freq)
      hmar (by omega) (by omega)
    refine ⟨freq', fun fuel _ => ?_, by omega, hmar'⟩
    unfold normalize
    rw [← hfr, if_pos hlt, ← hord, give, heq]
    rfl
  · refine ⟨freq, fun fuel _ => ?_, heq, hmar⟩
    unfold normalize
    rw [← hfr, if_neg (by omega), if_neg (by omega)]
    rfl
  · -- slots are missing
    set order := (finRange n).mergeSort fun left right =>
      decide (freq right < freq left ∨ freq left = freq right ∧ left ≤ right) with hord
    have hper : order.Perm (finRange n) := mergeSort_perm _ _
    have hbnd : sumShares freq ≤ n * u32Max := by
      rw [sumShares_eq]
      refine (Finset.sum_le_card_nsmul _ _ _ fun s _ => assigned_le A hist _ s).trans_eq ?_
      rw [Finset.card_univ, Fintype.card_fin, smul_eq_mul]
    have hst : n * (sumShares freq - scale) ≤ usizeMax :=
      calc n * (sumShares freq - scale)
          ≤ scale * (scale * u32Max) := Nat.mul_le_mul hn
            ((Nat.sub_le _ _).trans (hbnd.trans (Nat.mul_le_mul_right _ hn)))
        _ ≤ usizeMax := by decide
    have hrnd : n * (sumShares freq - scale - 1) + n = n * (sumShares freq - scale) := by
      rw [← Nat.mul_succ, Nat.succ_eq_add_one, Nat.sub_add_cancel (by omega)]
    obtain ⟨freq', heq, hsum, hmar'⟩ := takeFrom_eq_ok hper hn hmar
      (by omega : sumShares freq = scale + (sumShares freq - scale))
      (Or.inr (exists_ahead hper (hn.trans_lt hgt) 0)) (le_of_eq hrnd)
      (by omega : 0 + n * (sumShares freq - scale) ≤ usizeMax)
    refine ⟨freq', fun fuel hfuel => ?_, hsum, hmar'⟩
    unfold normalize
    rw [← hfr, if_neg (by omega), if_pos hgt, ← hord]
    exact takeFrom_of_le heq (Nat.mul_le_mul_right _ hfuel)

theorem foldlM_eq_sumShares (hmax : sumShares hist ≤ usizeMax) :
    (finRange n).foldlM (fun sum s => checkedSum sum (hist s)) 0 = some (sumShares hist) := by
  have hsum : 0 + ((finRange n).map hist).sum ≤ usizeMax := by
    rwa [Nat.zero_add]
  exact (foldlM_checkedSum_of_le hsum).trans (congrArg some (Nat.zero_add _))

/-- **Every histogram has shares**, if no share is computed too small. -/
theorem sharesOf_of_enough {A : Arithmetic} (hA : A.Enough) (hn : n ≤ scale)
    (htot : 0 < sumShares hist) (hmax : sumShares hist ≤ usizeMax) :
    ∃ t : Shares n, (∀ fuel, n ≤ fuel → sharesOf A fuel hist = .ok t) ∧
      sumShares t.freq = scale ∧ (∀ s, t.freq s ≠ 0 ↔ hist s ≠ 0) ∧
      ∀ s : Fin n, t.start s = Fin.partialSum t.freq s.castSucc := by
  have hscale : scale ≤ u32Max := by decide
  obtain ⟨freq, heq, hsum, hmar⟩ := normalize_eq_ok hA hn htot
  have hpl : 0 + ((finRange n).map freq).sum = scale := (Nat.zero_add _).trans hsum
  obtain ⟨starts, hplc, hst⟩ := placeFrom_eq_ok (hpl.trans_le hscale)
  refine ⟨⟨freq, fun s => starts.getD s.val 0⟩, fun fuel hfuel => ?_, hsum,
    fun s => (hmar s).not, fun s => ?_⟩
  · have hpr : ((finRange n).filter fun s => hist s ≠ 0).length ≤ scale :=
      ((length_filter_le _ _).trans_eq length_finRange).trans hn
    unfold sharesOf
    rw [foldlM_eq_sumShares hmax, okOr_some, ok_bind, refuse_of_not (by omega), ok_bind,
      refuse_of_not (not_lt.mpr hpr), ok_bind, heq fuel hfuel, ok_bind, hplc, hpl]
    rfl
  · refine (hst s (s.isLt.trans_eq length_finRange.symm)).trans ?_
    rw [Nat.zero_add, ← ofFn_eq_map]
    rfl

/-- **Normalisation**: for every histogram whose total is neither zero nor too
large, the frequencies sum up to the scale, those of the symbols that occur are
not zero, and the symbols begin where those before them end. The loops have an
end: all numbers of steps that are enough have the same result. -/
theorem sharesOf_exact (hn : n ≤ scale) (hist : Fin n → ℕ) (htotal : 0 < sumShares hist)
    (hmax : sumShares hist ≤ usizeMax) :
    ∃ t : Shares n, (∀ fuel, n ≤ fuel → sharesOf .exact fuel hist = .ok t) ∧
      sumShares t.freq = 2 ^ 14 ∧ (∀ s, t.freq s ≠ 0 ↔ hist s ≠ 0) ∧
      ∀ s : Fin n, t.start s = Fin.partialSum t.freq s.castSucc :=
  sharesOf_of_enough Arithmetic.enough_exact hn htotal hmax

/-- Sixteen nibbles, of which the first one does not occur. -/
theorem sharesOf_exact_sixteen : sumShares (fun s : Fin 16 => s.val) = 120 ∧ ∃ t : Shares 16,
      (∀ fuel, 16 ≤ fuel → sharesOf .exact fuel (fun s : Fin 16 => s.val) = .ok t) ∧
      sumShares t.freq = 2 ^ 14 ∧ (∀ s, t.freq s ≠ 0 ↔ s.val ≠ 0) ∧
      ∀ s : Fin 16, t.start s = Fin.partialSum t.freq s.castSucc :=
  ⟨by decide, sharesOf_exact (by decide) _ (by decide) (by decide)⟩

end Loops

end Rans256

end Logan
