import Mathlib.Algebra.Order.Field.Basic
import Mathlib.Order.Interval.Set.Basic
import Mathlib.Tactic

/-!
# The nearest of some values

Values that increase are numbered, and a number is rounded to the **nearest** of
them: the one that differs least from it, and of two that differ equally the one
of even number. Since only neighbours can differ equally, there is always one of
the two that is even, and only one.

Two ways to find it are compared. A search looks at one value after the other and
keeps the best (`Nearest.better`). And a number can be compared with the middles
between neighbours: as many values as it **passes** are below the nearest one
(`nearest_count`).
-/

namespace Logan

variable {K : Type} [Field K] [LinearOrder K] [IsStrictOrderedRing K]

/-- **The nearest value**, of those up to a number. -/
structure Nearest (m : ℕ → K) (n : ℕ) (x : K) (c : ℕ) : Prop where
  le : c ≤ n
  near : ∀ d ≤ n, |x - m c| ≤ |x - m d|
  even : ∀ d ≤ n, d ≠ c → |x - m d| = |x - m c| → Even c

/-! ## Differences -/

theorem abs_sub_le_abs_sub_iff {a b x : K} (hab : a < b) :
    |x - b| ≤ |x - a| ↔ (a + b) / 2 ≤ x := by
  have hpos : 0 < b - a := sub_pos.mpr hab
  rw [← sq_le_sq, div_le_iff₀ two_pos]
  constructor
  · intro h
    by_contra hlt
    nlinarith
  · intro h
    nlinarith

theorem abs_sub_lt_abs_sub_iff {a b x : K} (hab : a < b) :
    |x - b| < |x - a| ↔ (a + b) / 2 < x := by
  have hpos : 0 < b - a := sub_pos.mpr hab
  rw [← sq_lt_sq, div_lt_iff₀ two_pos]
  constructor
  · intro h
    by_contra hlt
    nlinarith
  · intro h
    nlinarith

theorem abs_sub_eq_abs_sub_iff {a b x : K} (hab : a < b) :
    |x - b| = |x - a| ↔ (a + b) / 2 = x := by
  rw [eq_iff_le_not_lt, abs_sub_le_abs_sub_iff hab, abs_sub_lt_abs_sub_iff hab, ← eq_iff_le_not_lt]

section Increasing

variable {m : ℕ → K} {n : ℕ} {x : K} {c : ℕ}

theorem abs_sub_lt_of_between {a b d : K} (hab : a < b) (hbd : b < d)
    (heq : |x - a| = |x - d|) : |x - b| < |x - a| := by
  have hmid := (abs_sub_eq_abs_sub_iff (hab.trans hbd)).mp heq.symm
  rw [abs_sub_lt_abs_sub_iff hab, ← hmid]
  linarith

/-- **Only neighbours differ equally**, if both differ least. -/
theorem neighbours_of_tie (hm : StrictMonoOn m (Set.Iic n)) {d : ℕ} (hcd : c < d) (hd : d ≤ n)
    (hnr : ∀ i ≤ n, i < d → |x - m c| ≤ |x - m i|) (heq : |x - m c| = |x - m d|) : d = c + 1 := by
  by_contra hne
  have hbet : |x - m (c + 1)| < |x - m c| :=
    abs_sub_lt_of_between (hm (by simp; omega) (by simp; omega) (Nat.lt_succ_self c))
      (hm (by simp; omega) (by simp; omega) (by omega)) heq
  exact absurd (hnr (c + 1) (by omega) (by omega)) (not_le.mpr hbet)

/-- **There is only one nearest value.** -/
theorem Nearest.unique (hm : StrictMonoOn m (Set.Iic n)) {d : ℕ} (hc : Nearest m n x c)
    (hd : Nearest m n x d) : c = d := by
  have heq : |x - m c| = |x - m d| := le_antisymm (hc.near d hd.le) (hd.near c hc.le)
  have hpar : ∀ c d, Nearest m n x c → Nearest m n x d → |x - m c| = |x - m d| → ¬ c < d := by
    intro c d hc hd heq hlt
    have hnex := neighbours_of_tie hm hlt hd.le (fun i hi _ => hc.near i hi) heq
    have hev := hc.even d hd.le (ne_of_gt hlt) heq.symm
    have hev' := hd.even c hc.le (ne_of_lt hlt) heq
    rw [hnex, Nat.even_add_one] at hev'
    exact hev' hev
  exact le_antisymm (not_lt.mp (hpar d c hd hc heq.symm)) (not_lt.mp (hpar c d hc hd heq))

/-! ## A search -/

/-- The better of two values: a later one takes the place of an earlier one if it
differs less, or if it differs equally, and is even while the other is not. -/
def better (m : ℕ → K) (x : K) (c d : ℕ) : ℕ :=
  if |x - m d| < |x - m c| ∨ |x - m d| = |x - m c| ∧ d % 2 = 0 ∧ c % 2 ≠ 0 then d else c

omit [IsStrictOrderedRing K] in
theorem nearest_zero : Nearest m 0 x 0 where
  le := le_rfl
  near d hd := by rw [Nat.le_zero.mp hd]
  even d hd hne := absurd (Nat.le_zero.mp hd) hne

/-- **A step of the search**: the better of the nearest so far and the next value. -/
theorem Nearest.better (hm : StrictMonoOn m (Set.Iic (n + 1))) (hc : Nearest m n x c) :
    Nearest m (n + 1) x (better m x c (n + 1)) := by
  have hnr : ∀ d ≤ n, |x - m c| ≤ |x - m d| := hc.near
  unfold Logan.better
  by_cases hlt : |x - m (n + 1)| < |x - m c|
  · rw [if_pos (Or.inl hlt)]
    refine ⟨le_rfl, fun d hd => ?_, fun d hd hne heq => ?_⟩
    · rcases Nat.le_succ_iff.mp hd with hd | rfl
      · exact (le_of_lt hlt).trans (hnr d hd)
      · exact le_rfl
    · rcases Nat.le_succ_iff.mp hd with hd | rfl
      · exact absurd (heq ▸ hnr d hd) (not_le.mpr hlt)
      · exact absurd rfl hne
  by_cases htie : |x - m (n + 1)| = |x - m c|
  · -- the two are neighbours, so that one of them is even
    have hnex : n + 1 = c + 1 := neighbours_of_tie hm (Nat.lt_succ_of_le hc.le) le_rfl
      (fun i _ hi => hnr i (Nat.le_of_lt_succ hi)) htie.symm
    by_cases hev : (n + 1) % 2 = 0
    · rw [if_pos (Or.inr ⟨htie, hev, by omega⟩)]
      refine ⟨le_rfl, fun d hd => ?_, fun d hd hne heq => Nat.even_iff.mpr hev⟩
      rcases Nat.le_succ_iff.mp hd with hd | rfl
      · exact htie.trans_le (hnr d hd)
      · exact le_rfl
    · rw [if_neg (not_or.mpr ⟨hlt, fun h => hev h.2.1⟩)]
      refine ⟨hc.le.trans (Nat.le_succ n), fun d hd => ?_,
        fun d hd hne heq => Nat.even_iff.mpr (by omega)⟩
      rcases Nat.le_succ_iff.mp hd with hd | rfl
      · exact hnr d hd
      · exact htie.symm.le
  · rw [if_neg (not_or.mpr ⟨hlt, fun h => htie h.1⟩)]
    refine ⟨hc.le.trans (Nat.le_succ n), fun d hd => ?_, fun d hd hne heq => ?_⟩
    · rcases Nat.le_succ_iff.mp hd with hd | rfl
      · exact hnr d hd
      · exact not_lt.mp hlt
    · rcases Nat.le_succ_iff.mp hd with hd | rfl
      · exact hc.even d hd hne heq
      · exact absurd heq htie

/-! ## Middles -/

/-- The middle between two neighbours. -/
def middle (m : ℕ → K) (i : ℕ) : K := (m i + m (i + 1)) / (2 : ℕ)

/-- **A number passes the middle** to the next value: it is above it, or it is the middle
and the next value is the even one. -/
def Passes (m : ℕ → K) (x : K) (i : ℕ) : Prop :=
  if Even (i + 1) then middle m i ≤ x else middle m i < x

instance (i : ℕ) : Decidable (Passes m x i) := inferInstanceAs (Decidable (ite _ _ _))

omit [IsStrictOrderedRing K] in
theorem Passes.le {i : ℕ} (h : Passes m x i) : middle m i ≤ x := by
  unfold Passes at h
  split_ifs at h
  · exact h
  · exact le_of_lt h

omit [IsStrictOrderedRing K] in
theorem le_of_not_passes {i : ℕ} (h : ¬ Passes m x i) : x ≤ middle m i := by
  unfold Passes at h
  split_ifs at h
  · exact le_of_not_ge h
  · exact not_lt.mp h

section

variable (hm : StrictMonoOn m (Set.Iic n))

include hm

theorem middle_lt {i j : ℕ} (hij : i < j) (hj : j < n) : middle m i < middle m j := by
  have h₁ : m i < m j := hm (by simp; omega) (by simp; omega) hij
  have h₂ : m (i + 1) < m (j + 1) := hm (by simp; omega) (by simp; omega) (by omega)
  unfold middle
  linarith

/-- A number that passes a middle passes all before it. -/
theorem Passes.of_le {i j : ℕ} (h : Passes m x j) (hij : i ≤ j) (hj : j < n) : Passes m x i := by
  rcases Nat.eq_or_lt_of_le hij with rfl | hlt
  · exact h
  · have hmid := (middle_lt hm hlt hj).trans_le h.le
    unfold Passes
    split_ifs
    · exact le_of_lt hmid
    · exact hmid

/-- **The value after the last middle that is passed is the nearest.** -/
theorem nearest_of_passes (hc : c ≤ n)
    (hbef : ∀ i < c, Passes m x i) (haft : c < n → ¬ Passes m x c) : Nearest m n x c := by
  -- a value before it: the middle between the two is not after the last one passed
  have hlow : ∀ d < c, (m d + m c) / 2 ≤ x ∧ ((m d + m c) / 2 = x → Even c) := by
    intro d hd
    obtain ⟨b, rfl⟩ := Nat.exists_eq_add_one_of_ne_zero (Nat.ne_zero_of_lt hd)
    have hpas := hbef b (Nat.lt_succ_self b)
    have hle : m d ≤ m b := hm.monotoneOn (by simp; omega) (by simp; omega) (by omega)
    have hmid : (m d + m (b + 1)) / 2 ≤ middle m b := by
      unfold middle
      linarith
    refine ⟨hmid.trans hpas.le, fun heq => ?_⟩
    by_contra hodd
    unfold Passes at hpas
    rw [if_neg hodd, ← heq] at hpas
    exact absurd hpas (not_lt.mpr hmid)
  have hhig : ∀ d, c < d → d ≤ n → x ≤ (m c + m d) / 2 ∧ ((m c + m d) / 2 = x → Even c) := by
    intro d hd hdn
    have hpas := haft (by omega)
    have hle : m (c + 1) ≤ m d := hm.monotoneOn (by simp; omega) (by simp; omega) hd
    have hmid : middle m c ≤ (m c + m d) / 2 := by
      unfold middle
      linarith
    refine ⟨(le_of_not_passes hpas).trans hmid, fun heq => ?_⟩
    by_contra hodd
    unfold Passes at hpas
    rw [if_pos (Nat.even_add_one.mpr hodd), ← heq] at hpas
    exact hpas hmid
  refine ⟨hc, fun d hd => ?_, fun d hd hne heq => ?_⟩
  · rcases lt_trichotomy d c with hlt | rfl | hlt
    · have hdc : m d < m c := hm (by simp; omega) (by simp; omega) hlt
      exact (abs_sub_le_abs_sub_iff hdc).mpr (hlow d hlt).1
    · exact le_rfl
    · have hcd : m c < m d := hm (by simp; omega) (by simp; omega) hlt
      rw [← not_lt, abs_sub_lt_abs_sub_iff hcd]
      exact not_lt.mpr (hhig d hlt hd).1
  · rcases Nat.lt_or_gt_of_ne hne with hlt | hlt
    · have hdc : m d < m c := hm (by simp; omega) (by simp; omega) hlt
      exact (hlow d hlt).2 ((abs_sub_eq_abs_sub_iff hdc).mp heq.symm)
    · have hcd : m c < m d := hm (by simp; omega) (by simp; omega) hlt
      exact (hhig d hlt hd).2 ((abs_sub_eq_abs_sub_iff hcd).mp heq)

/-- The middles that are passed come before the others. -/
theorem passes_iff_lt_count {k : ℕ} (hk : k ≤ n) :
    (List.range k).countP (fun i => decide (Passes m x i)) ≤ k ∧
      ∀ i < k, Passes m x i ↔ i < (List.range k).countP fun i => decide (Passes m x i) := by
  induction k with
  | zero => exact ⟨le_rfl, fun i hi => absurd hi (Nat.not_lt_zero i)⟩
  | succ k ih =>
    obtain ⟨hle, hcount⟩ := ih (Nat.le_of_succ_le hk)
    rw [List.range_succ, List.countP_append, List.countP_singleton]
    by_cases hpas : Passes m x k
    · -- all before it are passed
      have hall : (List.range k).countP (fun i => decide (Passes m x i)) = k := by
        refine le_antisymm hle (not_lt.mp fun hlt => ?_)
        have hno := (hcount _ hlt).not.mpr (lt_irrefl _)
        exact hno (hpas.of_le hm hle hk)
      rw [hall, if_pos (decide_eq_true hpas)]
      exact ⟨le_rfl, fun i hi => iff_of_true (hpas.of_le hm (Nat.le_of_lt_succ hi) hk) hi⟩
    · rw [if_neg (by simpa using hpas), Nat.add_zero]
      refine ⟨hle.trans (Nat.le_succ k), fun i hi => ?_⟩
      rcases Nat.lt_succ_iff_lt_or_eq.mp hi with hi | rfl
      · exact hcount i hi
      · exact iff_of_false hpas (not_lt.mpr hle)

/-- **As many middles are passed as values are below the nearest one.** -/
theorem nearest_count : Nearest m n x ((List.range n).countP fun i => decide (Passes m x i)) := by
  obtain ⟨hle, hcount⟩ := passes_iff_lt_count (x := x) hm (le_refl n)
  exact nearest_of_passes hm hle (fun i hi => (hcount i (hi.trans_le hle)).mpr hi)
    fun hlt hpas => lt_irrefl _ ((hcount _ hlt).mp hpas)

end

/-! ## How much it differs -/

/-- **The error is at most half of a gap**: of the one that the number is in. -/
theorem Nearest.abs_sub_le (hc : Nearest m n x c) {i : ℕ} (hi : i < n) (hlow : m i ≤ x)
    (hhig : x ≤ m (i + 1)) : |x - m c| ≤ (m (i + 1) - m i) / 2 := by
  have h₁ := hc.near i (le_of_lt hi)
  have h₂ := hc.near (i + 1) hi
  rw [abs_of_nonneg (sub_nonneg.mpr hlow)] at h₁
  rw [abs_of_nonpos (sub_nonpos.mpr hhig)] at h₂
  linarith

omit [Field K] [IsStrictOrderedRing K] in
/-- A number between the first value and the last is in a gap. -/
theorem exists_gap (hn : 0 < n) (hlow : m 0 ≤ x) (hhig : x ≤ m n) :
    ∃ i < n, m i ≤ x ∧ x ≤ m (i + 1) := by
  induction n with
  | zero => exact absurd hn (lt_irrefl 0)
  | succ n ih =>
    rcases le_total (m n) x with hle | hle
    · exact ⟨n, Nat.lt_succ_self n, hle, hhig⟩
    · rcases Nat.eq_zero_or_pos n with rfl | hpos
      · exact ⟨0, Nat.one_pos, hlow, hhig⟩
      · obtain ⟨i, hi, h⟩ := ih hpos hle
        exact ⟨i, Nat.lt_succ_of_lt hi, h⟩

end Increasing

end Logan
