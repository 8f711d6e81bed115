import Mathlib.MeasureTheory.Measure.Lebesgue.Basic
import Mathlib.Tactic

/-!
# Computations that draw random numbers

A computation that asks a random source for numbers, one after the other, is a
tree: it returns, or it fails, or it goes on in a way that depends on the next
number. What can happen in it is said for all numbers between 0 and 1 (`Always`);
how likely it is, by integrating over each of them in turn (`prob`), which is to
say that the numbers are independent and uniform.

Two ways of using a number are measured: to pick one of several weights that add up
to one (`lintegral_pick`), and to decide with a given probability
(`lintegral_accept`).
-/

namespace Logan

open MeasureTheory ENNReal

/-- **A computation that draws numbers.** -/
inductive Draw (E K A : Type) where
  | pure (a : A)
  | fail (e : E)
  | next (f : K → Draw E K A)

namespace Draw

variable {E K A B : Type}

/-- What is computed next, after what has been. -/
def bind : Draw E K A → (A → Draw E K B) → Draw E K B
  | pure a, g => g a
  | fail e, _ => fail e
  | next f, g => next fun u => (f u).bind g

instance : Monad (Draw E K) where
  pure := pure
  bind := bind

/-- A computation that draws nothing. -/
def ofExcept : Except E A → Draw E K A
  | .ok a => pure a
  | .error e => fail e

/-- The next number. -/
def unit : Draw E K K := next pure

@[simp] theorem pure_bind (a : A) (g : A → Draw E K B) : (Draw.pure a >>= g) = g a := rfl

@[simp] theorem next_bind (f : K → Draw E K A) (g : A → Draw E K B) :
    (Draw.next f >>= g) = next fun u => f u >>= g := rfl

@[simp] theorem ofExcept_ok (a : A) : (ofExcept (.ok a) : Draw E K A) = pure a := rfl

/-- **Whatever is drawn**, something is returned, with this property. -/
def Always : Draw E ℝ A → (A → Prop) → Prop
  | pure a, P => P a
  | fail _, _ => False
  | next f, P => ∀ u ∈ Set.Ico (0 : ℝ) 1, (f u).Always P

open Classical in
/-- **The probability** that something is returned with this property. -/
noncomputable def prob : Draw E ℝ A → (A → Prop) → ℝ≥0∞
  | pure a, P => if P a then 1 else 0
  | fail _, _ => 0
  | next f, P => ∫⁻ u in Set.Ico (0 : ℝ) 1, (f u).prob P

theorem prob_next (f : ℝ → Draw E ℝ A) (P : A → Prop) :
    (next f).prob P = ∫⁻ u in Set.Ico (0 : ℝ) 1, (f u).prob P := rfl

theorem Always.mono {d : Draw E ℝ A} {P Q : A → Prop} (h : d.Always P) (hPQ : ∀ a, P a → Q a) :
    d.Always Q := by
  induction d with
  | pure a => exact hPQ a h
  | fail => exact h
  | next f ih => exact fun u hu => ih u (h u hu)

end Draw

/-! ## To pick one of several weights -/

/-- The first place at which the sum of the weights is beyond a number. -/
def pick {K : Type} [Add K] [LT K] [DecidableLT K] (u : K) : K → ℕ → List K → Option ℕ
  | _, _, [] => none
  | sum, i, weight :: weights =>
    if u < sum + weight then some i else pick u (sum + weight) (i + 1) weights

/-- **A weight is picked** with its probability. -/
theorem lintegral_pick (F : Option ℕ → ℝ≥0∞) {weights : List ℝ} (h : ∀ w ∈ weights, 0 ≤ w) (sum : ℝ)
    (i : ℕ) : ∫⁻ u in Set.Ico sum (sum + weights.sum), F (pick u sum i weights)
      = ((weights.zipIdx i).map fun w => ENNReal.ofReal w.1 * F (some w.2)).sum := by
  induction weights generalizing sum i with
  | nil => simp
  | cons weight weights ih =>
    obtain ⟨hwgh, hwei⟩ := List.forall_mem_cons.mp h
    have hsum : 0 ≤ weights.sum := List.sum_nonneg hwei
    have hmid : sum ≤ sum + weight := le_add_of_nonneg_right hwgh
    have hspl : Set.Ico sum (sum + (weight :: weights).sum)
        = Set.Ico sum (sum + weight) ∪ Set.Ico (sum + weight) (sum + weight + weights.sum) := by
      rw [List.sum_cons, ← add_assoc, Set.Ico_union_Ico_eq_Ico hmid (le_add_of_nonneg_right hsum)]
    have hfst : ∀ u ∈ Set.Ico sum (sum + weight),
        F (pick u sum i (weight :: weights)) = F (some i) := fun u hu => by
      rw [pick, if_pos hu.2]
    have hres : ∀ u ∈ Set.Ico (sum + weight) (sum + weight + weights.sum),
        F (pick u sum i (weight :: weights)) = F (pick u (sum + weight) (i + 1) weights) :=
      fun u hu => by rw [pick, if_neg (not_lt.mpr hu.1)]
    rw [hspl, lintegral_union measurableSet_Ico Set.Ico_disjoint_Ico_same,
      setLIntegral_congr_fun measurableSet_Ico hfst,
      setLIntegral_congr_fun measurableSet_Ico hres, ih hwei, setLIntegral_const,
      Real.volume_Ico, add_sub_cancel_left, List.zipIdx_cons, List.map_cons, List.sum_cons,
      mul_comm]

/-- A number that is not beyond the sum of all weights picks one of them, which is not zero. -/
theorem exists_pick {K : Type} [AddCommGroup K] [LinearOrder K] [IsOrderedAddMonoid K]
    {weights : List K} {u sum : K} (i : ℕ) (hlow : sum ≤ u) (hhig : u < sum + weights.sum) :
    ∃ j, pick u sum i weights = some (i + j) ∧ ∃ w, weights[j]? = some w ∧ 0 < w := by
  induction weights generalizing sum i with
  | nil =>
    rw [List.sum_nil, add_zero] at hhig
    exact absurd hhig (not_lt.mpr hlow)
  | cons weight weights ih =>
    by_cases hfst : u < sum + weight
    · refine ⟨0, by rw [pick, if_pos hfst, Nat.add_zero], weight, rfl, ?_⟩
      exact (lt_add_iff_pos_right sum).mp (hlow.trans_lt hfst)
    · rw [List.sum_cons, ← add_assoc] at hhig
      obtain ⟨j, hj, w, hw, hpos⟩ := ih (i + 1) (not_lt.mp hfst) hhig
      refine ⟨j + 1, ?_, w, hw, hpos⟩
      rw [pick, if_neg hfst, hj, Nat.add_assoc, Nat.add_comm 1]

/-! ## To decide with a given probability -/

/-- **What happens with a given probability**, and what happens else. -/
theorem lintegral_accept (X Y : ℝ≥0∞) {a : ℝ} (h0 : 0 ≤ a) (h1 : a ≤ 1) :
    ∫⁻ v in Set.Ico (0 : ℝ) 1, (if 0 < a ∧ (1 ≤ a ∨ v ≤ a) then X else Y)
      = ENNReal.ofReal a * X + ENNReal.ofReal (1 - a) * Y := by
  rcases h0.eq_or_lt with rfl | hpos
  · simp
  rcases h1.eq_or_lt with rfl | hlt
  · simp
  have hspl : Set.Ico (0 : ℝ) 1 = Set.Icc 0 a ∪ Set.Ioo a 1 :=
    (Set.Icc_union_Ioo_eq_Ico h0 hlt).symm
  have hdis : Disjoint (Set.Icc 0 a) (Set.Ioo a 1) :=
    Set.disjoint_left.mpr fun v hv hv' => absurd hv'.1 (not_lt.mpr hv.2)
  have hyes : ∀ v ∈ Set.Icc 0 a, (if 0 < a ∧ (1 ≤ a ∨ v ≤ a) then X else Y) = X :=
    fun v hv => if_pos ⟨hpos, Or.inr hv.2⟩
  have hno : ∀ v ∈ Set.Ioo a 1, (if 0 < a ∧ (1 ≤ a ∨ v ≤ a) then X else Y) = Y :=
    fun v hv => if_neg fun h => h.2.elim (not_le.mpr hlt) (not_le.mpr hv.1)
  rw [hspl, lintegral_union measurableSet_Ioo hdis,
    setLIntegral_congr_fun measurableSet_Icc hyes, setLIntegral_congr_fun measurableSet_Ioo hno,
    setLIntegral_const, setLIntegral_const, Real.volume_Icc, Real.volume_Ioo, sub_zero, mul_comm,
    mul_comm Y]

end Logan
