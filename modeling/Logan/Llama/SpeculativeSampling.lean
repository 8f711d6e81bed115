import Logan.Llama.Sampling

/-!
# Speculative sampling is lossless

Over one finite vocabulary, and with numbers that are drawn independently and
uniformly, what a block of speculative sampling returns is distributed as if each
token had been sampled from the target after those before it.

A candidate `x` is drawn and accepted with probability `min(p(x), q(x))`; some
candidate is rejected with probability `∑ max(q - p, 0)`, which is `∑ max(p - q, 0)`,
so that the replacement adds `max(p(x) - q(x), 0)`, and both are `p(x)`
(`accepted_add_replaced`). How likely it is that the tokens of a block have a
property is computed along its drafts (`chance`), and what is said of all blocks is
an induction on their number.
-/

namespace Logan

open List Option
open Finset (sum_const_zero sum_mul sum_nonneg)
open UInt32 (ofNat)

namespace Llama

open Result

/-! ## The masses of a distribution -/

namespace Distribution

variable (d p q : Distribution ℝ)

/-- The probability of the token at a place. -/
def mass (i : ℕ) : ℝ := d.probabilities[i]?.getD 0

theorem mass_of_getElem? {i : ℕ} {w : ℝ} (h : d.probabilities[i]? = some w) : d.mass i = w := by
  rw [mass, h, getD_some]

theorem mass_nonneg (i : ℕ) : 0 ≤ d.mass i := by
  cases h : d.probabilities[i]? with
  | none => rw [mass, h, getD_none]
  | some w =>
    rw [d.mass_of_getElem? h]
    exact d.nonneg w (mem_of_getElem? h)

theorem mass_of_le {i : ℕ} (h : d.len ≤ i) : d.mass i = 0 := by
  rw [mass, List.getElem?_eq_none h, getD_none]

theorem getElem?_of_lt {i : ℕ} (h : i < d.len) : d.probabilities[i]? = some (d.mass i) := by
  rw [mass, List.getElem?_eq_getElem h, getD_some]

end Distribution

theorem sum_zipIdx_eq {A M : Type} [AddCommMonoid M] (f : A → ℕ → M) (l : List A) (a : A) (k : ℕ) :
    ((l.zipIdx k).map fun w => f w.1 w.2).sum
      = ∑ i ∈ Finset.range l.length, f (l[i]?.getD a) (k + i) := by
  induction l generalizing k with
  | nil => rfl
  | cons b l ih =>
    rw [zipIdx_cons, map_cons, sum_cons, ih, length_cons, Finset.sum_range_succ', add_comm]
    refine congrArg₂ _ (Finset.sum_congr rfl fun i _ => ?_) rfl
    rw [List.getElem?_cons_succ, Nat.add_assoc, Nat.add_comm 1]

theorem sum_list_eq {M : Type} [AddCommMonoid M] (l : List M) (a : M) :
    l.sum = ∑ i ∈ Finset.range l.length, l[i]?.getD a := by
  have h := sum_zipIdx_eq (fun (b : M) _ => b) l a 0
  rw [← h]
  refine congrArg List.sum ?_
  exact (zipIdx_map_fst 0 l).symm

/-- **The masses add up to one.** -/
theorem Distribution.sum_mass (d : Distribution ℝ) : ∑ i ∈ Finset.range d.len, d.mass i = 1 := by
  rw [← d.total, sum_list_eq d.probabilities 0]
  rfl

/-! ## Sampling -/

section Sampling

variable {A : Type} {P : A → Prop} (g : UInt32 → Draw (SamplingError ℝ) ℝ A)

variable (d : Distribution ℝ)

/-- **A number that is drawn picks a token** of positive probability. -/
theorem Distribution.sampleAt_eq_ok {u : ℝ} (hu : u ∈ Set.Ico (0 : ℝ) 1) :
    ∃ i, d.sampleAt u = .ok (ofNat i) ∧ pick u 0 0 d.probabilities = some i ∧ i < d.len ∧
      0 < d.mass i := by
  have hhig : u < 0 + d.probabilities.sum := by
    rw [d.total, zero_add]
    exact hu.2
  obtain ⟨i, hpic, w, hw, hpos⟩ := exists_pick 0 hu.1 hhig
  rw [Nat.zero_add] at hpic
  obtain ⟨hlt, -⟩ := List.getElem?_eq_some_iff.mp hw
  refine ⟨i, ?_, hpic, hlt, ?_⟩
  · rw [sampleAt, if_pos ⟨hu.1, hu.2⟩, hpic]
  · rwa [d.mass_of_getElem? hw]

/-- **A token is sampled** with its probability. -/
theorem Distribution.prob_sample : (d.sample >>= g).prob P
      = ∑ i ∈ Finset.range d.len, ENNReal.ofReal (d.mass i) * (g (ofNat i)).prob P := by
  have hpic := lintegral_pick (fun o => o.elim 0 fun i => (g (ofNat i)).prob P) d.nonneg 0 0
  rw [d.total, zero_add, sum_zipIdx_eq (fun w i => ENNReal.ofReal w *
    (some i).elim 0 fun i => (g (ofNat i)).prob P) d.probabilities 0 0] at hpic
  simp only [Nat.zero_add] at hpic
  show ∫⁻ u in Set.Ico (0 : ℝ) 1, (Draw.ofExcept (d.sampleAt u) >>= g).prob P = _
  refine Eq.trans (MeasureTheory.setLIntegral_congr_fun measurableSet_Ico fun u hu => ?_) hpic
  obtain ⟨i, hok, hi, -⟩ := d.sampleAt_eq_ok hu
  show (Draw.ofExcept (d.sampleAt u) >>= g).prob P = (pick u 0 0 d.probabilities).elim 0 _
  rw [hok, hi]
  rfl

/-- Whatever is drawn, a token of positive probability is sampled. -/
theorem Distribution.always_sample
    (h : ∀ i < d.len, 0 < d.mass i → (g (ofNat i)).Always P) : (d.sample >>= g).Always P := by
  intro u hu
  obtain ⟨i, hok, -, hlt, hpos⟩ := d.sampleAt_eq_ok hu
  show (Draw.ofExcept (d.sampleAt u) >>= g).Always P
  rw [hok]
  exact h i hlt hpos

end Sampling

/-! ## Acceptance and the residual -/

namespace Distribution

variable {n : ℕ} (p q : Distribution ℝ)

/-- The ratio with which a candidate is accepted. -/
noncomputable def ratio (i : ℕ) : ℝ := if 0 < q.mass i then min (p.mass i / q.mass i) 1 else 0

/-- What the target says more often than the proposal. -/
noncomputable def excess (i : ℕ) : ℝ := max (p.mass i - q.mass i) 0

/-- The probability of a replacement. -/
noncomputable def replacement (i : ℕ) : ℝ :=
  p.excess q i / ∑ j ∈ Finset.range p.len, p.excess q j

variable (i : ℕ)

theorem ratio_nonneg : 0 ≤ p.ratio q i := by
  unfold ratio
  split_ifs
  · exact le_min (div_nonneg (p.mass_nonneg i) (q.mass_nonneg i)) zero_le_one
  · exact le_rfl

theorem ratio_le_one : p.ratio q i ≤ 1 := by
  unfold ratio
  split_ifs
  · exact min_le_right _ _
  · exact zero_le_one

theorem excess_nonneg : 0 ≤ p.excess q i := le_max_right _ _

theorem replacement_nonneg : 0 ≤ p.replacement q i :=
  div_nonneg (p.excess_nonneg q i) (sum_nonneg fun j _ => p.excess_nonneg q j)

/-- A candidate is drawn and accepted as often as both say it. -/
theorem mass_mul_ratio : q.mass i * p.ratio q i = min (p.mass i) (q.mass i) := by
  unfold ratio
  split_ifs with hpos
  · rw [mul_min_of_nonneg _ _ hpos.le, mul_div_cancel₀ _ hpos.ne', mul_one]
  · have hzer : q.mass i = 0 := le_antisymm (not_lt.mp hpos) (q.mass_nonneg i)
    rw [hzer, zero_mul, min_eq_right (p.mass_nonneg i)]

/-- It is drawn and rejected as often as the proposal says it more often. -/
theorem mass_mul_one_sub_ratio : q.mass i * (1 - p.ratio q i) = q.excess p i := by
  rw [mul_sub, mul_one, mass_mul_ratio, excess]
  rcases le_total (p.mass i) (q.mass i) with hle | hle
  · rw [min_eq_left hle, max_eq_left (sub_nonneg.mpr hle)]
  · rw [min_eq_right hle, max_eq_right (sub_nonpos.mpr hle), sub_self]

theorem excess_sub_excess : p.excess q i - q.excess p i = p.mass i - q.mass i := by
  unfold excess
  rcases le_total (p.mass i) (q.mass i) with hle | hle
  · rw [max_eq_right (sub_nonpos.mpr hle), max_eq_left (sub_nonneg.mpr hle)]
    ring
  · rw [max_eq_left (sub_nonneg.mpr hle), max_eq_right (sub_nonpos.mpr hle)]
    ring

variable {p q}

/-- **Both exceed the other one by as much.** -/
theorem sum_excess (h : p.len = q.len) :
    ∑ i ∈ Finset.range q.len, q.excess p i = ∑ i ∈ Finset.range p.len, p.excess q i := by
  have hdif : ∑ i ∈ Finset.range p.len, (p.excess q i - q.excess p i) = 0 := by
    rw [Finset.sum_congr rfl fun i _ => p.excess_sub_excess q i, Finset.sum_sub_distrib, p.sum_mass,
      h, q.sum_mass, sub_self]
  rw [Finset.sum_sub_distrib] at hdif
  rw [← h]
  exact (sub_eq_zero.mp hdif).symm

/-- **Some candidate is rejected** with the probability that the target says something else more
often. -/
theorem sum_rejected (h : p.len = q.len) : ∑ i ∈ Finset.range q.len, q.mass i * (1 - p.ratio q i)
      = ∑ i ∈ Finset.range p.len, p.excess q i := by
  rw [Finset.sum_congr rfl fun i _ => p.mass_mul_one_sub_ratio q i, sum_excess h]

/-- **A token is accepted or replaces another one** as often as the target says it. -/
theorem accepted_add_replaced (i : ℕ) (hi : i < p.len) :
    q.mass i * p.ratio q i + (∑ j ∈ Finset.range p.len, p.excess q j) * p.replacement q i
      = p.mass i := by
  have hrep : (∑ j ∈ Finset.range p.len, p.excess q j) * p.replacement q i = p.excess q i := by
    rcases eq_or_ne (∑ j ∈ Finset.range p.len, p.excess q j) 0 with hzer | hne
    · rw [hzer, zero_mul]
      exact ((Finset.sum_eq_zero_iff_of_nonneg fun j _ => p.excess_nonneg q j).mp hzer i
        (Finset.mem_range.mpr hi)).symm
    · exact mul_div_cancel₀ _ hne
  rw [hrep, mass_mul_ratio, excess]
  rcases le_total (p.mass i) (q.mass i) with hle | hle
  · rw [min_eq_left hle, max_eq_right (sub_nonpos.mpr hle), add_zero]
  · rw [min_eq_right hle, max_eq_left (sub_nonneg.mpr hle), add_sub_cancel]

/-- **A candidate is accepted** with the ratio. -/
theorem acceptanceProbability_eq (h : p.len = q.len) {token : UInt32} (ht : token.toNat < q.len) :
    p.acceptanceProbability q token = .ok (p.ratio q token.toNat) := by
  unfold acceptanceProbability probability
  rw [if_neg (not_not.mpr h), p.getElem?_of_lt (h ▸ ht), q.getElem?_of_lt ht]
  rfl

/-- **The residual** has the probabilities of the replacements, unless there is nothing that the
target says more often. -/
theorem residualDistribution_cases (h : p.len = q.len) :
    (∑ i ∈ Finset.range p.len, p.excess q i ≤ 0 ∧ p.residualDistribution q = .error .zeroMass) ∨
      ∃ r, p.residualDistribution q = .ok r ∧ r.len = p.len ∧
        ∀ i < p.len, r.mass i = p.replacement q i := by
  set values := (p.probabilities.zip q.probabilities).map fun pq => max (pq.1 - pq.2) 0 with hval
  have hlen : values.length = p.len := by
    rw [hval, length_map, length_zip]
    exact min_eq_left h.le
  have hvl : ∀ i < p.len, values[i]? = some (p.excess q i) := by
    intro i hi
    have hzip : (p.probabilities.zip q.probabilities)[i]? = some (p.mass i, q.mass i) :=
      List.getElem?_zip_eq_some.mpr ⟨p.getElem?_of_lt hi, q.getElem?_of_lt (h ▸ hi)⟩
    rw [hval, List.getElem?_map, hzip]
    rfl
  have hsum : values.sum = ∑ i ∈ Finset.range p.len, p.excess q i := by
    rw [sum_list_eq values 0, hlen]
    exact Finset.sum_congr rfl fun i hi => by
      rw [hvl i (Finset.mem_range.mp hi), getD_some]
  have hne : values ≠ [] := by
    intro hnil
    have hzer : p.probabilities = [] :=
      length_eq_zero_iff.mp (hlen.symm.trans (congrArg List.length hnil))
    have htot := p.total
    rw [hzer, sum_nil] at htot
    exact zero_ne_one htot
  have hnon : ∀ v ∈ values, 0 ≤ v := by
    intro v hv
    obtain ⟨pq, -, rfl⟩ := mem_map.mp hv
    exact le_max_right _ _
  have hnew : p.residualDistribution q = new values := if_neg (not_not.mpr h)
  rcases new_cases hne hnon with ⟨hzer, herr⟩ | ⟨r, hok, hr⟩
  · exact Or.inl ⟨hsum ▸ hzer, hnew.trans herr⟩
  · refine Or.inr ⟨r, hnew.trans hok, ?_, fun i hi => r.mass_of_getElem? ?_⟩
    · rw [len, hr, length_map, hlen]
    · rw [hr, List.getElem?_map, hvl i hi, hsum]
      rfl

end Distribution

/-! ## The chances of a block -/

section Chance

variable {n : ℕ} (target proposal : List UInt32 → Distribution ℝ)

open Classical in
/-- One or zero. -/
noncomputable def indicator (p : Prop) : ℝ := if p then 1 else 0

theorem indicator_of {p : Prop} (h : p) : indicator p = 1 := if_pos h

theorem indicator_of_not {p : Prop} (h : ¬ p) : indicator p = 0 := if_neg h

theorem indicator_nonneg (p : Prop) : 0 ≤ indicator p := by
  by_cases h : p
  · exact (indicator_of h).symm ▸ zero_le_one
  · exact (indicator_of_not h).ge

theorem indicator_congr {p q : Prop} (h : p ↔ q) : indicator p = indicator q := by rw [propext h]

/-- **The chance** that the tokens of a block have a property: the first candidate is accepted, and
the rest of the block follows it, or it is replaced. -/
noncomputable def chance : ℕ → List UInt32 → (List UInt32 → Prop) → ℝ
  | 0, context, E =>
    ∑ i ∈ Finset.range (target context).len,
      (target context).mass i * indicator (E [ofNat i])
  | draftLen + 1, context, E =>
    ∑ c ∈ Finset.range (proposal context).len, (proposal context).mass c *
      ((target context).ratio (proposal context) c *
          chance draftLen (context ++ [ofNat c]) (fun l => E (ofNat c :: l)) +
        (1 - (target context).ratio (proposal context) c) * ∑ i ∈ Finset.range (target context).len,
            (target context).replacement (proposal context) i * indicator (E [ofNat i]))

variable {target proposal} {draftLen : ℕ} {context : List UInt32} {E E' : List UInt32 → Prop}

theorem chance_nonneg : 0 ≤ chance target proposal draftLen context E := by
  induction draftLen generalizing context E with
  | zero =>
    exact sum_nonneg fun i _ => mul_nonneg (Distribution.mass_nonneg _ i) (indicator_nonneg _)
  | succ draftLen ih =>
    refine sum_nonneg fun c _ => mul_nonneg (Distribution.mass_nonneg _ c) (add_nonneg
      (mul_nonneg (Distribution.ratio_nonneg _ _ c) ih)
      (mul_nonneg (sub_nonneg.mpr (Distribution.ratio_le_one _ _ c)) ?_))
    exact sum_nonneg fun i _ =>
      mul_nonneg (Distribution.replacement_nonneg _ _ i) (indicator_nonneg _)

/-- Only blocks with a token matter. -/
theorem chance_congr (h : ∀ l ≠ [], E l ↔ E' l) :
    chance target proposal draftLen context E = chance target proposal draftLen context E' := by
  have hone : ∀ i, indicator (E [ofNat i]) = indicator (E' [ofNat i]) :=
    fun i => indicator_congr (h _ (cons_ne_nil _ _))
  induction draftLen generalizing context E E' with
  | zero =>
    unfold chance
    simp only [hone]
  | succ draftLen ih =>
    unfold chance
    simp only [hone]
    refine Finset.sum_congr rfl fun c _ => ?_
    have hres : ∀ l ≠ [], E (ofNat c :: l) ↔ E' (ofNat c :: l) :=
      fun l _ => h _ (cons_ne_nil _ _)
    rw [ih hres fun i => indicator_congr (hres _ (cons_ne_nil _ _))]

theorem chance_false : chance target proposal draftLen context (fun _ => False) = 0 := by
  induction draftLen generalizing context with
  | zero =>
    unfold chance
    simp only [indicator_of_not not_false, mul_zero, sum_const_zero]
  | succ draftLen ih =>
    unfold chance
    simp only [ih, indicator_of_not not_false, mul_zero, sum_const_zero, add_zero]

/-- The weights of a sum that is one. -/
theorem Distribution.sum_replacement_mul (p q : Distribution ℝ) :
    (∑ j ∈ Finset.range p.len, p.excess q j) * ∑ i ∈ Finset.range p.len, p.replacement q i
      = ∑ j ∈ Finset.range p.len, p.excess q j := by
  unfold replacement
  rw [← Finset.sum_div]
  rcases eq_or_ne (∑ j ∈ Finset.range p.len, p.excess q j) 0 with hzer | hne
  · rw [hzer, zero_mul]
  · exact mul_div_cancel₀ _ hne

/-- **There is always a block.** -/
theorem chance_true (hlen : ∀ l, (target l).len = (proposal l).len) :
    chance target proposal draftLen context (fun _ => True) = 1 := by
  induction draftLen generalizing context with
  | zero =>
    unfold chance
    simp only [indicator_of trivial, mul_one]
    exact (target context).sum_mass
  | succ draftLen ih =>
    unfold chance
    simp only [ih, indicator_of trivial, mul_one]
    have hspl : ∀ c, (proposal context).mass c * ((target context).ratio (proposal context) c +
        (1 - (target context).ratio (proposal context) c) * ∑ i ∈ Finset.range (target context).len,
            (target context).replacement (proposal context) i)
        = ((proposal context).mass c
            - (proposal context).mass c * (1 - (target context).ratio (proposal context) c)) +
          (proposal context).mass c * (1 - (target context).ratio (proposal context) c) *
            ∑ i ∈ Finset.range (target context).len,
              (target context).replacement (proposal context) i := fun c => by ring
    rw [Finset.sum_congr rfl fun c _ => hspl c, Finset.sum_add_distrib, Finset.sum_sub_distrib,
      ← sum_mul, Distribution.sum_mass, Distribution.sum_rejected (hlen context),
      Distribution.sum_replacement_mul, sub_add_cancel]

theorem chance_const (hlen : ∀ l, (target l).len = (proposal l).len) (p : Prop) :
    chance target proposal draftLen context (fun _ => p) = indicator p := by
  by_cases h : p
  · rw [indicator_of h, ← chance_true hlen]
    exact chance_congr fun _ _ => iff_of_true h trivial
  · rw [indicator_of_not h, ← chance_false]
    exact chance_congr fun _ _ => iff_of_false h not_false

/-- A sum in which one token matters. -/
theorem sum_indicator {n : ℕ} (hn : n ≤ 2 ^ 32) (f : ℕ → ℝ) (x : UInt32) :
    ∑ i ∈ Finset.range n, f i * indicator (ofNat i = x)
      = if x.toNat < n then f x.toNat else 0 := by
  have hiff : ∀ i ∈ Finset.range n, (ofNat i = x ↔ i = x.toNat) := by
    intro i hi
    have hlt : i < 2 ^ 32 := (Finset.mem_range.mp hi).trans_le hn
    constructor
    · rintro rfl
      rw [UInt32.toNat_ofNat', Nat.mod_eq_of_lt hlt]
    · rintro rfl
      exact UInt32.ofNat_toNat
  rw [Finset.sum_congr rfl fun i hi => by rw [indicator_congr (hiff i hi)]]
  split_ifs with hx
  · rw [Finset.sum_eq_single_of_mem x.toNat (Finset.mem_range.mpr hx) fun i _ hne => by
      rw [indicator_of_not hne, mul_zero], indicator_of rfl, mul_one]
  · exact Finset.sum_eq_zero fun i hi => by
      rw [indicator_of_not fun heq : i = x.toNat => hx (heq ▸ Finset.mem_range.mp hi), mul_zero]

/-- **The first token** has the distribution of the target. -/
theorem chance_head {n : ℕ} (hn : n ≤ 2 ^ 32) (htar : ∀ l, (target l).len = n)
    (hpr : ∀ l, (proposal l).len = n) (x : UInt32) :
    chance target proposal draftLen context (fun l => l.head? = some x)
      = (target context).mass x.toNat := by
  have hlen : ∀ l, (target l).len = (proposal l).len := fun l => (htar l).trans (hpr l).symm
  have hhd : ∀ (i : ℕ) (l : List UInt32),
      ((ofNat i :: l).head? = some x ↔ ofNat i = x) := fun i l =>
    ⟨fun h => some.inj h, fun h => congrArg some h⟩
  cases draftLen with
  | zero =>
    unfold chance
    simp only [hhd]
    rw [htar, sum_indicator hn]
    split_ifs with hx
    · rfl
    · exact ((target context).mass_of_le ((htar context).le.trans (not_lt.mp hx))).symm
  | succ =>
    unfold chance
    simp only [hhd, chance_const hlen]
    have hspl : ∀ c, (proposal context).mass c *
        ((target context).ratio (proposal context) c * indicator (ofNat c = x) +
          (1 - (target context).ratio (proposal context) c) *
            ∑ i ∈ Finset.range (target context).len,
              (target context).replacement (proposal context) i * indicator (ofNat i = x))
        = (proposal context).mass c * (target context).ratio (proposal context) c *
            indicator (ofNat c = x) +
          (proposal context).mass c * (1 - (target context).ratio (proposal context) c) *
            ∑ i ∈ Finset.range (target context).len,
              (target context).replacement (proposal context) i * indicator (ofNat i = x) :=
      fun c => by ring
    rw [Finset.sum_congr rfl fun c _ => hspl c, Finset.sum_add_distrib, ← sum_mul,
      Distribution.sum_rejected (hlen context), hpr, htar,
      sum_indicator hn fun c => (proposal context).mass c *
        (target context).ratio (proposal context) c, sum_indicator hn]
    split_ifs with hx
    · rw [← htar context]
      exact Distribution.accepted_add_replaced _ (htar context ▸ hx)
    · rw [mul_zero, add_zero]
      exact ((target context).mass_of_le ((htar context).le.trans (not_lt.mp hx))).symm

/-- **A block of more than one token** begins with a candidate that has been accepted. -/
theorem chance_cons {t : UInt32} (hone : ∀ y, ¬ E [y]) (hmor : ∀ c l, E (c :: l) ↔ c = t ∧ E' l) :
    chance target proposal (draftLen + 1) context E
      = (∑ c ∈ Finset.range (proposal context).len, (proposal context).mass c *
          (target context).ratio (proposal context) c * indicator (ofNat c = t)) *
        chance target proposal draftLen (context ++ [t]) E' := by
  have hres : ∀ c, chance target proposal draftLen (context ++ [ofNat c])
      (fun l => E (ofNat c :: l))
        = indicator (ofNat c = t) * chance target proposal draftLen (context ++ [t]) E' := by
    intro c
    by_cases h : ofNat c = t
    · rw [indicator_of h, one_mul, h]
      exact chance_congr fun l _ => (hmor t l).trans (and_iff_right rfl)
    · rw [indicator_of_not h, zero_mul, ← chance_false]
      exact chance_congr fun l _ => iff_of_false (fun he => h ((hmor _ l).mp he).1) not_false
  rw [chance, sum_mul]
  refine Finset.sum_congr rfl fun c _ => ?_
  simp only [indicator_of_not (hone _), mul_zero, sum_const_zero, add_zero, hres]
  ring

/-- **The next token**, after any others, has the distribution of the target after them. -/
theorem chance_concat {n : ℕ} (hn : n ≤ 2 ^ 32) (htar : ∀ l, (target l).len = n)
    (hpr : ∀ l, (proposal l).len = n) (ts : List UInt32) (x : UInt32) :
    chance target proposal draftLen context (fun l => ts ++ [x] <+: l)
      = chance target proposal draftLen context (fun l => ts <+: l ∧ ts.length < l.length)
        * (target (context ++ ts)).mass x.toNat := by
  have hlen : ∀ l, (target l).len = (proposal l).len := fun l => (htar l).trans (hpr l).symm
  induction ts generalizing draftLen context with
  | nil =>
    have hsom : ∀ l : List UInt32, l ≠ [] →
        ([] <+: l ∧ ([] : List UInt32).length < l.length ↔ True) := fun l hl =>
      iff_of_true ⟨List.nil_prefix, length_pos_of_ne_nil hl⟩ trivial
    have hfst : ∀ l ≠ [], (([] : List UInt32) ++ [x] <+: l ↔ l.head? = some x) := by
      rintro (- | ⟨y, l⟩) hl
      · exact absurd rfl hl
      · rw [nil_append, cons_prefix_cons, and_iff_left List.nil_prefix, List.head?_cons,
          some_inj, eq_comm]
    rw [chance_congr hfst, chance_congr hsom, chance_true hlen, one_mul, List.append_nil]
    exact chance_head hn htar hpr x
  | cons t ts ih =>
    have hone : ∀ y, ¬ (t :: ts ++ [x] <+: [y]) := fun y h => by
      have hle := h.length_le
      simp at hle
    have hone' : ∀ y, ¬ (t :: ts <+: [y] ∧ (t :: ts).length < [y].length) := fun y h => by
      have hlt := h.2
      simp at hlt
    have hmor : ∀ c l, (t :: ts ++ [x] <+: c :: l ↔ c = t ∧ ts ++ [x] <+: l) := fun c l => by
      rw [cons_append, cons_prefix_cons, eq_comm]
    have hmor' : ∀ c l, (t :: ts <+: c :: l ∧ (t :: ts).length < (c :: l).length
        ↔ c = t ∧ (ts <+: l ∧ ts.length < l.length)) := fun c l => by
      rw [cons_prefix_cons, length_cons, length_cons, Nat.succ_lt_succ_iff, eq_comm, and_assoc]
    cases draftLen with
    | zero =>
      unfold chance
      simp only [indicator_of_not (hone _), indicator_of_not (hone' _), mul_zero,
        sum_const_zero, zero_mul]
    | succ =>
      rw [chance_cons hone hmor, chance_cons hone' hmor', ih, append_assoc,
        singleton_append, mul_assoc]

end Chance

end Llama

end Logan
