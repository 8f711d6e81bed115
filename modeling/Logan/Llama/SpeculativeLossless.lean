import Logan.Llama.SpeculativeSampling

/-!
# What a block of speculative sampling returns

The chances of a block are the probabilities of what the computation returns
(`prob_speculate`), and whatever numbers are drawn, it returns something: a
candidate that is rejected is one that the proposal says more often than the target,
so that the target says another token more often, and there is a residual to sample
from (`always_speculate`).
-/

namespace Logan

open List
open ENNReal (ofReal ofReal_mul ofReal_zero)
open Draw (ofExcept_ok pure_bind)
open UInt32 (ofNat)

namespace Llama

open Result

variable {target proposal : List UInt32 → Distribution ℝ}

/-- Distributions that are always there. -/
def conditional (d : List UInt32 → Distribution ℝ) : ConditionalDistribution ℝ := fun context =>
  .ok (d context)

/-! ## Probabilities -/

theorem sum_ofReal_mul {f X : ℕ → ℝ} (hf : ∀ i, 0 ≤ f i) (hX : ∀ i, 0 ≤ X i) (n : ℕ) :
    ∑ i ∈ Finset.range n, ofReal (f i) * ofReal (X i)
      = ofReal (∑ i ∈ Finset.range n, f i * X i) := by
  rw [ENNReal.ofReal_sum_of_nonneg fun i _ => mul_nonneg (hf i) (hX i)]
  exact Finset.sum_congr rfl fun i _ => (ofReal_mul (hf i)).symm

theorem prob_pure (s : SpeculativeSample) (Q : List UInt32 → Prop) :
    (pure s : Draw (SamplingError ℝ) ℝ SpeculativeSample).prob (fun s => Q s.tokens)
      = ofReal (indicator (Q s.tokens)) := by
  show (Draw.pure s : Draw (SamplingError ℝ) ℝ SpeculativeSample).prob (fun s => Q s.tokens) = _
  unfold Draw.prob
  by_cases h : Q s.tokens
  · rw [if_pos h, indicator_of h, ENNReal.ofReal_one]
  · rw [if_neg h, indicator_of_not h, ofReal_zero]

variable {p q : Distribution ℝ}

/-- **A replacement is drawn** with its probability. If there is none, nothing is returned. -/
theorem prob_residual (h : p.len = q.len) (f : UInt32 → SpeculativeSample)
    (Q : List UInt32 → Prop) : (do
      let residual ← Draw.ofExcept (p.residualDistribution q)
      let replacement ← residual.sample
      pure (f replacement) : Draw (SamplingError ℝ) ℝ SpeculativeSample).prob (fun s => Q s.tokens)
      = ofReal (∑ i ∈ Finset.range p.len,
          p.replacement q i * indicator (Q (f (ofNat i)).tokens)) := by
  rcases Distribution.residualDistribution_cases h with ⟨hzer, herr⟩ | ⟨r, hok, hlen, hmas⟩
  · have hsum : ∑ i ∈ Finset.range p.len, p.excess q i = 0 :=
      le_antisymm hzer (Finset.sum_nonneg fun j _ => p.excess_nonneg q j)
    have hnon : ∀ i, p.replacement q i = 0 := fun i => by
      rw [Distribution.replacement, hsum, div_zero]
    simp only [hnon, zero_mul, Finset.sum_const_zero, ofReal_zero]
    rw [herr]
    rfl
  · rw [hok, ofExcept_ok, pure_bind, r.prob_sample, hlen,
      ← sum_ofReal_mul (p.replacement_nonneg q) fun i => indicator_nonneg _]
    refine Finset.sum_congr rfl fun i hi => ?_
    rw [prob_pure, hmas i (Finset.mem_range.mp hi)]

variable {context : List UInt32}

/-- **The probability of a block** is its chance. -/
theorem prob_speculate {n : ℕ} (hn : n ≤ 2 ^ 32) (htar : ∀ l, (target l).len = n)
    (hpr : ∀ l, (proposal l).len = n) {draftLen : ℕ} {proposals tokens : List UInt32}
    {accepted : ℕ} (Q : List UInt32 → Prop) :
    (speculate (conditional target) (conditional proposal) draftLen context proposals tokens
        accepted).prob (fun s => Q s.tokens)
      = ofReal (chance target proposal draftLen context fun l => Q (tokens ++ l)) := by
  induction draftLen generalizing context proposals tokens accepted with
  | zero =>
    rw [speculate, conditional, ofExcept_ok, pure_bind, Distribution.prob_sample, chance,
      ← sum_ofReal_mul (Distribution.mass_nonneg _) fun i => indicator_nonneg _]
    exact Finset.sum_congr rfl fun i _ => by rw [prob_pure]
  | succ draftLen ih =>
    have hlen : (target context).len = (proposal context).len :=
      (htar context).trans (hpr context).symm
    rw [speculate, conditional, conditional, ofExcept_ok, pure_bind, ofExcept_ok,
      pure_bind, if_neg (not_not.mpr hlen), Distribution.prob_sample, chance]
    have hnon : ∀ c, 0 ≤ (target context).ratio (proposal context) c *
          chance target proposal draftLen (context ++ [ofNat c])
            (fun l => Q (tokens ++ ofNat c :: l)) +
        (1 - (target context).ratio (proposal context) c) * ∑ i ∈ Finset.range (target context).len,
            (target context).replacement (proposal context) i *
              indicator (Q (tokens ++ [ofNat i])) := by
      intro c
      refine add_nonneg (mul_nonneg (Distribution.ratio_nonneg _ _ c) chance_nonneg)
        (mul_nonneg (sub_nonneg.mpr (Distribution.ratio_le_one _ _ c)) ?_)
      exact Finset.sum_nonneg fun i _ =>
        mul_nonneg (Distribution.replacement_nonneg _ _ i) (indicator_nonneg _)
    rw [← sum_ofReal_mul (Distribution.mass_nonneg _) hnon]
    refine Finset.sum_congr rfl fun c hc => congrArg _ ?_
    have hlt : c < n := hpr context ▸ Finset.mem_range.mp hc
    have htok : (ofNat c).toNat = c := by
      rw [UInt32.toNat_ofNat', Nat.mod_eq_of_lt (hlt.trans_le hn)]
    have hrat : (target context).acceptanceProbability (proposal context) (ofNat c)
        = .ok ((target context).ratio (proposal context) c) := by
      have htok' : (ofNat c).toNat < (proposal context).len :=
        htok.symm ▸ Finset.mem_range.mp hc
      rw [Distribution.acceptanceProbability_eq hlen htok', htok]
    have hrat0 := (target context).ratio_nonneg (proposal context) c
    have hrat1 := (target context).ratio_le_one (proposal context) c
    rw [hrat, ofExcept_ok, pure_bind, Draw.unit, Draw.next_bind, Draw.prob_next]
    simp only [pure_bind, apply_ite (fun d : Draw (SamplingError ℝ) ℝ SpeculativeSample =>
      d.prob fun s => Q s.tokens)]
    rw [lintegral_accept _ _ hrat0 hrat1, ih, prob_residual hlen
      (fun replacement => ⟨tokens ++ [replacement], proposals ++ [ofNat c], accepted, true,
        false⟩) Q, ENNReal.ofReal_add, ofReal_mul hrat0,
      ofReal_mul (sub_nonneg.mpr hrat1)]
    · simp only [append_assoc, singleton_append]
    · exact mul_nonneg hrat0 chance_nonneg
    · exact mul_nonneg (sub_nonneg.mpr hrat1) (Finset.sum_nonneg fun i _ =>
        mul_nonneg (Distribution.replacement_nonneg _ _ i) (indicator_nonneg _))

theorem prob_sampleSpeculative {n : ℕ} (hn : n ≤ 2 ^ 32) (htar : ∀ l, (target l).len = n)
    (hpr : ∀ l, (proposal l).len = n) (context : List UInt32) (draftLen : ℕ)
    (Q : List UInt32 → Prop) :
    (sampleSpeculative context draftLen (conditional target) (conditional proposal)).prob
        (fun s => Q s.tokens) = ofReal (chance target proposal draftLen context Q) :=
  prob_speculate hn htar hpr Q

/-! ## Whatever is drawn -/

/-- **A candidate that may be rejected** leaves something to sample from. -/
theorem Distribution.sum_excess_pos (h : p.len = q.len) {c : ℕ} (hc : c < q.len)
    (hrat : p.ratio q c < 1) (hpos : 0 < q.mass c) :
    0 < ∑ i ∈ Finset.range p.len, p.excess q i := by
  have hrej : 0 < q.excess p c := by
    rw [← p.mass_mul_one_sub_ratio q c]
    exact mul_pos hpos (sub_pos.mpr hrat)
  rw [← sum_excess h]
  exact Finset.sum_pos' (fun i _ => q.excess_nonneg p i) ⟨c, Finset.mem_range.mpr hc, hrej⟩

theorem Distribution.mass_pos_of_ratio {c : ℕ} (hrat : 0 < p.ratio q c)
    (hpos : 0 < q.mass c) : 0 < p.mass c := by
  have hmin : 0 < min (p.mass c) (q.mass c) := p.mass_mul_ratio q c ▸ mul_pos hpos hrat
  exact (lt_min_iff.mp hmin).1

/-- Whatever is drawn, a replacement is one that the target says. -/
theorem always_residual (h : p.len = q.len) (hsum : 0 < ∑ i ∈ Finset.range p.len, p.excess q i)
    (f : UInt32 → SpeculativeSample) {P : SpeculativeSample → Prop}
    (hf : ∀ i < p.len, 0 < p.mass i → P (f (ofNat i))) : (do
      let residual ← Draw.ofExcept (p.residualDistribution q)
      let replacement ← residual.sample
      pure (f replacement) : Draw (SamplingError ℝ) ℝ SpeculativeSample).Always P := by
  rcases Distribution.residualDistribution_cases h with ⟨hzer, -⟩ | ⟨r, hok, hlen, hmas⟩
  · exact absurd hsum (not_lt.mpr hzer)
  · rw [hok, ofExcept_ok, pure_bind]
    refine r.always_sample _ fun i hi hpos => hf i (hlen ▸ hi) ?_
    rw [hmas i (hlen ▸ hi), Distribution.replacement, div_pos_iff_of_pos_right hsum,
      Distribution.excess, lt_max_iff, or_iff_left (lt_irrefl 0)] at hpos
    exact (q.mass_nonneg i).trans_lt (sub_pos.mp hpos)

/-- Tokens that the target says, each after those before it. -/
def Said (target : List UInt32 → Distribution ℝ) (context l : List UInt32) : Prop :=
  ∀ ts x, ts ++ [x] <+: l → 0 < (target (context ++ ts)).mass x.toNat

theorem said_singleton {t : UInt32}
    (h : 0 < (target context).mass t.toNat) : Said target context [t] := by
  intro ts x hts
  cases ts with
  | nil =>
    rw [nil_append, cons_prefix_cons] at hts
    rwa [List.append_nil, hts.1]
  | cons =>
    have hle := hts.length_le
    simp at hle

theorem said_cons {l : List UInt32} {t : UInt32} (h : 0 < (target context).mass t.toNat)
    (hl : Said target (context ++ [t]) l) : Said target context (t :: l) := by
  intro ts x hts
  cases ts with
  | nil =>
    rw [nil_append, cons_prefix_cons] at hts
    rwa [List.append_nil, hts.1]
  | cons u ts =>
    rw [cons_append, cons_prefix_cons] at hts
    obtain ⟨rfl, hts⟩ := hts
    have hpos := hl ts x hts
    rwa [append_assoc, singleton_append] at hpos

/-- **Whatever is drawn**, a block has a token, and all its tokens are such that the target says. -/
theorem always_speculate {n : ℕ} (hn : n ≤ 2 ^ 32) (htar : ∀ l, (target l).len = n)
    (hpr : ∀ l, (proposal l).len = n) {draftLen : ℕ} {proposals tokens : List UInt32}
    {accepted : ℕ} :
    (speculate (conditional target) (conditional proposal) draftLen context proposals tokens
        accepted).Always fun s => ∃ l, s.tokens = tokens ++ l ∧ l ≠ [] ∧ Said target context l := by
  have htok : ∀ i < n, (ofNat i).toNat = i := fun i hi => by
    rw [UInt32.toNat_ofNat', Nat.mod_eq_of_lt (hi.trans_le hn)]
  induction draftLen generalizing context proposals tokens accepted with
  | zero =>
    rw [speculate, conditional, ofExcept_ok, pure_bind]
    refine Distribution.always_sample _ _ fun i hi hpos => ?_
    rw [← htok i (htar context ▸ hi)] at hpos
    exact ⟨[ofNat i], rfl, cons_ne_nil _ _, said_singleton hpos⟩
  | succ draftLen ih =>
    have hlen : (target context).len = (proposal context).len :=
      (htar context).trans (hpr context).symm
    rw [speculate, conditional, conditional, ofExcept_ok, pure_bind, ofExcept_ok,
      pure_bind, if_neg (not_not.mpr hlen)]
    refine Distribution.always_sample _ _ fun c hc hpos => ?_
    have hc' := htok c (hpr context ▸ hc)
    rw [Distribution.acceptanceProbability_eq hlen (hc'.symm ▸ hc), hc', ofExcept_ok,
      pure_bind]
    intro v hv
    show Draw.Always (if _ then _ else _) _
    split_ifs with hacc
    · have hmas := Distribution.mass_pos_of_ratio hacc.1 hpos
      rw [← hc'] at hmas
      refine ih.mono ?_
      rintro s ⟨l, hs, -, hl⟩
      rw [append_assoc] at hs
      exact ⟨ofNat c :: l, hs, cons_ne_nil _ _, said_cons hmas hl⟩
    · have hrat : (target context).ratio (proposal context) c < 1 := by
        by_contra hle
        exact hacc ⟨zero_lt_one.trans_le (not_lt.mp hle), Or.inl (not_lt.mp hle)⟩
      refine always_residual hlen (Distribution.sum_excess_pos hlen hc hrat hpos)
        (fun replacement => ⟨tokens ++ [replacement], proposals ++ [ofNat c], accepted, true,
          false⟩) fun i hi hmas => ?_
      rw [← htok i (htar context ▸ hi)] at hmas
      exact ⟨[ofNat i], rfl, cons_ne_nil _ _, said_singleton hmas⟩

/-- **Speculative sampling is lossless**: over a vocabulary of `u32` tokens, the first token of a
block has the distribution of the target after the context, and each further one, given those before
it, that of the target after these. And whatever is drawn, there is a block – no residual is sampled
that has no mass –, and no token in it has the probability zero. -/
theorem sampleSpeculative_lossless {n : ℕ} (hn : n ≤ 2 ^ 32)
    (htarget : ∀ l, (target l).len = n) (hproposal : ∀ l, (proposal l).len = n)
    (context : List UInt32) (draftLen : ℕ) :
    (∀ x, (sampleSpeculative context draftLen (conditional target) (conditional proposal)).prob
        (fun s => s.tokens.head? = some x) = ofReal ((target context).mass x.toNat)) ∧
    (∀ ts x, (sampleSpeculative context draftLen (conditional target) (conditional proposal)).prob
        (fun s => ts ++ [x] <+: s.tokens)
      = (sampleSpeculative context draftLen (conditional target) (conditional proposal)).prob
          (fun s => ts <+: s.tokens ∧ ts.length < s.tokens.length)
        * ofReal ((target (context ++ ts)).mass x.toNat)) ∧
    (sampleSpeculative context draftLen (conditional target) (conditional proposal)).Always
      fun s => s.tokens ≠ [] ∧
        ∀ ts x, ts ++ [x] <+: s.tokens → 0 < (target (context ++ ts)).mass x.toNat := by
  refine ⟨fun x => ?_, fun ts x => ?_, ?_⟩
  · rw [prob_sampleSpeculative hn htarget hproposal context draftLen fun l => l.head? = some x,
      chance_head hn htarget hproposal]
  · rw [prob_sampleSpeculative hn htarget hproposal context draftLen fun l => ts ++ [x] <+: l,
      prob_sampleSpeculative hn htarget hproposal context draftLen
        fun l => ts <+: l ∧ ts.length < l.length,
      chance_concat hn htarget hproposal, ofReal_mul chance_nonneg]
  · refine (always_speculate hn htarget hproposal).mono ?_
    rintro s ⟨l, hs, hne, hsd⟩
    rw [hs]
    exact ⟨hne, hsd⟩

/-- A distribution over two tokens. -/
noncomputable def fair : Distribution ℝ :=
  ⟨[1 / 2, 1 / 2], by simp, by norm_num⟩

/-- The other one says one token only. -/
def certain : Distribution ℝ := ⟨[1, 0], by simp, by norm_num⟩

/-- **Half of the blocks** begin with the token that the proposal never says. -/
theorem sampleSpeculative_lossless_fair :
    (sampleSpeculative [] 3 (conditional fun _ => fair) (conditional fun _ => certain)).prob
        (fun s => s.tokens.head? = some 1) = ofReal (1 / 2) :=
  (sampleSpeculative_lossless (n := 2) (by norm_num) (fun _ => rfl) (fun _ => rfl) [] 3).1 1

end Llama

end Logan
