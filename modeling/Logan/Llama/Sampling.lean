import Logan.Util.Draw
import Logan.Util.Result

/-!
# Speculative sampling

A token is sampled from what a target says after a context, by way of a proposal.
A candidate is drawn from the proposal, and accepted with the ratio of the two
probabilities; if it is not, a replacement is drawn from what the target says more
often than the proposal does. This goes on until a candidate is rejected, or a
number of them has been accepted and the target has the last word.

Probabilities are exact numbers here, so that those of a distribution add up to
one: this is a field of the structure. None of them is infinite.
-/

namespace Logan

namespace Llama

open Result

/-- How sampling fails. -/
inductive SamplingError (K : Type) where
  | emptyDistribution
  | invalidProbability (index : ℕ) (value : K)
  | zeroMass
  | vocabularyMismatch (expected actual : ℕ)
  | invalidToken (token : UInt32) (vocabulary : ℕ)
  | invalidRandomValue (value : K)
deriving DecidableEq

/-- **A normalized finite-vocabulary probability distribution.** -/
structure Distribution (K : Type) [Field K] [LinearOrder K] where
  probabilities : List K
  nonneg : ∀ p ∈ probabilities, 0 ≤ p
  total : probabilities.sum = 1

variable {K : Type} [Field K] [LinearOrder K]

/-- The loop of `Distribution::new`: the sum of the values, none of which may be negative. -/
def massOf : ℕ → K → List K → Except (SamplingError K) K
  | _, mass, [] => .ok mass
  | index, mass, value :: values =>
    if value < 0 then .error (.invalidProbability index value)
    else massOf (index + 1) (mass + value) values

/-- **The sum is computed** if no value is negative. -/
theorem massOf_eq_ok {index : ℕ} {mass total : K} {values : List K} :
    massOf index mass values = .ok total ↔ (∀ v ∈ values, 0 ≤ v) ∧ mass + values.sum = total := by
  induction values generalizing index mass with
  | nil =>
    rw [massOf, List.sum_nil, add_zero]
    exact ⟨fun h => ⟨fun v hv => absurd hv List.not_mem_nil, Except.ok.inj h⟩,
      fun h => congrArg _ h.2⟩
  | cons value values ih =>
    rw [massOf, List.forall_mem_cons, List.sum_cons, ← add_assoc]
    split_ifs with hneg
    · exact iff_of_false nofun fun h => absurd hneg (not_lt.mpr h.1.1)
    · rw [ih, and_assoc, and_iff_right (not_lt.mp hneg)]

namespace Distribution

variable [IsStrictOrderedRing K]

/-- `Distribution::new`: the values are normalized. -/
def new (values : List K) : Except (SamplingError K) (Distribution K) :=
  if values = [] then .error .emptyDistribution
  else
    match h : massOf 0 0 values with
    | .error e => .error e
    | .ok mass =>
      if hmass : mass ≤ 0 then .error .zeroMass
      else .ok
        { probabilities := values.map (· / mass)
          nonneg := by
            intro p hp
            obtain ⟨v, hv, rfl⟩ := List.mem_map.mp hp
            exact div_nonneg ((massOf_eq_ok.mp h).1 v hv) (not_le.mp hmass).le
          total := by
            have hsum := (massOf_eq_ok.mp h).2
            rw [zero_add] at hsum
            simp only [div_eq_mul_inv, List.sum_map_mul_right, List.map_id', hsum]
            exact mul_inv_cancel₀ (not_le.mp hmass).ne' }

/-- **Values are normalized** if none of them is negative, and their sum is not zero. -/
theorem new_cases {values : List K} (hne : values ≠ []) (hnon : ∀ v ∈ values, 0 ≤ v) :
    (values.sum ≤ 0 ∧ new values = .error .zeroMass) ∨
      ∃ d, new values = .ok d ∧ d.probabilities = values.map (· / values.sum) := by
  unfold new
  rw [if_neg hne]
  split
  · next e h =>
    rw [massOf_eq_ok.mpr ⟨hnon, zero_add _⟩] at h
    cases h
  · next mass h =>
    have hsum := (massOf_eq_ok.mp h).2
    rw [zero_add] at hsum
    subst hsum
    split_ifs with hzer
    · exact Or.inl ⟨hzer, rfl⟩
    · exact Or.inr ⟨_, rfl, rfl⟩

variable (d : Distribution K)

/-- `len` -/
def len : ℕ := d.probabilities.length

/-- `probability` -/
def probability (token : UInt32) : Except (SamplingError K) K :=
  okOr d.probabilities[token.toNat]? (.invalidToken token d.len)

/-- `residual_distribution`: normalized `max(p - q, 0)`. -/
def residualDistribution (p q : Distribution K) : Except (SamplingError K) (Distribution K) :=
  if p.len ≠ q.len then .error (.vocabularyMismatch p.len q.len)
  else new ((p.probabilities.zip q.probabilities).map fun pq => max (pq.1 - pq.2) 0)

/-- `acceptance_probability`: `min(1, p(x)/q(x))`. -/
def acceptanceProbability (p q : Distribution K) (token : UInt32) : Except (SamplingError K) K :=
  if p.len ≠ q.len then .error (.vocabularyMismatch p.len q.len)
  else do
    let pToken ← p.probability token
    let qToken ← q.probability token
    pure (if 0 < qToken then min (pToken / qToken) 1 else 0)

/-- The last place of a positive probability. -/
def lastPositive : Option ℕ :=
  (d.probabilities.zipIdx.reverse.find? fun p => 0 < p.1).map Prod.snd

/-- `sample`, from a number that has been drawn. A place is made a `u32`. -/
def sampleAt (random : K) : Except (SamplingError K) UInt32 :=
  if 0 ≤ random ∧ random < 1 then
    match pick random 0 0 d.probabilities with
    | some token => .ok (UInt32.ofNat token)
    | none => okOr (d.lastPositive.map UInt32.ofNat) .zeroMass
  else .error (.invalidRandomValue random)

/-- `sample` -/
def sample : Draw (SamplingError K) K UInt32 :=
  Draw.next fun random => Draw.ofExcept (d.sampleAt random)

end Distribution

/-- **A distribution conditional on the tokens so far.** -/
abbrev ConditionalDistribution (K : Type) [Field K] [LinearOrder K] : Type :=
  List UInt32 → Except (SamplingError K) (Distribution K)

/-- What a speculative block has led to. -/
structure SpeculativeSample where
  tokens : List UInt32
  proposals : List UInt32
  accepted : ℕ
  rejected : Bool
  bonus : Bool
deriving DecidableEq

variable [IsStrictOrderedRing K]

/-- The loop of `sample_speculative`, with what it has so far. An event of probability zero is
rejected even if zero is drawn; one of ratio one is always accepted. -/
def speculate (target proposal : ConditionalDistribution K) :
    ℕ → List UInt32 → List UInt32 → List UInt32 → ℕ → Draw (SamplingError K) K SpeculativeSample
  | 0, context, proposals, tokens, accepted => do
    let p ← Draw.ofExcept (target context)
    let bonus ← p.sample
    pure ⟨tokens ++ [bonus], proposals, accepted, false, true⟩
  | draftLen + 1, context, proposals, tokens, accepted => do
    let q ← Draw.ofExcept (proposal context)
    let p ← Draw.ofExcept (target context)
    if p.len ≠ q.len then Draw.fail (.vocabularyMismatch p.len q.len)
    else do
      let candidate ← q.sample
      let acceptance ← Draw.ofExcept (p.acceptanceProbability q candidate)
      let acceptDraw ← Draw.unit
      if 0 < acceptance ∧ (1 ≤ acceptance ∨ acceptDraw ≤ acceptance) then
        speculate target proposal draftLen (context ++ [candidate]) (proposals ++ [candidate])
          (tokens ++ [candidate]) (accepted + 1)
      else do
        let residual ← Draw.ofExcept (p.residualDistribution q)
        let replacement ← residual.sample
        pure ⟨tokens ++ [replacement], proposals ++ [candidate], accepted, true, false⟩

/-- **`sample_speculative`** -/
def sampleSpeculative (context : List UInt32) (draftLen : ℕ)
    (target proposal : ConditionalDistribution K) : Draw (SamplingError K) K SpeculativeSample :=
  speculate target proposal draftLen context [] [] 0

end Llama

end Logan
