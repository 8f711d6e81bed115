import Logan.Util.Greedy
import Logan.Util.Memory

/-!
# Verifying a block of drafts

A drafter proposes tokens, and the target is run on all of them at once: on the
**anchor**, which is the token that it has not consumed yet, and on the drafts
after it. Row `i` of what it predicts is about draft `i`. The drafts are accepted
as long as they are what has been predicted, and at the first that is not, the
prediction takes its place. What is retained are the rows of the anchor and of the
accepted drafts; the prediction after them becomes the next anchor.
-/

namespace Logan

open List

namespace Llama

/-- Controls a verification attempt without making cancellation a hidden global. -/
inductive DecodeControl where
  | continue
  | cancel
deriving DecidableEq

/-- `VerificationOptions` -/
structure VerificationOptions where
  eosTokenIds : List UInt32
  outputCap : Option ℕ
  control : DecodeControl
deriving DecidableEq

/-- `VerificationOptions::default` -/
def VerificationOptions.default : VerificationOptions := ⟨[], none, .continue⟩

/-- How the rows of the target and the drafts are aligned: target row `i` predicts draft `i`. -/
structure AlignmentDiagnostic where
  expectedRows : ℕ
  actualRows : ℕ
  comparisonOffset : ℕ
  valid : Bool
deriving DecidableEq

/-- **What a verification finds.** -/
structure VerificationResult where
  acceptedDrafts : ℕ
  retainedRows : ℕ
  nextAnchor : Option UInt32
  emitted : List UInt32
  rejectedDrafts : List UInt32
  targetPredictions : List UInt32
  cancelled : Bool
  allMatch : Bool
  stoppedOnEos : Bool
  outputCapReached : Bool
  alignment : AlignmentDiagnostic
  error : Option String
deriving DecidableEq

/-- `VerificationResult::invalid` -/
def VerificationResult.invalid (expected actual : ℕ) (message : String) : VerificationResult where
  acceptedDrafts := 0
  retainedRows := 0
  nextAnchor := none
  emitted := []
  rejectedDrafts := []
  targetPredictions := []
  cancelled := false
  allMatch := false
  stoppedOnEos := false
  outputCapReached := false
  alignment := ⟨expected, actual, 0, false⟩
  error := some message

/-- The variables of the loop over the drafts. -/
structure Comparison where
  accepted : ℕ
  emitted : List UInt32
  rejected : List UInt32
  nextAnchor : Option UInt32
  allMatch : Bool
  stoppedOnEos : Bool
  capReached : Bool
deriving DecidableEq

/-- The loop over the drafts, with the predictions of their rows. There is a prediction for each
draft: the lengths have been compared before. -/
def compareRows (options : VerificationOptions) (cap : ℕ) :
    List UInt32 → List UInt32 → Comparison → Comparison
  | draft :: drafts, prediction :: predictions, c =>
    if prediction ≠ draft then
      let c := { c with
        allMatch := false
        nextAnchor := some prediction
        rejected := c.rejected ++ draft :: drafts }
      if c.emitted.length < cap then
        { c with
          emitted := c.emitted ++ [prediction]
          stoppedOnEos := c.stoppedOnEos || options.eosTokenIds.contains prediction }
      else { c with capReached := true }
    else
      let c := { c with accepted := c.accepted + 1 }
      if c.emitted.length ≥ cap then { c with capReached := true }
      else
        let c := { c with emitted := c.emitted ++ [draft] }
        if options.eosTokenIds.contains draft then { c with stoppedOnEos := true }
        else if c.emitted.length = cap then { c with capReached := true }
        else compareRows options cap drafts predictions c
  | _, _, c => c

variable (targetPredictions drafts : List UInt32)

/-- The part of `verify_greedy_with_options` that comes after the loop. If all drafts have been
accepted, there has to be a prediction after them. -/
def resultOf (c : Comparison) : VerificationResult :=
  let complete := c.allMatch && !c.stoppedOnEos && !c.capReached
  let nextAnchor := if complete then targetPredictions[drafts.length]? else c.nextAnchor
  if complete ∧ nextAnchor = none then
    .invalid (drafts.length + 1) targetPredictions.length
      "target output lacks the post-block prediction"
  else
    { acceptedDrafts := c.accepted
      retainedRows := if complete then drafts.length + 1 else 1 + c.accepted
      nextAnchor
      emitted := c.emitted
      rejectedDrafts := if complete then [] else c.rejected
      targetPredictions
      cancelled := false
      allMatch := c.allMatch
      stoppedOnEos := c.stoppedOnEos
      outputCapReached := c.capReached
      alignment := ⟨drafts.length, targetPredictions.length, 0, true⟩
      error := none }

/-- `verify_greedy_with_options` -/
def verifyGreedyWithOptions
    (options : VerificationOptions) : VerificationResult :=
  let expected := drafts.length
  let idle : VerificationResult :=
    { acceptedDrafts := 0
      retainedRows := 0
      nextAnchor := none
      emitted := []
      rejectedDrafts := drafts
      targetPredictions
      cancelled := false
      allMatch := false
      stoppedOnEos := false
      outputCapReached := false
      alignment :=
        ⟨expected, targetPredictions.length, 0, decide (expected ≤ targetPredictions.length)⟩
      error := none }
  if options.control = .cancel then { idle with cancelled := true }
  else if targetPredictions.length < expected then
    .invalid expected targetPredictions.length "target output has fewer rows than drafts"
  else
    let cap := options.outputCap.getD usizeMax
    if cap = 0 then { idle with outputCapReached := true }
    else
      resultOf targetPredictions drafts (compareRows options cap drafts targetPredictions
        ⟨0, [], [], none, true, false, false⟩)

/-- `verify_greedy` -/
def verifyGreedy : VerificationResult :=
  verifyGreedyWithOptions targetPredictions drafts .default

/-! ## Predictions from logits -/

section Logits

variable {F : Type} (greater : F → F → Bool)

/-- The index of the first largest logit of a row. -/
def bestIndex (row : List F) : ℕ :=
  (row.zipIdx.drop 1).foldl
    (fun best p => if row[best]?.any fun b => greater p.1 b then p.2 else best) 0

/-- The prediction of one row. -/
def predictRow (row : List F) : Except String UInt32 :=
  if row = [] then .error "target logits contain an empty row"
  else if bestIndex greater row > 2 ^ 32 - 1 then .error "vocabulary index exceeds u32"
  else .ok (UInt32.ofNat (bestIndex greater row))

end Logits

/-- `verify_greedy_logits` -/
def verifyGreedyLogits {F : Type} (greater : F → F → Bool) (targetLogits : List (List F))
    (drafts : List UInt32) (options : VerificationOptions) : VerificationResult :=
  match targetLogits.mapM (predictRow greater) with
  | .error message => .invalid drafts.length targetLogits.length message
  | .ok predictions => verifyGreedyWithOptions predictions drafts options

/-! ## Blocks of a next-token function -/

theorem length_lt_usizeMax (drafts : Vec 4 UInt32) : drafts.toList.length < usizeMax := by
  have hfit := drafts.fits
  have hrm : isizeMax < usizeMax := by norm_num [isizeMax, usizeMax]
  omega

/-- What a next-token function predicts for the rows of a block: first for the anchor, which is
the last token of `start`, and then for each draft. -/
def predictionsFrom (f : List UInt32 → UInt32) (start : List UInt32) : List UInt32 → List UInt32
  | [] => [f start]
  | draft :: drafts => f start :: predictionsFrom f (start ++ [draft]) drafts

variable {f : List UInt32 → UInt32} {start : List UInt32}

theorem length_predictionsFrom (drafts : List UInt32) :
    (predictionsFrom f start drafts).length = drafts.length + 1 := by
  induction drafts generalizing start with
  | nil => rfl
  | cons draft drafts ih => exact congrArg Nat.succ ih

/-- As long as the drafts are right, they are what is predicted. -/
theorem predictionsFrom_append {accepted : List UInt32} (h : Greedy f start accepted)
    (rest : List UInt32) : predictionsFrom f start (accepted ++ rest)
      = accepted ++ predictionsFrom f (start ++ accepted) rest := by
  induction accepted generalizing start with
  | nil => rw [nil_append, List.append_nil, nil_append]
  | cons draft accepted ih =>
    obtain ⟨rfl, hres⟩ := h
    show f start :: predictionsFrom f (start ++ [f start]) (accepted ++ rest)
      = f start :: (accepted ++ predictionsFrom f (start ++ f start :: accepted) rest)
    rw [ih hres, append_assoc]
    rfl

theorem predictionsFrom_head (f : List UInt32 → UInt32) (start drafts : List UInt32) :
    ∃ predictions, predictionsFrom f start drafts = f start :: predictions := by
  cases drafts with
  | nil => exact ⟨[], rfl⟩
  | cons => exact ⟨_, rfl⟩

/-- **The drafts are right up to a first one that is not**, if there is one. -/
theorem exists_accepted (f : List UInt32 → UInt32) (start drafts : List UInt32) :
    ∃ accepted rest, drafts = accepted ++ rest ∧ Greedy f start accepted ∧
      ∀ draft more, rest = draft :: more → f (start ++ accepted) ≠ draft := by
  induction drafts generalizing start with
  | nil => exact ⟨[], [], rfl, trivial, fun _ _ h => (by cases h)⟩
  | cons draft drafts ih =>
    by_cases heq : f start = draft
    · obtain ⟨accepted, rest, rfl, hgr, hres⟩ := ih (start ++ [draft])
      refine ⟨draft :: accepted, rest, rfl, ⟨heq.symm, hgr⟩, fun d more h => ?_⟩
      have hnex := hres d more h
      rwa [append_assoc] at hnex
    · refine ⟨[], draft :: drafts, rfl, trivial, ?_⟩
      rintro d more ⟨rfl, rfl⟩
      rwa [List.append_nil]

/-- **The loop accepts what is predicted**, as long as it is no end and there is room for it. -/
theorem compareRows_append {options : VerificationOptions} {cap : ℕ}
    (accepted drafts predictions : List UInt32) {c : Comparison}
    (hnon : ∀ d ∈ accepted, d ∉ options.eosTokenIds)
    (hrm : c.emitted.length + accepted.length < cap) :
    compareRows options cap (accepted ++ drafts) (accepted ++ predictions) c
      = compareRows options cap drafts predictions { c with
          accepted := c.accepted + accepted.length
          emitted := c.emitted ++ accepted } := by
  induction accepted generalizing c with
  | nil => rw [nil_append, List.append_nil, nil_append, length_nil, Nat.add_zero]
  | cons draft accepted ih =>
    obtain ⟨hdr, hnon⟩ := forall_mem_cons.mp hnon
    rw [length_cons, Nat.add_comm accepted.length, ← Nat.add_assoc] at hrm
    have hbel : c.emitted.length + 1 < cap := (Nat.le_add_right _ _).trans_lt hrm
    have hlen : (c.emitted ++ [draft]).length = c.emitted.length + 1 := length_append
    rw [cons_append, cons_append, compareRows, if_neg (not_not.mpr rfl)]
    rw [if_neg (not_le.mpr ((Nat.lt_succ_self _).trans hbel)),
      if_neg (mt contains_iff_mem.mp hdr), if_neg (hlen.trans_lt hbel).ne,
      ih hnon (hlen.symm ▸ hrm), append_assoc, singleton_append, length_cons,
      Nat.add_right_comm, ← Nat.add_assoc]

/-- **What the verification of a block finds**, if its predictions are those of a next-token
function: the drafts that are right are accepted, and the token after them is the next anchor. It
is emitted if it takes the place of a draft, and only then. -/
theorem verifyGreedy_predictionsFrom {accepted rest : List UInt32} (hgr : Greedy f start accepted)
    (hres : ∀ draft more, rest = draft :: more → f (start ++ accepted) ≠ draft)
    (hrm : (accepted ++ rest).length < usizeMax) :
    verifyGreedy (predictionsFrom f start (accepted ++ rest)) (accepted ++ rest) =
      { acceptedDrafts := accepted.length
        retainedRows := accepted.length + 1
        nextAnchor := some (f (start ++ accepted))
        emitted := accepted ++ if rest = [] then [] else [f (start ++ accepted)]
        rejectedDrafts := rest
        targetPredictions := predictionsFrom f start (accepted ++ rest)
        cancelled := false
        allMatch := decide (rest = [])
        stoppedOnEos := false
        outputCapReached := false
        alignment := ⟨(accepted ++ rest).length, (accepted ++ rest).length + 1, 0, true⟩
        error := none } := by
  have hlen : (predictionsFrom f start (accepted ++ rest)).length = (accepted ++ rest).length + 1 :=
    length_predictionsFrom _
  have hunl : VerificationOptions.default.outputCap.getD usizeMax = usizeMax := rfl
  have hcap : usizeMax ≠ 0 := by norm_num [usizeMax]
  have hacc : accepted.length < usizeMax := by
    rw [length_append] at hrm
    exact (Nat.le_add_right _ _).trans_lt hrm
  have hlp : compareRows .default usizeMax (accepted ++ rest)
      (predictionsFrom f start (accepted ++ rest)) ⟨0, [], [], none, true, false, false⟩
        = ⟨accepted.length, accepted ++ if rest = [] then [] else [f (start ++ accepted)],
          rest, if rest = [] then none else some (f (start ++ accepted)), decide (rest = []),
          false, false⟩ := by
    rw [predictionsFrom_append hgr, compareRows_append accepted _ _
      (fun _ _ => not_mem_nil) (by rwa [length_nil, Nat.zero_add]), Nat.zero_add, nil_append]
    cases rest with
    | nil =>
      rw [compareRows, if_pos rfl, if_pos rfl, List.append_nil]
      · rfl
      · rintro _ _ _ _ ⟨⟩
    | cons draft more =>
      obtain ⟨predictions, hpr⟩ :=
        predictionsFrom_head f (start ++ accepted) (draft :: more)
      rw [hpr, compareRows, if_pos (hres draft more rfl)]
      rw [if_pos hacc]
      rfl
  unfold verifyGreedy verifyGreedyWithOptions
  rw [if_neg nofun, hlen, if_neg (not_lt.mpr (Nat.le_succ _))]
  rw [hunl, if_neg hcap, hlp]
  unfold resultOf
  cases rest with
  | nil =>
    have hnex : (predictionsFrom f start (accepted ++ []))[(accepted ++ []).length]?
        = some (f (start ++ accepted)) := by
      rw [predictionsFrom_append hgr, List.append_nil]
      exact List.getElem?_concat_length
    rw [hnex, hlen, List.append_nil]
    rfl
  | cons =>
    rw [hlen, Nat.add_comm 1]
    rfl

end Llama

end Logan
