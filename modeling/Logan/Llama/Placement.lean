import Mathlib
import Logan.Util.Fields

/-!
# Where a draft is computed

Drafts and feed-forward layers can be computed on two devices. Which one is better is
measured, in rounds that are done on both, separately for each kind of work; and so that
noise does not move the work to and fro, it is moved only after several rounds in a row
that speak for it. Work that has been moved back too often stays where it is.

Times are exact here, or not finite. What is proved is about all histories: about any
rounds of any kinds of work, in the order in which they are recorded.
-/

namespace Logan

open List

namespace Placement

/-- `PlacementMode` -/
inductive PlacementMode where
  | off
  | auto
  | draft
  | ffn
  | probe
deriving DecidableEq

/-- `PlacementRole` -/
inductive PlacementRole where
  | draft
  | targetFfn
deriving DecidableEq

/-- `PlacementBackend` -/
inductive PlacementBackend where
  | metal
  | ane
deriving DecidableEq

/-! ## Rounds -/

/-- The measurements of one round, in milliseconds, of which some may not be finite. -/
structure RoundEvidence where
  wallMs : Option ℚ
  draftMs : Option ℚ
  verificationMs : Option ℚ
  handoffMs : Option ℚ
  fallbackMs : Option ℚ
  metalWallMs : Option ℚ
  aneWallMs : Option ℚ
  completeRound : Bool
deriving DecidableEq

/-- `RoundEvidence::valid` -/
def RoundEvidence.valid (e : RoundEvidence) : Bool :=
  e.completeRound && [e.wallMs, e.metalWallMs, e.aneWallMs].all (·.any (0 < ·)) &&
    [e.draftMs, e.verificationMs, e.handoffMs, e.fallbackMs].all (·.any (0 ≤ ·))

/-- `RoundEvidence::gain` -/
def RoundEvidence.gain (e : RoundEvidence) : ℚ :=
  if e.valid then (e.metalWallMs.getD 0 - e.aneWallMs.getD 0) / e.metalWallMs.getD 0 else 0

/-- `CalibrationConfig` -/
structure CalibrationConfig where
  promoteAfterRounds : UInt32
  demoteAfterRounds : UInt32
  promoteGain : ℚ
  demoteLoss : ℚ
  maxReprobes : UInt32

/-- `CalibrationStatus`, of one key. -/
structure CalibrationStatus where
  validRounds : ℕ
  gainRounds : ℕ
  lossRounds : ℕ
  reprobes : ℕ
  promoted : Bool
  lastGain : ℚ
  lastRound : Option RoundEvidence
deriving DecidableEq

/-- `CalibrationStatus::default` -/
def CalibrationStatus.default : CalibrationStatus := ⟨0, 0, 0, 0, false, 0, none⟩

/-- `saturating_add(1)` of a counter of 32 bits. -/
def bump (n : ℕ) : ℕ := min (n + 1) u32Max

/-- What a round does to the status of its key. -/
def CalibrationStatus.record (config : CalibrationConfig) (state : CalibrationStatus)
    (evidence : RoundEvidence) : CalibrationStatus :=
  if evidence.valid = false then state
  else
    let state := { state with
      validRounds := bump state.validRounds
      lastGain := evidence.gain
      lastRound := some evidence }
    if config.promoteGain ≤ state.lastGain then
      let state := { state with gainRounds := bump state.gainRounds, lossRounds := 0 }
      if state.promoted = false ∧ config.promoteAfterRounds.toNat ≤ state.gainRounds ∧
          state.reprobes < config.maxReprobes.toNat then
        { state with promoted := true }
      else state
    else if state.lastGain ≤ -config.demoteLoss then
      let state := { state with lossRounds := bump state.lossRounds, gainRounds := 0 }
      if state.promoted = true ∧ config.demoteAfterRounds.toNat ≤ state.lossRounds then
        { state with promoted := false, reprobes := bump state.reprobes }
      else state
    else { state with gainRounds := 0, lossRounds := 0 }

/-- `PlacementController` -/
structure PlacementController (K : Type) where
  config : CalibrationConfig
  states : K → Option CalibrationStatus

variable {K : Type} [DecidableEq K]

namespace PlacementController

/-- `PlacementController::new` -/
def new (config : CalibrationConfig) : PlacementController K := ⟨config, fun _ => none⟩

/-- `status` -/
def status (c : PlacementController K) (key : K) : CalibrationStatus :=
  (c.states key).getD .default

/-- `record_round` -/
def recordRound (c : PlacementController K) (key : K) (evidence : RoundEvidence) :
    CalibrationStatus × PlacementController K :=
  let state := (c.status key).record c.config evidence
  (state, { c with states := Function.update c.states key (some state) })

end PlacementController

/-! ## Decisions -/

/-- `PlacementRequest` -/
structure PlacementRequest (K : Type) where
  key : K
  mode : PlacementMode
  role : PlacementRole
  aneAvailable : Bool
  shapeSupported : Bool
  abiSupported : Bool

/-- `PlacementDecision` -/
structure PlacementDecision where
  requestedMode : PlacementMode
  role : PlacementRole
  backend : PlacementBackend
  aneActive : Bool
  fallbackReason : Option String
deriving DecidableEq

/-- A decision for Metal, with the reason for it. -/
def fallback (request : PlacementRequest K) (reason : Option String) : PlacementDecision :=
  ⟨request.mode, request.role, .metal, false, reason⟩

/-- What is asked for if a mode does not want the ANE. -/
def unwantedReason : PlacementMode → Option String
  | .off => some "ANE disabled by placement policy"
  | .auto => some "calibration has not proved a sustained ANE gain"
  | .draft => some "draft mode does not place target FFN on ANE"
  | .ffn => some "ffn mode does not place draft computation on ANE"
  | .probe => none

namespace PlacementController

/-- `wants_ane` -/
def wantsAne (c : PlacementController K) (request : PlacementRequest K) : Bool :=
  match request.mode with
  | .off => false
  | .probe => true
  | .draft => request.role = .draft
  | .ffn => request.role = .targetFfn
  | .auto => (c.status request.key).promoted

/-- `decide`. A probe always wants the ANE, and so the reason that it has none for not wanting
it is never asked for. -/
def decide (c : PlacementController K) (request : PlacementRequest K) : PlacementDecision :=
  if c.wantsAne request = false then fallback request (unwantedReason request.mode)
  else if request.role = .draft ∧ request.mode = .ffn then
    fallback request (some "target FFN mode cannot select draft ANE")
  else if request.role = .targetFfn ∧ request.mode = .draft then
    fallback request (some "draft mode cannot select target FFN ANE")
  else if request.aneAvailable = false then
    fallback request (some "ANE unavailable; Metal fallback")
  else if request.shapeSupported = false then
    fallback request (some "ANE shape unsupported; Metal fallback")
  else if request.abiSupported = false then
    fallback request (some "ANE private ABI unsupported; Metal fallback")
  else ⟨request.mode, request.role, .ane, true, none⟩

end PlacementController

/-! ## Histories -/

/-- The controller after some rounds, of any keys, of which the last is the first of the
list. -/
def after (config : CalibrationConfig) : List (K × RoundEvidence) → PlacementController K
  | [] => .new config
  | r :: rounds => ((after config rounds).recordRound r.1 r.2).2

/-- The status of a key after some rounds. -/
def statusAfter (config : CalibrationConfig) (key : K) (rounds : List (K × RoundEvidence)) :
    CalibrationStatus :=
  (after config rounds).status key

/-- A round that speaks for the ANE. -/
def wins (config : CalibrationConfig) (e : RoundEvidence) : Bool := config.promoteGain ≤ e.gain

/-- A round that speaks against the ANE. -/
def loses (config : CalibrationConfig) (e : RoundEvidence) : Bool :=
  !wins config e && e.gain ≤ -config.demoteLoss

/-- How many of the last valid rounds of a key, without a gap, are of a kind. -/
def streak (p : RoundEvidence → Bool) (key : K) (rounds : List (K × RoundEvidence)) : ℕ :=
  ((rounds.filter fun r => r.1 = key ∧ r.2.valid).takeWhile fun r => p r.2).length

/-- How often a key has been promoted. -/
def promotions (config : CalibrationConfig) (key : K) : List (K × RoundEvidence) → ℕ
  | [] => 0
  | r :: rounds => promotions config key rounds +
      if !(statusAfter config key rounds).promoted &&
        (statusAfter config key (r :: rounds)).promoted then 1 else 0

/-! ## One round -/

section Record

variable {config : CalibrationConfig} {s : CalibrationStatus} {e : RoundEvidence}

theorem record_of_invalid (hv : e.valid = false) : s.record config e = s := if_pos hv

theorem gainRounds_record (hv : e.valid = true) :
    (s.record config e).gainRounds = if wins config e then bump s.gainRounds else 0 := by
  unfold CalibrationStatus.record wins
  dsimp only
  split_ifs <;> simp_all [-not_le]

theorem lossRounds_record (hv : e.valid = true) :
    (s.record config e).lossRounds = if loses config e then bump s.lossRounds else 0 := by
  unfold CalibrationStatus.record loses wins
  dsimp only
  split_ifs <;> simp_all [-not_le]

/-- A key is promoted by a long enough streak of gains if it has reprobes left, and demoted by
a long enough streak of losses. -/
theorem promoted_record (hv : e.valid = true) : (s.record config e).promoted =
      if s.promoted then
        !(loses config e && config.demoteAfterRounds.toNat ≤ bump s.lossRounds)
      else wins config e && config.promoteAfterRounds.toNat ≤ bump s.gainRounds &&
        s.reprobes < config.maxReprobes.toNat := by
  unfold CalibrationStatus.record loses wins
  dsimp only
  split_ifs <;> simp_all [-not_le]

theorem reprobes_record : (s.record config e).reprobes =
      if s.promoted && !(s.record config e).promoted then bump s.reprobes else s.reprobes := by
  unfold CalibrationStatus.record
  dsimp only
  split_ifs <;> simp_all [-not_le]

end Record

variable {config : CalibrationConfig} {key : K} {rounds : List (K × RoundEvidence)}

theorem config_after (config : CalibrationConfig) (rounds : List (K × RoundEvidence)) :
    (after config rounds).config = config := by
  induction rounds with
  | nil => rfl
  | cons _ _ ih => exact ih

theorem statusAfter_cons (r : K × RoundEvidence) : statusAfter config key (r :: rounds) =
      if r.1 = key then (statusAfter config key rounds).record config r.2
      else statusAfter config key rounds := by
  unfold statusAfter
  rw [after, PlacementController.recordRound, config_after]
  unfold PlacementController.status
  dsimp only
  by_cases h : r.1 = key
  · subst h
    rw [if_pos rfl, Function.update_self]
    rfl
  · rw [if_neg h, Function.update_of_ne (Ne.symm h)]

/-- **A round that is not valid, or of another key, changes no status.** -/
theorem statusAfter_cons_of_not {r : K × RoundEvidence} (h : ¬(r.1 = key ∧ r.2.valid = true)) :
    statusAfter config key (r :: rounds) = statusAfter config key rounds := by
  rw [statusAfter_cons]
  split_ifs with hkey
  · exact record_of_invalid (Bool.eq_false_of_not_eq_true fun hv => h ⟨hkey, hv⟩)
  · rfl

theorem streak_cons (p : RoundEvidence → Bool) {e : RoundEvidence} (hv : e.valid = true) :
    streak p key ((key, e) :: rounds) = if p e then streak p key rounds + 1 else 0 := by
  unfold streak
  rw [filter_cons_of_pos (by simpa using hv), takeWhile_cons]
  split_ifs <;> rfl

/-! ## The bookkeeping of a key -/

/-- **What the counters of a key say about its history.** -/
structure Tracked (config : CalibrationConfig) (key : K) (rounds : List (K × RoundEvidence))
    (s : CalibrationStatus) : Prop where
  gains : s.gainRounds ≤ streak (wins config) key rounds
  losses : s.lossRounds ≤ streak (loses config) key rounds
  reprobes : s.reprobes ≤ config.maxReprobes.toNat
  probing : s.promoted = true → s.reprobes < config.maxReprobes.toNat
  counted : promotions config key rounds = s.reprobes + s.promoted.toNat

theorem bump_le {m n : ℕ} (h : m ≤ n) : bump m ≤ n + 1 :=
  (Nat.min_le_left _ _).trans (Nat.succ_le_succ h)

theorem bump_eq {n : ℕ} {limit : UInt32} (h : n < limit.toNat) : bump n = n + 1 :=
  Nat.min_eq_left (h.trans_le (Nat.le_of_lt_succ limit.toNat_lt))

/-- A valid round of a key keeps its bookkeeping. -/
theorem Tracked.next {s : CalibrationStatus} (ht : Tracked config key rounds s)
    (hs : statusAfter config key rounds = s) {e : RoundEvidence} (hv : e.valid = true) :
    Tracked config key ((key, e) :: rounds) (s.record config e) := by
  refine ⟨?_, ?_, ?_, fun hp => ?_, ?_⟩
  · rw [gainRounds_record hv, streak_cons _ hv]
    split_ifs
    · exact bump_le ht.gains
    · exact le_rfl
  · rw [lossRounds_record hv, streak_cons _ hv]
    split_ifs
    · exact bump_le ht.losses
    · exact le_rfl
  · rw [reprobes_record]
    split_ifs with hdem
    · exact (bump_le le_rfl).trans (ht.probing (Bool.and_eq_true_iff.mp hdem).1)
    · exact ht.reprobes
  · rw [reprobes_record, hp, Bool.not_true, Bool.and_false, if_neg Bool.false_ne_true]
    rw [promoted_record hv] at hp
    split_ifs at hp with hpr
    · exact ht.probing hpr
    · exact of_decide_eq_true (Bool.and_eq_true_iff.mp hp).2
  · rw [promotions, ht.counted, statusAfter_cons, if_pos rfl, hs, reprobes_record]
    cases hp : s.promoted with
    | false => cases (s.record config e).promoted <;> rfl
    | true =>
      have hbum := bump_eq (ht.probing hp)
      cases (s.record config e).promoted with
      | false => exact hbum.symm
      | true => rfl

/-- **The bookkeeping of every key is kept.** -/
theorem tracked (config : CalibrationConfig) (key : K) (rounds : List (K × RoundEvidence)) :
    Tracked config key rounds (statusAfter config key rounds) := by
  induction rounds with
  | nil => exact ⟨Nat.zero_le _, Nat.zero_le _, Nat.zero_le _, by rintro ⟨⟩, rfl⟩
  | cons r rounds ih =>
    by_cases h : r.1 = key ∧ r.2.valid = true
    · obtain ⟨rfl, hv⟩ := h
      rw [statusAfter_cons, if_pos rfl]
      exact ih.next rfl hv
    · have hstr (p : RoundEvidence → Bool) : streak p key (r :: rounds) = streak p key rounds := by
        unfold streak
        rw [filter_cons_of_neg (by simpa using h)]
      have hst : statusAfter config key (r :: rounds) = statusAfter config key rounds :=
        statusAfter_cons_of_not h
      rw [hst]
      refine ⟨hstr _ ▸ ih.gains, hstr _ ▸ ih.losses, ih.reprobes, ih.probing, ?_⟩
      rw [promotions, hst, Bool.not_and_self]
      exact ih.counted

/-! ## Hysteresis -/

/-- **The hysteresis of a key**, after some rounds, and in one more round. -/
structure Hysteresis (config : CalibrationConfig) (key : K) (rounds : List (K × RoundEvidence))
    (r : K × RoundEvidence) : Prop where
  /-- The key is promoted in a valid round of its own that ends a long streak of gains. -/
  promoted : (statusAfter config key rounds).promoted = false →
    (statusAfter config key (r :: rounds)).promoted = true →
    (r.1 = key ∧ r.2.valid = true) ∧ wins config r.2 = true ∧
      config.promoteAfterRounds.toNat ≤ streak (wins config) key (r :: rounds)
  /-- It is demoted in a valid round of its own that ends a long streak of losses. -/
  demoted : (statusAfter config key rounds).promoted = true →
    (statusAfter config key (r :: rounds)).promoted = false →
    (r.1 = key ∧ r.2.valid = true) ∧ loses config r.2 = true ∧
      config.demoteAfterRounds.toNat ≤ streak (loses config) key (r :: rounds)
  /-- It is promoted no more often than it may be probed. -/
  promotions : promotions config key rounds ≤ config.maxReprobes.toNat
  /-- Without reprobes it is not promoted, whatever comes. -/
  usedUp : config.maxReprobes.toNat ≤ (statusAfter config key rounds).reprobes →
    ∀ more, (statusAfter config key (more ++ rounds)).promoted = false
  /-- A round that is not valid changes no status, and a round of another key not this one. -/
  unchanged : ¬(r.1 = key ∧ r.2.valid = true) →
    statusAfter config key (r :: rounds) = statusAfter config key rounds
  /-- The automatic mode uses the ANE for a promoted key only. -/
  auto : ∀ request : PlacementRequest K, request.key = key → request.mode = .auto →
    ((after config rounds).decide request).backend = .ane →
    (statusAfter config key rounds).promoted = true

/-- **The placement has hysteresis**, with any rounds of any keys. -/
theorem hysteresis (config : CalibrationConfig) (key : K) (rounds : List (K × RoundEvidence))
    (r : K × RoundEvidence) : Hysteresis config key rounds r where
  promoted hbefore hafter := by
    by_cases h : r.1 = key ∧ r.2.valid = true
    · have hgns := (tracked config key (r :: rounds)).gains
      rw [statusAfter_cons, if_pos h.1] at hafter hgns
      rw [promoted_record h.2, hbefore, if_neg Bool.false_ne_true, Bool.and_eq_true,
        Bool.and_eq_true] at hafter
      rw [gainRounds_record h.2, if_pos hafter.1.1] at hgns
      exact ⟨h, hafter.1.1, (of_decide_eq_true hafter.1.2).trans hgns⟩
    · rw [statusAfter_cons_of_not h, hbefore] at hafter
      cases hafter
  demoted hbefore hafter := by
    by_cases h : r.1 = key ∧ r.2.valid = true
    · have hlos := (tracked config key (r :: rounds)).losses
      rw [statusAfter_cons, if_pos h.1] at hafter hlos
      rw [promoted_record h.2, hbefore, if_pos rfl, Bool.not_eq_false', Bool.and_eq_true] at hafter
      rw [lossRounds_record h.2, if_pos hafter.1] at hlos
      exact ⟨h, hafter.1, (of_decide_eq_true hafter.2).trans hlos⟩
    · rw [statusAfter_cons_of_not h, hbefore] at hafter
      cases hafter
  promotions := by
    have ht := tracked config key rounds
    rw [ht.counted]
    cases hp : (statusAfter config key rounds).promoted with
    | false => exact ht.reprobes
    | true => exact ht.probing hp
  usedUp h more := by
    -- reprobes are never given back, and only a key that has some left is promoted
    have hus : config.maxReprobes.toNat ≤ (statusAfter config key (more ++ rounds)).reprobes := by
      induction more with
      | nil => exact h
      | cons r more ih =>
        rw [cons_append, statusAfter_cons]
        split_ifs
        · rw [reprobes_record]
          split_ifs with hdem
          · exact absurd ((tracked config key _).probing (Bool.and_eq_true_iff.mp hdem).1)
              (Nat.not_lt.mpr ih)
          · exact ih
        · exact ih
    by_contra hp
    exact absurd ((tracked config key _).probing (Bool.eq_true_of_not_eq_false hp))
      (Nat.not_lt.mpr hus)
  unchanged := statusAfter_cons_of_not
  auto request hkey hmod hbac := by
    by_contra hp
    have hunw : (after config rounds).wantsAne request = false := by
      unfold PlacementController.wantsAne
      rw [hmod]
      exact Bool.eq_false_of_not_eq_true (hkey ▸ hp)
    unfold PlacementController.decide at hbac
    rw [if_pos hunw] at hbac
    cases hbac

end Placement

end Logan
