import Logan.Util.Machine
import Logan.Util.Pieces

/-!
# Predicting the arrival of experts

For each layer, the predictor counts which expert came after which, from one
token to the next – the *temporal* evidence – and from one layer to the next – the
*spatial* one. The scores of a prediction are sums of conditional frequencies,
`count / observations`, and both tables are halved at each 4096th observation.

The scores are computed in buffers that a layer keeps. Each of its readers fills
them before it reads them, so that they are of no consequence: what a layer with
**wiped** buffers answers is what the layer does. A peek, which touches only them,
cannot be seen.

Scores are floats, of any kind. A table is a function of the two experts instead
of rows in one vector.
-/

namespace Logan

open List

namespace RoutePredictor

/-- **The arithmetic of scores.** -/
structure Scores (F : Type) where
  zero : F
  one : F
  ofCount : ℕ → F
  add : F → F → F
  mul : F → F → F
  div : F → F → F
  max : F → F → F
  le : F → F → Bool
  gt : F → F → Bool
  eq : F → F → Bool

/-- What is known of an expert: how often it was seen, and how often each came after it. -/
structure Row where
  fromObservations : ℕ
  transitions : ℕ → ℕ

/-- **A table**: the rows of the experts. -/
abbrev Evidence : Type := ℕ → Row

/-- **A layer**, with its buffers. -/
structure LayerPredictor (F : Type) where
  temporal : Evidence
  spatial : Evidence
  scores : List F
  spatialScores : List F
  temporalScores : List F
  temporalWeight : F
  pendingPrediction : List ℕ
  pendingPrevious : List ℕ
  observationsSinceDecay : ℕ
  predictedCommon : ℕ
  predictedTotal : ℕ
  actualArrivals : ℕ
  predictionPairs : ℕ

variable {F : Type} (fl : Scores F)

/-- `saturating_add`, of counts of sixteen and of sixty-four bits. -/
def add16 (a b : ℕ) : ℕ := min (a + b) (2 ^ 16 - 1)

def add64 (a b : ℕ) : ℕ := min (a + b) (2 ^ 64 - 1)

/-! ## Scores -/

/-- `fill(0.0)` -/
def fill (b : List F) : List F := replicate b.length fl.zero

/-- `accumulate_transition_scores` -/
def accumulateTransitionScores (scores : List F) (ev : Evidence) (sources : List ℕ) :
    List F × ℕ :=
  sources.foldl (fun s source =>
    let observations := (ev source).fromObservations
    if observations = 0 then s else
      let inv := fl.div fl.one (fl.ofCount observations)
      (s.1.mapIdx fun target score =>
        fl.add score (fl.mul (fl.ofCount ((ev source).transitions target)) inv), s.2 + 1))
    (scores, 0)

/-- `accumulate_normalized`: the sum, the buffer, and how many sources are known. -/
def accumulateNormalized (out scores : List F) (ev : Evidence) (sources : List ℕ) (weight : F) :
    List F × List F × ℕ :=
  let (scores, learned) := accumulateTransitionScores fl (fill fl scores) ev sources
  let peak := scores.foldl fl.max fl.zero
  if learned = 0 ∨ fl.eq weight fl.zero ∨ fl.le peak fl.zero then (out, scores, learned)
  else
    let scale := fl.div weight peak
    (out.mapIdx fun i dst => scores[i]?.elim dst fun value => fl.add dst (fl.mul value scale),
      scores, learned)

/-- **One selection**: the best of the candidates, and the first of the best. -/
def bestOf (experts : ℕ) (skips : ℕ → Bool) (scores : List F) : Option (ℕ × F) :=
  (range experts).foldl (fun best candidate =>
    let score := scores.getD candidate fl.zero
    if skips candidate ∨ fl.le score fl.zero then best else
      match best with
      | none => some (candidate, score)
      | some (current, top) =>
        if fl.gt score top ∨ (fl.eq score top ∧ candidate < current) then some (candidate, score)
        else best) none

/-- The selections, up to as many as are wanted. -/
def ranking (experts : ℕ) (skips : ℕ → Bool) (scores : List F) : ℕ → List ℕ → List (ℕ × F)
  | 0, _ => []
  | want + 1, selected =>
    match bestOf fl experts (fun c => selected.contains c || skips c) scores with
    | none => []
    | some best => best :: ranking experts skips scores want (best.1 :: selected)

namespace LayerPredictor

/-- `LayerPredictor::new` -/
def new (experts : ℕ) (temporalWeight : F) : LayerPredictor F where
  temporal := fun _ => ⟨0, fun _ => 0⟩
  spatial := fun _ => ⟨0, fun _ => 0⟩
  scores := replicate experts fl.zero
  spatialScores := replicate experts fl.zero
  temporalScores := replicate experts fl.zero
  temporalWeight := temporalWeight
  pendingPrediction := []
  pendingPrevious := []
  observationsSinceDecay := 0
  predictedCommon := 0
  predictedTotal := 0
  actualArrivals := 0
  predictionPairs := 0

/-- The part that ranking and routing share: the scores are made, of both tables. -/
def fuse (s : LayerPredictor F) (previous spatialPrevious : List ℕ) : ℕ × LayerPredictor F :=
  let (scores, temporalScores, learned) := accumulateNormalized fl (fill fl s.scores)
    s.temporalScores s.temporal previous s.temporalWeight
  let (scores, spatialScores, more) := accumulateNormalized fl scores
    s.spatialScores s.spatial spatialPrevious fl.one
  (learned + more, { s with scores, temporalScores, spatialScores })

/-- `rank_arrivals` -/
def rankArrivals (s : LayerPredictor F) (experts : ℕ) (previous spatialPrevious : List ℕ)
    (maxBudget : ℕ) (record : Bool) : List (ℕ × F) × LayerPredictor F :=
  let s := if record then { s with pendingPrediction := [], pendingPrevious := [] } else s
  let validPrevious := previous.filter (· < experts)
  let validSpatial := spatialPrevious.filter (· < experts)
  if experts = 0 ∨ maxBudget = 0 ∨ validPrevious = [] ∧ validSpatial = [] then ([], s)
  else
    let s := if record then { s with pendingPrevious := validPrevious } else s
    let (learned, s) := s.fuse fl validPrevious validSpatial
    if learned = 0 then ([], s) else
      let want := min maxBudget (experts - validPrevious.length)
      let ranked := ranking fl experts validPrevious.contains s.scores want []
      (ranked, if record then { s with pendingPrediction := ranked.map Prod.fst } else s)

/-- Some scores are raised. -/
def raise (scores : List F) (experts : List ℕ) (bias : F) : List F :=
  experts.foldl (fun scores e => scores.modify e fun score => fl.add score bias) scores

/-- `authoritative_route` -/
def authoritativeRoute (s : LayerPredictor F) (experts : ℕ) (previous spatialPrevious : List ℕ)
    (k : ℕ) (stabilityBias : F) (resident : List ℕ) (residentBias : F) :
    List (ℕ × F) × LayerPredictor F :=
  let validPrevious := previous.filter (· < experts)
  let validSpatial := spatialPrevious.filter (· < experts)
  if experts = 0 ∨ k = 0 ∨ validPrevious = [] ∧ validSpatial = [] then ([], s)
  else
    let (learned, s) := s.fuse fl validPrevious validSpatial
    if learned = 0 then ([], s) else
      let peak := s.scores.foldl fl.max fl.zero
      let stable := if fl.gt peak fl.zero ∧ fl.gt stabilityBias fl.zero then
        raise fl s.scores validPrevious (fl.mul peak stabilityBias) else s.scores
      let scores := if fl.gt peak fl.zero ∧ fl.gt residentBias fl.zero then
        raise fl stable (resident.filter (· < experts)) (fl.mul peak residentBias) else stable
      (ranking fl experts (fun _ => false) scores k [], { s with scores })

/-- The prediction that is pending is compared with what came. -/
def settle (s : LayerPredictor F) (current : List ℕ) : LayerPredictor F :=
  if s.pendingPrevious = [] then s else
    let actual := current.filter fun expert => !s.pendingPrevious.contains expert
    let common := s.pendingPrediction.countP actual.contains
    { s with
      predictedCommon := add64 s.predictedCommon common
      predictedTotal := add64 s.predictedTotal s.pendingPrediction.length
      actualArrivals := add64 s.actualArrivals actual.length
      predictionPairs := add64 s.predictionPairs 1
      pendingPrediction := []
      pendingPrevious := [] }

end LayerPredictor

/-- What a row learns of the experts of a token. -/
def Row.learn (row : Row) (current : List ℕ) : Row where
  fromObservations := add16 row.fromObservations 1
  transitions := current.foldl (fun transitions target =>
    Function.update transitions target (add16 (transitions target) 1)) row.transitions

/-- What a table learns, of some sources. -/
def Evidence.learn (ev : Evidence) (sources current : List ℕ) : Evidence :=
  sources.foldl (fun ev source => Function.update ev source ((ev source).learn current)) ev

/-- All counts are halved. -/
def Evidence.decay (ev : Evidence) : Evidence := fun source =>
  ⟨(ev source).fromObservations / 2, fun target => (ev source).transitions target / 2⟩

namespace LayerPredictor

/-- The part of `observe` in which the tables learn. -/
def learn (s : LayerPredictor F) (previous spatialPrevious current : List ℕ) :
    LayerPredictor F :=
  { s with
    temporal := Evidence.learn s.temporal previous current
    spatial := Evidence.learn s.spatial spatialPrevious current
    observationsSinceDecay := s.observationsSinceDecay + 1 }

/-- The part of `observe` in which they decay, at times. -/
def decay (s : LayerPredictor F) : LayerPredictor F :=
  if s.observationsSinceDecay < 4096 then s else
    { s with
      temporal := Evidence.decay s.temporal
      spatial := Evidence.decay s.spatial
      observationsSinceDecay := 0 }

/-- `observe` -/
def observe (s : LayerPredictor F) (experts : ℕ) (previous spatialPrevious current : List ℕ) :
    LayerPredictor F :=
  let validPrevious := previous.filter (· < experts)
  let validSpatial := spatialPrevious.filter (· < experts)
  let validCurrent := current.filter (· < experts)
  let s := s.settle current
  if validCurrent = [] ∨ validPrevious = [] ∧ validSpatial = [] then s
  else (s.learn validPrevious validSpatial validCurrent).decay

/-- The statistics of a layer. -/
def stats (s : LayerPredictor F) : ℕ × ℕ × ℕ × ℕ :=
  (s.predictedCommon, s.predictedTotal, s.actualArrivals, s.predictionPairs)

end LayerPredictor

/-- **The predictor.** -/
structure Predictor (F : Type) where
  experts : ℕ
  temporalWeight : F
  layers : List (LayerPredictor F)

/-- **A call**, with the statistics that can be read. -/
inductive Call (F : Type) where
  | observe (layer : ℕ) (previous spatialPrevious current : List ℕ)
  | predictArrivals (layer : ℕ) (previous spatialPrevious : List ℕ) (budget : ℕ)
  | predictArrivalsRanked (layer : ℕ) (previous spatialPrevious : List ℕ) (maxBudget : ℕ)
  | peekArrivalsRanked (layer : ℕ) (previous spatialPrevious : List ℕ) (maxBudget : ℕ)
  | authoritativeRoute (layer : ℕ) (previous spatialPrevious : List ℕ) (k : ℕ)
      (stabilityBias : F) (resident : List ℕ) (residentBias : F)
  | pushLayer
  | stats
  | layerStats

/-- Whether a call only peeks. -/
def Call.isPeek : Call F → Bool
  | .peekArrivalsRanked .. => true
  | _ => false

/-- Its answer. -/
inductive Answer (F : Type) where
  | done
  | experts (l : List ℕ)
  | ranked (l : List (ℕ × F))
  | stats (l : List (ℕ × ℕ × ℕ × ℕ))

namespace Predictor

/-- `with_temporal_weight` -/
def withTemporalWeight (layers experts : ℕ) (temporalWeight : F) : Predictor F :=
  ⟨experts, temporalWeight, replicate layers (.new fl experts temporalWeight)⟩

/-- A call on a layer, which answers `empty` where there is none. -/
def onLayer (p : Predictor F) (layer : ℕ) (empty : Answer F)
    (op : LayerPredictor F → Answer F × LayerPredictor F) : Answer F × Predictor F :=
  match p.layers[layer]? with
  | none => (empty, p)
  | some s => ((op s).1, { p with layers := p.layers.set layer (op s).2 })

/-- **Any call.** -/
def call (p : Predictor F) : Call F → Answer F × Predictor F
  | .observe layer previous spatialPrevious current =>
    p.onLayer layer .done fun s => (.done, s.observe p.experts previous spatialPrevious current)
  | .predictArrivals layer previous spatialPrevious budget =>
    p.onLayer layer (.experts []) fun s =>
      let r := s.rankArrivals fl p.experts previous spatialPrevious budget true
      (.experts (r.1.map Prod.fst), r.2)
  | .predictArrivalsRanked layer previous spatialPrevious maxBudget =>
    p.onLayer layer (.ranked []) fun s =>
      let r := s.rankArrivals fl p.experts previous spatialPrevious maxBudget true
      (.ranked r.1, r.2)
  | .peekArrivalsRanked layer previous spatialPrevious maxBudget =>
    p.onLayer layer (.ranked []) fun s =>
      let r := s.rankArrivals fl p.experts previous spatialPrevious maxBudget false
      (.ranked r.1, r.2)
  | .authoritativeRoute layer previous spatialPrevious k stabilityBias resident residentBias =>
    p.onLayer layer (.ranked []) fun s =>
      let r := s.authoritativeRoute fl p.experts previous spatialPrevious k stabilityBias resident
        residentBias
      (.ranked r.1, r.2)
  | .pushLayer =>
    (.done, { p with layers := p.layers ++ [.new fl p.experts p.temporalWeight] })
  | .stats =>
    (.stats [p.layers.foldl (fun acc s => (add64 acc.1 s.predictedCommon,
      add64 acc.2.1 s.predictedTotal, add64 acc.2.2.1 s.actualArrivals,
      add64 acc.2.2.2 s.predictionPairs)) (0, 0, 0, 0)], p)
  | .layerStats => (.stats (p.layers.map LayerPredictor.stats), p)

/-- The predictor, as a machine. -/
def machine : Machine (Predictor F) (Call F) (Answer F) := ⟨call fl⟩

end Predictor

/-! ## Buffers are not seen -/

namespace LayerPredictor

/-- **A layer with wiped buffers.** -/
def wiped (s : LayerPredictor F) : LayerPredictor F :=
  { s with
    scores := fill fl s.scores
    spatialScores := fill fl s.spatialScores
    temporalScores := fill fl s.temporalScores }

theorem fill_fill (b : List F) : fill fl (fill fl b) = fill fl b := by
  rw [fill, fill, length_replicate]

variable (s : LayerPredictor F)

theorem wiped_wiped : (s.wiped fl).wiped fl = s.wiped fl := by
  simp only [wiped, fill_fill]

theorem fuse_wiped (previous spatialPrevious : List ℕ) :
    (s.wiped fl).fuse fl previous spatialPrevious = s.fuse fl previous spatialPrevious := by
  simp only [fuse, wiped, accumulateNormalized, fill_fill]

theorem length_accumulateTransitionScores (scores : List F) (ev : Evidence) (sources : List ℕ) :
    (accumulateTransitionScores fl scores ev sources).1.length = scores.length := by
  refine @foldl_invariant _ _ _ (fun t : List F × ℕ => t.1.length = scores.length) _
    (fun t source _ ht => ?_) _ rfl
  dsimp only
  split_ifs
  · exact ht
  · rwa [length_mapIdx]

theorem length_accumulateNormalized (out scores : List F) (ev : Evidence) (sources : List ℕ)
    (weight : F) : (accumulateNormalized fl out scores ev sources weight).1.length = out.length ∧
      (accumulateNormalized fl out scores ev sources weight).2.1.length = scores.length := by
  have hlen := (length_accumulateTransitionScores fl (fill fl scores) ev sources).trans
    length_replicate
  unfold accumulateNormalized
  dsimp only
  split_ifs
  · exact ⟨rfl, hlen⟩
  · exact ⟨length_mapIdx, hlen⟩

theorem wiped_fuse (previous spatialPrevious : List ℕ) :
    (s.fuse fl previous spatialPrevious).2.wiped fl = s.wiped fl := by
  simp only [fuse, wiped, fill, length_accumulateNormalized, length_replicate]

/-- **An operation that is blind to the buffers.** -/
def Blind {A : Type} (op : LayerPredictor F → A × LayerPredictor F) : Prop :=
  ∀ s, (op (s.wiped fl)).1 = (op s).1 ∧ (op (s.wiped fl)).2.wiped fl = (op s).2.wiped fl

variable {fl}

theorem Blind.map {A B : Type} {op : LayerPredictor F → A × LayerPredictor F} (h : Blind fl op)
    (g : A → B) : Blind fl (fun s => (g (op s).1, (op s).2)) := fun s =>
  ⟨congrArg g (h s).1, (h s).2⟩

/-- **Rankings are blind**, and one that is not recorded changes only the buffers. -/
theorem rankArrivals_blind (experts : ℕ) (previous spatialPrevious : List ℕ) (maxBudget : ℕ)
    (record : Bool) :
    Blind fl (fun s => s.rankArrivals fl experts previous spatialPrevious maxBudget record) := by
  intro s
  have hfus (s : LayerPredictor F) := fuse_wiped fl s (previous.filter (· < experts))
    (spatialPrevious.filter (· < experts))
  cases record with
  | false =>
    have h := hfus s
    simp only [rankArrivals, Bool.false_eq_true, if_false, h]
    split_ifs
    · exact ⟨rfl, wiped_wiped fl s⟩
    all_goals exact ⟨rfl, rfl⟩
  | true =>
    have h : LayerPredictor.fuse fl { s.wiped fl with
        pendingPrediction := [], pendingPrevious := previous.filter (· < experts) } _ _ = _ :=
      hfus { s with pendingPrediction := [], pendingPrevious := previous.filter (· < experts) }
    simp only [rankArrivals, if_true, h]
    split_ifs
    · exact ⟨rfl, wiped_wiped fl { s with pendingPrediction := [], pendingPrevious := [] }⟩
    all_goals exact ⟨rfl, rfl⟩

variable (s : LayerPredictor F)

/-- **A peek changes only the buffers**, and answers what a prediction would. -/
theorem rankArrivals_false (experts : ℕ) (previous spatialPrevious : List ℕ) (maxBudget : ℕ) :
    (s.rankArrivals fl experts previous spatialPrevious maxBudget false).2.wiped fl = s.wiped fl ∧
      (s.rankArrivals fl experts previous spatialPrevious maxBudget false).1
        = (s.rankArrivals fl experts previous spatialPrevious maxBudget true).1 := by
  have h := wiped_fuse fl s (previous.filter (· < experts)) (spatialPrevious.filter (· < experts))
  constructor
  · simp only [rankArrivals, Bool.false_eq_true, if_false]
    split_ifs
    · rfl
    all_goals exact h
  · simp only [rankArrivals, Bool.false_eq_true, if_false, if_true, fuse]
    split_ifs
    all_goals rfl

/-- **Routes are blind.** -/
theorem authoritativeRoute_blind (experts : ℕ) (previous spatialPrevious : List ℕ) (k : ℕ)
    (stabilityBias : F) (resident : List ℕ) (residentBias : F) :
    Blind fl (fun s => s.authoritativeRoute fl experts previous spatialPrevious k stabilityBias
      resident residentBias) := by
  intro s
  have h := fuse_wiped fl s (previous.filter (· < experts)) (spatialPrevious.filter (· < experts))
  simp only [authoritativeRoute, h]
  by_cases hear : experts = 0 ∨ k = 0 ∨ previous.filter (· < experts) = [] ∧
      spatialPrevious.filter (· < experts) = []
  · rw [if_pos hear, if_pos hear]
    exact ⟨rfl, wiped_wiped fl s⟩
  · rw [if_neg hear, if_neg hear]
    exact ⟨rfl, rfl⟩

theorem wiped_settle (current : List ℕ) :
    (s.wiped fl).settle current = (s.settle current).wiped fl := by
  unfold settle
  rw [apply_ite (wiped fl)]
  rfl

theorem wiped_decay : (s.wiped fl).decay = s.decay.wiped fl := by
  unfold decay
  rw [apply_ite (wiped fl)]
  rfl

/-- **An observation does not touch the buffers.** -/
theorem wiped_observe (experts : ℕ) (previous spatialPrevious current : List ℕ) :
    (s.wiped fl).observe experts previous spatialPrevious current
      = (s.observe experts previous spatialPrevious current).wiped fl := by
  rw [observe, observe, wiped_settle]
  refine (ite_congr rfl (fun _ => rfl) fun _ => ?_).trans (apply_ite (wiped fl) _ _ _).symm
  exact wiped_decay ((s.settle current).learn _ _ _)

end LayerPredictor

namespace Predictor

open LayerPredictor

/-- The predictor with wiped buffers. -/
def wiped (p : Predictor F) : Predictor F := { p with layers := p.layers.map (.wiped fl) }

variable {fl}

variable (p : Predictor F)

theorem wiped_wiped : (p.wiped fl).wiped fl = p.wiped fl := by
  simp only [wiped, map_map]
  exact congrArg _ (map_congr_left fun s _ => LayerPredictor.wiped_wiped fl s)

/-- An operation that is blind is so on a layer of a predictor. -/
theorem onLayer_blind {op : LayerPredictor F → Answer F × LayerPredictor F} (hop : Blind fl op)
    (p : Predictor F) (layer : ℕ) (empty : Answer F) :
    ((p.wiped fl).onLayer layer empty op).1 = (p.onLayer layer empty op).1 ∧
      ((p.wiped fl).onLayer layer empty op).2.wiped fl = (p.onLayer layer empty op).2.wiped fl := by
  have hlay : (p.wiped fl).layers[layer]? = p.layers[layer]?.map (LayerPredictor.wiped fl) :=
    List.getElem?_map
  rw [onLayer, onLayer, hlay]
  cases p.layers[layer]? with
  | none => exact ⟨rfl, wiped_wiped p⟩
  | some s =>
    refine ⟨(hop s).1, ?_⟩
    have h := congrArg Predictor.layers (@wiped_wiped _ fl p)
    simp only [wiped] at h ⊢
    simp only [Option.map_some, map_set, (hop s).2, h]

/-- **The buffers are not seen** by any call. -/
theorem call_blind (c : Call F) : ((p.wiped fl).call fl c).1 = (p.call fl c).1 ∧
      ((p.wiped fl).call fl c).2.wiped fl = (p.call fl c).2.wiped fl := by
  cases c with
  | observe layer previous spatialPrevious current =>
    refine onLayer_blind (fun s => ⟨rfl, ?_⟩) p layer .done
    dsimp only
    rw [wiped_observe, LayerPredictor.wiped_wiped]
  | predictArrivals =>
    exact onLayer_blind ((rankArrivals_blind _ _ _ _ _).map fun l => .experts (l.map Prod.fst)) p
      _ _
  | predictArrivalsRanked | peekArrivalsRanked =>
    exact onLayer_blind ((rankArrivals_blind _ _ _ _ _).map _) p _ _
  | authoritativeRoute =>
    exact onLayer_blind ((authoritativeRoute_blind _ _ _ _ _ _ _).map _) p _ _
  | pushLayer =>
    refine ⟨rfl, ?_⟩
    have h := congrArg Predictor.layers (@wiped_wiped _ fl p)
    simp only [wiped] at h
    simp only [call, wiped, map_append, h]
  | stats =>
    refine ⟨?_, wiped_wiped p⟩
    simp only [call, wiped, foldl_map]
    rfl
  | layerStats =>
    refine ⟨?_, wiped_wiped p⟩
    simp only [call, wiped, map_map]
    rfl

/-- **A peek leaves nothing behind but the buffers.** -/
theorem wiped_peek (layer : ℕ) (previous spatialPrevious : List ℕ) (maxBudget : ℕ) :
    (p.call fl (.peekArrivalsRanked layer previous spatialPrevious maxBudget)).2.wiped fl
      = p.wiped fl := by
  simp only [call, onLayer]
  cases h : p.layers[layer]? with
  | none => rfl
  | some s =>
    have hsam : (p.layers.map (LayerPredictor.wiped fl))[layer]?
        = some (LayerPredictor.wiped fl s) := by rw [List.getElem?_map, h, Option.map_some]
    obtain ⟨_, heq⟩ := List.getElem?_eq_some_iff.mp hsam
    simp only [wiped, map_set, (rankArrivals_false s _ _ _ _).1, ← heq, set_getElem_self]

/-- The answer to a call that does not. -/
def seen (fl : Scores F) (p : Predictor F) (c : Call F) : List (Answer F) :=
  if c.isPeek then [] else [(machine fl).out p c]

/-- **Peeks cannot be observed**: without them, all other calls are answered the same. What a
peek answers is what a prediction would. -/
theorem peeks_unobservable (fl : Scores F) (p : Predictor F) (calls : List (Call F)) :
    (machine fl).gather (seen fl) p (calls.filter fun c => !c.isPeek)
        = (machine fl).gather (seen fl) p calls ∧
      ∀ (q : Predictor F) layer previous spatialPrevious maxBudget,
        (q.call fl (.peekArrivalsRanked layer previous spatialPrevious maxBudget)).1
          = (q.call fl (.predictArrivalsRanked layer previous spatialPrevious maxBudget)).1 := by
  constructor
  · refine Machine.gather_filter (wiped fl) (fun p c => ?_) (fun p c => (call_blind p c).2)
      (fun p c hpk => ?_) p calls
    · unfold seen
      split_ifs
      · rfl
      · exact congrArg (fun a => [a]) (call_blind p c).1
    · cases c with
      | peekArrivalsRanked => exact ⟨rfl, wiped_peek p _ _ _ _⟩
      | _ => cases hpk
  · intro q layer previous spatialPrevious maxBudget
    simp only [call, onLayer]
    cases q.layers[layer]? with
    | none => rfl
    | some s => exact congrArg Answer.ranked (rankArrivals_false s _ _ _ _).2

end Predictor

/-! ## Frequencies -/

/-- **What a table should learn**, counted without a limit. -/
def counted (ev : Evidence) (sources current : List ℕ) : Evidence := fun a =>
  if a ∈ sources then
    ⟨(ev a).fromObservations + 1, fun b => (ev a).transitions b + if b ∈ current then 1 else 0⟩
  else ev a

/-- **A table of frequencies**: nothing came after an expert more often than it was seen, and
this is not more often than a bound. -/
def Frequencies (bound : ℕ) (ev : Evidence) : Prop :=
  ∀ a, (ev a).fromObservations ≤ bound ∧ ∀ b, (ev a).transitions b ≤ (ev a).fromObservations

theorem add16_one {n : ℕ} (h : n < 2 ^ 16 - 1) : add16 n 1 = n + 1 := Nat.min_eq_left h

variable {bound : ℕ} {ev : Evidence} {sources current : List ℕ}

/-- A table that is far from its limit counts. -/
theorem learn_eq_counted (h : Frequencies bound ev) (hbnd : bound < 2 ^ 16 - 1)
    (hsrc : sources.Nodup) (hcur : current.Nodup) :
    Evidence.learn ev sources current = counted ev sources current := by
  have hrow (row : Row) (hrow : row.fromObservations ≤ bound)
      (hle : ∀ b, row.transitions b ≤ row.fromObservations) : row.learn current
        = ⟨row.fromObservations + 1, fun b => row.transitions b
          + if b ∈ current then 1 else 0⟩ := by
    have hfol := foldl_update (fun _ => true) (fun _ n => add16 n 1) hcur row.transitions
    simp only [if_true, and_true] at hfol
    rw [Row.learn, hfol, add16_one (by omega)]
    congr 1
    funext b
    have := hle b
    split_ifs
    · exact add16_one (by omega)
    · rfl
  have hfol := foldl_update (fun _ => true) (fun _ row => Row.learn row current) hsrc ev
  simp only [if_true, and_true] at hfol
  rw [Evidence.learn, hfol]
  funext a
  unfold counted
  split_ifs
  · exact hrow _ (h a).1 (h a).2
  · rfl

/-- **One observation** is one more. -/
theorem Frequencies.counted (h : Frequencies bound ev) (sources current : List ℕ) :
    Frequencies (bound + 1) (counted ev sources current) := by
  intro a
  obtain ⟨hbnd, hle⟩ := h a
  unfold RoutePredictor.counted
  split_ifs
  · refine ⟨Nat.succ_le_succ hbnd, fun b => ?_⟩
    dsimp only
    have := hle b
    split_ifs
    all_goals omega
  · exact ⟨Nat.le_succ_of_le hbnd, hle⟩

/-- **A decay** keeps the frequencies in order. -/
theorem Frequencies.decay (h : Frequencies bound ev) : Frequencies (bound / 2) ev.decay :=
  fun a => ⟨Nat.div_le_div_right (h a).1, fun b => Nat.div_le_div_right ((h a).2 b)⟩

/-- **A layer between two observations.** -/
structure Steady (s : LayerPredictor F) : Prop where
  since : s.observationsSinceDecay < 4096
  temporal : Frequencies (4096 + s.observationsSinceDecay) s.temporal
  spatial : Frequencies (4096 + s.observationsSinceDecay) s.spatial

/-- **Routes without duplicates**, whose experts need not be valid. -/
structure Observation where
  layer : ℕ
  previous : List ℕ
  spatialPrevious : List ℕ
  current : List ℕ
  nodup : previous.Nodup ∧ spatialPrevious.Nodup ∧ current.Nodup

/-- Some observations, one after the other. -/
def Predictor.observeAll (p : Predictor F) (observations : List Observation) : Predictor F :=
  observations.foldl (fun p o =>
    (p.call fl (.observe o.layer o.previous o.spatialPrevious o.current)).2) p

/-- **One observation** counts without a limit, and leaves the layer steady. -/
theorem Steady.observe {s : LayerPredictor F} (h : Steady s) (experts : ℕ) (o : Observation) :
    Steady (s.observe experts o.previous o.spatialPrevious o.current) := by
  have hset : Steady (s.settle o.current) := by
    unfold LayerPredictor.settle
    split_ifs
    · exact h
    · exact ⟨h.since, h.temporal, h.spatial⟩
  unfold LayerPredictor.observe
  dsimp only
  split_ifs
  · exact hset
  · obtain ⟨hpr, hsp, hcur⟩ := o.nodup
    have hsin := hset.since
    have htem := hset.temporal.counted (o.previous.filter (· < experts))
      (o.current.filter (· < experts))
    have hspt := hset.spatial.counted (o.spatialPrevious.filter (· < experts))
      (o.current.filter (· < experts))
    rw [← learn_eq_counted hset.temporal (by omega) (hpr.filter _) (hcur.filter _)] at htem
    rw [← learn_eq_counted hset.spatial (by omega) (hsp.filter _) (hcur.filter _)] at hspt
    unfold LayerPredictor.decay
    split_ifs with hdec
    · exact ⟨hdec, htem, hspt⟩
    · have hsin' : (s.settle o.current).observationsSinceDecay + 1 = 4096 := by
        have := not_lt.mp hdec
        simp only [LayerPredictor.learn] at this
        omega
      rw [Nat.add_assoc, hsin'] at htem hspt
      exact ⟨Nat.succ_pos 4095, htem.decay, hspt.decay⟩

/-- **A run of observations** leaves all layers steady. -/
theorem steady_observeAll (layers experts : ℕ) (temporalWeight : F)
    (observations : List Observation) : ∀ s ∈ ((Predictor.withTemporalWeight fl layers experts
      temporalWeight).observeAll fl observations).layers, Steady s := by
  refine @foldl_invariant _ _ _ (fun p : Predictor F => ∀ s ∈ p.layers, Steady s) _
    (fun p o _ hp => ?_) _ ?_
  · simp only [Predictor.call, Predictor.onLayer]
    cases hs : p.layers[o.layer]? with
    | none => exact hp
    | some s =>
      intro t ht
      rcases mem_or_eq_of_mem_set ht with ht | rfl
      · exact hp t ht
      · exact (hp s (mem_of_getElem? hs)).observe p.experts o
  · intro s hs
    rw [eq_of_mem_replicate hs]
    exact ⟨Nat.succ_pos 4095, fun _ => ⟨Nat.zero_le _, fun _ => le_rfl⟩,
      fun _ => ⟨Nat.zero_le _, fun _ => le_rfl⟩⟩

/-- **Counts that are conditional frequencies**, far below the limit of sixteen bits. -/
structure Conditional (ev : Evidence) : Prop where
  le : ∀ a b, (ev a).transitions b ≤ (ev a).fromObservations
  unsaturated : ∀ a, (ev a).fromObservations < 2 ^ 16 - 1
  zero : ∀ a, (ev a).fromObservations = 0 → ∀ b, (ev a).transitions b = 0
  contribution : ∀ a b, 0 ≤ ((ev a).transitions b : ℚ) / (ev a).fromObservations ∧
    ((ev a).transitions b : ℚ) / (ev a).fromObservations ≤ 1

theorem Frequencies.conditional (h : Frequencies bound ev) (hbnd : bound < 2 ^ 16 - 1) :
    Conditional ev where
  le a := (h a).2
  unsaturated a := (h a).1.trans_lt hbnd
  zero a ha b := Nat.le_zero.mp (ha ▸ (h a).2 b)
  contribution a b := ⟨by positivity, div_le_one_of_le₀ (by exact_mod_cast (h a).2 b)
    (Nat.cast_nonneg _)⟩

/-- **Counts stay conditional frequencies**: after any run of observations, and within the next
one, before the tables decay. No addition reaches the limit of its count. -/
theorem conditional_observeAll (layers experts : ℕ) (temporalWeight : F)
    (observations : List Observation) :
    ∀ s ∈ ((Predictor.withTemporalWeight fl layers experts temporalWeight).observeAll fl
        observations).layers, Conditional s.temporal ∧ Conditional s.spatial ∧
      ∀ previous current, previous.Nodup → current.Nodup → ∀ ev ∈ [s.temporal, s.spatial],
        Evidence.learn ev previous current = counted ev previous current ∧
        Conditional (counted ev previous current) := by
  intro s hs
  have h := steady_observeAll fl layers experts temporalWeight observations s hs
  have hsin := h.since
  refine ⟨h.temporal.conditional (by omega), h.spatial.conditional (by omega),
    fun previous current hpr hcur ev hev => ?_⟩
  have hev : Frequencies (4096 + s.observationsSinceDecay) ev := by
    rcases mem_pair.mp hev with rfl | rfl
    · exact h.temporal
    · exact h.spatial
  exact ⟨learn_eq_counted hev (by omega) hpr hcur,
    (hev.counted previous current).conditional (by omega)⟩

/-- Scores that are counts. -/
def counts : Scores ℕ where
  zero := 0
  one := 1
  ofCount := id
  add := (· + ·)
  mul := (· * ·)
  div := (· / ·)
  max := max
  le := Nat.ble
  gt := fun a b => Nat.blt b a
  eq := Nat.beq

/-- An expert has come after another one. -/
theorem conditional_observeAll_pair :
    Conditional ((LayerPredictor.new counts 2 1).observe 2 [0] [] [1]).temporal :=
  (conditional_observeAll counts 1 2 1 [⟨0, [0], [], [1], by decide⟩] _ mem_cons_self).1

end RoutePredictor

end Logan
