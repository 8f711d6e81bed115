import Logan.Qwen.StageArena

/-!
# What the calls of the staging arena do to a slot

A slot of the arena has a *place*, the index of its row and its own. A
**claim** (`StageArena.Claim`) is what `claim_stage` and `claim_demand` make
of a place: it is *fresh* if it takes the slot, and a repetition – the answer
of `claim_stage` to an expert it has already staged – if it does not. What a
call claims, and for which slot it records an event, is written into a log
(`StageArena.records`).

Everything that is said of the arena below comes from one statement: what a
single call can do to the entry of a place (`StageArena.Change`,
`StageArena.change_call`).
-/

namespace Logan

open Option Function

namespace Stage

variable {candidates : ℕ}

namespace StageLayer

variable {row : StageLayer candidates} {p : StageSlot → Bool} {expert : UInt32} {tag : SlotTag}
  {i : Fin candidates}

theorem position_eq_some (h : row.position p = some i) : p (row.stage i) = true :=
  List.find?_some (p := fun i => p (row.stage i)) h

theorem find_eq_some (h : row.find expert tag = some i) :
    (row.stage i).expert = expert ∧ (row.stage i).tag = tag :=
  of_decide_eq_true (position_eq_some h)

/-- A slot that is claimed has been found, or is available. -/
theorem claim_eq_some (h : row.claim expert tag = some i) : row.find expert tag = some i ∨
      row.find expert tag = none ∧ (row.stage i).expert = free := by
  unfold claim at h
  cases hf : row.find expert tag with
  | some =>
    rw [hf] at h
    exact Or.inl h
  | none =>
    rw [hf] at h
    exact Or.inr ⟨rfl, of_decide_eq_true (position_eq_some h)⟩

theorem claim_of_find (h : row.find expert tag = some i) : row.claim expert tag = some i := by
  unfold claim
  rw [h]

end StageLayer

namespace StageArena

/-- **The place of a slot**: the index of its row, and its own. -/
abbrev Place (candidates : ℕ) : Type := ℕ × Fin candidates

/-- Which of the two calls makes a claim. -/
inductive Purpose where
  | stage
  | demand
  deriving DecidableEq

/-- **A claim of a slot**: by which call, for which layer and expert, in
which request and token, and whether it takes the slot or repeats a claim
that has taken it. -/
structure Claim (candidates : ℕ) where
  place : Place candidates
  purpose : Purpose
  layer : ℕ
  expert : UInt32
  request : ℕ
  token : ℕ
  fresh : Bool
  deriving DecidableEq

/-- The tag that a claim gives to the slot. -/
def Claim.tag (c : Claim candidates) : SlotTag :=
  match c.purpose with
  | .stage => ⟨c.request, saturatingAdd u64Max c.token 1⟩
  | .demand => ⟨c.request, c.token⟩

/-- The entry of a slot that a claim has taken. -/
def Claim.entry (c : Claim candidates) : StageSlot :=
  { expert := c.expert, tag := c.tag, event := 0, consumed := false }

variable (s : StageArena candidates)

/-- The entry at a place. -/
def entry (p : Place candidates) : Option StageSlot := s.rows[p.1]?.map fun row => row.stage p.2

/-- The device slot at a place. -/
def slotAt (p : Place candidates) : Option ℤ := s.rows[p.1]?.map fun row => row.slots p.2

/-- The claim that `claim_stage` makes. -/
def stageClaim (layer : ℕ) (expert : UInt32) : Option (Claim candidates) :=
  if ¬ s.enabled then none else
  (s.rowAt layer s.stageParity).bind fun (index, row) =>
    (row.claim expert s.stageTag).map fun i =>
      { place := (index, i), purpose := .stage, layer, expert, request := s.requestGeneration,
        token := s.tokenGeneration, fresh := (row.find expert s.stageTag).isNone }

/-- The claim that `claim_demand` makes. -/
def demandClaim (layer : ℕ) (expert : UInt32) : Option (Claim candidates) :=
  if ¬ s.enabled then none else
  (s.rowAt layer s.consumeParity).bind fun (index, row) =>
    (row.claim expert s.consumeTag).map fun i =>
      { place := (index, i), purpose := .demand, layer, expert, request := s.requestGeneration,
        token := s.tokenGeneration, fresh := true }

/-- **The claim a call makes.** -/
def claimed : Op → Option (Claim candidates)
  | .claimStage layer expert => s.stageClaim layer expert
  | .claimDemand layer expert => s.demandClaim layer expert
  | _ => none

/-- **The place a call records an event for.** -/
def recorded : Op → Option (Place candidates × ℤ)
  | .setEvent layer expert event =>
    (s.rowAt layer s.stageParity).bind fun (index, row) =>
      (row.find expert s.stageTag).map fun i => ((index, i), event)
  | _ => none

/-- What happens to the slots, one after another. -/
inductive Record (candidates : ℕ) where
  | claim (c : Claim candidates)
  | event (place : Place candidates) (event : ℤ)

/-- **What a call writes into the log.** -/
def records (op : Op) : List (Record candidates) :=
  (s.claimed op).toList.map .claim ++ (s.recorded op).toList.map fun r => .event r.1 r.2

/-! ## Rows, entries and device slots -/

section Rows

variable {s} {layer parity index : ℕ} {row : StageLayer candidates} {p : Place candidates}
  {e : StageSlot}

section

variable (h : s.rowAt layer parity = some (index, row))

include h

theorem rowAt_eq_some :
    layer < s.layerCount ∧ index = layer * 2 + parity ∧ s.rows[index]? = some row := by
  unfold rowAt rowIndex at h
  by_cases hl : s.layerCount ≤ layer
  · rw [if_pos hl] at h
    cases h
  · rw [if_neg hl] at h
    obtain ⟨_, hidx, h⟩ := bind_eq_some_iff.mp h
    obtain ⟨_, hrow, hr⟩ := bind_eq_some_iff.mp h
    cases hidx
    cases hr
    exact ⟨Nat.lt_of_not_le hl, rfl, hrow⟩

theorem entry_of_rowAt (i : Fin candidates) : s.entry (index, i) = some (row.stage i) := by
  unfold entry
  rw [(rowAt_eq_some h).2.2]
  rfl

theorem slotAt_of_rowAt (i : Fin candidates) : s.slotAt (index, i) = some (row.slots i) := by
  unfold slotAt
  rw [(rowAt_eq_some h).2.2]
  rfl

end

/-- The entries after one of them has been rewritten. -/
theorem entry_put (h : s.rows[index]? = some row) (i : Fin candidates) (e' : StageSlot)
    (p : Place candidates) :
    (s.put index i e').entry p = if p = (index, i) then some e' else s.entry p := by
  obtain ⟨k, j⟩ := p
  unfold entry put
  by_cases hk : index = k
  · subst hk
    rw [List.getElem?_modify_eq, h]
    show some (update row.stage i e' j) = _
    by_cases hj : j = i
    · subst hj
      rw [if_pos rfl, update_self]
    · rw [if_neg fun hp => hj (Prod.ext_iff.mp hp).2, update_of_ne hj]
      rfl
  · rw [List.getElem?_modify_ne _ _ hk, if_neg fun hp => hk (Prod.ext_iff.mp hp).1.symm]

theorem slotAt_put (index : ℕ) (i : Fin candidates) (e' : StageSlot) (p : Place candidates) :
    (s.put index i e').slotAt p = s.slotAt p := by
  unfold slotAt put
  by_cases hk : index = p.1
  · rw [hk, List.getElem?_modify_eq]
    cases s.rows[p.1]? with
    | none | some => rfl
  · rw [List.getElem?_modify_ne _ _ hk]

end Rows

/-! ## Claims -/

section Claims

variable {s} {layer : ℕ} {expert : UInt32} {c : Claim candidates}

/-- **What a claim for the next token is**: a fresh one is of an available
slot, and any other of the slot that the expert has under the tag already. -/
structure Claim.Stages (s : StageArena candidates) (layer : ℕ) (expert : UInt32)
    (c : Claim candidates) : Prop where
  row : c.place.1 = layer * 2 + s.stageParity
  eq : c = ⟨c.place, .stage, layer, expert, s.requestGeneration, s.tokenGeneration, c.fresh⟩
  entry : ∃ e, s.entry c.place = some e ∧ (c.fresh = true → e.expert = free)
    ∧ (c.fresh = false → e.expert = expert ∧ e.tag = s.stageTag)

/-- **What a claim for this token is**: of an available slot, or of the slot
that the expert has under the tag already. -/
structure Claim.Demands (s : StageArena candidates) (layer : ℕ) (expert : UInt32)
    (c : Claim candidates) : Prop where
  row : c.place.1 = layer * 2 + s.consumeParity
  eq : c = ⟨c.place, .demand, layer, expert, s.requestGeneration, s.tokenGeneration, true⟩
  entry : ∃ e, s.entry c.place = some e
    ∧ (e.expert = free ∨ e.expert = expert ∧ e.tag = s.consumeTag)

theorem claimStage_of_none (h : s.stageClaim layer expert = none) :
    (s.claimStage layer expert).1 = none ∧ (s.claimStage layer expert).2.rows = s.rows := by
  unfold stageClaim at h
  unfold claimStage
  by_cases hen : ¬ s.enabled
  · rw [if_pos hen]
    exact ⟨rfl, rfl⟩
  rw [if_neg hen] at h ⊢
  cases hrow : s.rowAt layer s.stageParity with
  | none => exact ⟨rfl, rfl⟩
  | some ir =>
    obtain ⟨index, row⟩ := ir
    rw [hrow] at h
    have hcl : row.claim expert s.stageTag = none := map_eq_none_iff.mp h
    have hfin : row.find expert s.stageTag = none := by
      cases hf : row.find expert s.stageTag with
      | none => rfl
      | some => rw [StageLayer.claim_of_find hf] at hcl; cases hcl
    simp only [hfin, hcl]
    exact ⟨trivial, trivial⟩

theorem claimStage_of_some (h : s.stageClaim layer expert = some c) :
    c.Stages s layer expert ∧ ∃ slot, s.slotAt c.place = some slot
      ∧ (s.claimStage layer expert).1 = some (slot, 0, c.fresh)
      ∧ (s.claimStage layer expert).2 = if c.fresh then s.put c.place.1 c.place.2 c.entry else s := by
  unfold stageClaim at h
  unfold claimStage
  by_cases hen : ¬ s.enabled
  · rw [if_pos hen] at h
    cases h
  rw [if_neg hen] at h ⊢
  cases hrow : s.rowAt layer s.stageParity with
  | none =>
    rw [hrow] at h
    cases h
  | some ir =>
    obtain ⟨index, row⟩ := ir
    rw [hrow] at h
    obtain ⟨i, hcl, hc⟩ := map_eq_some_iff.mp h
    obtain ⟨-, rfl, -⟩ := rowAt_eq_some hrow
    subst hc
    rcases StageLayer.claim_eq_some hcl with hfin | ⟨hfin, hfr⟩
    · obtain ⟨hexp, htag⟩ := StageLayer.find_eq_some hfin
      simp only [hfin]
      refine ⟨⟨rfl, rfl, _, entry_of_rowAt hrow i, nofun, fun _ => ⟨hexp, htag⟩⟩,
        _, slotAt_of_rowAt hrow i, rfl, rfl⟩
    · simp only [hfin, hcl]
      refine ⟨⟨rfl, rfl, _, entry_of_rowAt hrow i, (fun _ => hfr), nofun⟩,
        _, slotAt_of_rowAt hrow i, rfl, rfl⟩

theorem claimDemand_of_none (h : s.demandClaim layer expert = none) :
    s.claimDemand layer expert = (none, s) := by
  unfold demandClaim at h
  unfold claimDemand
  by_cases hen : ¬ s.enabled
  · rw [if_pos hen]
  rw [if_neg hen] at h ⊢
  cases hrow : s.rowAt layer s.consumeParity with
  | none => rfl
  | some ir =>
    obtain ⟨index, row⟩ := ir
    rw [hrow] at h
    have hcl : row.claim expert s.consumeTag = none := map_eq_none_iff.mp h
    simp only [hcl]

theorem claimDemand_of_some (h : s.demandClaim layer expert = some c) :
    c.Demands s layer expert ∧ ∃ slot, s.slotAt c.place = some slot
      ∧ s.claimDemand layer expert = (some (slot, 0), s.put c.place.1 c.place.2 c.entry) := by
  unfold demandClaim at h
  unfold claimDemand
  by_cases hen : ¬ s.enabled
  · rw [if_pos hen] at h
    cases h
  rw [if_neg hen] at h ⊢
  cases hrow : s.rowAt layer s.consumeParity with
  | none =>
    rw [hrow] at h
    cases h
  | some ir =>
    obtain ⟨index, row⟩ := ir
    rw [hrow] at h
    obtain ⟨i, hcl, hc⟩ := map_eq_some_iff.mp h
    obtain ⟨-, rfl, -⟩ := rowAt_eq_some hrow
    subst hc
    refine ⟨⟨rfl, rfl, _, entry_of_rowAt hrow i, ?_⟩, _, slotAt_of_rowAt hrow i, ?_⟩
    · rcases StageLayer.claim_eq_some hcl with hfin | ⟨-, hfr⟩
      · exact Or.inr (StageLayer.find_eq_some hfin)
      · exact Or.inl hfr
    · simp only [hcl]
      rfl

/-- **A claim on demand of a slot with a load on its way**: a lookup would
have waited for it. -/
theorem lookup_of_demandClaim {e : StageSlot} {slot : ℤ} {probe : ℤ → Option Bool}
    (h : s.demandClaim layer expert = some c) (he : s.entry c.place = some e)
    (hsl : s.slotAt c.place = some slot) (hexp : e.expert ≠ free) (hev : 0 < e.event)
    (hpr : probe slot = some false) :
    (s.lookup probe layer expert).1 = some (.late slot e.event) := by
  unfold demandClaim at h
  unfold lookup
  by_cases hen : ¬ s.enabled
  · rw [if_pos hen] at h
    cases h
  rw [if_neg hen] at h ⊢
  cases hrow : s.rowAt layer s.consumeParity with
  | none =>
    rw [hrow] at h
    cases h
  | some ir =>
    obtain ⟨index, row⟩ := ir
    rw [hrow] at h
    obtain ⟨i, hcl, hc⟩ := map_eq_some_iff.mp h
    subst hc
    rw [entry_of_rowAt hrow i] at he
    rw [slotAt_of_rowAt hrow i] at hsl
    cases he
    cases hsl
    rcases StageLayer.claim_eq_some hcl with hfin | ⟨-, hfr⟩
    · have hcls : classifyStaged (row.stage i).event (probe (row.slots i)) = some false := by
        unfold classifyStaged
        rw [if_neg (not_le.mpr hev), hpr]
        rfl
      simp only [hfin, hcls]
    · exact absurd hfr hexp

/-- A slot that an event is recorded for is the expert's. -/
theorem setEvent_of_recorded {p : Place candidates} {event event' : ℤ}
    (h : s.recorded (.setEvent layer expert event) = some (p, event')) :
    event' = event ∧ ∃ e, s.entry p = some e ∧ e.expert = expert
      ∧ (s.setEvent layer expert event).entry p = some { e with event } := by
  obtain ⟨⟨index, row⟩, hrow, h⟩ := bind_eq_some_iff.mp h
  obtain ⟨i, hfin, hp⟩ := map_eq_some_iff.mp h
  cases hp
  refine ⟨rfl, _, entry_of_rowAt hrow i, (StageLayer.find_eq_some hfin).1, ?_⟩
  unfold setEvent
  simp only [hrow, hfin]
  rw [entry_put (rowAt_eq_some hrow).2.2, if_pos rfl]

end Claims

/-! ## One call -/

section Call

variable {s} {layer : ℕ} {expert : UInt32} {p : Place candidates} {probe : ℤ → Option Bool}
  {e e' : StageSlot}

/-- A lookup leaves the rows alone; bytes that it hands out are those of an
entry of the expert, tagged for the current token, with an event. -/
theorem lookup_spec (s : StageArena candidates) (probe : ℤ → Option Bool) (layer : ℕ)
    (expert : UInt32) : (s.lookup probe layer expert).2.rows = s.rows ∧
      ∀ take slot, (s.lookup probe layer expert).1 = some take → take.slot? = some slot →
        ∃ i e, s.entry (layer * 2 + s.consumeParity, i) = some e
          ∧ s.slotAt (layer * 2 + s.consumeParity, i) = some slot
          ∧ e.expert = expert ∧ e.tag = s.consumeTag ∧ 0 < e.event := by
  unfold lookup
  by_cases hen : ¬ s.enabled
  · rw [if_pos hen]
    exact ⟨rfl, fun _ _ h => by cases h⟩
  rw [if_neg hen]
  cases hrow : s.rowAt layer s.consumeParity with
  | none => exact ⟨rfl, fun _ _ h => by cases h⟩
  | some ir =>
    obtain ⟨index, row⟩ := ir
    obtain ⟨-, rfl, -⟩ := rowAt_eq_some hrow
    cases hfin : row.find expert s.consumeTag with
    | none =>
      simp only [hfin]
      split
      · exact ⟨rfl, fun _ _ h hsl => by cases h; cases hsl⟩
      · exact ⟨rfl, fun _ _ h hsl => by cases h; cases hsl⟩
    | some i =>
      obtain ⟨hexp, htag⟩ := StageLayer.find_eq_some hfin
      have hout (hcl : classifyStaged (row.stage i).event (probe (row.slots i)) ≠ none) :
          ∃ j e, s.entry (layer * 2 + s.consumeParity, j) = some e
            ∧ s.slotAt (layer * 2 + s.consumeParity, j) = some (row.slots i)
            ∧ e.expert = expert ∧ e.tag = s.consumeTag ∧ 0 < e.event := by
        refine ⟨i, _, entry_of_rowAt hrow i, slotAt_of_rowAt hrow i, hexp, htag, ?_⟩
        by_contra hev
        exact hcl (if_pos (not_lt.mp hev))
      simp only [hfin]
      cases hcl : classifyStaged (row.stage i).event (probe (row.slots i)) with
      | none => exact ⟨rfl, fun _ _ h hsl => by cases h; cases hsl⟩
      | some complete =>
        have hsom := hout (by rw [hcl]; exact some_ne_none _)
        cases complete with
        | true | false => exact ⟨rfl, fun _ _ h hsl => by cases h; cases hsl; exact hsom⟩

theorem entry_congr {s' : StageArena candidates} (h : s'.rows = s.rows) (p : Place candidates) :
    s'.entry p = s.entry p := by
  unfold entry
  rw [h]

/-- No call changes which device slots there are. -/
theorem slotAt_call (s : StageArena candidates) (probe : ℤ → Option Bool) (op : Op)
    (p : Place candidates) : (s.call probe op).2.slotAt p = s.slotAt p := by
  have hrow {s' : StageArena candidates} (h : s'.rows = s.rows) : s'.slotAt p = s.slotAt p := by
    unfold slotAt
    rw [h]
  cases op with
  | beginRequest =>
    show Option.map _ (s.rows.map _)[p.1]? = _
    rw [List.getElem?_map, map_map]
    rfl
  | beginToken =>
    show Option.map _ (s.rows.mapIdx _)[p.1]? = _
    rw [List.getElem?_mapIdx, map_map]
    refine congrArg (fun f => Option.map f s.rows[p.1]?) (funext fun row => ?_)
    dsimp only [comp_apply]
    split
    · rfl
    · rfl
  | claimStage layer expert =>
    show (s.claimStage layer expert).2.slotAt p = _
    cases hc : s.stageClaim layer expert with
    | none => exact hrow (claimStage_of_none hc).2
    | some =>
      obtain ⟨-, slot, -, -, hst⟩ := claimStage_of_some hc
      rw [hst]
      split
      · exact slotAt_put _ _ _ _
      · rfl
  | claimDemand layer expert =>
    show (s.claimDemand layer expert).2.slotAt p = _
    cases hc : s.demandClaim layer expert with
    | none => rw [claimDemand_of_none hc]
    | some =>
      obtain ⟨-, slot, -, hst⟩ := claimDemand_of_some hc
      rw [hst]
      exact slotAt_put _ _ _ _
  | setEvent layer expert event =>
    show (s.setEvent layer expert event).slotAt p = _
    unfold setEvent
    repeat' split
    all_goals first | rfl | exact slotAt_put _ _ _ _
  | consume layer expert =>
    show (s.consume layer expert).2.slotAt p = _
    unfold consume
    repeat' split
    all_goals first | rfl | exact slotAt_put _ _ _ _
  | lookup layer expert => exact hrow (lookup_spec s probe layer expert).1

theorem entry_beginRequest (s : StageArena candidates) (p : Place candidates) :
    s.beginRequest.entry p = (s.entry p).map fun e =>
      { StageLayer.released e with
        tag := ⟨saturatingAdd u64Max s.requestGeneration 1, 0⟩ } := by
  unfold entry beginRequest
  rw [List.getElem?_map]
  cases s.rows[p.1]? with
  | none => rfl
  | some => simp [StageLayer.releaseAll, StageLayer.mapStage, StageLayer.released]

/-- The entries after the token has advanced: those of the rows it leaves
are released, unless a load is outstanding. -/
theorem entry_beginToken (s : StageArena candidates) (probe : ℤ → Option Bool)
    (p : Place candidates) (h : (s.beginToken probe).entry p = some e') :
    ∃ e slot, s.entry p = some e ∧ s.slotAt p = some slot ∧
      (e' = e ∨ e' = expire probe slot e) := by
  unfold entry beginToken at h
  rw [List.getElem?_mapIdx] at h
  unfold entry slotAt
  cases hrow : s.rows[p.1]? with
  | none =>
    rw [hrow] at h
    cases h
  | some =>
    rw [hrow] at h
    refine ⟨_, _, rfl, rfl, ?_⟩
    obtain ⟨row', hrow', rfl⟩ := map_eq_some_iff.mp h
    have hrow' := some.inj hrow'
    dsimp only at hrow'
    split at hrow'
    · subst hrow'
      exact Or.inr rfl
    · subst hrow'
      exact Or.inl rfl

/-- **What a call can do to the entry of a place.** -/
inductive Change (s : StageArena candidates) (probe : ℤ → Option Bool) (op : Op)
    (p : Place candidates) (e : StageSlot) : StageSlot → Prop
  /-- It leaves it: if it claims the place, it repeats a claim. -/
  | kept (hclaim : ∀ c, s.claimed op = some c → c.place = p →
        c.Stages s c.layer c.expert ∧ c.fresh = false)
      (hop : op ≠ .beginRequest) :
    Change s probe op p e e
  /-- It notes that the bytes have been read. -/
  | used (hclaim : s.claimed op = none) (hop : op ≠ .beginToken ∧ op ≠ .beginRequest) :
    Change s probe op p e { e with consumed := true }
  /-- It records the event of a load. -/
  | recorded (layer : ℕ) (expert : UInt32) (event : ℤ) (hop : op = .setEvent layer expert event)
      (hevent : s.recorded op = some (p, event)) (hexpert : e.expert = expert)
      (htag : e.tag = s.stageTag) :
    Change s probe op p e { e with event }
  /-- It takes the slot. -/
  | taken (c : Claim candidates) (hclaim : s.claimed op = some c) (hplace : c.place = p)
      (hfresh : c.fresh = true)
      (he : e.expert = free ∨ c.purpose = .demand ∧ e.expert = c.expert ∧ e.tag = s.consumeTag) :
    Change s probe op p e c.entry
  /-- It releases it, with no load outstanding. -/
  | expired (hop : op = .beginToken)
      (hdone : ∀ slot, s.slotAt p = some slot → ¬ (0 < e.event ∧ probe slot = some false)) :
    Change s probe op p e (StageLayer.released e)
  /-- It releases it at the end of a request. -/
  | reset (hop : op = .beginRequest) :
    Change s probe op p e
      { StageLayer.released e with tag := ⟨saturatingAdd u64Max s.requestGeneration 1, 0⟩ }

/-- A call that takes the slot of its claim, or repeats it. -/
theorem change_claim (op : Op) {c : Claim candidates} (hc : s.claimed op = some c)
    (hop : op ≠ .beginRequest) (hfr : c.fresh = true) {e₀ : StageSlot}
    (he₀ : s.entry c.place = some e₀) (htak : e₀.expert = free ∨
      c.purpose = .demand ∧ e₀.expert = c.expert ∧ e₀.tag = s.consumeTag)
    (h : (s.put c.place.1 c.place.2 c.entry).entry p = some e') :
    ∃ e, s.entry p = some e ∧ Change s probe op p e e' := by
  obtain ⟨row, hrow, -⟩ := map_eq_some_iff.mp he₀
  rw [entry_put hrow] at h
  by_cases hp : p = (c.place.1, c.place.2)
  · rw [if_pos hp] at h
    cases h
    exact ⟨e₀, hp ▸ he₀, .taken c hc hp.symm hfr htak⟩
  · rw [if_neg hp] at h
    refine ⟨e', h, .kept (fun c' hc' hpl => ?_) hop⟩
    cases hc.symm.trans hc'
    exact absurd hpl.symm hp

theorem change_claimStage (h : (s.claimStage layer expert).2.entry p = some e') :
    ∃ e, s.entry p = some e ∧ Change s probe (.claimStage layer expert) p e e' := by
  cases hc : s.stageClaim layer expert with
  | none =>
    rw [entry_congr (claimStage_of_none hc).2] at h
    refine ⟨e', h, .kept (fun c hc' => ?_) nofun⟩
    cases hc.symm.trans hc'
  | some c =>
    obtain ⟨hst, slot, -, -, hstt⟩ := claimStage_of_some hc
    rw [hstt] at h
    obtain ⟨e, he, hfr, -⟩ := hst.entry
    cases hfrs : c.fresh with
    | false =>
      rw [if_neg (by rw [hfrs]; exact Bool.false_ne_true)] at h
      refine ⟨e', h, .kept (fun c' hc' _ => ?_) nofun⟩
      cases hc.symm.trans hc'
      refine ⟨?_, hfrs⟩
      rwa [congrArg Claim.layer hst.eq, congrArg Claim.expert hst.eq]
    | true =>
      rw [if_pos hfrs] at h
      exact change_claim (.claimStage layer expert) hc nofun hfrs he (Or.inl (hfr hfrs)) h

theorem change_claimDemand (h : (s.claimDemand layer expert).2.entry p = some e') :
    ∃ e, s.entry p = some e ∧ Change s probe (.claimDemand layer expert) p e e' := by
  cases hc : s.demandClaim layer expert with
  | none =>
    rw [claimDemand_of_none hc] at h
    refine ⟨e', h, .kept (fun c hc' => ?_) nofun⟩
    cases hc.symm.trans hc'
  | some =>
    obtain ⟨hdem, slot, -, hst⟩ := claimDemand_of_some hc
    rw [hst] at h
    obtain ⟨e, he, hkn⟩ := hdem.entry
    refine change_claim (.claimDemand layer expert) hc nofun (congrArg Claim.fresh hdem.eq) he ?_ h
    refine hkn.imp id fun hk => ⟨congrArg Claim.purpose hdem.eq, ?_, hk.2⟩
    rw [congrArg Claim.expert hdem.eq]
    exact hk.1

theorem change_setEvent {event : ℤ} (h : (s.setEvent layer expert event).entry p = some e') :
    ∃ e, s.entry p = some e ∧ Change s probe (.setEvent layer expert event) p e e' := by
  have hkep (h : s.entry p = some e') :
      ∃ e, s.entry p = some e ∧ Change s probe (.setEvent layer expert event) p e e' :=
    ⟨e', h, .kept (fun c hc => by cases hc) nofun⟩
  unfold setEvent at h
  cases hrow : s.rowAt layer s.stageParity with
  | none =>
    rw [hrow] at h
    exact hkep h
  | some ir =>
    obtain ⟨index, row⟩ := ir
    cases hfin : row.find expert s.stageTag with
    | none =>
      simp only [hrow, hfin] at h
      exact hkep h
    | some i =>
      simp only [hrow, hfin] at h
      rw [entry_put (rowAt_eq_some hrow).2.2] at h
      by_cases hp : p = (index, i)
      · rw [if_pos hp] at h
        cases h
        subst hp
        obtain ⟨hexp, htag⟩ := StageLayer.find_eq_some hfin
        refine ⟨_, entry_of_rowAt hrow i, .recorded layer expert event rfl ?_ hexp htag⟩
        show (s.rowAt layer s.stageParity).bind _ = _
        rw [hrow]
        show (row.find expert s.stageTag).map _ = _
        rw [hfin]
        rfl
      · rw [if_neg hp] at h
        exact hkep h

theorem change_consume (h : (s.consume layer expert).2.entry p = some e') :
    ∃ e, s.entry p = some e ∧ Change s probe (.consume layer expert) p e e' := by
  have hkep (h : s.entry p = some e') :
      ∃ e, s.entry p = some e ∧ Change s probe (.consume layer expert) p e e' :=
    ⟨e', h, .kept (fun c hc => by cases hc) nofun⟩
  unfold consume at h
  cases hrow : s.rowAt layer s.consumeParity with
  | none =>
    rw [hrow] at h
    exact hkep h
  | some ir =>
    obtain ⟨index, row⟩ := ir
    cases hfin : row.find expert s.consumeTag with
    | none =>
      simp only [hrow, hfin] at h
      exact hkep h
    | some i =>
      simp only [hrow, hfin] at h
      rw [entry_put (rowAt_eq_some hrow).2.2] at h
      by_cases hp : p = (index, i)
      · rw [if_pos hp] at h
        cases h
        subst hp
        exact ⟨_, entry_of_rowAt hrow i, .used rfl ⟨nofun, nofun⟩⟩
      · rw [if_neg hp] at h
        exact hkep h

/-- **Every call changes every entry in one of these ways.** -/
theorem change_call (s : StageArena candidates) (probe : ℤ → Option Bool) (op : Op)
    (h : (s.call probe op).2.entry p = some e') :
    ∃ e, s.entry p = some e ∧ Change s probe op p e e' := by
  cases op with
  | beginRequest =>
    rw [show (s.call probe .beginRequest).2 = s.beginRequest from rfl, entry_beginRequest] at h
    obtain ⟨e, he, rfl⟩ := map_eq_some_iff.mp h
    exact ⟨e, he, .reset rfl⟩
  | beginToken =>
    obtain ⟨e, slot, he, hsl, hkep | hexp⟩ := entry_beginToken s probe p h
    · subst hkep
      exact ⟨e', he, .kept (fun c hc => by cases hc) nofun⟩
    · refine ⟨e, he, ?_⟩
      subst hexp
      unfold expire
      split
      · exact .kept (fun c hc => by cases hc) nofun
      · split
        · exact .kept (fun c hc => by cases hc) nofun
        · next hout =>
          refine .expired rfl fun slot' hsl' => ?_
          rw [hsl] at hsl'
          cases hsl'
          exact hout
  | claimStage => exact change_claimStage h
  | claimDemand => exact change_claimDemand h
  | setEvent => exact change_setEvent h
  | consume => exact change_consume h
  | lookup layer expert =>
    have hs : (s.call probe (.lookup layer expert)).2 = (s.lookup probe layer expert).2 := rfl
    rw [hs, entry_congr (lookup_spec s probe layer expert).1] at h
    exact ⟨e', h, .kept (fun c hc => by cases hc) nofun⟩

end Call

end StageArena

end Stage

end Logan
