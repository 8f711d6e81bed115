import Logan.Qwen.StageClaims

/-!
# Staged bytes are never stale

Where the bytes that a lookup hands out come from is read off the log of the
run: a claim of their slot, made by `claim_stage` for the same layer and
expert, in the same request and one token earlier, after which an event has
been recorded for the slot and nobody else has claimed it
(`StageArena.lookup_origin`).

The invariant is `StageArena.Traced`. Its first half bounds the tags: none is
of a later request than the current one, and none of this request is of a
token after the next. So when a token or a request begins, no slot carries
the tag that is filled from then on. Its second half gives every slot that
carries this tag, or has an event, its claim in the log.
-/

namespace Logan

open List
open Or (inl inr)

namespace Stage

namespace StageArena

variable {candidates : ℕ}

/-- The generation counters have not come to their end. -/
def Below (s : StageArena candidates) : Prop :=
  s.requestGeneration < u64Max ∧ s.tokenGeneration < u64Max

instance : DecidablePred (Below : StageArena candidates → Prop) := fun _ => instDecidableAnd

/-- **Where the bytes of a slot come from**: the claim that has taken it, and
what the log says after that claim – no more claims of the slot, but
repetitions of the same. -/
structure Origin (log : List (Record candidates)) (p : Place candidates) (c : Claim candidates)
    (later : List (Record candidates)) : Prop where
  split : ∃ before, log = before ++ .claim c :: later
  place : c.place = p
  purpose : c.purpose = .stage
  fresh : c.fresh = true
  repeats : ∀ c', Record.claim c' ∈ later → c'.place = p → c' = { c with fresh := false }

/-- The claim a slot has been taken by, if it carries the tag and the expert
of the entry; and the event recorded since, if the entry has one. -/
structure Backs (log : List (Record candidates)) (p : Place candidates) (e : StageSlot)
    (c : Claim candidates) (later : List (Record candidates)) : Prop where
  origin : Origin log p c later
  layer : c.layer = p.1 / 2
  expert : c.expert = e.expert
  tag : e.tag = ⟨c.request, c.token + 1⟩
  event : 0 < e.event → ∃ event, 0 < event ∧ Record.event p event ∈ later

/-- **The invariant**: how far the tags go, and where the slots that are
filled for the next token, or have an event, come from. -/
structure Traced (s : StageArena candidates) (log : List (Record candidates)) : Prop where
  request : ∀ p e, s.entry p = some e → e.tag.requestGeneration ≤ s.requestGeneration
  token : ∀ p e, s.entry p = some e → e.tag.requestGeneration = s.requestGeneration →
    e.tag.tokenGeneration ≤ s.tokenGeneration + 1
  backed : ∀ p e, s.entry p = some e → e.tag = s.stageTag ∨ 0 < e.event →
    ∃ c later, Backs log p e c later

section Step

variable {s : StageArena candidates} {log : List (Record candidates)} {p : Place candidates}
  {e : StageSlot} {op : Op} {probe : ℤ → Option Bool} {c : Claim candidates}

theorem claim_mem_records : Record.claim c ∈ s.records op ↔ s.claimed op = some c := by
  unfold records
  rw [mem_append, mem_map, mem_map]
  constructor
  · rintro (⟨c', hc', h⟩ | ⟨r, -, h⟩)
    · cases h
      exact Option.mem_toList.mp hc'
    · cases h
  · exact fun h => inl ⟨c, Option.mem_toList.mpr h, rfl⟩

theorem event_mem_records {event : ℤ} (h : s.recorded op = some (p, event)) :
    Record.event p event ∈ s.records op :=
  mem_append_right _ (mem_map.mpr ⟨(p, event), Option.mem_toList.mpr h, rfl⟩)

theorem stageTag_of_below (h : s.Below) :
    s.stageTag = ⟨s.requestGeneration, s.tokenGeneration + 1⟩ :=
  congrArg (SlotTag.mk _) (min_eq_left h.2)

/-- What a call does to the generations. -/
theorem generations_call (s : StageArena candidates) (probe : ℤ → Option Bool) (op : Op) :
    (op = .beginRequest ∧ (s.call probe op).2.requestGeneration
        = saturatingAdd u64Max s.requestGeneration 1 ∧ (s.call probe op).2.tokenGeneration = 0)
      ∨ (op = .beginToken ∧ (s.call probe op).2.requestGeneration = s.requestGeneration
        ∧ (s.call probe op).2.tokenGeneration = saturatingAdd u64Max s.tokenGeneration 1)
      ∨ (op ≠ .beginRequest ∧ op ≠ .beginToken
        ∧ (s.call probe op).2.requestGeneration = s.requestGeneration
        ∧ (s.call probe op).2.tokenGeneration = s.tokenGeneration) := by
  cases op with
  | beginRequest => exact inl ⟨rfl, rfl, rfl⟩
  | beginToken => exact inr (inl ⟨rfl, rfl, rfl⟩)
  | claimStage layer expert =>
    refine inr (inr ⟨nofun, nofun, ?_⟩)
    show (s.claimStage layer expert).2.requestGeneration = _ ∧
      (s.claimStage layer expert).2.tokenGeneration = _
    unfold claimStage
    repeat' split
    all_goals exact ⟨rfl, rfl⟩
  | claimDemand layer expert =>
    refine inr (inr ⟨nofun, nofun, ?_⟩)
    show (s.claimDemand layer expert).2.requestGeneration = _ ∧
      (s.claimDemand layer expert).2.tokenGeneration = _
    unfold claimDemand
    repeat' split
    all_goals exact ⟨rfl, rfl⟩
  | setEvent layer expert event =>
    refine inr (inr ⟨nofun, nofun, ?_⟩)
    show (s.setEvent layer expert event).requestGeneration = _ ∧
      (s.setEvent layer expert event).tokenGeneration = _
    unfold setEvent
    repeat' split
    all_goals exact ⟨rfl, rfl⟩
  | consume layer expert =>
    refine inr (inr ⟨nofun, nofun, ?_⟩)
    show (s.consume layer expert).2.requestGeneration = _ ∧
      (s.consume layer expert).2.tokenGeneration = _
    unfold consume
    repeat' split
    all_goals exact ⟨rfl, rfl⟩
  | lookup layer expert =>
    refine inr (inr ⟨nofun, nofun, ?_⟩)
    show (s.lookup probe layer expert).2.requestGeneration = _ ∧
      (s.lookup probe layer expert).2.tokenGeneration = _
    unfold lookup
    repeat' split
    all_goals exact ⟨rfl, rfl⟩

/-- A claim is of either kind, and is not made when a token or a request
begins. -/
theorem claimed_spec (h : s.claimed op = some c) :
    (c.Stages s c.layer c.expert ∨ c.Demands s c.layer c.expert)
      ∧ op ≠ .beginRequest ∧ op ≠ .beginToken := by
  cases op with
  | claimStage layer expert =>
    have hst := (claimStage_of_some h).1
    refine ⟨inl ?_, nofun, nofun⟩
    rwa [congrArg Claim.layer hst.eq, congrArg Claim.expert hst.eq]
  | claimDemand layer expert =>
    have hdem := (claimDemand_of_some h).1
    refine ⟨inr ?_, nofun, nofun⟩
    rwa [congrArg Claim.layer hdem.eq, congrArg Claim.expert hdem.eq]
  | beginRequest | beginToken | setEvent | consume | lookup => cases h

/-- The tag that a claim gives is of the request and at most of the next
token. -/
theorem Claim.tag_le (h : s.claimed op = some c) : c.tag.requestGeneration = s.requestGeneration
      ∧ c.tag.tokenGeneration ≤ s.tokenGeneration + 1 := by
  rcases (claimed_spec h).1 with hs | hd
  · have htag : c.tag = s.stageTag := by
      rw [hs.eq]
      rfl
    rw [htag]
    exact ⟨rfl, min_le_left _ _⟩
  · have htag : c.tag = s.consumeTag := by
      rw [hd.eq]
      rfl
    rw [htag]
    exact ⟨rfl, Nat.le_succ _⟩

/-- **How far the tags go**, after a call: no entry has a tag of the time to
come. -/
theorem Traced.bounds (h : Traced s log) (hs : Below s) (hs' : Below (s.call probe op).2)
    {e' : StageSlot} (he' : (s.call probe op).2.entry p = some e') :
    e'.tag.requestGeneration ≤ (s.call probe op).2.requestGeneration
      ∧ (e'.tag.requestGeneration = (s.call probe op).2.requestGeneration →
        e'.tag.tokenGeneration ≤ (s.call probe op).2.tokenGeneration + 1) := by
  obtain ⟨e, he, hch⟩ := change_call s probe op he'
  have hreq := h.request p e he
  have htok := h.token p e he
  have hmon : s.requestGeneration ≤ (s.call probe op).2.requestGeneration
      ∧ (s.requestGeneration = (s.call probe op).2.requestGeneration →
        s.tokenGeneration ≤ (s.call probe op).2.tokenGeneration) := by
    rcases generations_call s probe op with ⟨-, hr, ht⟩ | ⟨-, hr, ht⟩ | ⟨-, -, hr, ht⟩
    · have hlt := hs'.1
      rw [hr] at hlt ⊢
      unfold saturatingAdd at hlt ⊢
      omega
    · rw [hr, ht]
      have := hs.2
      unfold saturatingAdd
      omega
    · rw [hr, ht]
      exact ⟨le_refl _, fun _ => le_refl _⟩
  have hold : e.tag.requestGeneration ≤ (s.call probe op).2.requestGeneration
      ∧ (e.tag.requestGeneration = (s.call probe op).2.requestGeneration →
        e.tag.tokenGeneration ≤ (s.call probe op).2.tokenGeneration + 1) := by
    refine ⟨hreq.trans hmon.1, fun heq => ?_⟩
    have hsam : e.tag.requestGeneration = s.requestGeneration :=
      le_antisymm hreq (heq.symm ▸ hmon.1)
    exact (htok hsam).trans (Nat.succ_le_succ (hmon.2 (hsam.symm.trans heq)))
  cases hch with
  | kept | used | recorded | expired => exact hold
  | taken c hcl =>
    obtain ⟨hr, ht⟩ := Claim.tag_le hcl
    show c.tag.requestGeneration ≤ _ ∧ (c.tag.requestGeneration = _ → c.tag.tokenGeneration ≤ _)
    refine ⟨hr.trans_le hmon.1, fun heq => ?_⟩
    exact ht.trans (Nat.succ_le_succ (hmon.2 (hr.symm.trans heq)))
  | reset hop =>
    subst hop
    exact ⟨le_refl _, fun _ => Nat.zero_le _⟩

/-- No entry has the tag of what a token or a request that begins will
stage. -/
theorem Traced.tag_ne (h : Traced s log) (hs' : Below (s.call probe op).2)
    (hop : op = .beginRequest ∨ op = .beginToken) (he : s.entry p = some e) :
    e.tag ≠ (s.call probe op).2.stageTag := by
  intro htag
  rw [stageTag_of_below hs'] at htag
  have hreq := h.request p e he
  have htok := h.token p e he
  rw [htag] at hreq htok
  dsimp only at hreq htok
  rcases hop with rfl | rfl
  · have hlt : min (s.requestGeneration + 1) u64Max < u64Max := hs'.1
    change min (s.requestGeneration + 1) u64Max ≤ _ at hreq
    omega
  · have hlt : min (s.tokenGeneration + 1) u64Max < u64Max := hs'.2
    have := htok rfl
    change min (s.tokenGeneration + 1) u64Max + 1 ≤ _ at this
    omega

/-! ## The claim in the log -/

/-- What is written into the log later on does not change where the bytes of
a slot come from, if it repeats the claim at most. -/
theorem Backs.append {later : List (Record candidates)} (h : Backs log p e c later)
    (new : List (Record candidates))
    (hnew : ∀ c', Record.claim c' ∈ new → c'.place = p → c' = { c with fresh := false }) :
    Backs (log ++ new) p e c (later ++ new) where
  origin := by
    obtain ⟨before, hlog⟩ := h.origin.split
    refine ⟨⟨before, ?_⟩, h.origin.place, h.origin.purpose, h.origin.fresh, fun c' hc' hpl => ?_⟩
    · rw [hlog, append_assoc, cons_append]
    · rcases mem_append.mp hc' with hl | hn
      · exact h.origin.repeats c' hl hpl
      · exact hnew c' hn hpl
  layer := h.layer
  expert := h.expert
  tag := h.tag
  event := fun hev => by
    obtain ⟨event, hpos, hmem⟩ := h.event hev
    exact ⟨event, hpos, mem_append_left _ hmem⟩

/-- **A claim that takes nothing repeats the claim of its slot.** -/
theorem Backs.repeats {later : List (Record candidates)} (h : Backs log p e c later)
    (hs : Below s) (he : s.entry p = some e) {c' : Claim candidates}
    (hc' : c'.Stages s c'.layer c'.expert) (hfr : c'.fresh = false) (hpl : c'.place = p) :
    c' = { c with fresh := false } := by
  obtain ⟨e₀, he₀, -, hkn⟩ := hc'.entry
  rw [hpl, he] at he₀
  cases he₀
  obtain ⟨hexp, htag⟩ := hkn hfr
  rw [stageTag_of_below hs, h.tag] at htag
  obtain ⟨hreq, htok⟩ := SlotTag.mk.inj htag
  have hlay : c.layer = c'.layer := by
    rw [h.layer, ← hpl, hc'.row]
    have : s.stageParity < 2 := Nat.mod_lt _ two_pos
    omega
  have hc := hc'.eq
  rw [hfr, hpl, ← hlay, ← hexp, ← h.expert, ← hreq, ← Nat.succ.inj htok,
    ← h.origin.place, ← h.origin.purpose] at hc
  exact hc

/-- A fresh claim for the next token backs the entry that it makes. -/
theorem backs_claim (hs : Below s) (hcl : c.Stages s c.layer c.expert) (hfr : c.fresh = true) :
    Backs (log ++ [.claim c]) c.place c.entry c [] where
  origin := ⟨⟨log, rfl⟩, rfl, congrArg Claim.purpose hcl.eq, hfr, fun _ h => by cases h⟩
  layer := by
    rw [hcl.row]
    have : s.stageParity < 2 := Nat.mod_lt _ two_pos
    omega
  expert := rfl
  tag := by
    show c.tag = _
    rw [hcl.eq]
    exact stageTag_of_below hs
  event := fun h => absurd h (lt_irrefl 0)

/-- **One call keeps the invariant.** -/
theorem Traced.next (h : Traced s log) (probe : ℤ → Option Bool) (op : Op) (hs : Below s)
    (hs' : Below (s.call probe op).2) : Traced (s.call probe op).2 (log ++ s.records op) where
  request := fun p e' he' => (h.bounds hs hs' he').1
  token := fun p e' he' => (h.bounds hs hs' he').2
  backed := fun p e' he' hnd => by
    obtain ⟨e, he, hch⟩ := change_call s probe op he'
    -- what an entry carries over: its claim, unless the tag is only now the one to fill
    have hold (hexp : e'.expert = e.expert) (htag : e'.tag = e.tag) (hop : op ≠ .beginRequest)
        (hcl : ∀ c, s.claimed op = some c → c.place = p →
          c.Stages s c.layer c.expert ∧ c.fresh = false)
        (hev : 0 < e'.event → 0 < e.event ∨
          s.recorded op = some (p, e'.event) ∧ e.tag = s.stageTag) :
        ∃ c later, Backs (log ++ s.records op) p e' c later := by
      have hnd' : e.tag = s.stageTag ∨ 0 < e.event := by
        rcases hnd with hst | hpos
        · by_cases hbeg : op = .beginToken
          · exact absurd (htag.symm.trans hst) (h.tag_ne hs' (inr hbeg) he)
          · left
            rcases generations_call s probe op with ⟨h₁, -⟩ | ⟨h₁, -⟩ | ⟨-, -, hr, ht⟩
            · exact absurd h₁ hop
            · exact absurd h₁ hbeg
            · rw [← htag, hst]
              unfold stageTag
              rw [hr, ht]
        · rcases hev hpos with hpos' | ⟨-, htag'⟩
          · exact inr hpos'
          · exact inl htag'
      obtain ⟨c, later, hb⟩ := h.backed p e he hnd'
      have hb' := hb.append (s.records op) fun c' hc' hpl => by
        obtain ⟨hstg, hfr⟩ := hcl c' (claim_mem_records.mp hc') hpl
        exact hb.repeats hs he hstg hfr hpl
      refine ⟨c, later ++ s.records op, hb'.origin, hb'.layer, hb'.expert.trans hexp.symm,
        htag.trans hb'.tag, fun hpos => ?_⟩
      rcases hev hpos with hpos' | ⟨hrec, -⟩
      · exact hb'.event hpos'
      · exact ⟨_, hpos, mem_append_right _ (event_mem_records hrec)⟩
    cases hch with
    | kept hcl hop => exact hold rfl rfl hop hcl inl
    | used hnon hop =>
      exact hold rfl rfl hop.2 (fun c hc => by rw [hnon] at hc; cases hc) inl
    | recorded layer expert event hop hrec hexp htag =>
      subst hop
      exact hold rfl rfl nofun (fun c hc => by cases hc)
        fun _ => inr ⟨hrec, htag⟩
    | taken c hcl hpl hfr =>
      subst hpl
      obtain ⟨hkin, hop₁, hop₂⟩ := claimed_spec hcl
      have hrcr : s.records op = [.claim c] := by
        unfold records
        cases op with
        | claimStage | claimDemand => rw [hcl]; rfl
        | _ => cases hcl
      rw [hrcr]
      rcases hkin with hs' | hd
      · exact ⟨c, [], backs_claim hs hs' hfr⟩
      · -- a slot claimed on demand has neither the tag of the next token nor an event
        exfalso
        rcases hnd with hst | hpos
        · rcases generations_call s probe op with ⟨h₁, -⟩ | ⟨h₁, -⟩ | ⟨-, -, hr, ht⟩
          · exact hop₁ h₁
          · exact hop₂ h₁
          · have htag : c.entry.tag = s.consumeTag := by
              show c.tag = _
              rw [hd.eq]
              rfl
            rw [htag, stageTag_of_below hs', hr, ht] at hst
            exact absurd (SlotTag.mk.inj hst).2 (Nat.succ_ne_self _).symm
        · exact lt_irrefl 0 hpos
    | expired hop =>
      exfalso
      rcases hnd with hst | hpos
      · exact h.tag_ne hs' (inr hop) he hst
      · exact lt_irrefl 0 hpos
    | reset hop =>
      exfalso
      subst hop
      rcases hnd with hst | hpos
      · rw [stageTag_of_below hs'] at hst
        cases (SlotTag.mk.inj hst).2
      · exact lt_irrefl 0 hpos

end Step

/-! ## Runs -/

/-- In the arena as it is built no slot is claimed. -/
theorem traced_built (layers stride : ℕ) (slots : ℕ → Fin candidates → ℤ) :
    Traced (built layers stride slots) [] := by
  have hent (p : Place candidates) (e : StageSlot)
      (he : (built layers stride slots).entry p = some e) : e.tag = ⟨0, 0⟩ ∧ e.event = 0 := by
    obtain ⟨row, hrow, rfl⟩ := Option.map_eq_some_iff.mp he
    obtain ⟨index, -, rfl⟩ := mem_map.mp (mem_of_getElem? hrow)
    exact ⟨rfl, rfl⟩
  constructor
  · intro p e he
    rw [(hent p e he).1]
    exact Nat.zero_le _
  · intro p e he _
    rw [(hent p e he).1]
    exact Nat.zero_le _
  · rintro p e he (htag | hpos)
    · rw [(hent p e he).1] at htag
      cases (SlotTag.mk.inj htag).2
    · rw [(hent p e he).2] at hpos
      exact absurd hpos (lt_irrefl 0)

/-- The log of a run: what its calls have written. -/
def log (s : StageArena candidates) (calls : List ((ℤ → Option Bool) × Op)) :
    List (Record candidates) :=
  (machine candidates).gather (fun s i => s.records i.2) s calls

/-- **The invariant holds along a run** whose generations stay below their
end. -/
theorem Traced.run {s : StageArena candidates} {past : List (Record candidates)}
    (h : Traced s past) (hs : Below s) {calls : List ((ℤ → Option Bool) × Op)}
    (hbel : (machine candidates).Within Below s calls) :
    Traced ((machine candidates).run s calls) (past ++ log s calls)
      ∧ Below ((machine candidates).run s calls) := by
  induction calls generalizing s past with
  | nil =>
    rw [show past ++ log s [] = past from List.append_nil past]
    exact ⟨h, hs⟩
  | cons i calls ih =>
    have hnex : Below ((machine candidates).next s i) := hbel.1
    have := ih (h.next i.1 i.2 hs hnex) hnex hbel.2
    rw [append_assoc] at this
    exact this

/-- **Staged bytes are never stale.** When a lookup hands out a slot, at once
or after a wait, then the slot was claimed by `claim_stage` for this layer
and expert, in the current request and during the token before the current
one; since that claim an event of a load has been recorded for the slot, and
nobody has claimed it again, but for repetitions of the very same claim. -/
theorem lookup_origin (layers stride : ℕ) (slots : ℕ → Fin candidates → ℤ)
    (calls : List ((ℤ → Option Bool) × Op))
    (hbelow : (machine candidates).Within Below (built layers stride slots) calls)
    (probe : ℤ → Option Bool) (layer : ℕ) (expert : UInt32) (take : StagedTake) (slot : ℤ)
    (hlookup : (((machine candidates).run (built layers stride slots) calls).lookup
      probe layer expert).1 = some take) (htake : take.slot? = some slot) :
    ∃ p c later, ((machine candidates).run (built layers stride slots) calls).slotAt p = some slot
      ∧ Origin (log (built layers stride slots) calls) p c later
      ∧ c.layer = layer ∧ c.expert = expert
      ∧ c.request = ((machine candidates).run (built layers stride slots) calls).requestGeneration
      ∧ c.token + 1 = ((machine candidates).run (built layers stride slots) calls).tokenGeneration
      ∧ ∃ event, 0 < event ∧ Record.event p event ∈ later := by
  obtain ⟨h, -⟩ := (traced_built layers stride slots).run
    ⟨show 0 < u64Max by decide, show 0 < u64Max by decide⟩ hbelow
  obtain ⟨i, e, he, hsl, hexp, htag, hev⟩ :=
    (lookup_spec _ probe layer expert).2 take slot hlookup htake
  obtain ⟨c, later, hb⟩ := h.backed _ e he (inr hev)
  rw [nil_append] at hb
  obtain ⟨hreq, htok⟩ := SlotTag.mk.inj (hb.tag.symm.trans htag)
  refine ⟨_, c, later, hsl, hb.origin, ?_, hb.expert.trans hexp, hreq, htok, hb.event hev⟩
  rw [hb.layer]
  have : ((machine candidates).run (built layers stride slots) calls).consumeParity < 2 :=
    Nat.mod_lt _ two_pos
  show (layer * 2 + _) / 2 = layer
  omega

/-- An expert that is staged, loaded and found by the next token. -/
theorem lookup_origin_staged : ∃ p c later, ((machine 1).run (built 1 1024 fun index _ => index)
        [(fun _ => none, .claimStage 0 7), (fun _ => some false, .setEvent 0 7 5),
          (fun _ => some false, .beginToken)]).slotAt p = some 1
      ∧ Origin (log (built 1 1024 fun index _ => index)
        [(fun _ => none, .claimStage 0 7), (fun _ => some false, .setEvent 0 7 5),
          (fun _ => some false, .beginToken)]) p c later
      ∧ c.layer = 0 ∧ c.expert = 7 ∧ c.request = 0 ∧ c.token + 1 = 1
      ∧ ∃ event, 0 < event ∧ Record.event p event ∈ later :=
  lookup_origin 1 1024 (fun index (_ : Fin 1) => index)
    [(fun _ => none, .claimStage 0 7), (fun _ => some false, .setEvent 0 7 5),
      (fun _ => some false, .beginToken)]
    (by decide) (fun _ => some true) 0 7 (.hit 1) 1 (by decide) rfl

end StageArena

end Stage

end Logan
