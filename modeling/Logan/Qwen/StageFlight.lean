import Logan.Qwen.StageClaims

/-!
# Slots and the loads in flight

A load that is submitted into a slot of the staging arena writes to its
memory until it is over, and so the slot must not be handed out to be loaded
into again. The system (`Flights`) is the arena and the device slots whose
loads are *in flight*: a call that records an event puts the slot into
flight, a completion takes it out, and a probe of a slot in flight answers
`Some(false)`.

A new request releases every slot, whatever the device does – the row's
`release_all` is documented to leave the slots in flight alone, and does not
– and `claim_demand` answers with the slot of an expert that is already
staged, whether it has arrived or not. Where neither happens
(`Flights.Careful`) no slot is handed out while it is in flight
(`Flights.exclusive`).
-/

namespace Logan

open Option

namespace Stage

open StageArena

/-- **The arena, and the device slots with a load in flight.** -/
structure Flights (candidates : ℕ) where
  arena : StageArena candidates
  flying : List ℤ

namespace Flights

variable {candidates : ℕ}

/-- What happens: a call of the arena, with the answers of the device about
slots that no load is in flight for, or the completion of a load. -/
inductive Input where
  | call (probe : ℤ → Option Bool) (op : Op)
  | complete (slot : ℤ)

/-- The answers of the device: a slot in flight is not complete. -/
def probed (f : Flights candidates) (probe : ℤ → Option Bool) (slot : ℤ) : Option Bool :=
  if slot ∈ f.flying then some false else probe slot

/-- The slot that a call puts into flight: the one it records an event
for. -/
def launched (s : StageArena candidates) (op : Op) : List ℤ :=
  ((s.recorded op).bind fun r => s.slotAt r.1).toList

/-- **The system as a machine.** The load of a recorded event has been
submitted by the caller just before it records it. -/
def machine (candidates : ℕ) : Machine (Flights candidates) Input Reply where
  step f
    | .call probe op =>
      let (reply, arena) := f.arena.call (f.probed probe) op
      (reply, { arena, flying := launched f.arena op ++ f.flying })
    | .complete slot => (.done, { f with flying := f.flying.filter fun other => other ≠ slot })

/-- The system before the first call. -/
def built (layers stride : ℕ) (slots : ℕ → Fin candidates → ℤ) : Flights candidates where
  arena := StageArena.built layers stride slots
  flying := []

/-- The slot that an answer hands out to be loaded into: that of a fresh
claim for the next token, or of a claim on demand. -/
def handed : Reply → Option ℤ
  | .staged (some (slot, _, true)) => some slot
  | .demanded (some (slot, _)) => some slot
  | _ => none

/-- **No slot in flight is handed out.** -/
def Exclusive (f : Flights candidates) (i : Input) : Prop :=
  ∀ slot ∈ handed ((machine candidates).out f i), slot ∉ f.flying

instance (f : Flights candidates) (i : Input) : Decidable (Exclusive f i) :=
  inferInstanceAs (Decidable (∀ slot ∈ handed ((machine candidates).out f i), slot ∉ f.flying))

/-- A claim for the next token is followed by the positive event of its
load. -/
def Submits : Input → List Input → Prop
  | .call _ (.claimStage layer expert), .call _ (.setEvent layer' expert' event) :: _ =>
    layer' = layer ∧ expert' = expert ∧ 0 < event
  | .call _ (.claimStage _ _), _ => False
  | _, _ => True

/-- **What the caller keeps to**: it submits a load into every slot that it
is handed for the next token. -/
def Disciplined (f : Flights candidates) : List Input → Prop
  | [] => True
  | i :: is => ((handed ((machine candidates).out f i)).isSome → Submits i is)
      ∧ Disciplined ((machine candidates).next f i) is

/-- **The calls that no slot in flight is handed out by**: experts are not
the mark of an available slot, a request begins only once no load is in
flight, and nothing is claimed on demand that is staged for this token and
still on its way. -/
def Careful (f : Flights candidates) : Input → Prop
  | .call _ .beginRequest => f.flying = []
  | .call _ (.claimStage _ expert) => expert ≠ free
  | .call probe (.claimDemand layer expert) =>
    expert ≠ free ∧
      ∀ slot event, (f.arena.lookup (f.probed probe) layer expert).1 ≠ some (.late slot event)
  | .call _ (.setEvent _ expert event) => expert ≠ free ∧ 0 < event
  | _ => True

/-- A call that starts a token or a request. -/
def Begins : Input → Prop
  | .call _ .beginRequest => True
  | .call _ .beginToken => True
  | _ => False

/-- A claim for a layer and an expert, of either kind. -/
def Claims (layer : ℕ) (expert : UInt32) : Input → Prop
  | .call _ (.claimStage layer' expert') => layer' = layer ∧ expert' = expert
  | .call _ (.claimDemand layer' expert') => layer' = layer ∧ expert' = expert
  | _ => False

/-- The slot that a claim is answered with, taken now or before. -/
def given : Reply → Option ℤ
  | .staged (some (slot, _, _)) => some slot
  | .demanded (some (slot, _)) => some slot
  | _ => none

/-! ## The invariant -/

/-- **The invariant**: the device slots are distinct, and the slot of every
load in flight is claimed, with the event of the load. -/
structure Guarded (f : Flights candidates) : Prop where
  distinct : ∀ p q slot, f.arena.slotAt p = some slot → f.arena.slotAt q = some slot → p = q
  flying : ∀ slot ∈ f.flying, ∃ p e, f.arena.slotAt p = some slot ∧ f.arena.entry p = some e
    ∧ e.expert ≠ free ∧ 0 < e.event

section Step

variable {f : Flights candidates} {probe : ℤ → Option Bool} {op : Op} {p : Place candidates}
  {slot : ℤ} {e : StageSlot}

/-- Every place has an entry and a device slot, or neither. -/
theorem exists_entry {s : StageArena candidates} (h : s.slotAt p = some slot) :
    ∃ e, s.entry p = some e := by
  obtain ⟨row, hrow, -⟩ := map_eq_some_iff.mp h
  refine ⟨row.stage p.2, ?_⟩
  unfold entry
  rw [hrow]
  rfl

theorem probed_of_flying (h : slot ∈ f.flying) : f.probed probe slot = some false := if_pos h

variable {expert : UInt32}

/-- A claim on demand, where the caller is careful, is not of a slot in
flight. -/
theorem not_flying_of_demand {layer : ℕ} {c : Claim candidates}
    (hcar : Careful f (.call probe (.claimDemand layer expert)))
    (hc : f.arena.demandClaim layer expert = some c) (hsl : f.arena.slotAt c.place = some slot)
    (he : f.arena.entry c.place = some e) (hexp : e.expert ≠ free) (hev : 0 < e.event) :
    slot ∉ f.flying := fun hfly =>
  hcar.2 slot e.event (lookup_of_demandClaim hc he hsl hexp hev (probed_of_flying hfly))

/-- **A call leaves a slot in flight claimed**, and its event recorded. -/
theorem guarded_call_flying (h : Guarded f) (hcar : Careful f (.call probe op))
    (hfly : slot ∈ f.flying) : ∃ p e, (f.arena.call (f.probed probe) op).2.slotAt p = some slot
      ∧ (f.arena.call (f.probed probe) op).2.entry p = some e
      ∧ e.expert ≠ free ∧ 0 < e.event := by
  obtain ⟨p, e, hsl, he, hexp, hev⟩ := h.flying slot hfly
  have hsl' := (slotAt_call f.arena (f.probed probe) op p).trans hsl
  obtain ⟨e', he'⟩ := exists_entry hsl'
  refine ⟨p, e', hsl', he', ?_⟩
  obtain ⟨e₀, he₀, hch⟩ := change_call f.arena (f.probed probe) op he'
  cases he.symm.trans he₀
  cases hch with
  | kept | used => exact ⟨hexp, hev⟩
  | recorded layer expert event hop =>
    subst hop
    exact ⟨hexp, hcar.2⟩
  | taken c hcl hpl hfr htak =>
    exfalso
    rcases htak with hfre | ⟨hpur, -, -⟩
    · exact hexp hfre
    · subst hpl
      cases op with
      | claimStage =>
        rw [(claimStage_of_some hcl).1.eq] at hpur
        cases hpur
      | claimDemand =>
        exact not_flying_of_demand hcar hcl hsl he hexp hev hfly
      | _ => cases hcl
  | expired hop hdon => exact absurd ⟨hev, probed_of_flying hfly⟩ (hdon slot hsl)
  | reset hop =>
    subst hop
    rw [show f.flying = [] from hcar] at hfly
    cases hfly

/-- A slot that a call puts into flight is claimed, and its event
recorded. -/
theorem guarded_call_launched (hcar : Careful f (.call probe op))
    (hlnc : slot ∈ launched f.arena op) :
    ∃ p e, (f.arena.call (f.probed probe) op).2.slotAt p = some slot
      ∧ (f.arena.call (f.probed probe) op).2.entry p = some e
      ∧ e.expert ≠ free ∧ 0 < e.event := by
  obtain ⟨⟨p, event'⟩, hrec, hsl⟩ := bind_eq_some_iff.mp (mem_toList.mp hlnc)
  cases op with
  | setEvent layer expert event =>
    obtain ⟨-, e, -, hexp, hent⟩ := setEvent_of_recorded hrec
    refine ⟨p, _, (slotAt_call _ _ _ p).trans hsl, hent, ?_, hcar.2⟩
    rw [show ({ e with event } : StageSlot).expert = expert from hexp]
    exact hcar.1
  | _ => cases hrec

/-- **Everything that happens carefully keeps the invariant.** -/
theorem Guarded.next (h : Guarded f) (i : Input) (hcar : Careful f i) :
    Guarded ((machine candidates).next f i) := by
  cases i with
  | call =>
    refine ⟨fun p q slot hp hq => ?_, fun slot hsl => ?_⟩
    · exact h.distinct p q slot ((slotAt_call _ _ _ p).symm.trans hp)
        ((slotAt_call _ _ _ q).symm.trans hq)
    · rcases List.mem_append.mp hsl with hnew | hold
      · exact guarded_call_launched hcar hnew
      · exact guarded_call_flying h hcar hold
  | complete =>
    exact ⟨h.distinct, fun other hoth => h.flying other (List.mem_filter.mp hoth).1⟩

/-- **Nothing in flight is handed out**, where the invariant holds and the
call is made with care. -/
theorem Guarded.exclusive (h : Guarded f) (i : Input) (hcar : Careful f i) : Exclusive f i := by
  intro slot hhan hfly
  obtain ⟨p, e, hsl, he, hexp, hev⟩ := h.flying slot hfly
  cases i with
  | complete => cases hhan
  | call probe op =>
    cases op with
    | claimStage layer expert =>
      have hout : (machine candidates).out f (.call probe (.claimStage layer expert))
          = .staged (f.arena.claimStage layer expert).1 := rfl
      rw [hout] at hhan
      cases hc : f.arena.stageClaim layer expert with
      | none =>
        rw [(claimStage_of_none hc).1] at hhan
        cases hhan
      | some c =>
        obtain ⟨hst, slot', hsl', hrep, -⟩ := claimStage_of_some hc
        rw [hrep] at hhan
        obtain ⟨e', he', hfr, -⟩ := hst.entry
        cases hfrs : c.fresh with
        | false =>
          rw [hfrs] at hhan
          cases hhan
        | true =>
          rw [hfrs] at hhan
          cases hhan
          cases h.distinct p c.place slot hsl hsl'
          cases he.symm.trans he'
          exact hexp (hfr hfrs)
    | claimDemand layer expert =>
      have hout : (machine candidates).out f (.call probe (.claimDemand layer expert))
          = .demanded (f.arena.claimDemand layer expert).1 := rfl
      rw [hout] at hhan
      cases hc : f.arena.demandClaim layer expert with
      | none =>
        rw [claimDemand_of_none hc] at hhan
        cases hhan
      | some c =>
        obtain ⟨hdem, slot', hsl', hrep⟩ := claimDemand_of_some hc
        rw [hrep] at hhan
        cases hhan
        cases h.distinct p c.place slot hsl hsl'
        exact not_flying_of_demand hcar hc hsl he hexp hev hfly
    | _ => cases hhan

/-! ## Distinct experts -/

/-- The slot at a place is the expert's. -/
def Owned (f : Flights candidates) (p : Place candidates) (expert : UInt32) : Prop :=
  ∃ e, f.arena.entry p = some e ∧ e.expert = expert

/-- A slot stays its expert's until a token or a request begins. -/
theorem Owned.next (h : Owned f p expert) (hexp : expert ≠ free) {i : Input}
    (hbeg : ¬ Begins i) : Owned ((machine candidates).next f i) p expert := by
  obtain ⟨e, he, rfl⟩ := h
  cases i with
  | complete => exact ⟨e, he, rfl⟩
  | call probe op =>
    obtain ⟨row, hrow, -⟩ := map_eq_some_iff.mp he
    have hsl : f.arena.slotAt p = some (row.slots p.2) := by
      unfold slotAt
      rw [hrow]
      rfl
    obtain ⟨e', he'⟩ := exists_entry ((slotAt_call f.arena (f.probed probe) op p).trans hsl)
    refine ⟨e', he', ?_⟩
    obtain ⟨e₀, he₀, hch⟩ := change_call f.arena (f.probed probe) op he'
    cases he.symm.trans he₀
    cases hch with
    | kept | used | recorded => rfl
    | taken c hcl hpl hfr htak =>
      rcases htak with hfre | ⟨-, hsam, -⟩
      · exact absurd hfre hexp
      · exact hsam.symm
    | expired hop =>
      subst hop
      exact absurd trivial hbeg
    | reset hop =>
      subst hop
      exact absurd trivial hbeg

theorem Owned.run {f : Flights candidates} (h : Owned f p expert) (hexp : expert ≠ free)
    {mid : List Input} (hmid : ∀ i ∈ mid, ¬ Begins i) :
    Owned ((machine candidates).run f mid) p expert := by
  induction mid generalizing f with
  | nil => exact h
  | cons i mid ih =>
    exact ih (h.next hexp (hmid i List.mem_cons_self))
      fun j hj => hmid j (List.mem_cons_of_mem i hj)

/-- **The slot that a claim gives**: before the claim it is available, or the
expert's already; after it, it is the expert's. -/
theorem given_spec {layer : ℕ} {i : Input} (hi : Claims layer expert i)
    (hgiv : given ((machine candidates).out f i) = some slot) :
    ∃ p, f.arena.slotAt p = some slot ∧ (Owned f p free ∨ Owned f p expert)
      ∧ Owned ((machine candidates).next f i) p expert := by
  cases i with
  | complete => cases hi
  | call probe op =>
    have haft {c : Claim candidates} {s' : StageArena candidates} {e : StageSlot}
        (he : f.arena.entry c.place = some e)
        (hs' : s' = f.arena.put c.place.1 c.place.2 c.entry) (hc : c.expert = expert) :
        ∃ e', s'.entry c.place = some e' ∧ e'.expert = expert := by
      obtain ⟨row, hrow, -⟩ := map_eq_some_iff.mp he
      refine ⟨c.entry, ?_, hc⟩
      rw [hs', entry_put hrow, if_pos rfl]
    cases op with
    | claimStage layer' expert' =>
      obtain ⟨rfl, rfl⟩ := hi
      cases hc : f.arena.stageClaim layer' expert' with
      | none =>
        change given (.staged (f.arena.claimStage layer' expert').1) = _ at hgiv
        rw [(claimStage_of_none hc).1] at hgiv
        cases hgiv
      | some c =>
        obtain ⟨hst, slot', hsl', hrep, hstt⟩ := claimStage_of_some hc
        change given (.staged (f.arena.claimStage layer' expert').1) = _ at hgiv
        rw [hrep] at hgiv
        cases hgiv
        obtain ⟨e, he, hfr, hkn⟩ := hst.entry
        refine ⟨c.place, hsl', ?_⟩
        cases hfrs : c.fresh with
        | true =>
          refine ⟨Or.inl ⟨e, he, hfr hfrs⟩, ?_⟩
          rw [if_pos hfrs] at hstt
          exact haft he hstt (congrArg Claim.expert hst.eq)
        | false =>
          rw [if_neg (by rw [hfrs]; exact Bool.false_ne_true)] at hstt
          refine ⟨Or.inr ⟨e, he, (hkn hfrs).1⟩, e, ?_, (hkn hfrs).1⟩
          exact (congrArg (fun s => StageArena.entry s c.place) hstt).trans he
    | claimDemand layer' expert' =>
      obtain ⟨rfl, rfl⟩ := hi
      cases hc : f.arena.demandClaim layer' expert' with
      | none =>
        change given (.demanded (f.arena.claimDemand layer' expert').1) = _ at hgiv
        rw [claimDemand_of_none hc] at hgiv
        cases hgiv
      | some c =>
        obtain ⟨hdem, slot', hsl', hrep⟩ := claimDemand_of_some hc
        change given (.demanded (f.arena.claimDemand layer' expert').1) = _ at hgiv
        rw [hrep] at hgiv
        cases hgiv
        obtain ⟨e, he, hkn⟩ := hdem.entry
        refine ⟨c.place, hsl', hkn.imp (fun h => ⟨e, he, h⟩) (fun h => ⟨e, he, h.1⟩), ?_⟩
        exact haft he (congrArg Prod.snd hrep) (congrArg Claim.expert hdem.eq)
    | _ => cases hi

theorem ne_free_of_careful {layer : ℕ} {i : Input} (hi : Claims layer expert i)
    (hcar : Careful f i) : expert ≠ free := by
  cases i with
  | complete => cases hi
  | call probe op =>
    cases op with
    | claimStage =>
      obtain ⟨-, rfl⟩ := hi
      exact hcar
    | claimDemand =>
      obtain ⟨-, rfl⟩ := hi
      exact hcar.1
    | _ => cases hi

end Step

/-! ## Runs -/

/-- In the arena as it is built, nothing is in flight. -/
theorem guarded_built (layers stride : ℕ) {slots : ℕ → Fin candidates → ℤ}
    (hsl : ∀ p q : Place candidates, p.1 < layers * 2 → q.1 < layers * 2 →
      slots p.1 p.2 = slots q.1 q.2 → p = q) : Guarded (built layers stride slots) := by
  have hat (p : Place candidates) (slot : ℤ)
      (h : (StageArena.built layers stride slots).slotAt p = some slot) :
      p.1 < layers * 2 ∧ slots p.1 p.2 = slot := by
    obtain ⟨row, hrow, rfl⟩ := map_eq_some_iff.mp h
    have hrow' : ((List.range (layers * 2))[p.1]?).map _ = some row :=
      List.getElem?_map.symm.trans hrow
    obtain ⟨index, hidx, rfl⟩ := map_eq_some_iff.mp hrow'
    obtain ⟨hlt, rfl⟩ := List.getElem?_eq_some_iff.mp hidx
    rw [List.length_range] at hlt
    rw [List.getElem_range]
    exact ⟨hlt, rfl⟩
  refine ⟨fun p q slot hp hq => ?_, fun slot h => by cases h⟩
  obtain ⟨hp₁, hp₂⟩ := hat p slot hp
  obtain ⟨hq₁, hq₂⟩ := hat q slot hq
  exact hsl p q hp₁ hq₁ (hp₂.trans hq₂.symm)

theorem slotAt_run (f : Flights candidates) (is : List Input) (p : Place candidates) :
    ((machine candidates).run f is).arena.slotAt p = f.arena.slotAt p := by
  induction is generalizing f with
  | nil => rfl
  | cons i is ih =>
    refine (ih ((machine candidates).next f i)).trans ?_
    cases i with
    | call => exact slotAt_call _ _ _ p
    | complete => rfl

/-- A careful run hands out nothing in flight. -/
theorem Guarded.along {f : Flights candidates} (h : Guarded f) {is : List Input}
    (hcar : (machine candidates).Along Careful f is) :
    (machine candidates).Along Exclusive f is := by
  induction is generalizing f with
  | nil => trivial
  | cons i is ih =>
    exact ⟨h.exclusive i hcar.1, ih (h.next i hcar.1) hcar.2⟩

/-- Distinct experts of one layer are given distinct slots between two
beginnings of a token or a request. -/
def Separates (f : Flights candidates) (is : List Input) : Prop :=
  ∀ before i mid j after layer expert expert' slot slot',
    is = before ++ i :: (mid ++ j :: after) → (∀ k ∈ mid, ¬ Begins k) →
    Claims layer expert i → Claims layer expert' j → expert ≠ expert' →
    given ((machine candidates).out ((machine candidates).run f before) i) = some slot →
    given ((machine candidates).out ((machine candidates).run f (before ++ i :: mid)) j)
      = some slot' →
    slot ≠ slot'

/-- **No slot is handed out while its load is in flight**, and distinct
experts have distinct slots, in every run of careful calls: the experts are
real, a request begins with no load in flight, and no expert is claimed on
demand whose staged load is on its way. -/
theorem exclusive_separates (layers stride : ℕ) (slots : ℕ → Fin candidates → ℤ)
    (hslots : ∀ p q : Place candidates, p.1 < layers * 2 → q.1 < layers * 2 →
      slots p.1 p.2 = slots q.1 q.2 → p = q)
    (is : List Input) (hcareful : (machine candidates).Along Careful (built layers stride slots) is) :
    (machine candidates).Along Exclusive (built layers stride slots) is
      ∧ Separates (built layers stride slots) is := by
  have hgrd := guarded_built layers stride hslots
  have hrun (before rest : List Input) (h : is = before ++ rest) :
      Guarded ((machine candidates).run (built layers stride slots) before)
        ∧ (machine candidates).Along Careful
          ((machine candidates).run (built layers stride slots) before) rest := by
    rw [h] at hcareful
    obtain ⟨hb, hr⟩ := ((machine candidates).along_append _ _ _ _).mp hcareful
    exact ⟨Machine.run_of_along (fun f i h hc => h.next i hc) hgrd hb, hr⟩
  constructor
  · exact hgrd.along hcareful
  · intro before i mid j after layer expert expert' slot slot' his hmid hi hj hne hsl hsl' heq
    obtain ⟨-, hi_careful, -⟩ := hrun before _ his
    have his' : is = (before ++ i :: mid) ++ j :: after := by
      rw [his, List.append_assoc, List.cons_append]
    obtain ⟨hg, hj_careful, -⟩ := hrun _ _ his'
    have hexp := ne_free_of_careful hi hi_careful
    obtain ⟨p, hp, -, hown⟩ := given_spec hi hsl
    obtain ⟨q, hq, hbef, -⟩ := given_spec hj hsl'
    have haft := hown.run hexp hmid
    have hst : (machine candidates).run (built layers stride slots) (before ++ i :: mid)
        = (machine candidates).run ((machine candidates).next
          ((machine candidates).run (built layers stride slots) before) i) mid := by
      rw [Machine.run_append, Machine.run_cons]
    rw [← hst] at haft
    -- the slots are those of one place, which would belong to both experts
    have hp' : ((machine candidates).run (built layers stride slots)
        (before ++ i :: mid)).arena.slotAt p = some slot := by
      rw [slotAt_run] at hp ⊢
      exact hp
    cases hg.distinct p q slot hp' (heq ▸ hq)
    obtain ⟨e, he, rfl⟩ := haft
    rcases hbef with ⟨e', he', hfr⟩ | ⟨e', he', hsam⟩
    · cases he.symm.trans he'
      exact hexp hfr
    · cases he.symm.trans he'
      exact hne hsam

/-- Two experts staged for one token, while the load of the first is in
flight. -/
theorem exclusive_separates_two :
    (machine 2).Along Exclusive (built 1 1024 fun index i => index * 2 + i)
        [.call (fun _ => none) (.claimStage 0 7), .call (fun _ => none) (.setEvent 0 7 1),
          .call (fun _ => none) (.claimStage 0 9), .call (fun _ => none) (.setEvent 0 9 2)]
      ∧ Separates (built 1 1024 fun index (i : Fin 2) => index * 2 + i)
        [.call (fun _ => none) (.claimStage 0 7), .call (fun _ => none) (.setEvent 0 7 1),
          .call (fun _ => none) (.claimStage 0 9), .call (fun _ => none) (.setEvent 0 9 2)] :=
  exclusive_separates 1 1024 (fun index i => index * 2 + i)
    (by
      rintro ⟨k, i⟩ ⟨l, j⟩ hk hl h
      dsimp only at h
      have hi := i.isLt
      have hj := j.isLt
      exact Prod.ext_iff.mpr ⟨by dsimp only; omega, Fin.ext (by dsimp only; omega)⟩)
    _ ⟨show (7 : UInt32) ≠ free by decide,
      ⟨show (7 : UInt32) ≠ free by decide, show (0 : ℤ) < 1 by decide⟩,
      show (9 : UInt32) ≠ free by decide,
      ⟨show (9 : UInt32) ≠ free by decide, show (0 : ℤ) < 2 by decide⟩, trivial⟩

/-- An expert is staged; the request ends with its load in flight, and the
next expert that is staged is handed the same slot. -/
theorem handed_in_flight : Disciplined (built 1 1024 fun index (_ : Fin 1) => index)
        [.call (fun _ => none) (.claimStage 0 7), .call (fun _ => none) (.setEvent 0 7 1),
          .call (fun _ => none) .beginRequest,
          .call (fun _ => none) (.claimStage 0 9), .call (fun _ => none) (.setEvent 0 9 2)]
      ∧ ¬ (machine 1).Along Exclusive (built 1 1024 fun index _ => index)
        [.call (fun _ => none) (.claimStage 0 7), .call (fun _ => none) (.setEvent 0 7 1),
          .call (fun _ => none) .beginRequest,
          .call (fun _ => none) (.claimStage 0 9), .call (fun _ => none) (.setEvent 0 9 2)] := by
  refine ⟨⟨fun _ => ⟨rfl, rfl, by decide⟩, fun _ => trivial, fun _ => trivial,
    fun _ => ⟨rfl, rfl, by decide⟩, fun _ => trivial, trivial⟩, by decide⟩

end Flights

end Stage

end Logan
