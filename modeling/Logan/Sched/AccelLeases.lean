import Logan.Sched.Accel
import Logan.Sched.CoreTickets

/-!
# A lease lives as long as the native work it was taken for

The three machines are joined only by tickets and lease identifiers, and
each of them is driven by other code too. What holds across all of it is
`AccelSystem.Held`: the leases retained under the tickets, and those in the
hands of the operation in progress, are recorded in the residency manager;
no two of them are the same; and none of them was handed to other code. A
record can only be removed by a release of its own lease, and only the code
that holds the lease releases it, so a retained generation stays resident
until the completion of its ticket takes the leases back
(`lease_lifetime`).

The state of the manager is that of a run of its own operations, `calls`, so
what is known of such runs – that a lease is released once, and that a
record pins its entry – is known here.
-/

namespace Logan

open List SchedulerCore Table
open List.Sublist (refl)

namespace AccelSystem

variable {s s' : AccelSystem} {hand : List Lease} {lease : Lease}

/-- The lease counters of the manager have been within their limits all
along, also in the middle of a submission. -/
def Limited (s : AccelSystem) : Prop :=
  ResidencyManager.machine.Within ResidencyManager.LeaseLimit .new s.calls

theorem Limited.mono (hcal : s.calls <+: s'.calls) (h : s'.Limited) : s.Limited := by
  obtain ⟨more, hmor⟩ := hcal
  unfold Limited at h
  rw [← hmor] at h
  exact ((ResidencyManager.machine.along_append _ _ _ _).mp h).1

/-! ## The invariant -/

/-- The leases retained in a place: under a ticket, or in the hands of the
operation in progress. -/
def retained (s : AccelSystem) (hand : List Lease) : Option Ticket → List Lease
  | none => hand
  | some ticket => (s.accel.inflight.lookup ticket).getD []

/-- **The retained leases are recorded, each in one place, and nobody else
has them.** -/
structure Held (hand : List Lease) (s : AccelSystem) : Prop where
  consistent : s.core.Consistent
  /-- The manager's state is that of a run of its own operations. -/
  replays : s.residency = ResidencyManager.machine.run .new s.calls
  /-- Retained tickets were issued. -/
  ticket_lt : ∀ ticket leases, s.accel.inflight.lookup ticket = some leases →
    ticket.val < s.core.nextTicket
  recorded : ∀ place, ∀ lease ∈ s.retained hand place,
    s.residency.leases.lookup lease.id = some lease.record
  nodup : ∀ place, ((s.retained hand place).map Lease.id).Nodup
  apart : ∀ place place' lease lease', lease ∈ s.retained hand place →
    lease' ∈ s.retained hand place' → lease.id = lease'.id → place = place'
  /-- What was handed out is not retained, and its identifier is in use. -/
  elsewhere : ∀ place, ∀ lease ∈ s.retained hand place, ∀ other ∈ s.handed, other.id ≠ lease.id
  handed_lt : ∀ other ∈ s.handed, other.id.val < s.residency.nextLease

theorem held_new (budget : Budget) : Held [] (new budget) where
  consistent := consistent_new budget
  replays := rfl
  ticket_lt _ _ h := absurd h (by simp [new])
  recorded place lease h := by cases place <;> simp [retained, new] at h
  nodup place := by cases place <;> simp [retained, new]
  apart place _ lease _ h := by cases place <;> simp [retained, new] at h
  elsewhere _ _ _ other h := absurd h (by simp [new])
  handed_lt other h := absurd h (by simp [new])

namespace Held

section Facts

variable (h : Held hand s)

include h

theorem placed : s.residency.Placed := by
  rw [h.replays]
  exact ResidencyManager.run_placed s.calls

theorem leased (hlim : s.Limited) : s.residency.Leased := by
  rw [h.replays]
  exact ResidencyManager.run_leased hlim

/-- The manager's counters are within their limits after one more
operation. -/
theorem next_limit {op : ResidencyOp} (hcal : s'.calls = s.calls ++ [op])
    (hlim : s'.Limited) : (s.residency.execute op).2.LeaseLimit := by
  unfold Limited at hlim
  rw [hcal] at hlim
  have hlas := ((ResidencyManager.machine.along_append _ _ _ _).mp hlim).2.1
  rwa [← h.replays] at hlas

theorem id_lt (hlim : s.Limited) {place : Option Ticket} (hmem : lease ∈ s.retained hand place) :
    lease.id.val < s.residency.nextLease :=
  (h.leased hlim).lease_lt _ _ (h.recorded place lease hmem)

end Facts

/-! ## The operations on the manager -/

section

variable (h : Held hand s)

include h

/-- **One more operation on the manager**, after which the retained leases
are still recorded. -/
theorem call {op : ResidencyOp} {residency : ResidencyManager}
    (hres : residency = (s.residency.execute op).2) {handed : List Lease}
    (hrec : ∀ place, ∀ lease ∈ s.retained hand place,
      residency.leases.lookup lease.id = some lease.record)
    (hhan : ∀ other ∈ handed, other.id.val < residency.nextLease
      ∧ ∀ place, ∀ lease ∈ s.retained hand place, other.id ≠ lease.id) :
    Held hand ⟨s.accel, s.core, residency, s.calls ++ [op], handed⟩ where
  consistent := h.consistent
  replays := by
    show residency = ResidencyManager.machine.run .new (s.calls ++ [op])
    rw [Machine.run_append, ← h.replays, hres]
    rfl
  ticket_lt := h.ticket_lt
  recorded := hrec
  nodup := h.nodup
  apart := h.apart
  elsewhere place lease hmem other hoth := (hhan other hoth).2 place lease hmem
  handed_lt other hoth := (hhan other hoth).1

/-- **The retained leases change places**, or some of them are let go. -/
theorem relabel (source : Option Ticket → Option Ticket) {hand' : List Lease}
    {accel : Accel} {core : SchedulerCore} (hcon : core.Consistent)
    (hlt : ∀ ticket leases, accel.inflight.lookup ticket = some leases →
      ticket.val < core.nextTicket)
    (hsub : ∀ place, (retained ⟨accel, core, s.residency, s.calls, s.handed⟩ hand' place).Sublist
      (s.retained hand (source place))) (hinj : ∀ place place' lease lease',
      lease ∈ retained ⟨accel, core, s.residency, s.calls, s.handed⟩ hand' place →
      lease' ∈ retained ⟨accel, core, s.residency, s.calls, s.handed⟩ hand' place' →
      source place = source place' → place = place') :
    Held hand' ⟨accel, core, s.residency, s.calls, s.handed⟩ where
  consistent := hcon
  replays := h.replays
  ticket_lt := hlt
  recorded place lease hmem := h.recorded (source place) lease ((hsub place).mem hmem)
  nodup place := (h.nodup (source place)).sublist ((hsub place).map _)
  apart place place' lease lease' hmem hmem' heq :=
    hinj place place' lease lease' hmem hmem'
      (h.apart _ _ lease lease' ((hsub place).mem hmem) ((hsub place').mem hmem') heq)
  elsewhere place lease hmem := h.elsewhere (source place) lease ((hsub place).mem hmem)
  handed_lt := h.handed_lt

/-- Some of the leases in hand are let go. -/
theorem lighten {hand' : List Lease} (hsub : hand'.Sublist hand) : Held hand' s :=
  h.relabel id h.consistent h.ticket_lt (fun place => by
      cases place with
      | none => exact hsub
      | some => exact refl _)
    (fun _ _ _ _ _ _ heq => heq)

theorem core_next {core : SchedulerCore} (hcon : core.Consistent)
    (hnex : s.core.nextTicket ≤ core.nextTicket) : Held hand { s with core := core } :=
  h.relabel id hcon (fun ticket leases hl => (h.ticket_lt ticket leases hl).trans_le hnex)
    (fun place => by cases place <;> exact refl _)
    (fun _ _ _ _ _ _ heq => heq)

/-- **What is in hand is filed** under the ticket that the core issues. -/
theorem file {session : SessionId} {r : Session}
    (hs : s.core.sessions.lookup session = some r) (hrun : r.state = .runnable)
    (hrm : r.inflight.length < s.core.budget.maxInflightPerSession) : Held [] { s with
      core := s.core.issued session r
      accel := ⟨s.accel.inflight.insert ⟨s.core.nextTicket⟩ hand⟩ } := by
  -- what is filed under the new ticket was in hand
  have hpl : ∀ ticket, retained
      { s with accel := ⟨s.accel.inflight.insert ⟨s.core.nextTicket⟩ hand⟩ } [] (some ticket)
        = s.retained hand (if ticket = ⟨s.core.nextTicket⟩ then none else some ticket) := by
    intro ticket
    show ((s.accel.inflight.insert ⟨s.core.nextTicket⟩ hand).lookup ticket).getD [] = _
    rw [lookup_insert]
    by_cases ht : ticket = ⟨s.core.nextTicket⟩
    · rw [if_pos ht, if_pos ht]
      rfl
    · rw [if_neg ht, if_neg ht]
      rfl
  refine h.relabel (fun place => place.bind
    (fun ticket => if ticket = ⟨s.core.nextTicket⟩ then none else some ticket))
    (h.consistent.issued hs hrun hrm) ?_ ?_ ?_
  · intro ticket leases hl
    show ticket.val < s.core.nextTicket + 1
    change (s.accel.inflight.insert ⟨s.core.nextTicket⟩ hand).lookup ticket = _ at hl
    rw [lookup_insert] at hl
    by_cases ht : ticket = ⟨s.core.nextTicket⟩
    · rw [ht]
      exact Nat.lt_succ_self _
    · rw [if_neg ht] at hl
      exact Nat.lt_succ_of_lt (h.ticket_lt ticket leases hl)
  · intro place
    cases place with
    | none => exact nil_sublist _
    | some ticket => exact (hpl ticket).symm ▸ refl _
  · intro place place' lease lease' hmem hmem' heq
    cases place with
    | none => cases hmem
    | some ticket =>
      cases place' with
      | none => cases hmem'
      | some ticket' =>
        change (if ticket = ⟨s.core.nextTicket⟩ then none else some ticket)
          = (if ticket' = ⟨s.core.nextTicket⟩ then none else some ticket') at heq
        by_cases ht : ticket = ⟨s.core.nextTicket⟩
        · by_cases ht' : ticket' = ⟨s.core.nextTicket⟩
          · rw [ht, ht']
          · rw [if_pos ht, if_neg ht'] at heq
            cases heq
        · by_cases ht' : ticket' = ⟨s.core.nextTicket⟩
          · rw [if_neg ht, if_pos ht'] at heq
            cases heq
          · rwa [if_neg ht, if_neg ht'] at heq

end

/-- **The leases of a ticket are taken in hand.** -/
theorem take (h : Held [] s) {ticket : Ticket} {leases : List Lease}
    (hl : s.accel.inflight.lookup ticket = some leases) :
    Held leases { s with accel := ⟨s.accel.inflight.erase ticket⟩ } := by
  have hpl : ∀ other, retained { s with accel := ⟨s.accel.inflight.erase ticket⟩ } leases
        (some other) = if other = ticket then [] else s.retained [] (some other) := by
    intro other
    show ((s.accel.inflight.erase ticket).lookup other).getD [] = _
    rw [lookup_erase]
    by_cases ht : other = ticket
    · rw [if_pos ht, if_pos ht]
      rfl
    · rw [if_neg ht, if_neg ht]
      rfl
  refine h.relabel (fun place => some (place.getD ticket)) h.consistent ?_ ?_ ?_
  · intro other others hoth
    change (s.accel.inflight.erase ticket).lookup other = _ at hoth
    rw [lookup_erase] at hoth
    by_cases ht : other = ticket
    · rw [if_pos ht] at hoth
      cases hoth
    · rw [if_neg ht] at hoth
      exact h.ticket_lt other others hoth
  · intro place
    cases place with
    | none =>
      show leases.Sublist ((s.accel.inflight.lookup ticket).getD [])
      rw [hl]
      exact refl _
    | some other =>
      refine (hpl other).symm ▸ ?_
      by_cases ht : other = ticket
      · rw [if_pos ht]
        exact nil_sublist _
      · rw [if_neg ht]
        exact refl _
  · intro place place' lease lease' hmem hmem' heq
    have hne : ∀ other kept, kept ∈ retained { s with accel := ⟨s.accel.inflight.erase ticket⟩ }
        leases (some other) → other ≠ ticket := by
      rintro other kept hkep rfl
      rw [hpl, if_pos rfl] at hkep
      cases hkep
    cases place with
    | none =>
      cases place' with
      | none => rfl
      | some other => exact absurd (Option.some.inj heq).symm (hne other lease' hmem')
    | some other =>
      cases place' with
      | none => exact absurd (Option.some.inj heq) (hne other lease hmem)
      | some => exact heq

/-- **A recorded lease is taken in hand**, when nobody has it. -/
theorem push (h : Held hand s) (hrec : s.residency.leases.lookup lease.id = some lease.record)
    (hfr : ∀ place, ∀ other ∈ s.retained hand place, other.id ≠ lease.id)
    (hhan : ∀ other ∈ s.handed, other.id ≠ lease.id) : Held (hand ++ [lease]) s := by
  -- what is retained now was retained before, or is the new lease in hand
  have hcas : ∀ place, ∀ other ∈ s.retained (hand ++ [lease]) place,
      other ∈ s.retained hand place ∨ place = none ∧ other = lease := by
    intro place other hmem
    cases place with
    | none => exact (mem_append.mp hmem).imp id (fun h => ⟨rfl, mem_singleton.mp h⟩)
    | some => exact Or.inl hmem
  refine
    { consistent := h.consistent
      replays := h.replays
      ticket_lt := h.ticket_lt
      recorded := ?_
      nodup := ?_
      apart := ?_
      elsewhere := ?_
      handed_lt := h.handed_lt }
  · intro place other hmem
    rcases hcas place other hmem with hold | ⟨-, rfl⟩
    · exact h.recorded place other hold
    · exact hrec
  · intro place
    cases place with
    | none =>
      show ((hand ++ [lease]).map Lease.id).Nodup
      rw [List.map_append, nodup_append]
      refine ⟨h.nodup none, nodup_singleton _, fun id hid id' hid' heq => ?_⟩
      obtain ⟨other, hoth, rfl⟩ := mem_map.mp hid
      rw [map_singleton, mem_singleton] at hid'
      exact hfr none other hoth (heq.trans hid')
    | some ticket => exact h.nodup (some ticket)
  · intro place place' other other' hmem hmem' heq
    rcases hcas place other hmem with hold | ⟨rfl, rfl⟩ <;>
      rcases hcas place' other' hmem' with hold' | ⟨rfl, rfl⟩
    · exact h.apart place place' other other' hold hold' heq
    · exact absurd heq (hfr place other hold)
    · exact absurd heq.symm (hfr place' other' hold')
    · rfl
  · intro place other hmem
    rcases hcas place other hmem with hold | ⟨-, rfl⟩
    · exact h.elsewhere place other hold
    · exact hhan

/-- **A lease is taken in hand** by `acquire`. -/
theorem acquire (h : Held hand s) (key : ExpertKey) (owner : SessionId)
    (hlim : (s.acquire key owner).2.Limited) : (∃ generation, (s.acquire key owner).1
        = .ok ⟨⟨s.residency.nextLease⟩, key, generation, owner⟩
      ∧ Held (hand ++ [⟨⟨s.residency.nextLease⟩, key, generation, owner⟩]) (s.acquire key owner).2
      ∧ ∀ j, (s.acquire key owner).2.residency.state j = s.residency.state j)
    ∨ ((∃ e, (s.acquire key owner).1 = .error e) ∧ Held hand (s.acquire key owner).2) := by
  have hbef : s.Limited := hlim.mono (prefix_append _ _)
  have hnex : (s.residency.execute (.acquire key owner)).2.LeaseIdLimit :=
    (h.next_limit rfl hlim).1
  have ht := ResidencyManager.acquire_transition h.placed key owner
  obtain ⟨hgr, -⟩ := ht.leases_fresh hnex
  have hkep : ∀ d, d = (s.residency.execute (.acquire key owner)).2 →
      Held hand { s with residency := d, calls := s.calls ++ [.acquire key owner] } := by
    rintro _ rfl
    refine h.call rfl (fun place lease hmem => ?_) (fun other hoth => ⟨?_, ?_⟩)
    · exact ht.record_kept hnex (h.id_lt hbef hmem) (h.recorded place lease hmem)
        (fun _ hop => by cases hop)
    · exact (h.handed_lt other hoth).trans_le hgr
    · exact fun place lease hmem => h.elsewhere place lease hmem other hoth
  rcases ResidencyManager.acquire_cases h.placed key owner with
    ⟨generation, d, heq, -, hlss, hsam⟩ | ⟨e, heq⟩
  · have hst : s.acquire key owner = (.ok ⟨⟨s.residency.nextLease⟩, key, generation, owner⟩,
          { s with residency := d, calls := s.calls ++ [.acquire key owner] }) := by
      rw [AccelSystem.acquire, heq]
    rw [hst]
    refine Or.inl ⟨generation, rfl, ?_, hsam⟩
    -- the new identifier is above all those that are retained or were handed out
    have hne {other : Lease} (hlt : other.id.val < s.residency.nextLease) :
        other.id ≠ ⟨s.residency.nextLease⟩ := fun hid => by
      rw [hid] at hlt
      exact Nat.lt_irrefl _ hlt
    refine (hkep d (congrArg Prod.snd heq).symm).push ?_ ?_ ?_
    · show d.leases.lookup _ = _
      rw [hlss]
      exact lookup_insert_self _ _ _
    · exact fun place other hmem => hne (h.id_lt hbef hmem)
    · exact fun other hoth => hne (h.handed_lt other hoth)
  · exact Or.inr ⟨⟨e, by rw [AccelSystem.acquire, heq]⟩, hkep _ rfl⟩

/-- **A lease in hand is released**: the manager takes it back, and its
record is gone. -/
theorem release (h : Held (lease :: hand) s) (hlim : (s.release lease).2.Limited) :
    (s.release lease).1 = .ok () ∧ Held hand (s.release lease).2
      ∧ (s.release lease).2.residency.leases = s.residency.leases.erase lease.id
      ∧ ∀ j, (s.release lease).2.residency.state j = s.residency.state j := by
  have hbef : s.Limited := hlim.mono (prefix_append _ _)
  obtain ⟨d, heq, hlss, hsam⟩ := ResidencyManager.release_of_recorded h.placed
    (h.leased hbef) (h.recorded none lease mem_cons_self)
  have hst : s.release lease
      = (.ok (), { s with residency := d, calls := s.calls ++ [.release lease] }) := by
    rw [AccelSystem.release, heq]
  have hnex : (s.residency.execute (.release lease)).2.LeaseIdLimit :=
    (h.next_limit rfl hlim).1
  have ht := ResidencyManager.release_transition h.placed lease
  have hgr := (ht.leases_fresh hnex).1
  have hd : d = (s.residency.execute (.release lease)).2 := (congrArg Prod.snd heq).symm
  have hlig := h.lighten (sublist_cons_self lease hand)
  -- the other retained leases are other identifiers
  have hne : ∀ place, ∀ other ∈ s.retained hand place, other.id ≠ lease.id := by
    intro place other hmem hid
    cases place with
    | none =>
      have hnd : (lease.id :: hand.map Lease.id).Nodup := h.nodup none
      exact (nodup_cons.mp hnd).1 (hid ▸ mem_map_of_mem hmem)
    | some ticket =>
      have hpl := h.apart (some ticket) none other lease hmem mem_cons_self hid
      cases hpl
  have hrec : ∀ place, ∀ other ∈ s.retained hand place,
      d.leases.lookup other.id = some other.record := by
    intro place other hmem
    rw [hlss, lookup_erase_ne _ (hne place other hmem)]
    exact hlig.recorded place other hmem
  have hhan : ∀ other ∈ s.handed, other.id.val < d.nextLease
      ∧ ∀ place, ∀ kept ∈ s.retained hand place, other.id ≠ kept.id := by
    intro other hoth
    refine ⟨?_, fun place kept hmem => hlig.elsewhere place kept hmem other hoth⟩
    rw [hd]
    exact (h.handed_lt other hoth).trans_le hgr
  rw [hst]
  exact ⟨rfl, hlig.call hd hrec hhan, hlss, hsam⟩

end Held

/-! ## The loops -/

/-- **Work on the manager alone**: the rest is as it was, and the operations
performed are added to. -/
structure Works (s s' : AccelSystem) : Prop where
  accel : s'.accel = s.accel
  core : s'.core = s.core
  handed : s'.handed = s.handed
  calls : s.calls <+: s'.calls

theorem works_refl (s : AccelSystem) : Works s s := ⟨rfl, rfl, rfl, prefix_rfl⟩

theorem Works.trans {t : AccelSystem} (h : Works s s') (h' : Works s' t) : Works s t where
  accel := h'.accel.trans h.accel
  core := h'.core.trans h.core
  handed := h'.handed.trans h.handed
  calls := h.calls.trans h'.calls

theorem works_acquire (s : AccelSystem) (key : ExpertKey) (owner : SessionId) :
    Works s (s.acquire key owner).2 := ⟨rfl, rfl, rfl, prefix_append _ _⟩

theorem works_release (s : AccelSystem) (lease : Lease) : Works s (s.release lease).2 :=
  ⟨rfl, rfl, rfl, prefix_append _ _⟩

theorem works_rollBack (s : AccelSystem) (leases : List Lease) : Works s (s.rollBack leases) := by
  induction leases generalizing s with
  | nil => exact works_refl s
  | cons lease leases ih => exact (works_release s lease).trans (ih _)

theorem works_pin (s : AccelSystem) (session : SessionId) (keys : List ExpertKey)
    (leases : List Lease) : Works s (s.pin session keys leases).2 := by
  induction keys generalizing s leases with
  | nil => exact works_refl s
  | cons key keys ih =>
    have hst := works_acquire s key session
    unfold pin
    generalize s.acquire key session = result at hst ⊢
    obtain ⟨_ | lease, s'⟩ := result
    · exact hst.trans (works_rollBack s' leases)
    · exact hst.trans (ih s' _)

theorem works_releaseAll (s : AccelSystem) (ticket : Ticket) (leases : List Lease) :
    Works s (s.releaseAll ticket leases).2 := by
  induction leases generalizing s with
  | nil => exact works_refl s
  | cons lease leases ih =>
    have hst := works_release s lease
    unfold releaseAll
    generalize s.release lease = result at hst ⊢
    obtain ⟨_ | _, s'⟩ := result
    · exact hst
    · exact hst.trans (ih s')

namespace Held

/-- **What is in hand is rolled back.** -/
theorem rollBack (h : Held hand s) (hlim : (s.rollBack hand).Limited) :
    Held [] (s.rollBack hand) := by
  induction hand generalizing s with
  | nil => exact h
  | cons lease leases ih =>
    have hst := h.release (hlim.mono (works_rollBack _ leases).calls)
    exact ih hst.2.1 hlim

/-- **The references are pinned**, all of them at what they are resident
at, or none. -/
theorem pin (h : Held hand s) (session : SessionId) (keys : List ExpertKey)
    (hlim : (s.pin session keys hand).2.Limited) :
    (∃ leases, (s.pin session keys hand).1 = .ok (hand ++ leases)
      ∧ leases.map Lease.key = keys ∧ Held (hand ++ leases) (s.pin session keys hand).2
      ∧ ∀ j, (s.pin session keys hand).2.residency.state j = s.residency.state j)
    ∨ (∃ e, (s.pin session keys hand).1 = .error e) ∧ Held [] (s.pin session keys hand).2 := by
  induction keys generalizing s hand with
  | nil =>
    refine Or.inl ⟨[], ?_, rfl, ?_, fun _ => rfl⟩
    · rw [List.append_nil]
      rfl
    · rwa [List.append_nil]
  | cons key keys ih =>
    have hacq := h.acquire key session
    unfold AccelSystem.pin at hlim ⊢
    generalize s.acquire key session = result at hacq hlim ⊢
    obtain ⟨e | lease, s'⟩ := result
    · rcases hacq (hlim.mono (works_rollBack s' hand).calls) with ⟨g, hok, -⟩ | ⟨-, h'⟩
      · cases hok
      · exact Or.inr ⟨⟨_, rfl⟩, h'.rollBack hlim⟩
    · rcases hacq (hlim.mono (works_pin s' session keys _).calls) with
        ⟨g, hok, h', hsam⟩ | ⟨⟨e, herr⟩, -⟩
      · cases hok
        rcases ih h' hlim with ⟨leases, hpin, hkey, hhel, hst⟩ | hfl
        · rw [append_assoc] at hpin hhel
          refine Or.inl ⟨_ :: leases, hpin, ?_, hhel, fun j => (hst j).trans (hsam j)⟩
          rw [map_cons, hkey]
        · exact Or.inr hfl
      · cases herr

/-- **What is in hand is released**, all of it. -/
theorem releaseAll (h : Held hand s) (ticket : Ticket)
    (hlim : (s.releaseAll ticket hand).2.Limited) :
    (s.releaseAll ticket hand).1 = .ok () ∧ Held [] (s.releaseAll ticket hand).2
      ∧ ∀ id, (s.residency.leases.lookup id = none ∨ ∃ lease ∈ hand, lease.id = id) →
        (s.releaseAll ticket hand).2.residency.leases.lookup id = none := by
  induction hand generalizing s with
  | nil => exact ⟨rfl, h, fun id hid => hid.resolve_right (by simp)⟩
  | cons lease leases ih =>
    have hrel := h.release
    unfold AccelSystem.releaseAll at hlim ⊢
    generalize s.release lease = result at hrel hlim ⊢
    obtain ⟨e | _, s'⟩ := result
    · obtain ⟨hok, -⟩ := hrel hlim
      cases hok
    · obtain ⟨-, h', hlss, -⟩ := hrel (hlim.mono (works_releaseAll s' ticket leases).calls)
      obtain ⟨hok, hhel, hgon⟩ := ih h' hlim
      refine ⟨hok, hhel, fun id hid => hgon id ?_⟩
      have hlkp : s'.residency.leases.lookup id
          = if id = lease.id then none else s.residency.leases.lookup id := by
        rw [show s'.residency.leases = _ from hlss, lookup_erase]
      rcases hid with hnon | ⟨other, hmem, rfl⟩
      · exact Or.inl (by rw [hlkp, hnon, ite_self])
      · rcases mem_cons.mp hmem with rfl | hmem
        · exact Or.inl (by rw [hlkp, if_pos rfl])
        · exact Or.inr ⟨other, hmem, rfl⟩

end Held

/-! ## The operations -/

theorem calls_forward (s : AccelSystem) (completion : AccelCompletion) :
    (s.forward completion).2.calls = s.calls := by
  unfold forward
  generalize s.core.complete _ _ = result
  obtain ⟨_ | _, core⟩ := result
  · rfl
  · rfl

namespace Held

/-- **What `submit` does**: it files the pinned leases under the ticket the
core issues, or it leaves the bookkeeping as it was. -/
theorem submit (h : Held [] s) (registry : DeviceRegistry) (session : SessionId)
    (target : ExecutionTarget) (action : AccelAction)
    (hlim : (s.submit registry session target action).2.Limited) :
    (∃ leases dispatch, (s.submit registry session target action).1
        = .ok (⟨s.core.nextTicket⟩, dispatch) ∧ leases.map Lease.key = action.references
      ∧ (s.submit registry session target action).2.accel.inflight
        = s.accel.inflight.insert ⟨s.core.nextTicket⟩ leases
      ∧ Held [] (s.submit registry session target action).2
      ∧ ∀ j, (s.submit registry session target action).2.residency.state j = s.residency.state j)
    ∨ (∃ e, (s.submit registry session target action).1 = .error e)
      ∧ (s.submit registry session target action).2.accel = s.accel
      ∧ Held [] (s.submit registry session target action).2 := by
  have hpin := h.pin session action.references
  have hwor := works_pin s session action.references []
  unfold AccelSystem.submit at hlim ⊢
  generalize (registry.get target.device).filter _ = approved at hlim ⊢
  cases approved with
  | none => exact Or.inr ⟨⟨_, rfl⟩, rfl, h⟩
  | some registered =>
    dsimp only at hlim ⊢
    by_cases hacc : registered.accepts .accelerator = false
    · rw [if_pos hacc]
      exact Or.inr ⟨⟨_, rfl⟩, rfl, h⟩
    · rw [if_neg hacc] at hlim ⊢
      generalize s.pin session action.references [] = result at hpin hwor hlim ⊢
      obtain ⟨e | pinned, s'⟩ := result
      · rcases hpin hlim with ⟨leases, hok, -⟩ | ⟨-, hhel⟩
        · cases hok
        · exact Or.inr ⟨⟨e, rfl⟩, hwor.accel, hhel⟩
      · rcases submit_cases s'.core session ⟨.accelerator, action.payload⟩ with
          ⟨r, hs, hrun, hrm, heq⟩ | ⟨e, heq⟩
        · dsimp only at hlim ⊢
          rw [heq] at hlim ⊢
          rcases hpin hlim with ⟨leases, hok, hkey, hhel, hst⟩ | ⟨⟨e, herr⟩, -⟩
          · obtain rfl : pinned = leases := Except.ok.inj hok
            have hcor : s'.core = s.core := hwor.core
            have haccel : s'.accel = s.accel := hwor.accel
            refine Or.inl ⟨pinned, ⟨⟨s'.core.nextTicket⟩, registered, action⟩, ?_, hkey, ?_, ?_,
              hst⟩
            · rw [hcor]
            · show s'.accel.inflight.insert ⟨s'.core.nextTicket⟩ pinned = _
              rw [hcor, haccel]
            · exact hhel.file hs hrun hrm
          · cases herr
        · dsimp only at hlim ⊢
          rw [heq] at hlim ⊢
          have hbac := works_rollBack s' pinned
          rcases hpin (hlim.mono hbac.calls) with ⟨leases, hok, -, hhel, -⟩ | ⟨⟨e', herr⟩, -⟩
          · obtain rfl : pinned = leases := Except.ok.inj hok
            exact Or.inr ⟨⟨_, rfl⟩, hbac.accel.trans hwor.accel, hhel.rollBack hlim⟩
          · cases herr

/-- The outcome of a ticket goes to the core, and nowhere else. -/
theorem forward (h : Held hand s) (completion : AccelCompletion) :
    ∃ effects core, s.forward completion = (.ok effects, { s with core := core })
      ∧ Held hand { s with core := core } := by
  have ht := execute_transition h.consistent
    (.complete completion.ticket completion.outcome.forwarded)
  have hhel : Held hand { s with
      core := (s.core.complete completion.ticket completion.outcome.forwarded).2 } := by
    refine h.core_next (ht.consistent h.consistent) ?_
    rcases ht.numbered with ⟨-, hnex⟩ | ⟨-, hnex⟩
    · exact hnex.ge
    · exact (Nat.le_succ _).trans_eq hnex.symm
  have hok : ∃ effects, (s.core.complete completion.ticket completion.outcome.forwarded).1
      = .ok effects := by
    rcases complete_cases h.consistent completion.ticket completion.outcome.forwarded with
      ⟨-, heq⟩ | ⟨session, r, -, -, ⟨-, -, heq⟩ | ⟨-, -, -, -, heq⟩ | ⟨e, -, heq⟩⟩
    · exact ⟨_, congrArg Prod.fst heq⟩
    · exact ⟨_, congrArg Prod.fst heq⟩
    · exact ⟨_, congrArg Prod.fst heq⟩
    · exact ⟨_, congrArg Prod.fst heq⟩
  unfold AccelSystem.forward
  generalize s.core.complete completion.ticket completion.outcome.forwarded = result at hhel hok ⊢
  obtain ⟨result, core⟩ := result
  obtain ⟨effects, rfl⟩ := hok
  exact ⟨effects, core, rfl, hhel⟩

/-- **What `complete` does**: it releases the leases of the ticket, if there
are any, and never fails. -/
theorem complete (h : Held [] s) (completion : AccelCompletion)
    (hlim : (s.complete completion).2.Limited) :
    (∃ effects, (s.complete completion).1 = .ok effects) ∧ Held [] (s.complete completion).2
      ∧ (∀ ticket, (s.complete completion).2.accel.inflight.lookup ticket
        = if ticket = completion.ticket then none else s.accel.inflight.lookup ticket)
      ∧ ∀ leases, s.accel.inflight.lookup completion.ticket = some leases →
        ∀ lease ∈ leases, (s.complete completion).2.residency.leases.lookup lease.id = none := by
  unfold AccelSystem.complete at hlim ⊢
  cases hl : s.accel.inflight.lookup completion.ticket with
  | none =>
    obtain ⟨effects, core, heq, hhel⟩ := h.forward completion
    rw [heq]
    refine ⟨⟨effects, rfl⟩, hhel, fun ticket => ?_, fun leases hlss => by cases hlss⟩
    by_cases ht : ticket = completion.ticket
    · rwa [if_pos ht, ht]
    · rw [if_neg ht]
  | some leases =>
    rw [hl] at hlim
    dsimp only at hlim ⊢
    have hrel := (h.take hl).releaseAll completion.ticket
    have hwor := works_releaseAll { s with accel := ⟨s.accel.inflight.erase completion.ticket⟩ }
      completion.ticket leases
    generalize AccelSystem.releaseAll _ completion.ticket leases = result at hrel hwor hlim ⊢
    obtain ⟨e | _, s'⟩ := result
    · obtain ⟨hok, -⟩ := hrel hlim
      cases hok
    · obtain ⟨-, hhel, hgon⟩ :=
        hrel (hlim.mono (calls_forward s' completion ▸ prefix_rfl))
      obtain ⟨effects, core, heq, hhel'⟩ := hhel.forward completion
      dsimp only
      rw [heq]
      refine ⟨⟨effects, rfl⟩, hhel', fun ticket => ?_, fun others hoth lease hmem => ?_⟩
      · show s'.accel.inflight.lookup ticket = _
        rw [show s'.accel = _ from hwor.accel]
        exact lookup_erase _ _ _
      · obtain rfl : leases = others := Option.some.inj hoth
        exact hgon lease.id (Or.inr ⟨lease, hmem, rfl⟩)

/-- **Other code works on the manager.** -/
theorem residency (h : Held [] s) (op : ResidencyOp) (hop : Disciplined s (.residency op))
    (hlim : (machine.next s (.residency op)).Limited) :
    Held [] (machine.next s (.residency op)) := by
  have hbef : s.Limited := hlim.mono (prefix_append _ _)
  have hnex : (s.residency.execute op).2.LeaseIdLimit := (h.next_limit rfl hlim).1
  have ht := ResidencyManager.execute_transition h.placed op
  obtain ⟨hgr, hiss⟩ := ht.leases_fresh hnex
  refine h.call rfl (fun place lease hmem => ?_) (fun other hoth => ?_)
  · refine ht.record_kept hnex (h.id_lt hbef hmem) (h.recorded place lease hmem) ?_
    intro released hrel
    rw [hrel] at hop
    exact h.elsewhere place lease hmem released hop
  · rcases mem_append.mp hoth with hold | hnew
    · exact ⟨(h.handed_lt other hold).trans_le hgr,
        fun place lease hmem => h.elsewhere place lease hmem other hold⟩
    · refine ⟨(hiss other hnew).2, fun place lease hmem hid => ?_⟩
      have hlt := h.id_lt hbef hmem
      rw [← hid] at hlt
      exact absurd (hiss other hnew).1 (Nat.not_le.mpr hlt)

end Held

/-! ## Runs -/

/-- The operations on the manager are only added to. -/
theorem calls_next (s : AccelSystem) (op : AccelOp) : s.calls <+: (machine.next s op).calls := by
  cases op with
  | submit registry session target action =>
    show s.calls <+: (s.submit registry session target action).2.calls
    unfold submit
    generalize (registry.get target.device).filter _ = approved
    cases approved with
    | none => exact prefix_rfl
    | some registered =>
      dsimp only
      by_cases hacc : registered.accepts .accelerator = false
      · rw [if_pos hacc]
      · rw [if_neg hacc]
        have hwor := works_pin s session action.references []
        generalize s.pin session action.references [] = result at hwor ⊢
        obtain ⟨e | pinned, s'⟩ := result
        · exact hwor.calls
        · dsimp only
          generalize s'.core.submit session _ = submitted
          obtain ⟨e | ⟨ticket, effect⟩, core⟩ := submitted
          · exact hwor.calls.trans (works_rollBack { s' with core := core } pinned).calls
          · exact hwor.calls
  | complete completion =>
    show s.calls <+: (s.complete completion).2.calls
    unfold complete
    cases s.accel.inflight.lookup completion.ticket with
    | none => exact (calls_forward s completion).symm ▸ prefix_rfl
    | some leases =>
      dsimp only
      have hwor := works_releaseAll
        { s with accel := ⟨s.accel.inflight.erase completion.ticket⟩ } completion.ticket leases
      generalize releaseAll _ completion.ticket leases = result at hwor ⊢
      obtain ⟨e | _, s'⟩ := result
      · exact hwor.calls
      · exact (calls_forward s' completion).symm ▸ hwor.calls
  | cancelTicket | core => exact prefix_rfl
  | residency => exact prefix_append _ _

theorem calls_run (s : AccelSystem) (ops : List AccelOp) :
    s.calls <+: (machine.run s ops).calls := by
  induction ops generalizing s with
  | nil => exact prefix_rfl
  | cons op ops ih => exact (calls_next s op).trans (ih _)

theorem limited_of_run {ops : List AccelOp} (hlim : (machine.run s ops).Limited) : s.Limited :=
  hlim.mono (calls_run s ops)

/-- **An operation keeps the leases held.** -/
theorem Held.step (h : Held [] s) {op : AccelOp} (hop : Disciplined s op)
    (hlim : (machine.next s op).Limited) : Held [] (machine.next s op) := by
  cases op with
  | submit registry session target action =>
    rcases h.submit registry session target action hlim with
      ⟨leases, dispatch, -, -, -, hhel, -⟩ | ⟨-, -, hhel⟩
    · exact hhel
    · exact hhel
  | complete completion => exact (h.complete completion hlim).2.1
  | cancelTicket => exact h
  | core op =>
    have ht := execute_transition h.consistent op
    refine h.core_next (ht.consistent h.consistent) ?_
    rcases ht.numbered with ⟨-, hnex⟩ | ⟨-, hnex⟩
    · exact hnex.ge
    · exact (Nat.le_succ _).trans_eq hnex.symm
  | residency op => exact h.residency op hop hlim

/-- **A run keeps the leases held.** -/
theorem Held.run (h : Held [] s) {ops : List AccelOp} (hops : machine.Along Disciplined s ops)
    (hlim : (machine.run s ops).Limited) : Held [] (machine.run s ops) := by
  induction ops generalizing s with
  | nil => exact h
  | cons op ops ih => exact ih (h.step hops.1 (limited_of_run hlim)) hops.2 hlim

/-- The leases of a ticket stay where they are until its completion. -/
theorem Held.inflight_step (h : Held [] s) {op : AccelOp} {ticket : Ticket} {leases : List Lease}
    (hl : s.accel.inflight.lookup ticket = some leases)
    (hop : ∀ completion, op = .complete completion → completion.ticket ≠ ticket)
    (hlim : (machine.next s op).Limited) :
    (machine.next s op).accel.inflight.lookup ticket = some leases := by
  cases op with
  | submit registry session target action =>
    rcases h.submit registry session target action hlim with
      ⟨pinned, dispatch, -, -, hfil, -, -⟩ | ⟨-, hsam, -⟩
    · have hne : ticket ≠ ⟨s.core.nextTicket⟩ := fun heq => by
        have hlt := h.ticket_lt ticket leases hl
        rw [heq] at hlt
        exact Nat.lt_irrefl _ hlt
      refine (congrArg (AList.lookup ticket) hfil).trans ?_
      exact (lookup_insert_ne _ _ hne).trans hl
    · exact (congrArg (fun accel => accel.inflight.lookup ticket) hsam).trans hl
  | complete completion =>
    exact ((h.complete completion hlim).2.2.1 ticket).trans
      ((if_neg (fun heq => hop completion rfl heq.symm)).trans hl)
  | cancelTicket | core | residency => exact hl

theorem Held.inflight_run (h : Held [] s) {ops : List AccelOp} {ticket : Ticket}
    {leases : List Lease} (hops : machine.Along Disciplined s ops)
    (hl : s.accel.inflight.lookup ticket = some leases)
    (hno : ∀ completion, .complete completion ∈ ops → completion.ticket ≠ ticket)
    (hlim : (machine.run s ops).Limited) :
    (machine.run s ops).accel.inflight.lookup ticket = some leases := by
  induction ops generalizing s with
  | nil => exact hl
  | cons op ops ih =>
    have hnex : (machine.next s op).Limited := limited_of_run hlim
    have hl' := h.inflight_step hl (fun completion heq => hno completion (heq ▸ mem_cons_self))
      hnex
    exact ih (h.step hops.1 hnex) hops.2 hl'
      (fun completion hmem => hno completion (mem_cons_of_mem _ hmem)) hlim

/-! ## The lifetime of a lease -/

/-- The history of the leases of the manager, oldest first. -/
def leaseHistory (s : AccelSystem) : List (Posting LeaseId (ExpertKey × Generation × SessionId)) :=
  ResidencyManager.leaseHistory s.calls

/-- **What a submitted ticket can rely on**, in a run of the three machines
from the start. -/
structure LeaseLifetime (budget : Budget) (ops : List AccelOp) : Prop where
  /-- Every lease stored under a ticket is live in the residency manager. -/
  live : ∀ ticket leases lease,
    (machine.run (new budget) ops).accel.inflight.lookup ticket = some leases →
    lease ∈ leases →
    (machine.run (new budget) ops).residency.leases.lookup lease.id = some lease.record
  /-- What a submitted ticket references stays resident at the generation of
  the submission, until the first completion for the ticket. -/
  resident : ∀ before registry session target action after ticket dispatch,
    ops = before ++ AccelOp.submit registry session target action :: after →
    machine.out (machine.run (new budget) before) (.submit registry session target action)
      = .submitted (.ok (ticket, dispatch)) →
    (∀ completion, .complete completion ∈ after → completion.ticket ≠ ticket) →
    ∀ key ∈ action.references, ∃ generation,
      (machine.run (new budget) before).residency.state key = .resident generation
      ∧ (machine.run (new budget) ops).residency.state key = .resident generation
  /-- Each of the leases it holds on what it references is released by that
  completion, and at no other time. -/
  released : ∀ before registry session target action middle completion after dispatch,
    ops = before ++ AccelOp.submit registry session target action
      :: (middle ++ AccelOp.complete completion :: after) →
    machine.out (machine.run (new budget) before) (.submit registry session target action)
      = .submitted (.ok (completion.ticket, dispatch)) →
    (∀ other, .complete other ∈ middle → other.ticket ≠ completion.ticket) →
    ∃ leases, leases.map Lease.key = action.references
      ∧ (machine.run (new budget) (before ++ [.submit registry session target action])
        ).accel.inflight.lookup completion.ticket = some leases
      ∧ ∀ lease ∈ leases, .consume lease.id ∉ (machine.run (new budget)
            (before ++ .submit registry session target action :: middle)).leaseHistory
        ∧ .consume lease.id ∈ (machine.run (new budget)
            (before ++ .submit registry session target action
              :: (middle ++ [.complete completion]))).leaseHistory
        ∧ (machine.run (new budget) ops).leaseHistory.count (.consume lease.id) = 1
  /-- A completion never fails to release a lease. -/
  released_ok : ∀ before completion after ticket e,
    ops = before ++ AccelOp.complete completion :: after →
    machine.out (machine.run (new budget) before) (.complete completion)
      ≠ .completed (.error (.release ticket e))
  /-- Logical cancellation releases nothing: neither `cancel_ticket` nor an
  operation of the core touches the manager or the leases. -/
  cancelling : ∀ op, (∃ ticket, op = .cancelTicket ticket) ∨ (∃ simOp, op = .core simOp) →
    (machine.next (machine.run (new budget) ops) op).residency
        = (machine.run (new budget) ops).residency
      ∧ (machine.next (machine.run (new budget) ops) op).accel
        = (machine.run (new budget) ops).accel

/-- The leases that a submission has taken. -/
theorem Held.submitted (h : Held [] s) {registry : DeviceRegistry} {session : SessionId}
    {target : ExecutionTarget} {action : AccelAction} {ticket : Ticket} {dispatch : AccelDispatch}
    (hout : machine.out s (.submit registry session target action)
      = .submitted (.ok (ticket, dispatch)))
    (hlim : (machine.next s (.submit registry session target action)).Limited) :
    ∃ leases, leases.map Lease.key = action.references
      ∧ (machine.next s (.submit registry session target action)).accel.inflight.lookup ticket
        = some leases
      ∧ ∀ j, (machine.next s (.submit registry session target action)).residency.state j
        = s.residency.state j := by
  have hres : (s.submit registry session target action).1 = .ok (ticket, dispatch) :=
    AccelAnswer.submitted.inj hout
  rcases h.submit registry session target action hlim with
    ⟨leases, dispatch', hok, hkey, hfil, -, hst⟩ | ⟨⟨e, herr⟩, -⟩
  · rw [hres] at hok
    obtain rfl : ticket = ⟨s.core.nextTicket⟩ := congrArg Prod.fst (Except.ok.inj hok)
    refine ⟨leases, hkey, ?_, hst⟩
    exact (congrArg (AList.lookup _) hfil).trans (lookup_insert_self _ _ _)
  · rw [hres] at herr
    cases herr

/-- **A lease has its record while it is issued and not released.** -/
theorem Held.record_iff (h : Held [] s) (hlim : s.Limited) (id : LeaseId)
    (record : ExpertKey × Generation × SessionId) : s.residency.leases.lookup id = some record
      ↔ .issue id record ∈ s.leaseHistory ∧ .consume id ∉ s.leaseHistory := by
  rw [h.replays]
  exact ResidencyManager.lookup_leases_iff (Machine.Along.mono (fun _ _ hl => hl.1) hlim) id record

theorem leaseHistory_mono (hcal : s.calls <+: s'.calls) : s.leaseHistory <+: s'.leaseHistory := by
  obtain ⟨more, hmor⟩ := hcal
  unfold leaseHistory ResidencyManager.leaseHistory
  rw [← hmor, Machine.gather_append]
  exact prefix_append _ _

/-- **The leases of a submission are released by the completion of its
ticket**, once. -/
theorem Held.released (h : Held [] s) {registry : DeviceRegistry} {session : SessionId}
    {target : ExecutionTarget} {action : AccelAction} {middle after : List AccelOp}
    {completion : AccelCompletion} {dispatch : AccelDispatch}
    (hops : machine.Along Disciplined s
      (.submit registry session target action :: (middle ++ .complete completion :: after)))
    (hlim : (machine.run s
      (.submit registry session target action ::
        (middle ++ .complete completion :: after))).Limited)
    (hout : machine.out s (.submit registry session target action)
      = .submitted (.ok (completion.ticket, dispatch)))
    (hno : ∀ other, .complete other ∈ middle → other.ticket ≠ completion.ticket) :
    ∃ leases, leases.map Lease.key = action.references
      ∧ (machine.run s [.submit registry session target action]).accel.inflight.lookup
        completion.ticket = some leases ∧ ∀ lease ∈ leases, .consume lease.id ∉ (machine.run s
            (.submit registry session target action :: middle)).leaseHistory
        ∧ .consume lease.id ∈ (machine.run s
            (.submit registry session target action ::
              (middle ++ [.complete completion]))).leaseHistory
        ∧ (machine.run s (.submit registry session target action
            :: (middle ++ .complete completion :: after))).leaseHistory.count
              (.consume lease.id) = 1 := by
  simp only [Machine.run_cons, Machine.run_append, Machine.run_nil] at hlim ⊢
  -- the states after the submission, before the completion and after it
  have hsub := h.submitted hout
  obtain ⟨hfst, hres⟩ := hops
  have hst := h.step hfst
  generalize machine.next s (.submit registry session target action) = s₁ at *
  have hres' : (machine.run (machine.run s₁ middle) (.complete completion :: after)).Limited :=
    hlim
  have hlim₂ : (machine.run s₁ middle).Limited := limited_of_run hres'
  have hlim₁ : s₁.Limited := limited_of_run hlim₂
  obtain ⟨leases, hkey, hfil, -⟩ := hsub hlim₁
  obtain ⟨hmid, hlas⟩ := (machine.along_append _ _ _ _).mp hres
  have h₂ := (hst hlim₁).run hmid hlim₂
  have hfil₂ := (hst hlim₁).inflight_run hmid hfil hno hlim₂
  generalize machine.run s₁ middle = s₂ at *
  have hlim₃ : (machine.next s₂ (.complete completion)).Limited := limited_of_run hlim
  obtain ⟨-, h₃, -, hgon⟩ := h₂.complete completion hlim₃
  have h₄ := (h₂.step hlas.1 hlim₃).run hlas.2 hlim
  refine ⟨leases, hkey, hfil, fun lease hmem => ?_⟩
  have hrec : s₂.residency.leases.lookup lease.id = some lease.record := by
    refine h₂.recorded (some completion.ticket) lease ?_
    show lease ∈ (s₂.accel.inflight.lookup completion.ticket).getD []
    rwa [hfil₂]
  obtain ⟨hiss, hkep⟩ := (h₂.record_iff hlim₂ _ _).mp hrec
  have hcon : .consume lease.id ∈ (machine.next s₂ (.complete completion)).leaseHistory := by
    by_contra hno
    have hiss₃ := (leaseHistory_mono (calls_next s₂ (.complete completion))).subset hiss
    have hstl := (h₃.record_iff hlim₃ _ _).mpr ⟨hiss₃, hno⟩
    rw [hgon leases hfil₂ lease hmem] at hstl
    cases hstl
  refine ⟨hkep, hcon, Nat.le_antisymm ?_ ?_⟩
  · obtain ⟨l, hl, -⟩ := ResidencyManager.leases_run (Machine.Along.mono (fun _ _ hl => hl.1) hlim)
    exact (Nat.le_add_right _ _).trans (Ledger.retired_at_most_once hl lease.id)
  · exact count_pos_iff.mpr ((leaseHistory_mono (calls_run _ after)).subset hcon)

/-- **A submitted ticket holds what it references until its native
completion**, in every run of the three machines in which other code
releases only leases handed to it and the lease counters stay within their
limits. -/
theorem lease_lifetime (budget : Budget) (ops : List AccelOp)
    (hops : machine.Along Disciplined (new budget) ops)
    (hlimit : (machine.run (new budget) ops).Limited) : LeaseLifetime budget ops := by
  have hrun : ∀ before after, ops = before ++ after → Held [] (machine.run (new budget) before)
        ∧ machine.Along Disciplined (machine.run (new budget) before) after
        ∧ machine.run (machine.run (new budget) before) after = machine.run (new budget) ops := by
    rintro before after rfl
    have hspl := (machine.along_append _ _ _ _).mp hops
    rw [Machine.run_append] at hlimit ⊢
    exact ⟨(held_new budget).run hspl.1 (limited_of_run hlimit), hspl.2, rfl⟩
  refine
    { live := ?_
      resident := ?_
      released := ?_
      released_ok := ?_
      cancelling := ?_ }
  · intro ticket leases lease hl hmem
    have hhel := ((held_new budget).run hops hlimit).recorded (some ticket) lease
    refine hhel ?_
    show lease ∈ ((machine.run (new budget) ops).accel.inflight.lookup ticket).getD []
    rwa [hl]
  · intro before registry session target action after ticket dispatch heq hout hno key hkey
    obtain ⟨hbef, hal, hend⟩ := hrun before _ heq
    generalize machine.run (new budget) before = s at hbef hal hend hout ⊢
    rw [← hend] at hlimit ⊢
    have hnex : (machine.next s (.submit registry session target action)).Limited :=
      limited_of_run hlimit
    obtain ⟨leases, hkys, hfil, hst⟩ := hbef.submitted hout hnex
    have hhel := hbef.step hal.1 hnex
    obtain ⟨lease, hmem, rfl⟩ := mem_map.mp (hkys ▸ hkey)
    have hret {t : AccelSystem} (ht : Held [] t) (htl : t.Limited)
        (hl : t.accel.inflight.lookup ticket = some leases) :
        t.residency.state lease.key = .resident lease.generation := by
      refine (ht.leased htl).state_eq (ht.recorded (some ticket) lease ?_)
      show lease ∈ (t.accel.inflight.lookup ticket).getD []
      rwa [hl]
    refine ⟨lease.generation, ?_, ?_⟩
    · rw [← hst]
      exact hret hhel hnex hfil
    · exact hret (hhel.run hal.2 hlimit) hlimit (hhel.inflight_run hal.2 hfil hno hlimit)
  · intro before registry session target action middle completion after dispatch heq hout hno
    obtain ⟨hbef, hal, hend⟩ := hrun before _ heq
    rw [Machine.run_append, Machine.run_append, Machine.run_append, ← hend]
    rw [← hend] at hlimit
    exact hbef.released hal hlimit hout hno
  · intro before completion after ticket e heq hout
    obtain ⟨hbef, -, hend⟩ := hrun before _ heq
    have hnex : (machine.next (machine.run (new budget) before)
      (.complete completion)).Limited := by
      rw [← hend] at hlimit
      exact limited_of_run hlimit
    obtain ⟨⟨effects, hok⟩, -⟩ := hbef.complete completion hnex
    have herr : ((machine.run (new budget) before).complete completion).1
        = .error (.release ticket e) := AccelAnswer.completed.inj hout
    rw [hok] at herr
    cases herr
  · rintro op (⟨ticket, rfl⟩ | ⟨simOp, rfl⟩)
    · exact ⟨rfl, rfl⟩
    · exact ⟨rfl, rfl⟩

instance (s : AccelSystem) : Decidable s.Limited :=
  inferInstanceAs (Decidable
    (ResidencyManager.machine.Within ResidencyManager.LeaseLimit .new s.calls))

/-- A key is loaded and referenced by a submission. Its session is cancelled
and the lease of its loader released; it cannot be evicted before the native
completion, and is evicted after it. -/
theorem lease_lifetime_of_cancel : LeaseLifetime ⟨64⟩ [.residency (.addPool ⟨0⟩ 100),
        .residency (.beginLoad ⟨1, 2, 3, 4, ⟨5, 6, 7⟩, ⟨0⟩⟩ 40 ⟨7⟩),
        .residency (.completeLoad ⟨⟨0⟩, .success⟩), .core .createSession,
        .submit ⟨(∅ : Table DeviceId ExecutionTarget).insert ⟨0⟩ ⟨⟨0⟩, .gpu, [.accelerator]⟩⟩ ⟨0⟩
          ⟨⟨0⟩, .gpu, [.accelerator]⟩ ⟨[1], [⟨1, 2, 3, 4, ⟨5, 6, 7⟩, ⟨0⟩⟩]⟩,
        .residency (.release ⟨⟨0⟩, ⟨1, 2, 3, 4, ⟨5, 6, 7⟩, ⟨0⟩⟩, ⟨0⟩, ⟨7⟩⟩),
        .core (.cancel ⟨0⟩), .cancelTicket ⟨0⟩, .residency (.evict ⟨0⟩),
        .complete ⟨⟨0⟩, .success⟩, .complete ⟨⟨0⟩, .success⟩, .residency (.evict ⟨0⟩)] :=
  lease_lifetime _ _ (by decide +kernel) (by decide +kernel)

end AccelSystem

end Logan
