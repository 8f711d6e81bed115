import Logan.Sched.CoreTickets
import Logan.Sched.Runtime

/-!
# Where the tickets of the runtime are

The core knows which tickets are live; where the work they stand for is, it
does not know. A live ticket's request is in the backpressure queue, or was
accepted by a lane that has not completed it, or, for the moment an offer
takes, is in the loop's hands. `Tracked` says it is in exactly one of these
places, and that what the loop holds is live. It also keeps the books on the
past: no lane was ever offered a dead ticket, and an accepted ticket is
live, or its completion was handled, or a lane was asked to cancel it.

All of it survives every handler but one. `Complete` retires the ticket it
names and removes from the queue only what the core's `Cancel` effects name;
should the ticket it names be in the queue itself, its request stays there,
dead. So the invariant is carried along runs in which no `Complete` names a
pending ticket (`tracked_run`).
-/

namespace Logan

open List DispatchRequest

/-- The effects of a result, none if it is an error. -/
def effectsOf : Except SchedError (List Effect) → List Effect
  | .ok effects => effects
  | .error _ => []

namespace SchedulerCore

variable {c : SchedulerCore}

/-! ## Ownership after an operation of the core -/

/-- `c'` has lost the owners of some tickets of `c`, and changed nothing
else about ownership. -/
structure Drops (c c' : SchedulerCore) (lost : Ticket → Prop) : Prop where
  consistent : c'.Consistent
  owner : ∀ t s, c'.ownerOf t = some s ↔ c.ownerOf t = some s ∧ ¬ lost t
  next : c'.nextTicket = c.nextTicket

/-- A revoking operation loses what the session's record lists. -/
theorem drops_revoked (h : c.Consistent) {s : SessionId} {r : Session}
    (hs : c.sessions.lookup s = some r) (state : SessionState) :
    Drops c (c.revoked s r state) (fun t => t ∈ r.inflight) where
  consistent := h.revoked hs state
  owner := by
    intro t j
    rw [ownerOf_revoked]
    by_cases ht : t ∈ r.inflight <;> simp [ht]
  next := rfl

/-- An operation that does not touch the ticket map loses nothing. -/
theorem drops_none {c' : SchedulerCore} (hc : c'.Consistent)
    (hinf : c'.inflight = c.inflight) (hnex : c'.nextTicket = c.nextTicket) :
    Drops c c' (fun _ => False) where
  consistent := hc
  owner := by
    intro t s
    rw [ownerOf, hinf]
    simp [ownerOf]
  next := hnex

theorem Drops.congr {c' : SchedulerCore} {lost lost' : Ticket → Prop}
    (h : Drops c c' lost) (hlos : ∀ t, lost t ↔ lost' t) : Drops c c' lost' where
  consistent := h.consistent
  owner := fun t s => by rw [h.owner, hlos]
  next := h.next

theorem effectsOf_of_quiet {result : Except SchedError (List Effect)} (h : Quiet result) :
    effectsOf result = [] := by
  rcases h with rfl | ⟨e, rfl⟩ <;> rfl

section

variable (h : c.Consistent)

include h

theorem drops_of_quiet {c' : SchedulerCore}
    {result : Except SchedError (List Effect)} (hc : c' = c) (hq : Quiet result) :
    Drops c c' (fun t => t ∈ cancels (effectsOf result)) := by
  subst hc
  rw [effectsOf_of_quiet hq]
  exact (drops_none h rfl rfl).congr (fun t => by simp [cancels])

/-- `cancel` loses what it reports as cancelled. -/
theorem drops_cancel (s : SessionId) :
    Drops c (c.cancel s).2 (fun t => t ∈ cancels (effectsOf (c.cancel s).1)) := by
  rcases cancel_cases c s with ⟨r, hs, -, heq⟩ | ⟨hc, hq, -⟩
  · rw [heq]
    exact (drops_revoked h hs _).congr (fun t => by simp [effectsOf])
  · exact drops_of_quiet h hc hq

theorem drops_finish (s : SessionId) :
    Drops c (c.finish s).2 (fun t => t ∈ cancels (effectsOf (c.finish s).1)) := by
  rcases finish_cases c s with ⟨r, hs, -, -, heq⟩ | ⟨hc, hq, -⟩
  · rw [heq]
    exact (drops_revoked h hs _).congr (fun t => by
      simp [effectsOf, cancels_append, show cancels [Effect.finished s] = [] from rfl])
  · exact drops_of_quiet h hc hq

theorem drops_fail (s : SessionId) (e : String) :
    Drops c (c.fail s e).2 (fun t => t ∈ cancels (effectsOf (c.fail s e).1)) := by
  rcases fail_cases c s e with ⟨r, hs, -, -, heq⟩ | ⟨hc, hq, -⟩
  · rw [heq]
    exact (drops_revoked h hs _).congr (fun t => by
      simp [effectsOf, cancels_append, show cancels [Effect.failed s e] = [] from rfl])
  · exact drops_of_quiet h hc hq

/-- **`complete` loses the ticket it names, and what it reports as
cancelled.** -/
theorem drops_complete (t : Ticket) (o : Outcome) : Drops c (c.complete t o).2
      (fun u => u = t ∨ u ∈ cancels (effectsOf (c.complete t o).1)) := by
  have hret : ∀ {s r}, c.ownerOf t = some s → c.sessions.lookup s = some r →
      Drops c (c.retired t s r) (fun u => u = t) := by
    intro s r ho hs
    refine ⟨h.retired hs ho, fun u j => ?_, rfl⟩
    rw [ownerOf_retired]
    by_cases hu : u = t <;> simp [hu]
  rcases complete_cases h t o with ⟨hno, heq⟩ | ⟨s, r, ho, hs, hcas⟩
  · rw [heq]
    refine ⟨h, fun u j => ⟨fun hu => ⟨hu, ?_⟩, And.left⟩, rfl⟩
    rintro (rfl | hmem)
    · rw [hno] at hu
      exact absurd hu (by simp)
    · exact absurd hmem not_mem_nil
  · rcases hcas with ⟨-, -, heq⟩ | ⟨-, hblk, hlas, hout, heq⟩ | ⟨e, -, heq⟩
    · rw [heq]
      exact (hret ho hs).congr (fun u => by simp [effectsOf, cancels])
    · rw [heq]
      refine ⟨(h.retired hs ho).enqueued (lookup_retired c t s r) hout, fun u j => ?_, rfl⟩
      rw [show ((c.retired t s r).enqueued s (r.without t)).ownerOf u
        = (c.retired t s r).ownerOf u from rfl, (hret ho hs).owner]
      simp [effectsOf, cancels, Effect.cancelled?]
    · rw [heq]
      have hfst := hret ho hs
      have hsec := drops_revoked hfst.consistent (lookup_retired c t s r) .failed
      refine ⟨hsec.consistent, fun u j => ?_, rfl⟩
      rw [hsec.owner, hfst.owner]
      simp only [effectsOf, cancels_append, cancels_map_cancel,
        show cancels [Effect.failed s e] = [] from rfl, List.append_nil, not_or, and_assoc]

theorem drops_block (s : SessionId) : Drops c (c.block s).2 (fun _ => False) := by
  rcases block_cases c s with ⟨r, hs, -, heq⟩ | ⟨hc, -, -⟩
  · rw [heq]
    exact drops_none (h.parked hs) rfl rfl
  · rw [hc]
    exact drops_none h rfl rfl

theorem drops_wake (s : SessionId) : Drops c (c.wake s).2 (fun _ => False) := by
  rcases wake_cases h s with ⟨r, hs, -, hout, heq⟩ | ⟨hc, -⟩
  · rw [heq]
    exact drops_none (h.enqueued hs hout) rfl rfl
  · rw [hc]
    exact drops_none h rfl rfl

end

end SchedulerCore

/-! ## What the loop's own steps change -/

/-- The ticket a lane has accepted with a call. -/
def Call.accepted? : Call → Option Ticket
  | .trySubmit request .accepted _ => some request.ticket
  | _ => none

/-- The ticket a call asks a lane to cancel. -/
def Call.cancelled? : Call → Option Ticket
  | .tryCancel _ ticket _ => some ticket
  | _ => none

/-- A call that offers no work. -/
def Call.OffersNothing : Call → Prop
  | .trySubmit _ _ _ => False
  | _ => True

/-- **The tickets the lanes have accepted**, in order. -/
def accepted (calls : List Call) : List Ticket := calls.filterMap Call.accepted?

/-- **The tickets the lanes were asked to cancel**, in order. -/
def cancelRequests (calls : List Call) : List Ticket := calls.filterMap Call.cancelled?

theorem accepted_append (xs ys : List Call) :
    accepted (xs ++ ys) = accepted xs ++ accepted ys := filterMap_append

theorem cancelRequests_append (xs ys : List Call) :
    cancelRequests (xs ++ ys) = cancelRequests xs ++ cancelRequests ys :=
  filterMap_append

/-- Nothing is accepted where nothing is offered. -/
theorem accepted_of_probes {xs : List Call} (h : ∀ x ∈ xs, x.OffersNothing) : accepted xs = [] := by
  refine filterMap_eq_nil_iff.mpr (fun x hx => ?_)
  have hp := h x hx
  cases x with
  | trySubmit => exact absurd hp id
  | _ => rfl

namespace RuntimeLoop

/-- The tickets of the backpressure queue. -/
def pendingTickets (l : RuntimeLoop) : List Ticket := l.pending.map ticket

/-- What a reply adds to the record of replies. -/
def sent (port : ReplyPort) (reply : RuntimeReply) : List (ℕ × RuntimeReply) :=
  port.sender.toList.map (fun sender => (sender, reply))

variable (l : RuntimeLoop)

theorem send_eq (port : ReplyPort) (reply : RuntimeReply) :
    l.send port reply = { l with replies := l.replies ++ sent port reply } := by
  obtain ⟨_ | sender⟩ := port
  · simp [send, sent]
  · rfl

theorem respondEffects_eq (result : Except SchedError (List Effect))
    (port : ReplyPort) : ∃ reply, l.respondEffects result port = l.send port reply := by
  cases result with
  | ok | error => exact ⟨_, rfl⟩

/-- `l'` is `l` after some calls that offer nothing, among them a
cancellation probe for each of the tickets `ts`. -/
def Probed (ts : List Ticket) (l l' : RuntimeLoop) : Prop :=
  ∃ probes, l' = { l with calls := l.calls ++ probes }
    ∧ (∀ x ∈ probes, x.OffersNothing) ∧ ∀ t ∈ ts, t ∈ cancelRequests probes

theorem probed_refl : Probed [] l l :=
  ⟨[], by rw [List.append_nil], by simp, by simp⟩

theorem probed_probe (lane : ActionKind) (t : Ticket) : Probed [t] l (l.probe lane t).2 :=
  ⟨[.tryCancel lane t (l.probe lane t).1], rfl, by simp [Call.OffersNothing],
    by simp [cancelRequests, Call.cancelled?]⟩

theorem Probed.trans {ts us : List Ticket} {l l' l'' : RuntimeLoop} (h : Probed ts l l')
    (h' : Probed us l' l'') : Probed (ts ++ us) l l'' := by
  obtain ⟨first, rfl, hfst, hts⟩ := h
  obtain ⟨rest, rfl, hres, hus⟩ := h'
  refine ⟨first ++ rest, by rw [append_assoc], ?_, ?_⟩
  · exact fun x hx => (mem_append.mp hx).elim (hfst x) (hres x)
  · intro t ht
    rw [cancelRequests_append, mem_append]
    exact (mem_append.mp ht).imp (hts t) (hus t)

theorem Probed.mono {ts us : List Ticket} {l l' : RuntimeLoop} (h : Probed ts l l')
    (hsub : ∀ t ∈ us, t ∈ ts) : Probed us l l' := by
  obtain ⟨probes, heq, hpr, hts⟩ := h
  exact ⟨probes, heq, hpr, fun t ht => hts t (hsub t ht)⟩

/-- `try_cancel` probes a first lane for the ticket, and perhaps others. -/
theorem probed_tryCancel (t : Ticket) : Probed [t] l (l.tryCancel t) := by
  have hch : l.tryCancel t = if (l.probe .io t).1 then (l.probe .io t).2
        else if ((l.probe .io t).2.probe .cpu t).1 then ((l.probe .io t).2.probe .cpu t).2
        else (((l.probe .io t).2.probe .cpu t).2.probe .accelerator t).2 := rfl
  have hio := probed_probe l .io t
  have hcpu := hio.trans (probed_probe _ .cpu t)
  have hacc := hcpu.trans (probed_probe _ .accelerator t)
  rw [hch]
  by_cases hkn : (l.probe .io t).1 = true
  · rwa [if_pos hkn]
  · rw [if_neg hkn]
    by_cases hkn : ((l.probe .io t).2.probe .cpu t).1 = true
    · rw [if_pos hkn]
      exact hcpu.mono (by simp)
    · rw [if_neg hkn]
      exact hacc.mono (by simp)

/-- `apply_effects` probes the lanes for every cancelled ticket. -/
theorem probed_applyEffects (es : List Effect) : Probed (cancels es) l (l.applyEffects es) := by
  unfold applyEffects
  induction es generalizing l with
  | nil => exact probed_refl l
  | cons e es ih =>
    rw [foldl_cons]
    cases e with
    | cancel t => exact (probed_tryCancel l t).trans (ih (l.tryCancel t))
    | _ => exact ih l

/-- `remove_cancelled` keeps the requests whose ticket was not cancelled. -/
theorem removeCancelled_eq (es : List Effect) : l.removeCancelled es
      = { l with pending := l.pending.filter (fun request => request.ticket ∉ cancels es) } := by
  unfold removeCancelled
  induction es generalizing l with
  | nil => simp [cancels]
  | cons e es ih =>
    rw [foldl_cons]
    cases e with
    | cancel t =>
      rw [ih, filter_filter]
      congr 1
      refine filter_congr (fun request _ => ?_)
      show _ = decide (request.ticket ∉ t :: cancels es)
      by_cases ht : request.ticket = t <;> simp [ht]
    | _ => exact ih l

/-- `settle` carries out the effects, after cancelled requests have left the queue. -/
theorem settle_eq (result : Except SchedError (List Effect)) : l.settle result = ({ l with
    pending := l.pending.filter fun request => request.ticket ∉ cancels (effectsOf result) } :
      RuntimeLoop).applyEffects (effectsOf result) := by
  cases result with
  | ok es =>
    show (l.removeCancelled es).applyEffects es = _
    rw [removeCancelled_eq]
    rfl
  | error e =>
    have hkep : l.pending.filter
        (fun request => request.ticket ∉ cancels (effectsOf (.error e))) = l.pending := by
      simp [effectsOf, cancels]
    rw [hkep]
    rfl

/-- **What `settle` changes**: the lanes are probed for every cancelled ticket. -/
theorem probed_settle (result : Except SchedError (List Effect)) :
    Probed (cancels (effectsOf result)) { l with
        pending := l.pending.filter (fun request => request.ticket ∉ cancels (effectsOf result)) }
      (l.settle result) := by
  rw [settle_eq]
  exact probed_applyEffects _ _

/-! ## Tracking the tickets -/

/-- **The books on the past.** `done` lists the issued tickets whose
completion has been handled. -/
structure Logged (done : List Ticket) (l : RuntimeLoop) : Prop where
  consistent : l.core.Consistent
  /-- No lane was offered a dead ticket. -/
  offered : ∀ request answer live, .trySubmit request answer live ∈ l.calls → live = true
  /-- What was accepted had been issued. -/
  issued : ∀ t ∈ accepted l.calls, t.val < l.core.nextTicket
  /-- What was accepted is live, or completed, or was cancelled on the
  lanes. -/
  retired : ∀ t ∈ accepted l.calls, l.core.Live t ∨ t ∈ done ∨ t ∈ cancelRequests l.calls
  /-- What was completed is spent. -/
  spent : ∀ t ∈ done, t.val < l.core.nextTicket ∧ ¬ l.core.Live t

/-- **Every live ticket is in exactly one place.** `hand` is what the loop
is just offering to a lane. -/
structure Tracked (hand done : List Ticket) (l : RuntimeLoop) : Prop
    extends Logged done l where
  /-- What the loop holds is live. -/
  held : ∀ t ∈ hand ++ l.pendingTickets, l.core.Live t
  /-- What is live is held once or was accepted once. -/
  place : ∀ t, l.core.Live t → (hand ++ l.pendingTickets ++ accepted l.calls).count t = 1

variable {l l' : RuntimeLoop} {hand hand' done done' ts : List Ticket}

theorem tracked_new (budget : Budget) (executors : ExecutorSet) :
    Tracked [] [] (RuntimeLoop.new budget executors) where
  consistent := SchedulerCore.consistent_new budget
  offered := fun _ _ _ h => absurd h not_mem_nil
  issued := fun _ h => absurd h not_mem_nil
  retired := fun _ h => absurd h not_mem_nil
  spent := fun _ h => absurd h not_mem_nil
  held := fun _ h => absurd h not_mem_nil
  place := by
    rintro t ⟨s, hs⟩
    exact absurd hs ((SchedulerCore.consistent_new budget).not_owner_of_unknown rfl t)

/-- Only the core, the queue and the calls matter. -/
theorem Tracked.congr (h : Tracked hand done l) (hcor : l'.core = l.core)
    (hpen : l'.pending = l.pending) (hcal : l'.calls = l.calls) : Tracked hand done l' where
  consistent := by rw [hcor]; exact h.consistent
  offered := by rw [hcal]; exact h.offered
  issued := by rw [hcor, hcal]; exact h.issued
  retired := by rw [hcor, hcal]; exact h.retired
  spent := by rw [hcor]; exact h.spent
  held := by rw [pendingTickets, hpen, hcor]; exact h.held
  place := by rw [pendingTickets, hpen, hcor, hcal]; exact h.place

theorem Tracked.send (h : Tracked hand done l) (port : ReplyPort) (reply : RuntimeReply) :
    Tracked hand done (l.send port reply) := by
  rw [send_eq]
  exact h.congr rfl rfl rfl

theorem Tracked.respondEffects (h : Tracked hand done l)
    (result : Except SchedError (List Effect)) (port : ReplyPort) :
    Tracked hand done (l.respondEffects result port) := by
  obtain ⟨reply, heq⟩ := respondEffects_eq l result port
  rw [heq]
  exact h.send port reply

variable {pending : List DispatchRequest}

/-- Moving a request between the hands and the queue. -/
theorem Tracked.perm (h : Tracked hand done l) (hand' : List Ticket)
    (hper : (hand' ++ pending.map ticket).Perm (hand ++ l.pendingTickets)) :
    Tracked hand' done { l with pending := pending } where
  toLogged := ⟨h.consistent, h.offered, h.issued, h.retired, h.spent⟩
  held := fun t ht => h.held t (hper.mem_iff.mp ht)
  place := by
    intro t ht
    have hcount := h.place t ht
    rw [count_append] at hcount ⊢
    rw [← hcount]
    exact congrArg (· + _) (hper.count_eq t)

theorem Tracked.count_hand (h : Tracked (t :: hand) done l) :
    t ∉ hand ∧ t ∉ l.pendingTickets ∧ t ∉ accepted l.calls := by
  have hcount := h.place t (h.held t mem_cons_self)
  rw [cons_append, cons_append, count_cons_self, count_append, count_append] at hcount
  exact ⟨count_eq_zero.mp (by omega), count_eq_zero.mp (by omega), count_eq_zero.mp (by omega)⟩

/-- A pending ticket was not accepted, and an accepted one is not
pending. -/
theorem Tracked.not_pending_of_accepted (h : Tracked [] done l) {t : Ticket}
    (ht : t ∈ accepted l.calls) : t ∉ l.pendingTickets := by
  intro hp
  have hcount := h.place t (h.held t hp)
  rw [nil_append, count_append] at hcount
  have h₁ := count_pos_iff.mpr hp
  have h₂ := count_pos_iff.mpr ht
  omega

/-- No ticket is pending twice. -/
theorem Tracked.pending_nodup (h : Tracked [] done l) : l.pendingTickets.Nodup := by
  rw [nodup_iff_count_le_one]
  intro t
  by_cases ht : t ∈ l.pendingTickets
  · have hcount := h.place t (h.held t ht)
    rw [nil_append, count_append] at hcount
    omega
  · rw [count_eq_zero.mpr ht]
    exact Nat.zero_le 1

/-- **The books survive a core operation that loses tickets**, if each
accepted one among them is accounted for. -/
theorem Logged.drop (h : Logged done l) {c' : SchedulerCore} {lost : Ticket → Prop}
    (hd : SchedulerCore.Drops l.core c' lost)
    (hp : Probed ts { l with core := c', pending := pending } l')
    (hlos : ∀ t ∈ accepted l.calls, lost t → t ∈ done' ∨ t ∈ ts) (hdon : ∀ t ∈ done, t ∈ done')
    (hsp : ∀ t ∈ done', t ∈ done ∨ (t.val < l.core.nextTicket ∧ lost t)) :
    Logged done' l' := by
  obtain ⟨probes, rfl, hpr, hts⟩ := hp
  have hacc : accepted (l.calls ++ probes) = accepted l.calls := by
    rw [accepted_append, accepted_of_probes hpr, List.append_nil]
  constructor
  · exact hd.consistent
  · intro request answer live hmem
    rcases mem_append.mp hmem with hold | hnew
    · exact h.offered request answer live hold
    · exact absurd (hpr _ hnew) id
  · intro t ht
    rw [hacc] at ht
    exact lt_of_lt_of_eq (h.issued t ht) hd.next.symm
  · intro t ht
    rw [hacc] at ht
    show c'.Live t ∨ t ∈ done' ∨ t ∈ cancelRequests (l.calls ++ probes)
    rw [cancelRequests_append, mem_append]
    rcases h.retired t ht with ⟨s, hs⟩ | hold | hold
    · by_cases hl : lost t
      · rcases hlos t ht hl with hd' | hc
        · exact Or.inr (Or.inl hd')
        · exact Or.inr (Or.inr (Or.inr (hts t hc)))
      · exact Or.inl ⟨s, (hd.owner t s).mpr ⟨hs, hl⟩⟩
    · exact Or.inr (Or.inl (hdon t hold))
    · exact Or.inr (Or.inr (Or.inl hold))
  · intro t ht
    show t.val < c'.nextTicket ∧ ¬ c'.Live t
    rw [hd.next]
    rcases hsp t ht with hold | ⟨hlt, hl⟩
    · obtain ⟨hlt, hdd⟩ := h.spent t hold
      refine ⟨hlt, ?_⟩
      rintro ⟨s, hs⟩
      exact hdd ⟨s, ((hd.owner t s).mp hs).1⟩
    · refine ⟨hlt, ?_⟩
      rintro ⟨s, hs⟩
      exact ((hd.owner t s).mp hs).2 hl

/-- **Tracking survives a core operation that loses tickets**, if the loop
lets go of exactly those. -/
theorem Tracked.drop (h : Tracked hand done l) {c' : SchedulerCore} {lost : Ticket → Prop}
    (hd : SchedulerCore.Drops l.core c' lost)
    (hp : Probed ts { l with core := c', pending := pending } l')
    (hhel : ∀ t ∈ hand' ++ pending.map ticket, t ∈ hand ++ l.pendingTickets ∧ ¬ lost t)
    (hkep : ∀ t, ¬ lost t → (hand' ++ pending.map ticket).count t
      = (hand ++ l.pendingTickets).count t)
    (hlos : ∀ t ∈ accepted l.calls, lost t → t ∈ done' ∨ t ∈ ts) (hdon : ∀ t ∈ done, t ∈ done')
    (hsp : ∀ t ∈ done', t ∈ done ∨ (t.val < l.core.nextTicket ∧ lost t)) :
    Tracked hand' done' l' := by
  have hlog := h.toLogged.drop hd hp hlos hdon hsp
  obtain ⟨probes, rfl, hpr, hts⟩ := hp
  refine ⟨hlog, ?_, ?_⟩
  · intro t ht
    obtain ⟨hmem, hkp⟩ := hhel t ht
    obtain ⟨s, hs⟩ := h.held t hmem
    exact ⟨s, (hd.owner t s).mpr ⟨hs, hkp⟩⟩
  · rintro t ⟨s, hs⟩
    obtain ⟨hold, hkp⟩ := (hd.owner t s).mp hs
    show (hand' ++ pending.map ticket ++ accepted (l.calls ++ probes)).count t = 1
    rw [accepted_append, accepted_of_probes hpr, List.append_nil, count_append,
      hkep t hkp, ← count_append]
    exact h.place t ⟨s, hold⟩

end RuntimeLoop

end Logan
