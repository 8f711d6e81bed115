import Logan.Sched.RuntimeTickets

/-!
# The handlers keep track of the tickets

`Logan.Sched.RuntimeTickets` says what it means that the runtime's tickets
are tracked, and why a core operation that loses tickets keeps them so. Here
every handler of `RuntimeLoop` is taken apart into such operations and
offers. The one that needs a condition is `Complete`
(`Tracked.settle_complete`): the ticket it names must not be pending.

`Tracked.handle` puts the handlers together; `Logan.Sched.RuntimeAccount`
goes on from there to the runs of the loop.
-/

namespace Logan

open List SchedulerCore DispatchRequest
open Or (inl inr)

namespace SchedulerCore

/-- A session owns nothing once it has been finished, whether or not the
call was accepted. -/
theorem ownerOf_finish_ne {c : SchedulerCore} (h : c.Consistent) (s : SessionId)
    (t : Ticket) : (c.finish s).2.ownerOf t ≠ some s := by
  rcases finish_cases c s with ⟨r, hs, -, -, heq⟩ | ⟨hc, -, hcl⟩
  · rw [heq, ownerOf_revoked]
    by_cases ht : t ∈ r.inflight
    · simp [ht]
    · rwa [if_neg ht, Ne, h.owner_iff hs]
  · rw [hc]
    intro ho
    obtain ⟨r, hs, ht⟩ := (h.owner t s).mp ho
    have hnil : r.inflight = [] := by
      rcases hcl r hs with he | he
      · exact (h.sound s r hs).revoked (by simp [he]) (by simp [he])
      · exact (h.sound s r hs).revoked (by simp [he]) (by simp [he])
    rw [hnil] at ht
    exact absurd ht not_mem_nil

theorem mem_sessionIds (c : SchedulerCore) (s : SessionId) :
    s ∈ c.sessionIds ↔ ∃ r, c.sessions.lookup s = some r := by
  unfold sessionIds
  rw [mem_insertionSort]
  exact Table.mem_keys_iff _ s

end SchedulerCore

/-- The ticket a command completes. -/
def RuntimeCommand.completes : RuntimeCommand → List Ticket
  | .complete t _ _ => [t]
  | _ => []

namespace RuntimeLoop

variable {l l' : RuntimeLoop} {done : List Ticket}

/-! ## Settling -/

theorem pending_removed (l : RuntimeLoop) (ts : List Ticket) :
    (l.pending.filter (fun request => request.ticket ∉ ts)).map ticket
      = l.pendingTickets.filter (fun t => t ∉ ts) := by
  rw [pendingTickets, filter_map]
  rfl

/-- Settling an operation that loses what it reports as cancelled. -/
theorem Tracked.settle_revoke (h : Tracked [] done l) {c' : SchedulerCore}
    {result : Except SchedError (List Effect)}
    (hd : SchedulerCore.Drops l.core c' (fun t => t ∈ cancels (effectsOf result))) :
    Tracked [] done (({ l with core := c' }).settle result) := by
  refine h.drop hd (probed_settle { l with core := c' } result) ?_ ?_
    (fun t _ ht => inr ht) (fun t ht => ht) (fun t ht => inl ht)
  · intro t ht
    rwa [pending_removed, nil_append, mem_filter, decide_eq_true_iff] at ht
  · intro t ht
    rw [pending_removed, nil_append, nil_append]
    exact count_filter (by simpa using ht)

/-- The ticket of a completion, if it has been issued. -/
def spentBy (l : RuntimeLoop) (t : Ticket) : List Ticket :=
  if t.val < l.core.nextTicket then [t] else []

theorem mem_spentBy {l : RuntimeLoop} {t u : Ticket} :
    u ∈ l.spentBy t ↔ u = t ∧ t.val < l.core.nextTicket := by
  unfold spentBy
  by_cases ht : t.val < l.core.nextTicket <;> simp [ht]

/-- Settling a completion, of a ticket that is not pending. -/
theorem Tracked.settle_complete (h : Tracked [] done l) {t : Ticket} (o : Outcome)
    (ht : t ∉ l.pendingTickets) : Tracked [] (done ++ l.spentBy t)
      (({ l with core := (l.core.complete t o).2 }).settle (l.core.complete t o).1) := by
  refine h.drop (drops_complete h.consistent t o)
    (probed_settle { l with core := (l.core.complete t o).2 } _) ?_ ?_ ?_
    (fun u hu => mem_append_left _ hu) ?_
  · intro u hu
    rw [pending_removed, nil_append, mem_filter, decide_eq_true_iff] at hu
    refine ⟨hu.1, ?_⟩
    rintro (rfl | hc)
    · exact ht hu.1
    · exact hu.2 hc
  · intro u hu
    rw [pending_removed, nil_append, nil_append]
    exact count_filter (by simpa using fun hc => hu (inr hc))
  · rintro u hacc (rfl | hc)
    · exact inl (mem_append_right _ (mem_spentBy.mpr ⟨rfl, h.issued u hacc⟩))
    · exact inr hc
  · intro u hu
    refine (mem_append.mp hu).imp_right (fun hs => ?_)
    obtain ⟨rfl, hlt⟩ := mem_spentBy.mp hs
    exact ⟨hlt, inl rfl⟩

/-- Settling the completion of a ticket whose offer found the lane closed. -/
theorem Tracked.settle_closed {t : Ticket} (h : Tracked [t] done l) (o : Outcome) : Tracked [] done
      (({ l with core := (l.core.complete t o).2 }).settle (l.core.complete t o).1) := by
  obtain ⟨-, hpen, hacc⟩ := h.count_hand
  refine h.drop (drops_complete h.consistent t o)
    (probed_settle { l with core := (l.core.complete t o).2 } _) ?_ ?_ ?_ (fun u hu => hu)
    (fun u hu => inl hu)
  · intro u hu
    rw [pending_removed, nil_append, mem_filter, decide_eq_true_iff] at hu
    refine ⟨mem_append_right _ hu.1, ?_⟩
    rintro (rfl | hc)
    · exact hpen hu.1
    · exact hu.2 hc
  · intro u hu
    have hne : t ≠ u := fun he => hu (inl he.symm)
    rw [pending_removed, nil_append, singleton_append, count_cons_of_ne hne]
    exact count_filter (by simpa using fun hc => hu (inr hc))
  · rintro u hu (rfl | hc)
    · exact absurd hu hacc
    · exact inr hc

/-- A core operation that loses nothing and reports nothing to settle. -/
theorem Tracked.core (h : Tracked [] done l) {c' : SchedulerCore}
    (hd : SchedulerCore.Drops l.core c' (fun _ => False)) :
    Tracked [] done { l with core := c' } :=
  h.drop hd (probed_refl _) (fun _ ht => ⟨ht, not_false⟩) (fun _ _ => rfl)
    (fun _ _ hf => absurd hf not_false) (fun _ ht => ht) (fun _ ht => inl ht)

/-! ## Offers -/

/-- **What an offer does**: it is written down, and the request is in a
lane, or back in the loop's hands. -/
theorem Tracked.offer (request : DispatchRequest) (h : Tracked [request.ticket] done l) :
    ∃ l', l'.pending = l.pending ∧ ((l.trySubmit request = (.accepted, l') ∧ Tracked [] done l')
        ∨ (l.trySubmit request = (.full request, l') ∧ Tracked [request.ticket] done l')
        ∨ (l.trySubmit request = (.closed request, l') ∧ Tracked [request.ticket] done l')) := by
  obtain ⟨s, hs⟩ := h.held request.ticket mem_cons_self
  obtain ⟨g, hg⟩ := (ownerOf_eq_some_iff _ _ _).mp hs
  have hliv : (l.core.inflight.lookup request.ticket).isSome = true := by
    rw [hg]
    rfl
  have hoff : ∀ answer, ∀ request' answer' live,
      Call.trySubmit request' answer' live ∈ l.calls ++ [.trySubmit request answer true] →
      live = true := by
    intro answer request' answer' live hmem
    rcases mem_append.mp hmem with hold | hnew
    · exact h.offered request' answer' live hold
    · exact (Call.trySubmit.inj (mem_singleton.mp hnew)).2.2
  have hcan : ∀ answer live, cancelRequests (l.calls ++ [.trySubmit request answer live])
      = cancelRequests l.calls := by
    intro answer live
    rw [cancelRequests_append]
    exact List.append_nil _
  have href : ∀ answer, answer ≠ .accepted → Tracked [request.ticket] done
        { l with calls := l.calls ++ [.trySubmit request answer true] } := by
    intro answer hne
    have hacc : accepted (l.calls ++ [.trySubmit request answer true]) = accepted l.calls := by
      rw [accepted_append]
      cases answer with
      | accepted => exact absurd rfl hne
      | _ => exact List.append_nil _
    constructor
    · exact ⟨h.consistent, hoff answer, by rw [hacc]; exact h.issued,
        by rw [hacc, hcan]; exact h.retired, h.spent⟩
    · exact h.held
    · rw [hacc]
      exact h.place
  refine ⟨(l.trySubmit request).2, rfl, ?_⟩
  unfold trySubmit
  rw [hliv]
  cases l.executors.submitAnswer l.calls.length with
  | accepted =>
    have hacc : accepted (l.calls ++ [.trySubmit request .accepted true])
        = accepted l.calls ++ [request.ticket] := accepted_append _ _
    refine inl ⟨rfl, ⟨h.consistent, hoff .accepted, ?_, ?_, h.spent⟩, ?_, ?_⟩
    · intro t ht
      rw [hacc, mem_append, mem_singleton] at ht
      rcases ht with hold | rfl
      · exact h.issued t hold
      · exact h.consistent.ticket_lt _ ⟨s, hs⟩
    · intro t ht
      rw [hacc, mem_append, mem_singleton] at ht
      rw [hcan]
      rcases ht with hold | rfl
      · exact h.retired t hold
      · exact inl ⟨s, hs⟩
    · exact fun t ht => h.held t (mem_cons_of_mem _ ht)
    · intro t ht
      have hcount := h.place t ht
      rw [hacc]
      rw [count_append, count_append] at hcount
      rw [nil_append, count_append, count_append]
      show l.pendingTickets.count t + _ = 1
      omega
  | full => exact inr (inl ⟨rfl, href .full (by simp)⟩)
  | closed => exact inr (inr ⟨rfl, href .closed (by simp)⟩)

/-- A granted submission puts its ticket in the loop's hands. -/
theorem Tracked.issue (h : Tracked [] done l) {s : SessionId} {a : Action} {t : Ticket}
    {e : Effect} {c' : SchedulerCore} (hsub : l.core.submit s a = (.ok (t, e), c')) :
    e = .dispatch t a ∧ Tracked [t] done { l with core := c' } := by
  rcases submit_cases l.core s a with ⟨r, hs, hrun, hrm, heq⟩ | ⟨err, heq⟩
  · rw [hsub] at heq
    obtain ⟨hok, rfl⟩ := Prod.mk.inj heq
    cases hok
    refine ⟨rfl, ?_⟩
    have hliv : ∀ u, (l.core.issued s r).Live u ↔ u = ⟨l.core.nextTicket⟩ ∨ l.core.Live u := by
      intro u
      unfold SchedulerCore.Live
      rw [ownerOf_issued]
      by_cases hu : u = ⟨l.core.nextTicket⟩ <;> simp [hu]
    have hfr : ∀ u : Ticket, u.val < l.core.nextTicket → u ≠ ⟨l.core.nextTicket⟩ := by
      rintro u hu rfl
      exact Nat.lt_irrefl _ hu
    constructor
    · refine ⟨h.consistent.issued hs hrun hrm, h.offered, ?_, ?_, ?_⟩
      · exact fun u hu => Nat.lt_succ_of_lt (h.issued u hu)
      · intro u hu
        rcases h.retired u hu with hold | hold
        · exact inl ((hliv u).mpr (inr hold))
        · exact inr hold
      · intro u hu
        obtain ⟨hlt, hdd⟩ := h.spent u hu
        refine ⟨Nat.lt_succ_of_lt hlt, fun hl => ?_⟩
        exact ((hliv u).mp hl).elim (hfr u hlt) hdd
    · intro u hu
      rcases mem_cons.mp hu with rfl | hold
      · exact (hliv _).mpr (inl rfl)
      · exact (hliv u).mpr (inr (h.held u hold))
    · intro u hu
      show ([Ticket.mk l.core.nextTicket] ++ l.pendingTickets ++ accepted l.calls).count u = 1
      rw [append_assoc, singleton_append]
      rcases (hliv u).mp hu with rfl | hold
      · have hp : (⟨l.core.nextTicket⟩ : Ticket) ∉ l.pendingTickets := fun hm =>
          hfr _ (h.consistent.ticket_lt _ (h.held _ hm)) rfl
        have ha : (⟨l.core.nextTicket⟩ : Ticket) ∉ accepted l.calls := fun hm =>
          hfr _ (h.issued _ hm) rfl
        rw [count_cons_self, count_append, count_eq_zero.mpr hp, count_eq_zero.mpr ha]
      · have hne := hfr u (h.consistent.ticket_lt u hold)
        rw [count_cons_of_ne hne.symm]
        exact h.place u hold
  · rw [hsub] at heq
    exact absurd (Prod.mk.inj heq).1 (by simp)

/-- `submit` keeps track. -/
theorem Tracked.submit (h : Tracked [] done l) (s : SessionId) (a : Action)
    (reply : ReplyPort) : Tracked [] done (l.submit s a reply) := by
  unfold RuntimeLoop.submit
  cases hsub : l.core.submit s a with
  | mk result c' =>
    cases result with
    | error =>
      have hc : c' = l.core := by
        rcases submit_cases l.core s a with ⟨r, -, -, -, heq⟩ | ⟨err, heq⟩
        · rw [hsub] at heq
          exact absurd (Prod.mk.inj heq).1 (by simp)
        · rw [hsub] at heq
          exact (Prod.mk.inj heq).2
      subst hc
      exact h.send reply _
    | ok granted =>
      obtain ⟨t, e⟩ := granted
      obtain ⟨rfl, hhan⟩ := h.issue hsub
      obtain ⟨l', hpen, ⟨heq, h'⟩ | ⟨heq, h'⟩ | ⟨heq, h'⟩⟩ :=
        hhan.offer ⟨t, a⟩
      · simp only [heq]
        exact h'.send reply _
      · simp only [heq]
        refine (h'.perm [] ?_).send reply _
        rw [nil_append, List.map_append]
        exact perm_append_comm
      · simp only [heq]
        exact (h'.settle_closed _).send reply _

/-! ## Retrying -/

/-- Taking a request out of the queue. -/
theorem Tracked.take (h : Tracked [] done l) {index : ℕ} {request : DispatchRequest}
    (hget : l.pending[index]? = some request) :
    Tracked [request.ticket] done { l with pending := l.pending.eraseIdx index } := by
  refine h.perm _ ?_
  obtain ⟨hlt, hval⟩ := List.getElem?_eq_some_iff.mp hget
  have hper := (getElem_cons_eraseIdx_perm hlt).map ticket
  rwa [hval] at hper

theorem Tracked.putBack {request : DispatchRequest} (h : Tracked [request.ticket] done l)
    {index : ℕ} (hidx : index ≤ l.pending.length) :
    Tracked [] done { l with pending := l.pending.insertIdx index request } := by
  refine h.perm [] ?_
  exact (perm_insertIdx request l.pending hidx).map ticket

/-- `retry_pending` keeps track. The induction is on the iterations. -/
theorem Tracked.retryFrom (kind : ActionKind) (fuel : ℕ) (h : Tracked [] done l)
    (index : ℕ) : Tracked [] done (RuntimeLoop.retryFrom kind fuel l index) := by
  induction fuel generalizing l index with
  | zero => exact h
  | succ fuel ih =>
    unfold RuntimeLoop.retryFrom
    cases hget : l.pending[index]? with
    | none => exact h
    | some request =>
      by_cases hkin : request.action.kind ≠ kind
      · simp only [if_pos hkin]
        exact ih h (index + 1)
      · simp only [if_neg hkin]
        obtain ⟨l', hpen, ⟨heq, h'⟩ | ⟨heq, h'⟩ | ⟨heq, h'⟩⟩ := (h.take hget).offer request
        · simp only [heq]
          exact ih h' index
        · simp only [heq]
          refine h'.putBack ?_
          obtain ⟨hlt, -⟩ := List.getElem?_eq_some_iff.mp hget
          rw [hpen, length_eraseIdx_of_lt hlt]
          omega
        · simp only [heq]
          exact ih (h'.settle_closed _) index

theorem Tracked.retryPending (h : Tracked [] done l) (kind : ActionKind) :
    Tracked [] done (l.retryPending kind) :=
  h.retryFrom kind _ 0

/-! ## Shutting down -/

/-- Finishing a session keeps the books; afterwards the session owns
nothing, and nobody has gained a ticket. -/
theorem Logged.finishSession (h : Logged done l) (s : SessionId) :
    Logged done (l.finishSession s) ∧ (∀ t, (l.finishSession s).core.ownerOf t ≠ some s)
    ∧ ∀ t j, (l.finishSession s).core.ownerOf t = some j → l.core.ownerOf t = some j := by
  have hd := drops_finish h.consistent s
  have hp : Probed (cancels (effectsOf (l.core.finish s).1))
      { l with core := (l.core.finish s).2, pending := l.pending } (l.finishSession s) := by
    unfold RuntimeLoop.finishSession
    generalize l.core.finish s = answer
    obtain ⟨e | es, c'⟩ := answer
    · exact probed_refl _
    · exact probed_applyEffects _ es
  have hlog := h.drop hd hp (fun _ _ ht => inr ht) (fun _ ht => ht) (fun _ ht => inl ht)
  obtain ⟨probes, heq, -, -⟩ := hp
  rw [heq] at hlog ⊢
  exact ⟨hlog, ownerOf_finish_ne h.consistent s, fun t j ho => ((hd.owner t j).mp ho).1⟩

/-- So does a session's whole part of the shutdown. -/
theorem Logged.shutdownSession (h : Logged done l) (mode : ShutdownMode) (s : SessionId) :
    Logged done (RuntimeLoop.shutdownSession mode l s)
    ∧ (∀ t, (RuntimeLoop.shutdownSession mode l s).core.ownerOf t ≠ some s)
    ∧ ∀ t j, (RuntimeLoop.shutdownSession mode l s).core.ownerOf t = some j →
        l.core.ownerOf t = some j := by
  cases mode with
  | drain => exact h.finishSession s
  | cancel =>
    have hd := drops_cancel h.consistent s
    have hp := probed_settle { l with core := (l.core.cancel s).2 } (l.core.cancel s).1
    have hmid := h.drop hd hp (fun _ _ ht => inr ht) (fun _ ht => ht) (fun _ ht => inl ht)
    obtain ⟨hlog, hgon, hshr⟩ := hmid.finishSession s
    refine ⟨hlog, hgon, fun t j ho => ?_⟩
    have hown := hshr t j ho
    obtain ⟨probes, heq, -, -⟩ := hp
    rw [heq] at hown
    exact ((hd.owner t j).mp hown).1

/-- The sessions of a list have been closed one after the other. -/
theorem Logged.shutdownSessions (h : Logged done l) (mode : ShutdownMode) (ids : List SessionId) :
    Logged done (ids.foldl (RuntimeLoop.shutdownSession mode) l)
    ∧ (∀ s ∈ ids, ∀ t, (ids.foldl (RuntimeLoop.shutdownSession mode) l).core.ownerOf t ≠ some s)
    ∧ ∀ t j, (ids.foldl (RuntimeLoop.shutdownSession mode) l).core.ownerOf t = some j →
        l.core.ownerOf t = some j := by
  induction ids generalizing l with
  | nil => exact ⟨h, fun s hs => absurd hs not_mem_nil, fun _ _ ho => ho⟩
  | cons s ids ih =>
    obtain ⟨hfst, hgon, hshr⟩ := h.shutdownSession mode s
    obtain ⟨hres, hgns, hshrin⟩ := ih hfst
    refine ⟨hres, ?_, fun t j ho => hshr t j (hshrin t j ho)⟩
    intro j hj t ho
    rcases mem_cons.mp hj with rfl | hj
    · exact hgon t (hshrin t j ho)
    · exact hgns j hj t ho

/-- **After a shutdown no ticket is live**, and the books are kept. -/
theorem Logged.shutdown (h : Logged done l) (mode : ShutdownMode) (reply : ReplyPort) :
    Tracked [] done (l.shutdown mode reply) ∧ ∀ t, ¬ (l.shutdown mode reply).core.Live t := by
  obtain ⟨hlog, hgon, hshr⟩ := h.shutdownSessions mode l.core.sessionIds
  have hdd : ∀ t, ¬ (l.core.sessionIds.foldl (RuntimeLoop.shutdownSession mode) l).core.Live t := by
    rintro t ⟨s, hs⟩
    by_cases hmem : s ∈ l.core.sessionIds
    · exact hgon s hmem t hs
    · have hnon : l.core.sessions.lookup s = none := by
        rw [mem_sessionIds] at hmem
        exact Option.eq_none_iff_forall_ne_some.mpr (fun r hr => hmem ⟨r, hr⟩)
      exact h.consistent.not_owner_of_unknown hnon t (hshr t s hs)
  generalize hl : l.core.sessionIds.foldl (RuntimeLoop.shutdownSession mode) l = l₁ at *
  have hsh : l.shutdown mode reply
      = (({ l₁ with pending := [] }).shutdownExecutors).send reply .shutdownComplete := by
    rw [← hl]
    rfl
  have hp : Probed [] { l₁ with core := l₁.core, pending := [] }
      ({ l₁ with pending := [] }).shutdownExecutors :=
    ⟨[.shutdown .io, .shutdown .cpu, .shutdown .accelerator], rfl,
      by simp [Call.OffersNothing], by simp⟩
  have hcl : Logged done ({ l₁ with pending := [] }).shutdownExecutors :=
    hlog.drop (drops_none hlog.consistent rfl rfl) hp
      (fun _ _ hf => absurd hf not_false) (fun _ ht => ht) (fun _ ht => inl ht)
  rw [hsh]
  refine ⟨Tracked.send ⟨hcl, fun t ht => absurd ht not_mem_nil, fun t ht => ?_⟩ _ _,
    fun t ht => ?_⟩
  · exact absurd ht (hdd t)
  · rw [send_eq] at ht
    exact hdd t ht

/-! ## Handling a command -/

/-- **What a shutdown does**: it ends the thread at once, is refused while
another one waits, or waits. -/
theorem handle_shutdown (l : RuntimeLoop) (mode : ShutdownMode) (reply : ReplyPort) :
    ((mode = .cancel ∨ l.isQuiescent = true)
      ∧ l.handle (.shutdown mode reply) = (true, l.shutdown mode reply))
    ∨ (mode = .drain ∧ l.isQuiescent = false ∧ l.draining = true ∧ l.handle (.shutdown mode reply)
        = (false, l.send reply (.error "runtime is already draining")))
    ∨ (mode = .drain ∧ l.isQuiescent = false ∧ l.draining = false ∧ l.handle (.shutdown mode reply)
        = (false, { l with draining := true, shutdownReply := some reply })) := by
  unfold RuntimeLoop.handle
  by_cases hwt : mode = .drain ∧ l.isQuiescent = false
  · obtain ⟨rfl, hbus⟩ := hwt
    by_cases hdr : l.draining = true
    · refine inr (inl ⟨rfl, hbus, hdr, ?_⟩)
      simp only [hbus, and_self, if_true, if_pos hdr]
    · refine inr (inr ⟨rfl, hbus, by simpa using hdr, ?_⟩)
      simp only [hbus, and_self, if_true, if_neg hdr]
  · refine inl ⟨?_, if_neg hwt⟩
    cases mode with
    | cancel => exact inl rfl
    | drain => exact inr (by simpa using hwt)

/-- A command that completes nothing keeps track of the tickets. -/
theorem Tracked.handle_other (h : Tracked [] done l) {command : RuntimeCommand}
    (hoth : command.completes = []) : Tracked [] done (l.handle command).2 := by
  cases command with
  | complete => exact absurd hoth (by simp [RuntimeCommand.completes])
  | createSession reply =>
    unfold RuntimeLoop.handle
    by_cases hdr : l.draining = true
    · simp only [if_pos hdr]
      exact h.send reply _
    · simp only [if_neg hdr]
      exact (h.core (drops_none h.consistent.createSession rfl rfl)).send reply _
  | submit s a reply =>
    unfold RuntimeLoop.handle
    by_cases hdr : l.draining = true
    · simp only [if_pos hdr]
      exact h.send reply _
    · simp only [if_neg hdr]
      exact h.submit s a reply
  | block s reply =>
    exact (h.core (drops_block h.consistent s)).respondEffects _ reply
  | wake s reply =>
    exact (h.core (drops_wake h.consistent s)).respondEffects _ reply
  | cancel s reply =>
    exact (h.settle_revoke (drops_cancel h.consistent s)).respondEffects _ reply
  | finish s reply =>
    exact (h.settle_revoke (drops_finish h.consistent s)).respondEffects _ reply
  | fail s e reply =>
    exact (h.settle_revoke (drops_fail h.consistent s e)).respondEffects _ reply
  | executorReady kind => exact h.retryPending kind
  | shutdown mode reply =>
    rcases handle_shutdown l mode reply with ⟨-, heq⟩ | ⟨-, -, -, heq⟩ | ⟨-, -, -, heq⟩
    · rw [heq]
      exact (h.toLogged.shutdown mode reply).1
    · rw [heq]
      exact h.send reply _
    · rw [heq]
      exact h.congr rfl rfl rfl

/-- **Handling a command keeps track of the tickets**, if the command
completes no pending one. -/
theorem Tracked.handle (h : Tracked [] done l) (command : RuntimeCommand)
    (hok : ∀ t ∈ command.completes, t ∉ l.pendingTickets) :
    Tracked [] (done ++ command.completes.flatMap l.spentBy) (l.handle command).2 := by
  by_cases hoth : command.completes = []
  · rw [hoth, flatMap_nil, List.append_nil]
    exact h.handle_other hoth
  · cases command with
    | complete t o reply =>
      have hset := h.settle_complete o (hok t mem_cons_self)
      show Tracked [] (done ++ (l.spentBy t ++ [])) _
      rw [List.append_nil]
      cases reply with
      | none => exact ((hset.retryPending .io).retryPending .cpu).retryPending .accelerator
      | some reply =>
        exact (((hset.respondEffects _ reply).retryPending .io).retryPending
          .cpu).retryPending .accelerator
    | _ => exact absurd rfl hoth

end RuntimeLoop

end Logan
