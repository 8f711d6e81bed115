import Logan.Sched.RuntimeShutdown

/-!
# The backpressure queue

The queue of refused requests is added to at its end only, by a submission
whose lane is full, and a ticket is issued for every submission. So the
tickets of the queue stand in the order in which they were issued, in every
state the owner thread can reach (`Runtime.run_queued`).

A retry goes through the queue by an index (`RuntimeLoop.retryFrom_succ`). A
request that is closed fails its session, and the cancelled requests of that
session leave the queue wherever they stand
(`RuntimeLoop.failing_of_owner`). Whatever the lanes answer, the requests of
the other kinds that are live at the end are those that were there before, in
their order (`RuntimeLoop.keeps_retryPending`).
-/

namespace Logan

open List SchedulerCore RuntimeLoop

namespace RuntimeLoop

variable {l l' l'' : RuntimeLoop} {kind : ActionKind} {c c' : SchedulerCore} {t : Ticket}
variable {s : SessionId}

/-! ## A closed lane -/

/-- The core completes the ticket of a request that is closed, with an error. -/
abbrev closing (l : RuntimeLoop) (t : Ticket) : Except SchedError (List Effect) × SchedulerCore :=
  l.core.complete t (.err "executor closed before retry")

/-- **A request is closed**: the ticket is completed, and the effects are carried out. -/
def failing (l : RuntimeLoop) (t : Ticket) : RuntimeLoop :=
  ({ l with core := (l.closing t).2 }).settle (l.closing t).1

theorem probed_failing (l : RuntimeLoop) (t : Ticket) :
    Probed (cancels (effectsOf (l.closing t).1)) { l with
        core := (l.closing t).2
        pending := l.pending.filter fun request =>
          request.ticket ∉ cancels (effectsOf (l.closing t).1) } (l.failing t) :=
  probed_settle _ _

/-- A ticket that is not live is dropped without effect. -/
theorem failing_of_dead (h : l.core.Consistent) (ht : l.core.ownerOf t = none) :
    l.failing t = l := by
  rcases complete_cases h t (.err "executor closed before retry") with
    ⟨-, heq⟩ | ⟨s, r, ho, -⟩
  · rw [failing, closing, heq]
    rfl
  · rw [ht] at ho
    cases ho

/-- **A live ticket takes its session with it**: the session owns nothing
any more, and its other requests leave the queue. -/
theorem failing_of_owner (h : l.core.Consistent) (ho : l.core.ownerOf t = some s)
    (hfr : ∀ request ∈ l.pending, request.ticket ≠ t) : (l.failing t).core.Consistent
      ∧ (∀ u j, (l.failing t).core.ownerOf u = some j ↔ l.core.ownerOf u = some j ∧ j ≠ s)
      ∧ (l.failing t).pending
        = l.pending.filter (fun request => l.core.ownerOf request.ticket ≠ some s) := by
  rcases complete_cases h t (.err "executor closed before retry") with
    ⟨hnon, -⟩ | ⟨j, r, hj, hs, hcas⟩
  · rw [ho] at hnon
    cases hnon
  · obtain rfl := Option.some.inj (ho.symm.trans hj)
    obtain ⟨hok, -⟩ | ⟨hok, -⟩ | ⟨e, he, heq⟩ := hcas
    · cases hok
    · cases hok
    · have hcan : cancels (effectsOf (l.closing t).1) = (r.without t).inflight := by
        rw [closing, heq]
        show cancels ((r.without t).inflight.map .cancel ++ [.failed s e]) = _
        rw [cancels_append, cancels_map_cancel]
        exact List.append_nil _
      have hdr := drops_complete h t (.err "executor closed before retry")
      have hcor : (l.failing t).core = (l.closing t).2 := core_settle _ _
      have hlos (u : Ticket) : (u = t ∨ u ∈ (r.without t).inflight)
          ↔ l.core.ownerOf u = some s := by
        rw [Session.mem_without, h.owner_iff hs]
        have hmem := (h.owner_iff hs t).mp ho
        by_cases hu : u = t
        · simp [hu, hmem]
        · simp [hu]
      rw [hcor]
      refine ⟨hdr.consistent, fun u j => ?_, ?_⟩
      · rw [hdr.owner, hcan, hlos]
        constructor
        · rintro ⟨hu, hnot⟩
          exact ⟨hu, fun hjs => hnot (hjs ▸ hu)⟩
        · rintro ⟨hu, hne⟩
          exact ⟨hu, fun hus => hne (Option.some.inj (hu.symm.trans hus))⟩
      · obtain ⟨probes, hpr, -, -⟩ := l.probed_failing t
        rw [hpr]
        refine filter_congr fun request hreq => ?_
        rw [hcan]
        have hiff := hlos request.ticket
        simp only [hfr request hreq, false_or] at hiff
        simp [hiff]

/-! ## One iteration -/

/-- The loop after an offer at an index. -/
def offered (l : RuntimeLoop) (request : DispatchRequest) (index : ℕ) (answer : Answer) :
    RuntimeLoop :=
  { l with
    pending := l.pending.eraseIdx index
    calls := l.calls ++ [.trySubmit request answer (l.core.inflight.lookup request.ticket).isSome] }

/-- **What one iteration does.** -/
theorem retryFrom_succ (kind : ActionKind) (fuel : ℕ) {index : ℕ} {request : DispatchRequest}
    (hget : l.pending[index]? = some request) : retryFrom kind (fuel + 1) l index
      = if request.action.kind ≠ kind then retryFrom kind fuel l (index + 1)
        else match l.executors.submitAnswer l.calls.length with
          | .accepted => retryFrom kind fuel (l.offered request index .accepted) index
          | .full => { l.offered request index .full with pending := l.pending }
          | .closed =>
            retryFrom kind fuel ((l.offered request index .closed).failing request.ticket)
              index := by
  rw [retryFrom, hget]
  dsimp only
  by_cases hkin : request.action.kind ≠ kind
  · rw [if_pos hkin, if_pos hkin]
  · rw [if_neg hkin, if_neg hkin]
    unfold trySubmit
    cases l.executors.submitAnswer l.calls.length with
    | accepted | closed => rfl
    | full =>
      obtain ⟨hlt, hval⟩ := List.getElem?_eq_some_iff.mp hget
      have hbac : (l.pending.eraseIdx index).insertIdx index request = l.pending := by
        rw [← hval]
        exact insertIdx_eraseIdx_getElem hlt
      show RuntimeLoop.mk _ _ ((l.pending.eraseIdx index).insertIdx index request) _ _ _ _ = _
      rw [hbac]
      rfl

theorem retryFrom_of_none (kind : ActionKind) (fuel : ℕ) {index : ℕ}
    (hget : l.pending[index]? = none) : retryFrom kind fuel l index = l := by
  cases fuel with
  | zero => rfl
  | succ => rw [retryFrom, hget]

theorem calls_failing (l : RuntimeLoop) (t : Ticket) :
    ∃ probes, (l.failing t).calls = l.calls ++ probes ∧ ∀ x ∈ probes, x.OffersNothing := by
  obtain ⟨probes, heq, hpr, -⟩ := l.probed_failing t
  refine ⟨probes, ?_, hpr⟩
  rw [heq]

theorem executors_failing (l : RuntimeLoop) (t : Ticket) :
    (l.failing t).executors = l.executors := by
  obtain ⟨probes, heq, -, -⟩ := l.probed_failing t
  rw [heq]

theorem pending_failing (l : RuntimeLoop) (t : Ticket) :
    (l.failing t).pending.Sublist l.pending := by
  obtain ⟨probes, heq, -, -⟩ := l.probed_failing t
  rw [heq]
  exact filter_sublist

/-! ## The requests of other kinds -/

/-- The requests of other kinds whose tickets are live. -/
def liveOthers (c : SchedulerCore) (kind : ActionKind) (requests : List DispatchRequest) :
    List DispatchRequest :=
  requests.filter fun request => request.action.kind ≠ kind ∧ (c.ownerOf request.ticket).isSome

/-- `c'` owns no ticket that `c` does not own. -/
def OwnsLess (c c' : SchedulerCore) : Prop :=
  ∀ t, (c'.ownerOf t).isSome → (c.ownerOf t).isSome

/-- What is live in the end was live on the way. -/
theorem liveOthers_of_ownsLess (h : OwnsLess c c') (requests : List DispatchRequest) :
    liveOthers c' kind requests
      = (liveOthers c kind requests).filter fun request => (c'.ownerOf request.ticket).isSome := by
  rw [liveOthers, liveOthers, filter_filter]
  refine filter_congr fun request _ => ?_
  by_cases hliv : (c'.ownerOf request.ticket).isSome
  · simp [hliv, h _ hliv]
  · simp [hliv]

/-- **The other kinds are kept**: those of their requests that are live in the
end are those of the beginning, in their order. -/
structure Keeps (kind : ActionKind) (l l' : RuntimeLoop) : Prop where
  consistent : l'.core.Consistent
  owns : OwnsLess l.core l'.core
  others : liveOthers l'.core kind l'.pending = liveOthers l'.core kind l.pending

theorem keeps_refl (h : l.core.Consistent) : Keeps kind l l := ⟨h, fun _ => id, rfl⟩

theorem Keeps.trans (h : Keeps kind l l') (h' : Keeps kind l' l'') : Keeps kind l l'' where
  consistent := h'.consistent
  owns t := fun ht => h.owns t (h'.owns t ht)
  others := by
    rw [h'.others, liveOthers_of_ownsLess h'.owns, h.others, ← liveOthers_of_ownsLess h'.owns]

theorem keeps_offered (h : l.core.Consistent) {index : ℕ} {request : DispatchRequest}
    (hget : l.pending[index]? = some request) (hkin : request.action.kind = kind)
    (answer : Answer) : Keeps kind l (l.offered request index answer) := by
  refine ⟨h, fun _ => id, ?_⟩
  obtain ⟨hlt, hval⟩ := List.getElem?_eq_some_iff.mp hget
  have hspl : l.pending = l.pending.take index ++ request :: l.pending.drop (index + 1) := by
    rw [← hval, getElem_cons_drop, take_append_drop]
  show liveOthers l.core kind (l.pending.eraseIdx index) = liveOthers l.core kind l.pending
  rw [eraseIdx_eq_take_drop_succ]
  conv_rhs => rw [hspl]
  rw [liveOthers, liveOthers, filter_append, filter_append, filter_cons_of_neg]
  simp [hkin]

/-- A request is closed: what leaves the queue is not live any more. -/
theorem keeps_failing (h : l.core.Consistent) (t : Ticket) : Keeps kind l (l.failing t) := by
  have hdr := drops_complete h t (.err "executor closed before retry")
  obtain ⟨probes, heq, -, -⟩ := l.probed_failing t
  rw [heq]
  refine ⟨hdr.consistent, fun u hu => ?_, ?_⟩
  · obtain ⟨j, hj⟩ := Option.isSome_iff_exists.mp hu
    rw [((hdr.owner u j).mp hj).1]
    rfl
  · show liveOthers _ kind (l.pending.filter _) = liveOthers _ kind l.pending
    rw [liveOthers, liveOthers, filter_filter]
    refine filter_congr fun request _ => ?_
    cases ho : (l.closing t).2.ownerOf request.ticket with
    | none => simp
    | some j =>
      have hkep := ((hdr.owner request.ticket j).mp ho).2
      rw [not_or] at hkep
      simp [hkep.2]

/-- **Every iteration keeps the requests of other kinds**, and so does the
loop. -/
theorem keeps_retryFrom (kind : ActionKind) (fuel : ℕ) (h : l.core.Consistent) (index : ℕ) :
    Keeps kind l (retryFrom kind fuel l index) := by
  induction fuel generalizing l index with
  | zero => exact keeps_refl h
  | succ fuel ih =>
    cases hget : l.pending[index]? with
    | none =>
      rw [retryFrom_of_none kind _ hget]
      exact keeps_refl h
    | some request =>
      rw [retryFrom_succ kind fuel hget]
      by_cases hkin : request.action.kind ≠ kind
      · rw [if_pos hkin]
        exact ih h (index + 1)
      · rw [if_neg hkin]
        have hoff := keeps_offered h hget (not_not.mp hkin)
        cases l.executors.submitAnswer l.calls.length with
        | accepted => exact (hoff .accepted).trans (ih (hoff .accepted).consistent index)
        | full => exact ⟨h, fun _ => id, rfl⟩
        | closed =>
          have hcl := (hoff .closed).trans (keeps_failing (hoff .closed).consistent request.ticket)
          exact hcl.trans (ih hcl.consistent index)

theorem keeps_retryPending (h : l.core.Consistent) (kind : ActionKind) :
    Keeps kind l (l.retryPending kind) := keeps_retryFrom kind _ h 0

/-! ## The order of the queue -/

/-- **The queue is in the order of submission**, and its tickets have been
issued. -/
structure Queued (l : RuntimeLoop) : Prop where
  ordered : (l.pending.map fun request => request.ticket.val).Pairwise (· < ·)
  issued : ∀ request ∈ l.pending, request.ticket.val < l.core.nextTicket

theorem Queued.nodup (h : Queued l) : (l.pending.map DispatchRequest.ticket).Nodup := by
  have hprs := pairwise_map.mp h.ordered
  refine pairwise_map.mpr (hprs.imp fun hlt heq => ?_)
  rw [heq] at hlt
  exact lt_irrefl _ hlt

theorem Queued.mono (h : Queued l) (hpen : l'.pending.Sublist l.pending)
    (hnex : l.core.nextTicket ≤ l'.core.nextTicket) : Queued l' where
  ordered := h.ordered.sublist (hpen.map _)
  issued request hmem := lt_of_lt_of_le (h.issued request (hpen.subset hmem)) hnex

/-- A new request is the last one. -/
theorem Queued.push (h : Queued l) {a : Action}
    (hpen : l'.pending = l.pending ++ [⟨⟨l.core.nextTicket⟩, a⟩])
    (hnex : l'.core.nextTicket = l.core.nextTicket + 1) : Queued l' where
  ordered := by
    rw [hpen, List.map_append, pairwise_append]
    refine ⟨h.ordered, pairwise_singleton _ _, fun x hx y hy => ?_⟩
    obtain ⟨request, hmem, rfl⟩ := mem_map.mp hx
    obtain rfl := mem_singleton.mp hy
    exact h.issued request hmem
  issued := by
    intro request hmem
    rw [hpen, mem_append, mem_singleton] at hmem
    rw [hnex]
    rcases hmem with hmem | rfl
    · exact (h.issued request hmem).trans (Nat.lt_succ_self _)
    · exact Nat.lt_succ_self _

theorem pending_settle (l : RuntimeLoop) (result : Except SchedError (List Effect)) :
    (l.settle result).pending.Sublist l.pending := by
  obtain ⟨probes, heq, -, -⟩ := probed_settle l result
  rw [heq]
  exact filter_sublist

theorem pending_send (l : RuntimeLoop) (port : ReplyPort) (reply : RuntimeReply) :
    (l.send port reply).pending = l.pending := by
  rw [send_eq]

theorem pending_respondEffects (l : RuntimeLoop) (result : Except SchedError (List Effect))
    (port : ReplyPort) : (l.respondEffects result port).pending = l.pending := by
  obtain ⟨reply, heq⟩ := respondEffects_eq l result port
  rw [heq, pending_send]

/-- Nothing enters the queue in a retry. -/
theorem pending_retryFrom (kind : ActionKind) (fuel : ℕ) (l : RuntimeLoop) (index : ℕ) :
    (retryFrom kind fuel l index).pending.Sublist l.pending := by
  induction fuel generalizing l index with
  | zero => exact List.Sublist.refl _
  | succ fuel ih =>
    cases hget : l.pending[index]? with
    | none =>
      rw [retryFrom_of_none kind _ hget]
    | some request =>
      rw [retryFrom_succ kind fuel hget]
      split_ifs
      · exact ih l (index + 1)
      · have her (answer : Answer) : (l.offered request index answer).pending.Sublist l.pending :=
          eraseIdx_sublist _ _
        cases l.executors.submitAnswer l.calls.length with
        | accepted => exact (ih _ index).trans (her .accepted)
        | full => exact List.Sublist.refl _
        | closed => exact ((ih _ index).trans (pending_failing _ _)).trans (her .closed)

/-- What is cancelled leaves the queue, and the answer does not matter. -/
theorem pending_settle_respond (l : RuntimeLoop) (c' : SchedulerCore)
    (result : Except SchedError (List Effect)) (reply : ReplyPort) :
    ((({ l with core := c' } : RuntimeLoop).settle result).respondEffects result
      reply).pending.Sublist l.pending := by
  rw [pending_respondEffects]
  exact pending_settle _ _

/-- **Only a submission adds to the queue.** -/
theorem pending_handle (l : RuntimeLoop) {command : RuntimeCommand}
    (hcom : ∀ s a reply, command ≠ .submit s a reply) :
    (l.handle command).2.pending.Sublist l.pending := by
  cases command with
  | createSession =>
    unfold handle
    split_ifs
    · rw [pending_send]
    · dsimp only
      rw [pending_send]
  | submit s a reply => exact absurd rfl (hcom s a reply)
  | block s reply =>
    show (respondEffects _ _ reply).pending.Sublist l.pending
    rw [pending_respondEffects]
  | wake s reply =>
    show (respondEffects _ _ reply).pending.Sublist l.pending
    rw [pending_respondEffects]
  | complete t o reply =>
    refine ((pending_retryFrom _ _ _ _).trans ((pending_retryFrom _ _ _ _).trans
      (pending_retryFrom _ _ _ _))).trans ?_
    cases reply with
    | none => exact pending_settle _ _
    | some reply => exact pending_settle_respond l _ _ reply
  | cancel s reply => exact pending_settle_respond l _ _ reply
  | finish s reply => exact pending_settle_respond l _ _ reply
  | fail s e reply => exact pending_settle_respond l _ _ reply
  | executorReady kind => exact pending_retryFrom kind _ l 0
  | shutdown mode reply =>
    rcases handle_shutdown l mode reply with ⟨-, heq⟩ | ⟨-, -, -, heq⟩ | ⟨-, -, -, heq⟩
    · rw [heq, shutdown, pending_send]
      exact nil_sublist _
    · rw [heq, pending_send]
    · rw [heq]

/-- A submission adds its own request, or none. -/
theorem pending_submit (l : RuntimeLoop) (s : SessionId) (a : Action) (reply : ReplyPort) :
    (l.submit s a reply).pending.Sublist l.pending
      ∨ ((l.submit s a reply).pending = l.pending ++ [⟨⟨l.core.nextTicket⟩, a⟩]
        ∧ (l.submit s a reply).core.nextTicket = l.core.nextTicket + 1) := by
  unfold submit
  rcases submit_cases l.core s a with ⟨r, -, -, -, heq⟩ | ⟨e, heq⟩
  · simp only [heq]
    unfold trySubmit
    cases l.executors.submitAnswer l.calls.length with
    | accepted =>
      left
      dsimp only [Answer.result]
      rw [pending_send]
    | full =>
      right
      dsimp only [Answer.result]
      rw [pending_send, core_send]
      exact ⟨rfl, rfl⟩
    | closed =>
      left
      dsimp only [Answer.result]
      rw [pending_send]
      exact pending_settle _ _
  · left
    simp only [heq]
    rw [pending_send]

/-- Tickets are issued one after the other. -/
theorem coreStable_next (n : ℕ) : CoreStable fun c => c.Consistent ∧ n ≤ c.nextTicket := by
  rintro c op ⟨hc, hn⟩
  refine ⟨execute_consistent c op hc, ?_⟩
  rcases (execute_transition hc op).numbered with ⟨-, hnex⟩ | ⟨-, hnex⟩
  · exact hn.trans_eq hnex.symm
  · rw [hnex]
    exact hn.trans (Nat.le_succ _)

/-- **Every command keeps the order of the queue.** -/
theorem Queued.handle (h : Queued l) (hc : l.core.Consistent) (command : RuntimeCommand) :
    Queued (l.handle command).2 := by
  have hnex := (stable_handle (coreStable_next l.core.nextTicket) ⟨hc, le_rfl⟩ command).2
  by_cases hsub : ∃ s a reply, command = .submit s a reply
  · obtain ⟨s, a, reply, rfl⟩ := hsub
    by_cases hdr : l.draining = true
    · have heq : l.handle (.submit s a reply)
          = (false, l.send reply (.error "runtime is draining")) := if_pos hdr
      rw [heq]
      exact h.mono (by rw [pending_send]) (by rw [core_send])
    · have heq : l.handle (.submit s a reply) = (false, l.submit s a reply) := if_neg hdr
      rw [heq] at hnex ⊢
      rcases pending_submit l s a reply with hpen | ⟨hpen, hiss⟩
      · exact h.mono hpen hnex
      · exact h.push hpen hiss
  · push Not at hsub
    exact h.mono (pending_handle l hsub) hnex

/-- So does a shutdown, which empties it. -/
theorem queued_shutdown (l : RuntimeLoop) (mode : ShutdownMode) (reply : ReplyPort) :
    Queued (l.shutdown mode reply) := by
  have hnon : (l.shutdown mode reply).pending = [] := by
    rw [shutdown, pending_send]
    rfl
  refine ⟨?_, ?_⟩
  · rw [hnon]
    exact List.Pairwise.nil
  · rw [hnon]
    exact fun request hmem => absurd hmem not_mem_nil

end RuntimeLoop

namespace Runtime

/-- One receive keeps the order of the queue. -/
theorem queued_step (rt : Runtime) (inbound : Inbound)
    (h : rt.loop.core.Consistent ∧ RuntimeLoop.Queued rt.loop) :
    (rt.step inbound).loop.core.Consistent ∧ RuntimeLoop.Queued (rt.step inbound).loop := by
  refine ⟨stable_step (P := SchedulerCore.Consistent) execute_consistent rt inbound h.1, ?_⟩
  rcases step_cases rt inbound with ⟨heq, -⟩ | ⟨-, command, -, heq⟩ | ⟨-, -, heq⟩ | ⟨-, -, heq⟩
  · rw [heq]
    exact h.2
  · rw [heq]
    exact h.2.handle h.1 command
  · rw [heq]
    exact queued_shutdown rt.loop .cancel .none
  · rw [heq, endBurst]
    split_ifs
    · exact queued_shutdown _ _ _
    · exact h.2

/-- **The queue is in order in every state the owner thread can reach.** -/
theorem run_queued (budget : Budget) (executors : ExecutorSet) (inbounds : List Inbound) :
    RuntimeLoop.Queued (machine.run (new budget executors) inbounds).loop :=
  (Machine.run_of_step (M := machine)
    (P := fun rt => rt.loop.core.Consistent ∧ RuntimeLoop.Queued rt.loop) queued_step
    ⟨consistent_new budget, List.Pairwise.nil, fun _ h => absurd h not_mem_nil⟩
    inbounds).2

end Runtime

end Logan
