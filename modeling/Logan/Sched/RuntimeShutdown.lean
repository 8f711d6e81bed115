import Logan.Sched.RuntimeAccount

/-!
# What a shutdown leaves

A shutdown goes through the sessions one by one: it cancels each, if it was
asked to, and finishes it. In whichever state a session was, it is then
finished or failed, and whatever it owned has been cancelled on the lanes by
one `try_cancel` (`RuntimeLoop.Closes`). Sessions own disjoint sets of
tickets, and a session is not touched before its turn, so the cancellations
of all the turns are the live tickets, each once
(`RuntimeLoop.closes_sessions`).

All of this needs no more than a consistent core, and whatever the commands
and the answers of the lanes, the loop's core is one
(`Runtime.run_consistent`).
-/

namespace Logan

open List SchedulerCore RuntimeLoop Option Table

/-! ## What the loop does to the core -/

namespace RuntimeLoop

variable {l l' : RuntimeLoop}

/-- **A property of the core that every operation of the core keeps.** -/
def CoreStable (P : SchedulerCore → Prop) : Prop :=
  ∀ c op, P c → P (execute c op).2

section Stable

variable {P : SchedulerCore → Prop} (hP : CoreStable P)

theorem core_settle (l : RuntimeLoop) (result : Except SchedError (List Effect)) :
    (l.settle result).core = l.core := by
  obtain ⟨probes, heq, -, -⟩ := probed_settle l result
  rw [heq]

theorem core_send (l : RuntimeLoop) (port : ReplyPort) (reply : RuntimeReply) :
    (l.send port reply).core = l.core := by
  rw [send_eq]

theorem core_respondEffects (l : RuntimeLoop) (result : Except SchedError (List Effect))
    (port : ReplyPort) : (l.respondEffects result port).core = l.core := by
  obtain ⟨reply, heq⟩ := respondEffects_eq l result port
  rw [heq, core_send]

include hP

theorem stable_finishSession (h : P l.core) (s : SessionId) : P (l.finishSession s).core := by
  have hfin : P (l.core.finish s).2 := hP l.core (.finish s) h
  unfold finishSession
  generalize l.core.finish s = answer at hfin ⊢
  obtain ⟨e | es, c'⟩ := answer
  · exact hfin
  · obtain ⟨probes, heq, -, -⟩ := probed_applyEffects { l with core := c' } es
    show P (({ l with core := c' } : RuntimeLoop).applyEffects es).core
    rwa [heq]

theorem stable_shutdownSession (h : P l.core) (mode : ShutdownMode) (s : SessionId) :
    P (shutdownSession mode l s).core := by
  cases mode with
  | drain => exact stable_finishSession hP h s
  | cancel =>
    refine stable_finishSession hP ?_ s
    rw [core_settle]
    exact hP l.core (.cancel s) h

theorem stable_shutdown (h : P l.core) (mode : ShutdownMode) (reply : ReplyPort) :
    P (l.shutdown mode reply).core := by
  unfold shutdown
  rw [core_send]
  show P (l.core.sessionIds.foldl (shutdownSession mode) l).core
  generalize l.core.sessionIds = ids
  induction ids generalizing l with
  | nil => exact h
  | cons s ids ih => exact ih (stable_shutdownSession hP h mode s)

theorem stable_submit (h : P l.core) (session : SessionId) (action : Action) (reply : ReplyPort) :
    P (l.submit session action reply).core := by
  have hsub : P (l.core.submit session action).2 := by
    have hex := hP l.core (.submit session action) h
    rw [execute] at hex
    rcases submit_cases l.core session action with ⟨r, -, -, -, heq⟩ | ⟨e, heq⟩
    · rw [heq] at hex ⊢
      exact hex
    · rw [heq] at hex ⊢
      exact hex
  unfold submit
  generalize l.core.submit session action = answer at hsub ⊢
  obtain ⟨e | ⟨ticket, effect⟩, c'⟩ := answer
  · dsimp only
    rwa [core_send]
  · cases effect with
    | dispatch =>
      dsimp only [trySubmit]
      cases l.executors.submitAnswer l.calls.length with
      | accepted =>
        dsimp only [Answer.result]
        rwa [core_send]
      | full =>
        dsimp only [Answer.result]
        rwa [core_send]
      | closed =>
        dsimp only [Answer.result]
        rw [core_send, core_settle]
        exact hP c' (.complete ticket _) hsub
    | _ =>
      rwa [core_send]

theorem stable_retryFrom (kind : ActionKind) (fuel : ℕ) (h : P l.core) (index : ℕ) :
    P (retryFrom kind fuel l index).core := by
  induction fuel generalizing l index with
  | zero => exact h
  | succ fuel ih =>
    unfold retryFrom
    cases l.pending[index]? with
    | none => exact h
    | some request =>
      dsimp only
      split_ifs
      · exact ih h (index + 1)
      · unfold trySubmit
        cases l.executors.submitAnswer l.calls.length with
        | accepted =>
          refine ih ?_ index
          exact h
        | full => exact h
        | closed =>
          refine ih ?_ index
          rw [core_settle]
          exact hP l.core (.complete request.ticket _) h

/-- **Handling a command performs operations of the core.** -/
theorem stable_handle (h : P l.core) (command : RuntimeCommand) : P (l.handle command).2.core := by
  cases command with
  | createSession =>
    unfold handle
    split_ifs
    · rwa [core_send]
    · dsimp only
      rw [core_send]
      exact hP l.core .createSession h
  | submit s a reply =>
    unfold handle
    split_ifs
    · rwa [core_send]
    · exact stable_submit hP h s a reply
  | block s reply =>
    show P (({ l with core := (l.core.block s).2 } : RuntimeLoop).respondEffects _ reply).core
    rw [core_respondEffects]
    exact hP l.core (.block s) h
  | wake s reply =>
    show P (({ l with core := (l.core.wake s).2 } : RuntimeLoop).respondEffects _ reply).core
    rw [core_respondEffects]
    exact hP l.core (.wake s) h
  | complete t o reply =>
    have hcpl : P ((({ l with core := (l.core.complete t o).2 } : RuntimeLoop).settle
        (l.core.complete t o).1)).core := by
      rw [core_settle]
      exact hP l.core (.complete t o) h
    have hret {m : RuntimeLoop} (hm : P m.core) :
        P (((m.retryPending .io).retryPending .cpu).retryPending .accelerator).core :=
      stable_retryFrom hP _ _ (stable_retryFrom hP _ _ (stable_retryFrom hP _ _ hm 0) 0) 0
    cases reply with
    | none => exact hret hcpl
    | some reply =>
      refine hret (m := respondEffects _ _ reply) ?_
      rwa [core_respondEffects]
  | cancel s reply =>
    show P ((({ l with core := (l.core.cancel s).2 } : RuntimeLoop).settle _).respondEffects
      _ reply).core
    rw [core_respondEffects, core_settle]
    exact hP l.core (.cancel s) h
  | finish s reply =>
    show P ((({ l with core := (l.core.finish s).2 } : RuntimeLoop).settle _).respondEffects
      _ reply).core
    rw [core_respondEffects, core_settle]
    exact hP l.core (.finish s) h
  | fail s e reply =>
    show P ((({ l with core := (l.core.fail s e).2 } : RuntimeLoop).settle _).respondEffects
      _ reply).core
    rw [core_respondEffects, core_settle]
    exact hP l.core (.fail s e) h
  | executorReady kind => exact stable_retryFrom hP kind _ h 0
  | shutdown mode reply =>
    rcases handle_shutdown l mode reply with ⟨-, heq⟩ | ⟨-, -, -, heq⟩ | ⟨-, -, -, heq⟩
    · rw [heq]
      exact stable_shutdown hP h mode reply
    · rw [heq]
      show P (l.send reply _).core
      rwa [core_send]
    · rw [heq]
      exact h

end Stable

end RuntimeLoop

namespace Runtime

/-- **The owner thread performs operations of the core.** -/
theorem stable_step {P : SchedulerCore → Prop} (hP : RuntimeLoop.CoreStable P) (rt : Runtime)
    (inbound : Inbound) (h : P rt.loop.core) : P (rt.step inbound).loop.core := by
  rcases step_cases rt inbound with ⟨heq, -⟩ | ⟨-, command, -, heq⟩ | ⟨-, -, heq⟩ | ⟨-, -, heq⟩
  · rwa [heq]
  · rw [heq]
    exact stable_handle hP h command
  · rw [heq]
    exact stable_shutdown hP h .cancel .none
  · rw [heq, endBurst]
    split_ifs
    · exact stable_shutdown hP (l := { rt.loop with shutdownReply := none }) h .drain _
    · exact h

/-- The core of a loop is consistent, whatever has been received. -/
theorem run_consistent (budget : Budget) (executors : ExecutorSet) (inbounds : List Inbound) :
    (machine.run (new budget executors) inbounds).loop.core.Consistent :=
  Machine.run_of_step (M := machine) (P := fun rt => rt.loop.core.Consistent)
    (fun rt inbound h => stable_step (P := SchedulerCore.Consistent)
      execute_consistent rt inbound h)
    (consistent_new budget) inbounds

end Runtime

/-! ## One `try_cancel` after the other -/

/-- The ticket of a `try_cancel` that begins with this call: the first lane
it probes is the I/O lane. -/
def Call.opens? : Call → Option Ticket
  | .tryCancel .io ticket _ => some ticket
  | _ => none

/-- **The tickets for which `try_cancel` was called**, in order. -/
def tryCancelled (calls : List Call) : List Ticket := calls.filterMap Call.opens?

theorem tryCancelled_append (xs ys : List Call) :
    tryCancelled (xs ++ ys) = tryCancelled xs ++ tryCancelled ys := filterMap_append

namespace RuntimeLoop

variable {l l' l'' : RuntimeLoop} {ts us : List Ticket}

/-- `l'` is `l` after exactly one `try_cancel` for each of the tickets, in
order. -/
def Cancels (ts : List Ticket) (l l' : RuntimeLoop) : Prop :=
  ∃ probes, l' = { l with calls := l.calls ++ probes } ∧ tryCancelled probes = ts

theorem cancels_refl (l : RuntimeLoop) : Cancels [] l l :=
  ⟨[], by rw [List.append_nil], rfl⟩

theorem Cancels.trans (h : Cancels ts l l') (h' : Cancels us l' l'') :
    Cancels (ts ++ us) l l'' := by
  obtain ⟨first, rfl, rfl⟩ := h
  obtain ⟨rest, rfl, rfl⟩ := h'
  exact ⟨first ++ rest, by rw [append_assoc], tryCancelled_append _ _⟩

theorem cancels_tryCancel (l : RuntimeLoop) (t : Ticket) : Cancels [t] l (l.tryCancel t) := by
  have hpr (l : RuntimeLoop) (lane : ActionKind) :
      Cancels (tryCancelled [.tryCancel lane t (l.probe lane t).1]) l (l.probe lane t).2 :=
    ⟨_, rfl, rfl⟩
  have hch : l.tryCancel t = if (l.probe .io t).1 then (l.probe .io t).2
        else if ((l.probe .io t).2.probe .cpu t).1 then ((l.probe .io t).2.probe .cpu t).2
        else (((l.probe .io t).2.probe .cpu t).2.probe .accelerator t).2 := rfl
  have hcpu := (hpr l .io).trans (hpr _ .cpu)
  rw [hch]
  split_ifs
  · exact hpr l .io
  · exact hcpu
  · exact hcpu.trans (hpr _ .accelerator)

theorem cancels_applyEffects (l : RuntimeLoop) (es : List Effect) :
    Cancels (cancels es) l (l.applyEffects es) := by
  unfold applyEffects
  induction es generalizing l with
  | nil => exact cancels_refl l
  | cons e es ih =>
    rw [foldl_cons]
    cases e with
    | cancel t => exact (cancels_tryCancel l t).trans (ih (l.tryCancel t))
    | _ => exact ih l

/-- **What `settle` does to the lanes**: one `try_cancel` for each cancelled
ticket. -/
theorem cancels_settle (l : RuntimeLoop) (result : Except SchedError (List Effect)) :
    Cancels (cancels (effectsOf result)) { l with
        pending := l.pending.filter (fun request => request.ticket ∉ cancels (effectsOf result)) }
      (l.settle result) := by
  rw [settle_eq]
  exact cancels_applyEffects _ _

/-! ## One session -/

/-- The tickets a session owns. -/
def ticketsOf (c : SchedulerCore) (s : SessionId) : List Ticket :=
  ((c.sessions.lookup s).map Session.inflight).getD []

theorem mem_ticketsOf {c : SchedulerCore} (h : c.Consistent) (s : SessionId) (t : Ticket) :
    t ∈ ticketsOf c s ↔ c.ownerOf t = some s := by
  rw [ticketsOf]
  cases hs : c.sessions.lookup s with
  | none =>
    exact iff_of_false not_mem_nil (h.not_owner_of_unknown hs t)
  | some => exact (h.owner_iff hs t).symm

/-- **A session is closed**: it is over, what it owned has been cancelled by
one `try_cancel` for each ticket, and the other sessions are untouched. -/
structure Closes (l : RuntimeLoop) (s : SessionId) (l' : RuntimeLoop) : Prop where
  consistent : l'.core.Consistent
  ended : l'.core.Ended s
  others : ∀ j, j ≠ s → l'.core.sessions.lookup j = l.core.sessions.lookup j
  calls : ∃ probes, l'.calls = l.calls ++ probes ∧ tryCancelled probes = ticketsOf l.core s

theorem ticketsOf_of_closed {c : SchedulerCore} (h : c.Consistent) {s : SessionId} {r : Session}
    (hs : c.sessions.lookup s = some r) (hrun : r.state ≠ .runnable) (hblk : r.state ≠ .blocked) :
    ticketsOf c s = [] := by
  rw [ticketsOf, hs]
  exact (h.sound s r hs).revoked hrun hblk

/-- Finishing a session closes it. -/
theorem closes_finishSession (h : l.core.Consistent) {s : SessionId} {r : Session}
    (hs : l.core.sessions.lookup s = some r) : Closes l s (l.finishSession s) := by
  rcases finish_cases l.core s with ⟨r', hs', -, -, heq⟩ | ⟨hc, hqt, hov⟩
  · obtain rfl := some.inj (hs.symm.trans hs')
    have hfin : l.finishSession s = ({ l with core := l.core.revoked s r .finished }
        : RuntimeLoop).applyEffects (r.inflight.map .cancel ++ [.finished s]) := by
      rw [finishSession, heq]
    obtain ⟨probes, hpr, hcan⟩ := cancels_applyEffects
      ({ l with core := l.core.revoked s r .finished } : RuntimeLoop)
      (r.inflight.map .cancel ++ [.finished s])
    rw [hfin, hpr]
    refine ⟨h.revoked hs _, Or.inl ?_, fun j hj => lookup_insert_ne _ _ hj, probes, rfl, ?_⟩
    · exact sessionState_of_lookup (c := l.core.revoked s r .finished) (lookup_insert_self _ _ _)
    · rw [hcan, ticketsOf, hs, cancels_append, cancels_map_cancel]
      exact List.append_nil _
  · -- nothing happens to a session that is over
    have hst := hov r hs
    have hsam : l.finishSession s = l := by
      unfold finishSession
      generalize l.core.finish s = answer at hc hqt
      obtain ⟨result, c'⟩ := answer
      obtain rfl : c' = l.core := hc
      rcases hqt with hq | ⟨e, hq⟩
      · obtain rfl : result = .ok [] := hq
        rfl
      · obtain rfl : result = .error e := hq
        rfl
    rw [hsam]
    refine ⟨h, ?_, fun _ _ => rfl, [], by rw [List.append_nil], ?_⟩
    · rw [SchedulerCore.Ended, sessionState_of_lookup hs]
      exact hst.imp (congrArg some) (congrArg some)
    · refine (ticketsOf_of_closed h hs ?_ ?_).symm <;>
        rcases hst with hst | hst <;> rw [hst] <;> simp

/-- **Each turn of the shutdown closes its session**, whatever it was
doing. -/
theorem closes_shutdownSession (h : l.core.Consistent) (mode : ShutdownMode) {s : SessionId}
    {r : Session} (hs : l.core.sessions.lookup s = some r) :
    Closes l s (shutdownSession mode l s) := by
  cases mode with
  | drain => exact closes_finishSession h hs
  | cancel =>
    have htur : shutdownSession .cancel l s = (({ l with core := (l.core.cancel s).2 }
        : RuntimeLoop).settle (l.core.cancel s).1).finishSession s := rfl
    rw [htur]
    rcases cancel_cases l.core s with ⟨r', hs', hop, heq⟩ | ⟨hc, hqt, -⟩
    · obtain rfl := some.inj (hs.symm.trans hs')
      obtain ⟨probes, hpr, hcan⟩ := cancels_settle
        ({ l with core := (l.core.cancel s).2 } : RuntimeLoop) (l.core.cancel s).1
      have hcor : ((({ l with core := (l.core.cancel s).2 } : RuntimeLoop).settle
          (l.core.cancel s).1)).core = l.core.revoked s r .cancelling := by
        rw [core_settle, heq]
      have hcal : ((({ l with core := (l.core.cancel s).2 } : RuntimeLoop).settle
          (l.core.cancel s).1)).calls = l.calls ++ probes := by
        rw [hpr]
      rw [heq] at hcan
      generalize (({ l with core := (l.core.cancel s).2 } : RuntimeLoop).settle
        (l.core.cancel s).1) = mid at hcor hcal
      -- the session is cancelling and owns nothing any more
      have hmid : mid.core.sessions.lookup s
          = some { r with inReady := false, inflight := [], state := .cancelling } := by
        rw [hcor]
        exact lookup_insert_self _ _ _
      have hfin := closes_finishSession (hcor ▸ h.revoked hs .cancelling) hmid
      obtain ⟨more, hmor, hnot⟩ := hfin.calls
      rw [ticketsOf, hmid] at hnot
      refine ⟨hfin.consistent, hfin.ended, fun j hj => ?_, probes ++ more, ?_, ?_⟩
      · rw [hfin.others j hj, hcor]
        exact lookup_insert_ne _ _ hj
      · rw [hmor, hcal, append_assoc]
      · rw [tryCancelled_append, hcan, hnot, ticketsOf, hs]
        show cancels (r.inflight.map Effect.cancel) ++ [] = r.inflight
        rw [List.append_nil, cancels_map_cancel]
    · -- the session was cancelling or is over
      have hsam : (({ l with core := (l.core.cancel s).2 } : RuntimeLoop).settle
          (l.core.cancel s).1) = l := by
        rw [hc]
        rcases hqt with hq | ⟨e, hq⟩
        · rw [hq]
          rfl
        · rw [hq]
          rfl
      rw [hsam]
      exact closes_finishSession h hs

/-! ## All of them -/

/-- **The turns of the shutdown**: the sessions are closed one after the
other, and the tickets cancelled are those they owned at the start. -/
theorem closes_sessions (mode : ShutdownMode) {ids : List SessionId} (h : l.core.Consistent)
    (hnd : ids.Nodup) (hkn : ∀ s ∈ ids, ∃ r, l.core.sessions.lookup s = some r) :
    (ids.foldl (shutdownSession mode) l).core.Consistent
      ∧ (∀ s ∈ ids, (ids.foldl (shutdownSession mode) l).core.Ended s)
      ∧ (∀ j, j ∉ ids → (ids.foldl (shutdownSession mode) l).core.sessions.lookup j
          = l.core.sessions.lookup j)
      ∧ ∃ probes, (ids.foldl (shutdownSession mode) l).calls = l.calls ++ probes
        ∧ tryCancelled probes = ids.flatMap (ticketsOf l.core) := by
  induction ids generalizing l with
  | nil =>
    exact ⟨h, fun s hs => absurd hs not_mem_nil, fun _ _ => rfl, [],
      (List.append_nil _).symm, rfl⟩
  | cons s ids ih =>
    obtain ⟨hnew, hres⟩ := nodup_cons.mp hnd
    obtain ⟨r, hs⟩ := hkn s mem_cons_self
    have hfst := closes_shutdownSession h mode hs
    have hoth : ∀ j ∈ ids, (shutdownSession mode l s).core.sessions.lookup j
        = l.core.sessions.lookup j := fun j hj => hfst.others j fun heq => hnew (heq ▸ hj)
    obtain ⟨hcon, hend, hothers, more, hmor, hcan⟩ := ih hfst.consistent hres
      (fun j hj => by rw [hoth j hj]; exact hkn j (mem_cons_of_mem _ hj))
    obtain ⟨probes, hpr, hown⟩ := hfst.calls
    rw [foldl_cons]
    refine ⟨hcon, fun j hj => ?_, fun j hj => ?_, probes ++ more, ?_, ?_⟩
    · rcases mem_cons.mp hj with rfl | hj
      · have hkep := hfst.ended
        rw [SchedulerCore.Ended, sessionState] at hkep ⊢
        rwa [hothers j hnew]
      · exact hend j hj
    · rw [mem_cons, not_or] at hj
      obtain ⟨hne, hj⟩ := hj
      rw [hothers j hj, hfst.others j hne]
    · rw [hmor, hpr, append_assoc]
    · rw [tryCancelled_append, hown, hcan, flatMap_cons]
      congr 1
      refine flatMap_congr fun j hj => ?_
      rw [ticketsOf, ticketsOf, hoth j hj]

theorem sessionIds_nodup (c : SchedulerCore) : c.sessionIds.Nodup :=
  (perm_insertionSort _ _).nodup_iff.mpr c.sessions.nodupKeys

/-- **What a shutdown leaves**: every session that was known has ended, and
no other is known, no ticket is live, nothing waits, and `try_cancel` has been
called for the tickets that were live, once each. -/
structure ShutDown (l l' : RuntimeLoop) : Prop where
  sessions : ∀ s, (l'.core.sessions.lookup s).isSome = (l.core.sessions.lookup s).isSome
  ended : ∀ s, (l'.core.sessions.lookup s).isSome → l'.core.Ended s
  dead : ∀ t, ¬ l'.core.Live t
  pending : l'.pending = []
  calls : ∃ calls, l'.calls = l.calls ++ calls ∧ (tryCancelled calls).Nodup
    ∧ ∀ t, t ∈ tryCancelled calls ↔ l.core.Live t

/-- A consistent loop is shut down completely, in either mode. -/
theorem shutDown_shutdown (h : l.core.Consistent) (mode : ShutdownMode) (reply : ReplyPort) :
    ShutDown l (l.shutdown mode reply) := by
  have hkn := fun s => (mem_sessionIds l.core s).mp
  obtain ⟨hcon, hend, hoth, probes, hpr, hcan⟩ :=
    closes_sessions mode h (sessionIds_nodup l.core) hkn
  have hcor : (l.shutdown mode reply).core
      = (l.core.sessionIds.foldl (shutdownSession mode) l).core := by
    rw [shutdown, core_send]
    rfl
  have hcal : (l.shutdown mode reply).calls = (l.core.sessionIds.foldl
      (shutdownSession mode) l).calls ++ [.shutdown .io, .shutdown .cpu,
        .shutdown .accelerator] := by
    rw [shutdown, send_eq]
    rfl
  have hpen : (l.shutdown mode reply).pending = [] := by
    rw [shutdown, send_eq]
    rfl
  generalize l.core.sessionIds.foldl (shutdownSession mode) l = last at *
  have hsom : ∀ s, (last.core.sessions.lookup s).isSome = (l.core.sessions.lookup s).isSome := by
    intro s
    by_cases hs : s ∈ l.core.sessionIds
    · obtain ⟨r, hr⟩ := hkn s hs
      have hov := hend s hs
      rw [hr, SchedulerCore.Ended, sessionState] at *
      cases hlas : last.core.sessions.lookup s with
      | none =>
        rw [hlas] at hov
        rcases hov with hov | hov <;> cases hov
      | some => rfl
    · rw [hoth s hs]
  have hov : ∀ s, (last.core.sessions.lookup s).isSome → last.core.Ended s := by
    intro s hs
    rw [hsom, isSome_iff_exists] at hs
    exact hend s ((mem_sessionIds l.core s).mpr hs)
  have hoff : tryCancelled (probes ++ [.shutdown .io, .shutdown .cpu, .shutdown .accelerator])
      = l.core.sessionIds.flatMap (ticketsOf l.core) := by
    rw [tryCancelled_append, hcan]
    exact List.append_nil _
  refine ⟨?_, ?_, ?_, hpen, probes ++ [.shutdown .io, .shutdown .cpu, .shutdown .accelerator],
    ?_, ?_, ?_⟩
  · rwa [hcor]
  · rw [hcor]
    exact hov
  · rintro t ⟨s, hs⟩
    rw [hcor] at hs
    obtain ⟨r, hr, ht⟩ := (hcon.owner t s).mp hs
    have hop := hov s (by rw [hr]; rfl)
    rw [SchedulerCore.Ended, sessionState_of_lookup hr] at hop
    have hnon : r.inflight = [] := by
      refine (hcon.sound s r hr).revoked ?_ ?_ <;>
        rcases hop with hop | hop <;> rw [some.inj hop] <;> simp
    rw [hnon] at ht
    exact absurd ht not_mem_nil
  · rw [hcal, hpr, append_assoc]
  · rw [hoff, nodup_flatMap]
    refine ⟨fun s _ => ?_, (sessionIds_nodup l.core).pairwise_of_forall_ne fun s _ j _ hne => ?_⟩
    · rw [ticketsOf]
      cases hs : l.core.sessions.lookup s with
      | none => exact nodup_nil
      | some r => exact (h.sound s r hs).nodup
    · -- two sessions own no ticket in common
      refine disjoint_left.mpr fun t hts htj => hne ?_
      rw [mem_ticketsOf h] at hts htj
      exact some.inj (hts.symm.trans htj)
  · intro t
    rw [hoff, mem_flatMap]
    constructor
    · rintro ⟨s, -, hts⟩
      exact ⟨s, (mem_ticketsOf h s t).mp hts⟩
    · rintro ⟨s, hs⟩
      obtain ⟨r, hr, -⟩ := (h.owner t s).mp hs
      exact ⟨s, (mem_sessionIds l.core s).mpr ⟨r, hr⟩, (mem_ticketsOf h s t).mpr hs⟩

end RuntimeLoop

namespace Runtime

/-- **A shutdown is complete**, in every state the owner thread can reach. -/
theorem shutdown_complete (budget : Budget) (executors : ExecutorSet) (inbounds : List Inbound)
    (mode : ShutdownMode) (reply : ReplyPort) :
    RuntimeLoop.ShutDown (machine.run (new budget executors) inbounds).loop
      ((machine.run (new budget executors) inbounds).loop.shutdown mode reply) :=
  shutDown_shutdown (run_consistent budget executors inbounds) mode reply

end Runtime

end Logan
