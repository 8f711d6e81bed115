import Logan.Sched.RuntimeAccount

/-!
# Replies

A request is answered through the port it came with, by the handler that
processes it – or later, if it is a `Shutdown` that has to wait for the
drain: then its port is parked in `shutdownReply`. `Inv` counts: as long as
the thread runs, every port handed in has been answered once, or is the
parked one and has not been answered.

What becomes of the parked port depends on how the thread ends. The end of a
burst that finds the drain finished answers it. The other ways out – a
`Shutdown` that does not wait, and a closed channel – do not look at it. So
the replies are complete at the end exactly if the thread was not ended in
one of these ways with a port parked (`replies_complete_iff`);
`parked_reply_lost` is a run that ends so.
-/

namespace Logan

open List RuntimeLoop Inbound
open List (append_nil)

/-- The reply channel a command carries. -/
def RuntimeCommand.port? : RuntimeCommand → Option ℕ
  | .createSession reply => reply.sender
  | .submit _ _ reply => reply.sender
  | .block _ reply => reply.sender
  | .wake _ reply => reply.sender
  | .complete _ _ reply => reply.bind ReplyPort.sender
  | .cancel _ reply => reply.sender
  | .finish _ reply => reply.sender
  | .fail _ _ reply => reply.sender
  | .executorReady _ => none
  | .shutdown _ reply => reply.sender

/-- **The ports handed in with the commands handled**, in order. -/
def asked (handled : List RuntimeCommand) : List ℕ :=
  handled.filterMap RuntimeCommand.port?

theorem asked_append (xs ys : List RuntimeCommand) :
    asked (xs ++ ys) = asked xs ++ asked ys := filterMap_append

theorem asked_singleton (command : RuntimeCommand) : asked [command] = command.port?.toList := by
  unfold asked
  cases h : command.port? with
  | none => rw [filterMap_cons_none h]; rfl
  | some => rw [filterMap_cons_some h]; rfl

variable {command : RuntimeCommand}

namespace RuntimeLoop

variable {l l' l'' : RuntimeLoop} {ps qs : List ℕ}

/-- **The ports replies were sent through**, in order. -/
def answered (l : RuntimeLoop) : List ℕ := l.replies.map Prod.fst

/-- `l'` is `l` after replies through the ports `ps`, and nothing else that
matters for replies. -/
structure Says (ps : List ℕ) (l l' : RuntimeLoop) : Prop where
  answered : l'.answered = l.answered ++ ps
  parked : l'.shutdownReply = l.shutdownReply
  draining : l'.draining = l.draining

theorem says_refl (l : RuntimeLoop) : Says [] l l := ⟨(append_nil _).symm, rfl, rfl⟩

theorem Says.trans (h : Says ps l l') (h' : Says qs l' l'') : Says (ps ++ qs) l l'' where
  answered := by rw [h'.answered, h.answered, append_assoc]
  parked := h'.parked.trans h.parked
  draining := h'.draining.trans h.draining

theorem Says.after (h : Says [] l l') (h' : Says ps l' l'') : Says ps l l'' := h.trans h'

theorem Says.then (h : Says ps l l') (h' : Says [] l' l'') : Says ps l l'' :=
  append_nil ps ▸ h.trans h'

theorem says_send (l : RuntimeLoop) (port : ReplyPort) (reply : RuntimeReply) :
    Says port.sender.toList l (l.send port reply) := by
  rw [send_eq]
  refine ⟨?_, rfl, rfl⟩
  show (l.replies ++ sent port reply).map Prod.fst = _
  rw [List.map_append, sent, map_map]
  exact congrArg _ (map_id _)

theorem says_respondEffects (l : RuntimeLoop) (result : Except SchedError (List Effect))
    (port : ReplyPort) : Says port.sender.toList l (l.respondEffects result port) := by
  obtain ⟨reply, heq⟩ := respondEffects_eq l result port
  rw [heq]
  exact says_send l port reply

theorem says_settle (l : RuntimeLoop) (c' : SchedulerCore)
    (result : Except SchedError (List Effect)) :
    Says [] l (({ l with core := c' }).settle result) := by
  obtain ⟨probes, heq, -, -⟩ := probed_settle { l with core := c' } result
  rw [heq]
  exact ⟨(append_nil _).symm, rfl, rfl⟩

/-- Retrying is silent. -/
theorem says_retryFrom (kind : ActionKind) (fuel : ℕ) (l : RuntimeLoop) (index : ℕ) :
    Says [] l (retryFrom kind fuel l index) := by
  induction fuel generalizing l index with
  | zero => exact says_refl l
  | succ fuel ih =>
    unfold retryFrom
    cases l.pending[index]? with
    | none => exact says_refl l
    | some request =>
      by_cases hkin : request.action.kind ≠ kind
      · simp only [if_pos hkin]
        exact ih l (index + 1)
      · simp only [if_neg hkin]
        unfold trySubmit
        have hoff : ∀ answer live, Says [] l { l with
            pending := l.pending.eraseIdx index
            calls := l.calls ++ [.trySubmit request answer live] } :=
          fun _ _ => ⟨(append_nil _).symm, rfl, rfl⟩
        cases l.executors.submitAnswer l.calls.length with
        | accepted => exact (hoff _ _).after (ih _ index)
        | full => exact ⟨(append_nil _).symm, rfl, rfl⟩
        | closed => exact ((hoff _ _).after (says_settle _ _ _)).after (ih _ index)

theorem says_retryPending (l : RuntimeLoop) (kind : ActionKind) :
    Says [] l (l.retryPending kind) := says_retryFrom kind _ l 0

/-- A submission is answered once. -/
theorem says_submit (l : RuntimeLoop) (s : SessionId) (a : Action) (reply : ReplyPort) :
    Says reply.sender.toList l (l.submit s a reply) := by
  unfold submit
  rcases SchedulerCore.submit_cases l.core s a with ⟨r, -, -, -, heq⟩ | ⟨e, heq⟩
  · simp only [heq]
    unfold trySubmit
    have hoff : ∀ answer live, Says [] l { l with
        core := l.core.issued s r
        calls := l.calls ++ [.trySubmit ⟨⟨l.core.nextTicket⟩, a⟩ answer live] } :=
      fun _ _ => ⟨(append_nil _).symm, rfl, rfl⟩
    cases l.executors.submitAnswer l.calls.length with
    | accepted => exact (hoff _ _).after (says_send _ _ _)
    | full =>
      refine Says.after ?_ (says_send _ _ _)
      exact ⟨(append_nil _).symm, rfl, rfl⟩
    | closed => exact ((hoff _ _).after (says_settle _ _ _)).after (says_send _ _ _)
  · simp only [heq]
    exact says_send l reply _

/-- Closing the sessions is silent. -/
theorem says_shutdownSession (mode : ShutdownMode) (l : RuntimeLoop) (s : SessionId) :
    Says [] l (shutdownSession mode l s) := by
  have hfin : ∀ l : RuntimeLoop, Says [] l (l.finishSession s) := by
    intro l
    unfold finishSession
    generalize l.core.finish s = answer
    obtain ⟨e | es, c'⟩ := answer
    · exact ⟨(append_nil _).symm, rfl, rfl⟩
    · obtain ⟨probes, heq, -, -⟩ := probed_applyEffects { l with core := c' } es
      simp only [heq]
      exact ⟨(append_nil _).symm, rfl, rfl⟩
  cases mode with
  | drain => exact hfin l
  | cancel => exact (says_settle l _ _).after (hfin _)

/-- **A shutdown sends one reply**, through the port it is given. -/
theorem says_shutdown (l : RuntimeLoop) (mode : ShutdownMode) (reply : ReplyPort) :
    Says reply.sender.toList l (l.shutdown mode reply) := by
  have hses : ∀ ids : List SessionId, Says [] l (ids.foldl (shutdownSession mode) l) := by
    intro ids
    induction ids using List.reverseRecOn with
    | nil => exact says_refl l
    | append_singleton ids s ih =>
      rw [foldl_append]
      exact ih.after (says_shutdownSession mode _ s)
  refine ((hses l.core.sessionIds).after ?_).after (says_send _ reply _)
  exact ⟨(append_nil _).symm, rfl, rfl⟩

/-- A command ends the thread if it is a shutdown that need not wait. -/
def Ends (l : RuntimeLoop) (command : RuntimeCommand) : Prop :=
  ∃ mode reply, command = .shutdown mode reply ∧ (mode = .cancel ∨ l.isQuiescent = true)

/-- **A command other than a shutdown is answered once.** -/
theorem says_handle (l : RuntimeLoop) (hoth : ∀ mode reply, command ≠ .shutdown mode reply) :
    Says command.port?.toList l (l.handle command).2 := by
  have hcor : ∀ c' : SchedulerCore, Says [] l { l with core := c' } :=
    fun _ => ⟨(append_nil _).symm, rfl, rfl⟩
  cases command with
  | createSession reply =>
    unfold handle
    by_cases hdr : l.draining = true
    · simp only [if_pos hdr]
      exact says_send l reply _
    · simp only [if_neg hdr]
      exact (hcor _).after (says_send _ reply _)
  | submit s a reply =>
    unfold handle
    by_cases hdr : l.draining = true
    · simp only [if_pos hdr]
      exact says_send l reply _
    · simp only [if_neg hdr]
      exact says_submit l s a reply
  | block s reply => exact (hcor _).after (says_respondEffects _ _ reply)
  | wake s reply => exact (hcor _).after (says_respondEffects _ _ reply)
  | complete t o reply =>
    have hret : ∀ l : RuntimeLoop,
        Says [] l (((l.retryPending .io).retryPending .cpu).retryPending .accelerator) :=
      fun l => ((says_retryPending l .io).after (says_retryPending _ .cpu)).after
        (says_retryPending _ .accelerator)
    cases reply with
    | none => exact (says_settle l _ _).after (hret _)
    | some reply =>
      exact ((says_settle l _ _).after (says_respondEffects _ _ reply)).then (hret _)
  | cancel s reply => exact (says_settle l _ _).after (says_respondEffects _ _ reply)
  | finish s reply => exact (says_settle l _ _).after (says_respondEffects _ _ reply)
  | fail s e reply => exact (says_settle l _ _).after (says_respondEffects _ _ reply)
  | executorReady kind => exact says_retryPending l kind
  | shutdown mode reply => exact absurd rfl (hoth mode reply)

/-- A command other than a shutdown does not end the thread. -/
theorem handle_goes_on (l : RuntimeLoop)
    (hoth : ∀ mode reply, command ≠ .shutdown mode reply) : (l.handle command).1 = false := by
  cases command with
  | createSession =>
    unfold handle
    by_cases hdr : l.draining = true
    · simp only [if_pos hdr]
    · simp only [if_neg hdr]
  | submit =>
    unfold handle
    by_cases hdr : l.draining = true
    · simp only [if_pos hdr]
    · simp only [if_neg hdr]
  | shutdown mode reply => exact absurd rfl (hoth mode reply)
  | _ => rfl

/-- **A command is answered once, or its port is parked.** -/
theorem handle_says (l : RuntimeLoop) (command : RuntimeCommand) :
    (Says command.port?.toList l (l.handle command).2
      ∧ ((l.handle command).1 = true ↔ Ends l command))
    ∨ (∃ reply, command = .shutdown .drain reply ∧ l.draining = false ∧ l.handle command
          = (false, { l with draining := true, shutdownReply := some reply })) := by
  by_cases hoth : ∀ mode reply, command ≠ .shutdown mode reply
  · refine Or.inl ⟨says_handle l hoth, iff_of_false ?_ ?_⟩
    · rw [handle_goes_on l hoth]
      simp
    · rintro ⟨mode, reply, rfl, -⟩
      exact hoth mode reply rfl
  · simp only [not_forall, not_not] at hoth
    obtain ⟨mode, reply, rfl⟩ := hoth
    rcases handle_shutdown l mode reply with ⟨hend, heq⟩ | ⟨rfl, hbus, hdr, heq⟩
      | ⟨rfl, -, hdr, heq⟩
    · rw [heq]
      exact Or.inl ⟨says_shutdown l mode reply, iff_of_true rfl ⟨mode, reply, rfl, hend⟩⟩
    · rw [heq]
      refine Or.inl ⟨says_send l reply _, iff_of_false (by simp) ?_⟩
      rintro ⟨mode, reply', hcom, hend⟩
      obtain ⟨rfl, -⟩ := RuntimeCommand.shutdown.inj hcom
      rcases hend with hcan | hqt
      · cases hcan
      · exact absurd (hbus.symm.trans hqt) (by simp)
    · exact Or.inr ⟨reply, rfl, hdr, heq⟩

end RuntimeLoop

/-! ## Runs -/

/-- A request that ends the thread without looking at the parked port. -/
def RuntimeRequest.Ends (l : RuntimeLoop) : RuntimeRequest → Prop
  | .shutdown .cancel => True
  | .shutdown .drain => l.isQuiescent = true
  | _ => False

/-- A message that ends the thread without looking at the parked port. -/
def Inbound.Ends (l : RuntimeLoop) : Inbound → Prop
  | .request r => r.Ends l
  | .notify r => r.Ends l
  | .disconnected => True
  | _ => False

theorem Inbound.ends_iff {l : RuntimeLoop} {ports : ℕ} {inbound : Inbound}
    (h : inbound.command? ports = some command) : l.Ends command ↔ inbound.Ends l := by
  have hreq : ∀ (r : RuntimeRequest) (port : ReplyPort),
      l.Ends (r.intoCommand port) ↔ r.Ends l := by
    intro r port
    cases r with
    | shutdown mode =>
      cases mode <;> simp [RuntimeLoop.Ends, RuntimeRequest.intoCommand, RuntimeRequest.Ends]
    | _ => simp [RuntimeLoop.Ends, RuntimeRequest.intoCommand, RuntimeRequest.Ends]
  cases inbound with
  | request r =>
    obtain rfl := Option.some.inj h
    exact hreq r _
  | notify r =>
    obtain rfl := Option.some.inj h
    exact hreq r _
  | sink =>
    obtain rfl := Option.some.inj h
    simp [RuntimeLoop.Ends, Inbound.Ends]
  | empty | disconnected => exact absurd h (by simp [command?])

/-- A command comes with the next port, or with none. -/
theorem Inbound.port_of_command {ports p : ℕ} {inbound : Inbound}
    (h : inbound.command? ports = some command) (hp : command.port? = some p) :
    p = ports ∧ inbound.portsAfter ports = ports + 1 := by
  have hnon : ∀ r : RuntimeRequest, (r.intoCommand .none).port? = none := by
    intro r
    cases r <;> rfl
  cases inbound with
  | request r =>
    obtain rfl := Option.some.inj h
    refine ⟨?_, rfl⟩
    cases r with
    | executorReady => exact absurd hp (by simp [RuntimeRequest.intoCommand,
        RuntimeCommand.port?])
    | _ => exact (Option.some.inj hp).symm
  | notify =>
    obtain rfl := Option.some.inj h
    rw [hnon] at hp
    exact absurd hp (by simp)
  | sink =>
    obtain rfl := Option.some.inj h
    exact absurd hp (by simp [RuntimeCommand.port?])
  | empty | disconnected => exact absurd h (by simp [command?])

namespace RuntimeLoop

/-- The parked port, as a list. -/
def parkedPorts (l : RuntimeLoop) : List ℕ :=
  (l.shutdownReply.bind ReplyPort.sender).toList

end RuntimeLoop

namespace Runtime

variable {rt : Runtime} {inbound : Inbound}

/-- **What holds of the replies while the thread runs.** -/
structure Inv (rt : Runtime) : Prop where
  running : rt.phase ≠ .stopped
  asked_lt : ∀ p ∈ asked rt.handled, p < rt.ports
  asked_nodup : (asked rt.handled).Nodup
  /-- A port handed in has been answered once, or it is parked. -/
  answered : ∀ p, rt.loop.answered.count p + rt.loop.parkedPorts.count p
    = (asked rt.handled).count p
  /-- A port is parked only while draining. -/
  parked : rt.loop.draining = false → rt.loop.shutdownReply = none

/-- **Every port handed in has been answered exactly once.** -/
def Complete (rt : Runtime) : Prop :=
  ∀ p ∈ asked rt.handled, rt.loop.answered.count p = 1

/-- **A message that ends the thread while a port is parked**, without
answering it. -/
def DropsParked (rt : Runtime) (inbound : Inbound) : Prop :=
  rt.phase ≠ .stopped ∧ rt.loop.parkedPorts ≠ [] ∧ inbound.Ends rt.loop

theorem inv_new (budget : Budget) (executors : ExecutorSet) : Inv (new budget executors) where
  running := by simp [new]
  asked_lt := fun _ hp => absurd hp not_mem_nil
  asked_nodup := nodup_nil
  answered := fun _ => rfl
  parked := fun _ => rfl

/-- The ports handed in stay distinct as commands come in. -/
theorem Inv.asked_receive (h : Inv rt) (hcom : inbound.command? rt.ports = some command) :
    (asked (rt.handled ++ [command])).Nodup
    ∧ (∀ p ∈ asked (rt.handled ++ [command]), p < inbound.portsAfter rt.ports)
    ∧ ∀ p ∈ asked rt.handled, p ∉ command.port?.toList := by
  have hle : rt.ports ≤ inbound.portsAfter rt.ports := by
    cases inbound <;> simp [portsAfter]
  rw [asked_append, asked_singleton]
  cases hpor : command.port? with
  | none =>
    refine ⟨by rw [Option.toList_none, append_nil]; exact h.asked_nodup, ?_, by simp⟩
    intro p hp
    rw [Option.toList_none, append_nil] at hp
    exact lt_of_lt_of_le (h.asked_lt p hp) hle
  | some =>
    obtain ⟨rfl, haft⟩ := port_of_command hcom hpor
    rw [Option.toList_some]
    have hfr : ∀ p ∈ asked rt.handled, p ≠ rt.ports := fun p hp =>
      Nat.ne_of_lt (h.asked_lt p hp)
    refine ⟨?_, ?_, fun p hp hmem => hfr p hp (mem_singleton.mp hmem)⟩
    · refine nodup_append.mpr ⟨h.asked_nodup, nodup_singleton _, ?_⟩
      rintro p hp b hb rfl
      exact hfr p hp (mem_singleton.mp hb)
    · intro p hp
      rw [haft]
      rcases mem_append.mp hp with hold | hnew
      · exact Nat.lt_succ_of_lt (h.asked_lt p hold)
      · rw [mem_singleton.mp hnew]
        exact Nat.lt_succ_self _

theorem complete_of_count (hnd : (asked rt.handled).Nodup)
    (hcount : ∀ p, rt.loop.answered.count p = (asked rt.handled).count p) : Complete rt := by
  intro p hp
  rw [hcount, count_eq_one_of_mem hnd hp]

/-- A thread that stops by a message which does not look at the parked port,
having answered the ports `ps` it was handed: the replies are complete unless
a port was parked. -/
theorem Inv.complete_iff_kept (h : Inv rt) {rt' : Runtime} {ps : List ℕ}
    (hnd : (asked rt'.handled).Nodup) (hask : asked rt'.handled = asked rt.handled ++ ps)
    (hans : rt'.loop.answered = rt.loop.answered ++ ps) (hend : inbound.Ends rt.loop)
    (hfr : ∀ p ∈ asked rt.handled, p ∉ ps) : Complete rt' ↔ ¬ DropsParked rt inbound := by
  constructor
  · rintro hcpl ⟨-, hpar, -⟩
    -- a parked port was asked for once, and is not among those answered
    obtain ⟨q, hq⟩ := exists_mem_of_ne_nil _ hpar
    have hcount := h.answered q
    have hpos := count_pos_iff.mpr hq
    have hle := nodup_iff_count_le_one.mp h.asked_nodup q
    have hmem : q ∈ asked rt.handled := count_pos_iff.mp (by omega)
    have hone := hcpl q (by rw [hask]; exact mem_append_left _ hmem)
    rw [hans, count_append, count_eq_zero.mpr (hfr q hmem)] at hone
    omega
  · intro hkep
    have hnon : rt.loop.parkedPorts = [] := by
      by_contra hpar
      exact hkep ⟨h.running, hpar, hend⟩
    refine complete_of_count hnd (fun p => ?_)
    have hcount := h.answered p
    rw [hnon, count_nil] at hcount
    rw [hask, hans, count_append, count_append]
    omega

/-- A command that is answered at once and does not end the thread. -/
theorem Inv.receive_says (h : Inv rt) (hcom : inbound.command? rt.ports = some command)
    (htol : RuntimeLoop.Says command.port?.toList rt.loop (rt.loop.handle command).2)
    (hgs : (rt.loop.handle command).1 = false) :
    Inv { rt.receive command with ports := inbound.portsAfter rt.ports } := by
  obtain ⟨hnd, hlt, -⟩ := h.asked_receive hcom
  refine ⟨?_, hlt, hnd, fun p => ?_, fun hd => ?_⟩
  · show (if (rt.loop.handle command).1 then Phase.stopped else .burst) ≠ .stopped
    rw [hgs]
    simp
  · show (rt.loop.handle command).2.answered.count p
      + (rt.loop.handle command).2.parkedPorts.count p = (asked (rt.handled ++ [command])).count p
    have hcount := h.answered p
    have hpar : (rt.loop.handle command).2.parkedPorts = rt.loop.parkedPorts := by
      rw [parkedPorts, htol.parked]
      rfl
    rw [htol.answered, hpar, asked_append, asked_singleton, count_append, count_append]
    omega
  · show (rt.loop.handle command).2.shutdownReply = none
    rw [htol.parked]
    exact h.parked (htol.draining ▸ hd)

/-- A drain that has to wait parks its port. -/
theorem Inv.receive_parks (h : Inv rt) {reply : ReplyPort}
    (hcom : inbound.command? rt.ports = some (.shutdown .drain reply))
    (hdr : rt.loop.draining = false) (hpar : rt.loop.handle (.shutdown .drain reply)
      = (false, { rt.loop with draining := true, shutdownReply := some reply })) :
    Inv { rt.receive (.shutdown .drain reply) with ports := inbound.portsAfter rt.ports } := by
  obtain ⟨hnd, hlt, -⟩ := h.asked_receive hcom
  have hnon : rt.loop.parkedPorts = [] := by
    rw [parkedPorts, h.parked hdr]
    rfl
  refine ⟨?_, hlt, hnd, fun p => ?_, fun hd => ?_⟩
  · show (if (rt.loop.handle _).1 then Phase.stopped else .burst) ≠ .stopped
    rw [hpar]
    simp
  · have hcount := h.answered p
    rw [hnon, count_nil] at hcount
    show (rt.loop.handle _).2.answered.count p + (rt.loop.handle _).2.parkedPorts.count p
      = (asked (rt.handled ++ [_])).count p
    rw [hpar, asked_append, asked_singleton, count_append]
    show rt.loop.answered.count p + reply.sender.toList.count p = _
    rw [← hcount]
    rfl
  · have hd' : (rt.loop.handle (.shutdown .drain reply)).2.draining = false := hd
    rw [hpar] at hd'
    exact absurd hd' (by simp)

/-- **The end of a burst answers the parked port**, if it ends the thread. -/
theorem Inv.endBurst (h : Inv rt) :
    Inv rt.endBurst ∨ (rt.endBurst.phase = .stopped ∧ Complete rt.endBurst) := by
  unfold Runtime.endBurst
  by_cases hqt : rt.loop.draining = true ∧ rt.loop.isQuiescent = true
  · rw [if_pos hqt]
    refine Or.inr ⟨rfl, complete_of_count h.asked_nodup (fun p => ?_)⟩
    have htol := says_shutdown { rt.loop with shutdownReply := none } .drain
      (rt.loop.shutdownReply.getD .none)
    have hpor : (rt.loop.shutdownReply.getD .none).sender.toList = rt.loop.parkedPorts := by
      unfold parkedPorts
      cases rt.loop.shutdownReply <;> rfl
    show (shutdown _ _ _).answered.count p = _
    rw [htol.answered, hpor, count_append]
    exact h.answered p
  · rw [if_neg hqt]
    exact Or.inl ⟨by simp, h.asked_lt, h.asked_nodup, h.answered, h.parked⟩

/-- **One receive of a running thread**: it keeps running and the counts
agree, or it stops, and then the replies are complete unless a parked port
was dropped. -/
theorem inv_step (h : Inv rt) (inbound : Inbound) :
    (Inv (rt.step inbound) ∧ ¬ DropsParked rt inbound) ∨ ((rt.step inbound).phase = .stopped
        ∧ (Complete (rt.step inbound) ↔ ¬ DropsParked rt inbound)) := by
  rcases step_cases rt inbound with ⟨heq, hcas⟩ | ⟨hrun, command, hcom, heq⟩
    | ⟨hrun, rfl, heq⟩ | ⟨hbur, rfl, heq⟩
  · rcases hcas with hst | rfl
    · exact absurd hst h.running
    · rw [heq]
      exact Or.inl ⟨h, fun hd => hd.2.2⟩
  · rw [heq]
    rcases rt.loop.handle_says command with ⟨htol, hfl⟩ | ⟨reply, rfl, hdr, hpar⟩
    · rw [ends_iff hcom] at hfl
      by_cases hend : inbound.Ends rt.loop
      · obtain ⟨hnd, -, hfr⟩ := h.asked_receive hcom
        have hask : asked (rt.handled ++ [command]) = asked rt.handled ++ command.port?.toList := by
          rw [asked_append, asked_singleton]
        refine Or.inr ⟨?_, h.complete_iff_kept hnd hask htol.answered hend hfr⟩
        show (if (rt.loop.handle command).1 then Phase.stopped else .burst) = .stopped
        rw [if_pos (hfl.mpr hend)]
      · have hgs : (rt.loop.handle command).1 = false :=
          Bool.eq_false_iff.mpr (fun hf => hend (hfl.mp hf))
        exact Or.inl ⟨h.receive_says hcom htol hgs, fun hd => hend hd.2.2⟩
    · have hnon : rt.loop.parkedPorts = [] := by
        rw [parkedPorts, h.parked hdr]
        rfl
      exact Or.inl ⟨h.receive_parks hcom hdr hpar, fun hd => hd.2.1 hnon⟩
  · rw [heq]
    have htol := says_shutdown rt.loop .cancel .none
    exact Or.inr ⟨rfl, h.complete_iff_kept h.asked_nodup (append_nil _).symm htol.answered
      trivial (fun _ _ => not_mem_nil)⟩
  · rw [heq]
    have hkep : ¬ DropsParked rt .empty := fun hd => hd.2.2
    exact h.endBurst.imp (fun hinv => ⟨hinv, hkep⟩)
      (fun hstp => ⟨hstp.1, iff_of_true hstp.2 hkep⟩)

theorem run_stopped (hst : rt.phase = .stopped) (inbounds : List Inbound) :
    machine.run rt inbounds = rt := by
  induction inbounds with
  | nil => rfl
  | cons inbound inbounds ih =>
    have hnex : machine.next rt inbound = rt := by
      show rt.step inbound = rt
      obtain ⟨loop, phase, ports, handled⟩ := rt
      obtain rfl : phase = .stopped := hst
      rfl
    rw [Machine.run_cons, hnex, ih]

/-- **Whether the replies of a stopped run are complete**: exactly if no
message dropped a parked port. -/
theorem complete_iff (h : Inv rt) (inbounds : List Inbound)
    (hst : (machine.run rt inbounds).phase = .stopped) : Complete (machine.run rt inbounds)
      ↔ machine.Along (fun rt inbound => ¬ DropsParked rt inbound) rt inbounds := by
  induction inbounds generalizing rt with
  | nil => exact absurd hst h.running
  | cons inbound inbounds ih =>
    show _ ↔ ¬ DropsParked rt inbound ∧ machine.Along _ (machine.next rt inbound) inbounds
    rw [Machine.run_cons] at hst ⊢
    rcases inv_step h inbound with ⟨h', hkep⟩ | ⟨hstp, hcpl⟩
    · have hinv : Inv (machine.next rt inbound) := h'
      rw [ih hinv hst]
      exact (and_iff_right hkep).symm
    · have hres : machine.run (machine.next rt inbound) inbounds = machine.next rt inbound :=
        run_stopped hstp inbounds
      have haft : machine.Along (fun rt inbound => ¬ DropsParked rt inbound)
          (machine.next rt inbound) inbounds := by
        refine Machine.along_of_step (P := fun rt => rt.phase = .stopped) ?_
          (fun _ _ hs hd => hd.1 hs) hstp inbounds
        intro rt' inbound' hs
        have hsam : machine.run rt' [inbound'] = rt' := run_stopped hs [inbound']
        rw [Machine.run_cons, Machine.run_nil] at hsam
        rwa [hsam]
      rw [hres, and_iff_left haft]
      exact hcpl

/-- **Every request gets exactly one reply by the time the thread returns,
if and only if** no message ends the thread while a port is parked: a
`Shutdown` that need not wait, or the closing of the channel. -/
theorem replies_complete_iff (budget : Budget) (executors : ExecutorSet) (inbounds : List Inbound)
    (hstop : (machine.run (new budget executors) inbounds).phase = .stopped) :
    Complete (machine.run (new budget executors) inbounds)
      ↔ machine.Along (fun rt inbound => ¬ DropsParked rt inbound)
          (new budget executors) inbounds :=
  complete_iff (inv_new budget executors) inbounds hstop

/-- A drain waits for a lane, and is answered when the lane is done. -/
theorem replies_complete_of_drain :
    Complete (machine.run (new ⟨64⟩ ⟨fun _ => .accepted, fun _ => false⟩)
      [.request .createSession, .request (.submit ⟨0⟩ ⟨.cpu, []⟩),
        .request (.shutdown .drain), .sink ⟨0⟩ .ok, .empty]) := by
  refine (replies_complete_iff ⟨64⟩ ⟨fun _ => .accepted, fun _ => false⟩ _
    (by decide +kernel)).mpr ⟨fun hd => hd.2.2, fun hd => hd.2.2, fun hd => ?_,
      fun hd => hd.2.2, fun hd => hd.2.2, trivial⟩
  have hbus : (machine.run (new ⟨64⟩ ⟨fun _ => .accepted, fun _ => false⟩)
      [.request .createSession, .request (.submit ⟨0⟩ ⟨.cpu, []⟩)]).loop.isQuiescent = false := by
    decide +kernel
  exact absurd (hbus.symm.trans hd.2.2) (by simp)

/-- **A parked reply is lost.** A drain is waiting for a lane when the
frontend asks to cancel: the thread returns, and the drain is never
answered. -/
theorem parked_reply_lost : (machine.run (new ⟨64⟩ ⟨fun _ => .accepted, fun _ => false⟩)
      [.request .createSession, .request (.submit ⟨0⟩ ⟨.cpu, []⟩),
        .request (.shutdown .drain), .request (.shutdown .cancel)]).phase = .stopped
    ∧ ¬ Complete (machine.run (new ⟨64⟩ ⟨fun _ => .accepted, fun _ => false⟩)
      [.request .createSession, .request (.submit ⟨0⟩ ⟨.cpu, []⟩),
        .request (.shutdown .drain), .request (.shutdown .cancel)]) := by
  refine ⟨by decide +kernel, fun h => ?_⟩
  exact absurd (h 2 (by decide +kernel)) (by decide +kernel)

end Runtime

end Logan
