import Logan.Sched.RuntimeHandlers

/-!
# Every ticket of the runtime is accounted for

Tracking the tickets (`Logan.Sched.RuntimeTickets`) carried to the runs of
the owner thread.

* `no_dead_dispatch`: as long as no `Complete` names a ticket whose request
  is waiting in the backpressure queue, the queue holds live tickets only,
  each once, and no lane is ever offered a dead one. `dead_dispatch` is what
  happens otherwise.
* `tickets_accounted`: if completions come from the executors, for work they
  accepted, the condition holds by itself. Every live ticket is then pending
  or with one lane, quiescence is the absence of live tickets, and a drain
  ends the thread only when all accepted work has been completed or
  cancelled.
-/

namespace Logan

open List Inbound SchedulerCore RuntimeLoop Option

/-- The tickets an inbound command completes. -/
def Inbound.completes : Inbound → List Ticket
  | .request (.complete t _) => [t]
  | .notify (.complete t _) => [t]
  | .sink t _ => [t]
  | _ => []

/-- The command an inbound message is, with the next reply port. -/
def Inbound.command? (ports : ℕ) : Inbound → Option RuntimeCommand
  | .request r => some (r.intoCommand ⟨some ports⟩)
  | .notify r => some (r.intoCommand .none)
  | .sink ticket outcome => some (.complete ticket outcome none)
  | .empty => none
  | .disconnected => none

/-- How many reply ports have been handed out after an inbound message. -/
def Inbound.portsAfter (ports : ℕ) : Inbound → ℕ
  | .request _ => ports + 1
  | _ => ports

theorem Inbound.completes_of_command {ports : ℕ} {inbound : Inbound}
    {command : RuntimeCommand} (h : inbound.command? ports = some command) :
    command.completes = inbound.completes := by
  cases inbound with
  | request request =>
    obtain rfl := some.inj h
    cases request <;> rfl
  | notify request =>
    obtain rfl := some.inj h
    cases request <;> rfl
  | sink =>
    obtain rfl := some.inj h
    rfl
  | empty | disconnected => exact absurd h (by simp [command?])

/-- The tickets whose completion was handled, in order. -/
def completions (handled : List RuntimeCommand) : List Ticket :=
  handled.flatMap RuntimeCommand.completes

theorem completions_append (xs ys : List RuntimeCommand) :
    completions (xs ++ ys) = completions xs ++ completions ys := flatMap_append

namespace Runtime

variable {rt : Runtime} {inbound : Inbound} {done : List Ticket}

/-- **What one receive can do**: nothing, handle a command, find the channel
closed, or find it empty at the end of a burst. -/
theorem step_cases (rt : Runtime) (inbound : Inbound) :
    (rt.step inbound = rt ∧ (rt.phase = .stopped ∨ inbound = .empty))
    ∨ (rt.phase ≠ .stopped ∧ ∃ command, inbound.command? rt.ports = some command ∧ rt.step inbound
          = ({ rt with ports := inbound.portsAfter rt.ports }).receive command)
    ∨ (rt.phase ≠ .stopped ∧ inbound = .disconnected ∧ rt.step inbound = rt.disconnect)
    ∨ (rt.phase = .burst ∧ inbound = .empty ∧ rt.step inbound = rt.endBurst) := by
  obtain ⟨loop, phase, ports, handled⟩ := rt
  cases phase with
  | stopped => exact Or.inl ⟨rfl, Or.inl rfl⟩
  | waiting =>
    cases inbound with
    | request | notify | sink => exact Or.inr (Or.inl ⟨by simp, _, rfl, rfl⟩)
    | empty => exact Or.inl ⟨rfl, Or.inr rfl⟩
    | disconnected => exact Or.inr (Or.inr (Or.inl ⟨by simp, rfl, rfl⟩))
  | burst =>
    cases inbound with
    | request | notify | sink => exact Or.inr (Or.inl ⟨by simp, _, rfl, rfl⟩)
    | empty => exact Or.inr (Or.inr (Or.inr ⟨rfl, rfl, rfl⟩))
    | disconnected => exact Or.inr (Or.inr (Or.inl ⟨by simp, rfl, rfl⟩))

/-- **No completion of a pending ticket.** -/
def NamesNoPending (rt : Runtime) (inbound : Inbound) : Prop :=
  ∀ t ∈ inbound.completes, t ∉ rt.loop.pendingTickets

/-- The issued tickets a receive completes. -/
def spent (rt : Runtime) (inbound : Inbound) : List Ticket :=
  if rt.phase = .stopped then [] else inbound.completes.flatMap rt.loop.spentBy

/-- **One receive keeps track of the tickets.** -/
theorem tracked_step (h : rt.loop.Tracked [] done) (hok : NamesNoPending rt inbound) :
    (rt.step inbound).loop.Tracked [] (done ++ rt.spent inbound) := by
  unfold spent
  rcases step_cases rt inbound with ⟨heq, hcas⟩ | ⟨hrun, command, hcom, heq⟩
    | ⟨hrun, rfl, heq⟩ | ⟨hbur, rfl, heq⟩
  · have hnil : (if rt.phase = .stopped then [] else inbound.completes.flatMap rt.loop.spentBy)
        = [] := by
      rcases hcas with hst | rfl
      · rw [if_pos hst]
      · simp [completes]
    rwa [heq, hnil, List.append_nil]
  · rw [heq, if_neg hrun, ← completes_of_command hcom]
    exact h.handle command (by rw [completes_of_command hcom]; exact hok)
  · rw [heq, if_neg hrun]
    show rt.disconnect.loop.Tracked [] (done ++ [])
    rw [List.append_nil]
    exact (h.toLogged.shutdown .cancel .none).1
  · rw [heq, if_neg (by simp [hbur])]
    show (rt.endBurst).loop.Tracked [] (done ++ [])
    rw [List.append_nil]
    unfold endBurst
    by_cases hqt : rt.loop.draining = true ∧ rt.loop.isQuiescent = true
    · rw [if_pos hqt]
      have h' : ({ rt.loop with shutdownReply := none }).Tracked [] done := h.congr rfl rfl rfl
      exact (h'.toLogged.shutdown _ _).1
    · rwa [if_neg hqt]

/-! ## No dispatch of a dead ticket -/

/-- **The backpressure queue and the lanes see live tickets only.** -/
structure NoDeadDispatch (l : RuntimeLoop) : Prop where
  /-- The core owns the ticket of every pending request. -/
  pending_live : ∀ request ∈ l.pending, ∃ p, l.core.inflight.lookup request.ticket = some p
  /-- No ticket is pending twice. -/
  pending_nodup : (l.pending.map DispatchRequest.ticket).Nodup
  /-- The core owned the ticket of every request offered to a lane, at the
  time of the offer. -/
  offered_live : ∀ request answer live, .trySubmit request answer live ∈ l.calls → live = true

theorem noDeadDispatch_of_tracked {l : RuntimeLoop} (h : l.Tracked [] done) : NoDeadDispatch l where
  pending_live := by
    intro request hmem
    obtain ⟨s, hs⟩ := h.held request.ticket (mem_map_of_mem hmem)
    obtain ⟨g, hg⟩ := (ownerOf_eq_some_iff _ _ _).mp hs
    exact ⟨(s, g), hg⟩
  pending_nodup := h.pending_nodup
  offered_live := h.offered

/-- A run that completes no pending ticket keeps track of the tickets. -/
theorem tracked_run (budget : Budget) (executors : ExecutorSet) {inbounds : List Inbound}
    (h : machine.Along NamesNoPending (new budget executors) inbounds) :
    ∃ done, (machine.run (new budget executors) inbounds).loop.Tracked [] done :=
  Machine.run_of_along (M := machine) (P := fun rt => ∃ done, rt.loop.Tracked [] done)
    (fun _ _ hrt hok => hrt.elim (fun _ hd => ⟨_, tracked_step hd hok⟩))
    ⟨[], tracked_new budget executors⟩ h

/-- **No dead ticket is dispatched** in a run in which no `Complete` names a
ticket that is pending at the time, whatever commands it handles and
whatever the lanes answer. -/
theorem no_dead_dispatch (budget : Budget) (executors : ExecutorSet) (inbounds : List Inbound)
    (h : machine.Along NamesNoPending (new budget executors) inbounds) :
    NoDeadDispatch (machine.run (new budget executors) inbounds).loop := by
  obtain ⟨done, hdon⟩ := tracked_run budget executors h
  exact noDeadDispatch_of_tracked hdon

/-- A backpressured request is cancelled with its session before its lane is
ready. -/
theorem no_dead_dispatch_of_cancel :
    NoDeadDispatch (machine.run (new ⟨64⟩ ⟨fun _ => .full, fun _ => false⟩)
      [.request .createSession, .request (.submit ⟨0⟩ ⟨.cpu, []⟩),
        .request (.cancel ⟨0⟩), .notify (.executorReady .cpu)]).loop :=
  no_dead_dispatch ⟨64⟩ ⟨fun _ => .full, fun _ => false⟩ _
    ⟨by simp [NamesNoPending, completes], by simp [NamesNoPending, completes],
      by simp [NamesNoPending, completes], by simp [NamesNoPending, completes],
      trivial⟩

/-- **A completed ticket is dispatched.** The lane is full, the request
waits, and the frontend completes its ticket: the core retires it, the
request stays, and the retry that follows offers it to the lane. -/
theorem dead_dispatch : ¬ NoDeadDispatch (machine.run (new ⟨64⟩ ⟨fun _ => .full, fun _ => false⟩)
      [.request .createSession, .request (.submit ⟨0⟩ ⟨.cpu, []⟩),
        .request (.complete ⟨0⟩ .ok)]).loop := by
  intro h
  have hoff : Call.trySubmit ⟨⟨0⟩, ⟨.cpu, []⟩⟩ .full false
      ∈ (machine.run (new ⟨64⟩ ⟨fun _ => .full, fun _ => false⟩)
        [.request .createSession, .request (.submit ⟨0⟩ ⟨.cpu, []⟩),
          .request (.complete ⟨0⟩ .ok)]).loop.calls := by decide +kernel
  exact absurd (h.offered_live _ _ _ hoff) (by simp)

/-! ## Ticket conservation -/

/-- **Completions come from executors, for work they accepted.** -/
def FromExecutors (rt : Runtime) : Inbound → Prop
  | .request (.complete _ _) => False
  | .notify (.complete _ _) => False
  | .sink t _ => t ∈ accepted rt.loop.calls
  | _ => True

/-- What such an inbound message completes has been accepted. -/
theorem accepted_of_fromExecutors (h : FromExecutors rt inbound) :
    ∀ t ∈ inbound.completes, t ∈ accepted rt.loop.calls := by
  intro t ht
  cases inbound with
  | request r =>
    cases r with
    | complete => exact absurd h id
    | _ => exact absurd ht not_mem_nil
  | notify r =>
    cases r with
    | complete => exact absurd h id
    | _ => exact absurd ht not_mem_nil
  | sink =>
    rwa [mem_singleton.mp ht]
  | empty | disconnected => exact absurd ht not_mem_nil

/-- The tickets are tracked, and the completions handled are the spent
tickets. -/
def Kept (rt : Runtime) : Prop := rt.loop.Tracked [] (completions rt.handled)

/-- What a receive adds to the completions handled. -/
theorem completions_step (rt : Runtime) (inbound : Inbound) :
    completions (rt.step inbound).handled = completions rt.handled
        ++ if rt.phase = .stopped then [] else inbound.completes := by
  rcases step_cases rt inbound with ⟨heq, hcas⟩ | ⟨hrun, command, hcom, heq⟩
    | ⟨hrun, rfl, heq⟩ | ⟨hbur, rfl, heq⟩
  · rw [heq]
    rcases hcas with hst | rfl
    · rw [if_pos hst, List.append_nil]
    · simp [completes]
  · rw [heq, if_neg hrun, ← completes_of_command hcom]
    show completions (rt.handled ++ [command]) = _
    rw [completions_append]
    exact congrArg _ (List.append_nil _)
  · rw [heq, if_neg hrun]
    exact (List.append_nil _).symm
  · rw [heq, if_neg (by simp [hbur])]
    unfold endBurst
    by_cases hqt : rt.loop.draining = true ∧ rt.loop.isQuiescent = true
    · rw [if_pos hqt]
      exact (List.append_nil _).symm
    · rw [if_neg hqt]
      exact (List.append_nil _).symm

/-- **A receive of executor completions keeps every ticket accounted for.** -/
theorem kept_step (rt : Runtime) (inbound : Inbound) (h : Kept rt)
    (hfr : FromExecutors rt inbound) : Kept (machine.next rt inbound) := by
  have hacc := accepted_of_fromExecutors hfr
  have hok : NamesNoPending rt inbound :=
    fun t ht => h.not_pending_of_accepted (hacc t ht)
  have hst := tracked_step h hok
  have hsp : rt.spent inbound = if rt.phase = .stopped then [] else inbound.completes := by
    unfold spent
    by_cases hstp : rt.phase = .stopped
    · rw [if_pos hstp, if_pos hstp]
    · rw [if_neg hstp, if_neg hstp]
      calc inbound.completes.flatMap rt.loop.spentBy
          = inbound.completes.flatMap (fun t => [t]) :=
            flatMap_congr (fun t ht => if_pos (h.issued t (hacc t ht)))
        _ = inbound.completes := flatMap_singleton' _
  rwa [hsp, ← completions_step] at hst

/-- The loop is quiescent exactly when no ticket is live. -/
theorem isQuiescent_iff {l : RuntimeLoop} (h : l.Tracked [] done) :
    l.isQuiescent = true ↔ ∀ t, l.core.inflight.lookup t = none := by
  unfold isQuiescent totalInflight
  rw [Bool.and_eq_true, List.isEmpty_iff, beq_iff_eq, length_eq_zero_iff, Table.entries_eq_nil_iff]
  refine ⟨And.right, fun hnon => ⟨?_, hnon⟩⟩
  refine eq_nil_iff_forall_not_mem.mpr (fun request hmem => ?_)
  obtain ⟨p, hp⟩ := (noDeadDispatch_of_tracked h).pending_live request hmem
  rw [hnon] at hp
  exact absurd hp (by simp)

/-- **Where the tickets of the runtime are.** -/
structure Accounted (rt : Runtime) : Prop where
  /-- A live ticket is pending once and with no lane, or with one lane, to
  which it was submitted once and which has not completed it, and not
  pending. -/
  one_place : ∀ t p, rt.loop.core.inflight.lookup t = some p →
    (rt.loop.pendingTickets.count t = 1 ∧ t ∉ accepted rt.loop.calls)
    ∨ (t ∉ rt.loop.pendingTickets ∧ (accepted rt.loop.calls).count t = 1
        ∧ t ∉ completions rt.handled)
  /-- A pending ticket is live. -/
  pending_live : ∀ t ∈ rt.loop.pendingTickets, ∃ p, rt.loop.core.inflight.lookup t = some p
  /-- Quiescence is the absence of live tickets. -/
  quiescent_iff : rt.loop.isQuiescent = true ↔ ∀ t, rt.loop.core.inflight.lookup t = none
  /-- A drain ends the thread only when every accepted ticket has been
  completed, or a lane was asked to cancel it. -/
  drained : ∀ inbound, rt.phase ≠ .stopped → (rt.step inbound).phase = .stopped →
    (inbound = .empty ∨ inbound = .request (.shutdown .drain)
      ∨ inbound = .notify (.shutdown .drain)) →
    ∀ t ∈ accepted rt.loop.calls, t ∈ completions rt.handled ∨ t ∈ cancelRequests rt.loop.calls

/-- A drain ends the thread only when it is quiescent. -/
theorem isQuiescent_of_drained (hrun : rt.phase ≠ .stopped)
    (hst : (rt.step inbound).phase = .stopped)
    (hdr : inbound = .empty ∨ inbound = .request (.shutdown .drain)
      ∨ inbound = .notify (.shutdown .drain)) : rt.loop.isQuiescent = true := by
  have hhan : ∀ reply, (rt.loop.handle (.shutdown .drain reply)).1 = true →
      rt.loop.isQuiescent = true := by
    intro reply hfl
    rcases rt.loop.handle_shutdown .drain reply with ⟨hend, -⟩ | ⟨-, -, -, heq⟩ | ⟨-, -, -, heq⟩
    · exact hend.resolve_left (by simp)
    · rw [heq] at hfl
      exact absurd hfl (by simp)
    · rw [heq] at hfl
      exact absurd hfl (by simp)
  have hrec : ∀ rt' command, (receive rt' command).phase = .stopped →
      (rt'.loop.handle command).1 = true := by
    intro rt' command h
    by_contra hfl
    simp [receive, hfl] at h
  rcases step_cases rt inbound with ⟨heq, -⟩ | ⟨-, command, hcom, heq⟩
    | ⟨-, rfl, heq⟩ | ⟨hbur, rfl, heq⟩
  · rw [heq] at hst
    exact absurd hst hrun
  · rw [heq] at hst
    have hfl := hrec _ _ hst
    rcases hdr with rfl | rfl | rfl
    · exact absurd hcom (by simp [command?])
    · obtain rfl := some.inj hcom
      exact hhan _ hfl
    · cases hcom
      exact hhan _ hfl
  · rcases hdr with he | he | he <;> exact absurd he (by simp)
  · rw [heq] at hst
    unfold endBurst at hst
    by_cases hqt : rt.loop.draining = true ∧ rt.loop.isQuiescent = true
    · exact hqt.2
    · rw [if_neg hqt] at hst
      exact absurd hst (by simp)

/-- **Every ticket is accounted for**, between any two commands of a run
whose completions come from the executors, whatever else the run handles and
whatever the lanes answer. -/
theorem tickets_accounted (budget : Budget) (executors : ExecutorSet) (inbounds : List Inbound)
    (hfrom : machine.Along FromExecutors (new budget executors) inbounds) :
    Accounted (machine.run (new budget executors) inbounds) := by
  have h : Kept (machine.run (new budget executors) inbounds) :=
    Machine.run_of_along kept_step
      (show Kept (new budget executors) from tracked_new budget executors) hfrom
  generalize machine.run (new budget executors) inbounds = rt at h
  have hliv : ∀ t p, rt.loop.core.inflight.lookup t = some p → rt.loop.core.Live t :=
    fun t p hp => ⟨p.1, (ownerOf_eq_some_iff _ _ _).mpr ⟨p.2, hp⟩⟩
  exact
    { one_place := by
        intro t p hp
        have hcount := h.place t (hliv t p hp)
        rw [nil_append, count_append] at hcount
        by_cases ht : t ∈ rt.loop.pendingTickets
        · have hpos := count_pos_iff.mpr ht
          exact Or.inl ⟨by omega, count_eq_zero.mp (by omega)⟩
        · rw [count_eq_zero.mpr ht, Nat.zero_add] at hcount
          exact Or.inr ⟨ht, hcount, fun hdon => (h.spent t hdon).2 (hliv t p hp)⟩
      pending_live := by
        intro t ht
        obtain ⟨request, hmem, rfl⟩ := mem_map.mp ht
        exact (noDeadDispatch_of_tracked h).pending_live request hmem
      quiescent_iff := isQuiescent_iff h
      drained := by
        intro inbound hrun hst hdr t ht
        have hnon := (isQuiescent_iff h).mp (isQuiescent_of_drained hrun hst hdr)
        rcases h.retired t ht with ⟨s, hs⟩ | hret
        · obtain ⟨g, hg⟩ := (ownerOf_eq_some_iff _ _ _).mp hs
          rw [hnon] at hg
          exact absurd hg (by simp)
        · exact hret }

/-- A drain is requested while a lane works, and waits for it. -/
theorem tickets_accounted_of_drain :
    Accounted (machine.run (new ⟨64⟩ ⟨fun _ => .accepted, fun _ => false⟩)
      [.request .createSession, .request (.submit ⟨0⟩ ⟨.cpu, []⟩),
        .request (.shutdown .drain), .sink ⟨0⟩ .ok, .empty]) :=
  tickets_accounted ⟨64⟩ ⟨fun _ => .accepted, fun _ => false⟩ _
    ⟨trivial, trivial, trivial,
      show (⟨0⟩ : Ticket) ∈ accepted (machine.run (new ⟨64⟩ ⟨fun _ => .accepted, fun _ => false⟩)
        [.request .createSession, .request (.submit ⟨0⟩ ⟨.cpu, []⟩),
          .request (.shutdown .drain)]).loop.calls by decide +kernel, trivial, trivial⟩

end Runtime

end Logan
