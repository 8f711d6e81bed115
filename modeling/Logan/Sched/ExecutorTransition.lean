import Logan.Sched.Executor

/-!
# What one step of the executor can do

A step of one thread leaves the other threads where they are. The
transitions below say so: they split the list of the workers at the one that
goes on, so that what is counted over all workers is counted in three parts,
of which one changes. What that worker has done to the shared state is a
relation of its own, `CpuExecutor.Acts`; the invariants are proved for the
two relations, case by case, and never look into the step function again.
-/

namespace Logan

namespace CpuExecutor

variable {s t d : CpuExecutor} {e : ExecutorEvent} {w w' : WorkerState} {i : ℕ}

/-- **What a worker does**: where it stood and stands, and the shared state
afterwards. -/
inductive Acts (s : CpuExecutor) (i : ℕ) : WorkerState → WorkerState → CpuExecutor → Prop
  | retried : Acts s i .retrying (.next true s.pendingSink) { s with pendingSink := [] }
  | delivered (parked : Bool) (attempts : ℕ) (report : Report) (others : List Report)
    (channel : Channel) (h : (s.channels report.sink.channel).trySend = .ok channel) :
    Acts s i (.reporting parked attempts report others) (.next parked others)
      { s with
        channels := Function.update s.channels report.sink.channel channel
        log := { s.log with delivered := s.log.delivered ++ [report] } }
  | again (parked : Bool) (attempts : ℕ) (report : Report) (others : List Report)
    (h : attempts < 8) :
    Acts s i (.reporting parked attempts report others)
      (.reporting parked (attempts + 1) report others) s
  | gaveUp (parked : Bool) (attempts : ℕ) (report : Report) (others : List Report) :
    Acts s i (.reporting parked attempts report others) (.parking parked report others) s
  | dropped (parked : Bool) (attempts : ℕ) (report : Report) (others : List Report)
    (h : (s.channels report.sink.channel).closed = true) :
    Acts s i (.reporting parked attempts report others) (.next parked others)
      { s with log := { s.log with dropped := s.log.dropped ++ [report] } }
  | parked (parked : Bool) (report : Report) (others : List Report) :
    Acts s i (.parking parked report others) (.next parked others)
      { s with pendingSink := s.pendingSink ++ [report] }
  | locked (h : s.Unlocked) : Acts s i .locking .checking s
  | found (job : Job) (queue : List Job) (h : s.queue = job :: queue) :
    Acts s i .checking (.running job)
      { s with
        queue := queue
        log := { s.log with claimed := s.log.claimed ++ [(i, job)] } }
  | empty (h : s.queue = []) : Acts s i .checking .deciding s
  | exited (h : s.shuttingDown = true) : Acts s i .deciding .exited s
  | stays (h : s.shuttingDown = false) : Acts s i .deciding .committed s
  | waits : Acts s i .committed .waiting s
  | recorded (job : Job) (outcome : Outcome) :
    Acts s i (.recording job outcome) (.next false (job.report outcome).toList)
      { s with
        completed :=
          if job.recorded then s.completed ++ [job.record outcome] else s.completed
        log := { s.log with finished := s.log.finished ++ [(job, outcome)] } }
  | idle (w : WorkerState) : Acts s i w w s

variable (s : CpuExecutor)

/-- **Every step of a worker is one of these.** -/
theorem act_acts (i : ℕ) (w : WorkerState) : s.Acts i w (s.act i w).1 (s.act i w).2 := by
  cases w with
  | retrying => exact .retried
  | reporting parked attempts report others =>
    dsimp only [act]
    cases h : (s.channels report.sink.channel).trySend with
    | ok channel => exact .delivered parked attempts report others channel h
    | error error =>
      cases error with
      | full =>
        by_cases hlt : attempts < 8
        · rw [if_pos hlt]
          exact .again parked attempts report others hlt
        · rw [if_neg hlt]
          exact .gaveUp parked attempts report others
      | closed =>
        refine .dropped parked attempts report others ?_
        -- a channel that is not closed answers `Ok` or `Full`
        unfold Channel.trySend at h
        by_cases hcl : (s.channels report.sink.channel).closed
        · exact hcl
        · rw [if_neg hcl] at h
          split at h <;> cases h
  | parking parked report others => exact .parked parked report others
  | locking =>
    dsimp only [act]
    by_cases h : s.Unlocked
    · rw [if_pos h]
      exact .locked h
    · rw [if_neg h]
      exact .idle _
  | checking =>
    dsimp only [act]
    cases h : s.queue with
    | nil => exact .empty h
    | cons job queue => exact .found job queue h
  | deciding =>
    dsimp only [act]
    cases h : s.shuttingDown with
    | true => exact .exited h
    | false => exact .stays h
  | committed => exact .waits
  | waiting | running | exited | panicked => exact .idle _
  | recording job outcome => exact .recorded job outcome

theorem Acts.workers (h : s.Acts i w w' t) : t.workers = s.workers := by
  cases h <;> rfl

/-! ## The steps of all threads -/

/-- **What one step does.** -/
inductive Transition (s : CpuExecutor) : ExecutorEvent → CpuExecutor → Prop
  | closed (job : Job) (h : s.shuttingDown = true) :
    Transition s (.submit job)
      { s with log := { s.log with
          submitted := s.log.submitted ++ [job]
          refused := s.log.refused ++ [.closed job] } }
  | offered (job : Job) (h : s.shuttingDown = false) :
    Transition s (.submit job)
      { s with
        offered := s.offered ++ [job]
        log := { s.log with submitted := s.log.submitted ++ [job] } }
  | full (before : List Job) (job : Job) (after : List Job)
    (hoffered : s.offered = before ++ job :: after) :
    Transition s (.enqueue before.length)
      { s with
        offered := before ++ after
        log := { s.log with refused := s.log.refused ++ [.full job] } }
  | accepted (before : List Job) (job : Job) (after : List Job)
    (hoffered : s.offered = before ++ job :: after) (hlock : s.Unlocked)
    (hroom : s.queue.length < s.queueCapacity) :
    Transition s (.enqueue before.length)
      { s with
        offered := before ++ after
        queue := s.queue ++ [job]
        notices := s.notices + 1
        log := { s.log with accepted := s.log.accepted ++ [job] } }
  | unnoticed (i : ℕ) (hnone : .waiting ∉ s.workers) :
    Transition s (.notifyOne i) { s with notices := s.notices - 1 }
  | noticed (before after : List WorkerState) (hworkers : s.workers = before ++ .waiting :: after) :
    Transition s (.notifyOne before.length)
      { s with notices := s.notices - 1, workers := before ++ .locking :: after }
  | cancelled (before : List Job) (job : Job) (after : List Job)
    (hqueue : s.queue = before ++ job :: after) (hlock : s.Unlocked) :
    Transition s (.cancelTicket job.ticket)
      { s with
        queue := before ++ after
        completed :=
          if job.retained.isEmpty then s.completed else s.completed ++ [job.cancelledRecord]
        log := { s.log with cancelled := s.log.cancelled ++ [job] } }
  | drained :
    Transition s .drainCompleted
      { s with
        completed := []
        log := { s.log with drained := s.log.drained ++ s.completed } }
  | flagged (h : s.shutdown = .running) :
    Transition s .storeFlag { s with shuttingDown := true, shutdown := .flagged }
  | notified (h : s.shutdown = .flagged) :
    Transition s .notifyAll
      { s with workers := s.workers.map .notified, shutdown := .joining 0 }
  | joined (joined : ℕ) (h : s.shutdown = .joining joined) (w : WorkerState)
    (hw : s.workers[joined]? = some w) (hgone : w.Gone) :
    Transition s .join { s with shutdown := .joining (joined + 1) }
  | worked (before : List WorkerState) (w : WorkerState) (after : List WorkerState)
    (hworkers : s.workers = before ++ w :: after) (w' : WorkerState) (t : CpuExecutor)
    (hact : s.Acts before.length w w' t) :
    Transition s (.work before.length) { t with workers := before ++ w' :: after }
  | finished (before : List WorkerState) (job : Job) (after : List WorkerState)
    (hworkers : s.workers = before ++ .running job :: after) (outcome : Outcome) :
    Transition s (.finish before.length outcome)
      { s with
        workers := before ++ .recording job outcome :: after
        log := { s.log with returned := s.log.returned ++ [(job, outcome)] } }
  | panicked (before : List WorkerState) (job : Job) (after : List WorkerState)
    (hworkers : s.workers = before ++ .running job :: after) :
    Transition s (.panic before.length)
      { s with
        workers := before ++ .panicked :: after
        log := { s.log with lost := s.log.lost ++ [job] } }
  | woke (before after : List WorkerState) (hworkers : s.workers = before ++ .waiting :: after) :
    Transition s (.wakeUp before.length) { s with workers := before ++ .locking :: after }
  | channel (e : ExecutorEvent) (channels : ℕ → Channel)
    (he : ∃ c, e = .receive c ∨ e = .send c ∨ e = .hangUp c)
    (hclosed : ∀ c, (s.channels c).closed = true → (channels c).closed = true) :
    Transition s e { s with channels := channels }
  | idle (e : ExecutorEvent) (he : ∀ job, e ≠ .submit job) : Transition s e s

theorem split_of_getElem? {α : Type} {l : List α} {i : ℕ} {a : α} (h : l[i]? = some a) :
    ∃ before after, l = before ++ a :: after ∧ before.length = i
      ∧ (∀ b, l.set i b = before ++ b :: after) ∧ l.eraseIdx i = before ++ after := by
  obtain ⟨hi, rfl⟩ := List.getElem?_eq_some_iff.mp h
  refine ⟨l.take i, l.drop (i + 1), ?_, ?_, fun b => ?_, ?_⟩
  · rw [← List.drop_eq_getElem_cons hi, List.take_append_drop]
  · exact List.length_take_of_le hi.le
  · rw [List.set_eq_take_append_cons_drop, if_pos hi]
  · exact List.eraseIdx_eq_take_drop_succ l i

theorem enqueue_transition (k : ℕ) : s.Transition (.enqueue k) (s.enqueue k) := by
  unfold enqueue
  cases hjob : s.offered[k]? with
  | none => exact .idle _ (by simp)
  | some job =>
    dsimp only
    by_cases hloc : s.Unlocked
    · obtain ⟨before, after, hspl, rfl, -, her⟩ := split_of_getElem? hjob
      rw [if_neg (not_not_intro hloc), her]
      by_cases hful : s.queueCapacity ≤ s.queue.length
      · rw [if_pos hful]
        exact .full before job after hspl
      · rw [if_neg hful]
        exact .accepted before job after hspl hloc (Nat.lt_of_not_le hful)
    · rw [if_pos hloc]
      exact .idle _ (by simp)

theorem notifyOne_transition (i : ℕ) : s.Transition (.notifyOne i) (s.notifyOne i) := by
  unfold notifyOne
  by_cases hnot : s.notices = 0
  · rw [if_pos hnot]
    exact .idle _ (by simp)
  · rw [if_neg hnot]
    by_cases hnon : .waiting ∉ s.workers
    · rw [if_pos hnon]
      exact .unnoticed i hnon
    · rw [if_neg hnon]
      by_cases hw : s.workers[i]? = some .waiting
      · obtain ⟨before, after, hspl, rfl, hset, -⟩ := split_of_getElem? hw
        rw [if_pos hw, hset]
        exact .noticed before after hspl
      · rw [if_neg hw]
        exact .idle _ (by simp)

theorem cancelTicket_transition (ticket : Ticket) :
    s.Transition (.cancelTicket ticket) (s.cancelTicket ticket) := by
  unfold cancelTicket
  by_cases hloc : s.Unlocked
  · rw [if_neg (not_not_intro hloc)]
    cases hfin : s.queue.findIdx? (fun job => job.ticket = ticket) with
    | none => exact .idle _ (by simp)
    | some index =>
      dsimp only
      cases hjob : s.queue[index]? with
      | none => exact .idle _ (by simp)
      | some job =>
        obtain ⟨before, after, hspl, rfl, -, her⟩ := split_of_getElem? hjob
        obtain ⟨hlt, htic, -⟩ := List.findIdx?_eq_some_iff_getElem.mp hfin
        have hget : s.queue[before.length] = job :=
          Option.some.inj ((List.getElem?_eq_getElem hlt).symm.trans hjob)
        rw [hget] at htic
        rw [her, ← of_decide_eq_true htic]
        exact .cancelled before job after hspl hloc
  · rw [if_pos hloc]
    exact .idle _ (by simp)

theorem work_transition (i : ℕ) : s.Transition (.work i) (s.work i) := by
  unfold work
  cases hw : s.workers[i]? with
  | none => exact .idle _ (by simp)
  | some w =>
    obtain ⟨before, after, hspl, rfl, hset, -⟩ := split_of_getElem? hw
    have hact := s.act_acts before.length w
    dsimp only
    rw [hact.workers, hset]
    exact .worked before w after hspl _ _ hact

theorem finish_transition (i : ℕ) (outcome : Outcome) :
    s.Transition (.finish i outcome) (s.finish i outcome) := by
  unfold finish
  split
  · next job hw =>
    obtain ⟨before, after, hspl, rfl, hset, -⟩ := split_of_getElem? hw
    rw [hset]
    exact .finished before job after hspl outcome
  · exact .idle _ (by simp)

theorem panic_transition (i : ℕ) : s.Transition (.panic i) (s.panic i) := by
  unfold panic
  split
  · next job hw =>
    obtain ⟨before, after, hspl, rfl, hset, -⟩ := split_of_getElem? hw
    rw [hset]
    exact .panicked before job after hspl
  · exact .idle _ (by simp)

theorem updateChannel_transition (e : ExecutorEvent) (channel : ℕ)
    (he : e = .receive channel ∨ e = .send channel ∨ e = .hangUp channel)
    {f : Channel → Channel} (hf : ∀ c : Channel, c.closed = true → (f c).closed = true) :
    s.Transition e (s.updateChannel channel f) := by
  refine .channel e _ ⟨channel, he⟩ (fun c hc => ?_)
  by_cases h : c = channel
  · rw [h, Function.update_self]
    exact hf _ (h ▸ hc)
  · rwa [Function.update_of_ne h]

/-- **Every event is a transition.** -/
theorem step_transition (e : ExecutorEvent) : s.Transition e (s.step e) := by
  cases e with
  | submit job =>
    show s.Transition _ (s.submit job)
    unfold submit
    by_cases h : s.shuttingDown = true
    · rw [if_pos h]
      exact .closed job h
    · rw [if_neg h]
      exact .offered job (Bool.eq_false_iff.mpr h)
  | enqueue k => exact s.enqueue_transition k
  | notifyOne i => exact s.notifyOne_transition i
  | cancelTicket ticket => exact s.cancelTicket_transition ticket
  | drainCompleted => exact .drained
  | storeFlag =>
    show s.Transition _ s.storeFlag
    unfold storeFlag
    split
    · next h => exact .flagged h
    · exact .idle _ (by simp)
    · exact .idle _ (by simp)
  | notifyAll =>
    show s.Transition _ s.notifyAll
    unfold notifyAll
    split
    · next h => exact .notified h
    · exact .idle _ (by simp)
    · exact .idle _ (by simp)
  | join =>
    show s.Transition _ s.join
    unfold join
    split
    · next joined h =>
      split
      · next w hw =>
        by_cases hgon : w.Gone
        · rw [if_pos hgon]
          exact .joined joined h w hw hgon
        · rw [if_neg hgon]
          exact .idle _ (by simp)
      · exact .idle _ (by simp)
    · exact .idle _ (by simp)
    · exact .idle _ (by simp)
  | work i => exact s.work_transition i
  | finish i outcome => exact s.finish_transition i outcome
  | panic i => exact s.panic_transition i
  | wakeUp i =>
    show s.Transition _ (s.wakeUp i)
    unfold wakeUp
    by_cases hw : s.workers[i]? = some .waiting
    · obtain ⟨before, after, hspl, rfl, hset, -⟩ := split_of_getElem? hw
      rw [if_pos hw, hset]
      exact .woke before after hspl
    · rw [if_neg hw]
      exact .idle _ (by simp)
  | receive channel =>
    exact s.updateChannel_transition _ channel (Or.inl rfl) (f := .received) (fun _ h => h)
  | send channel =>
    refine s.updateChannel_transition _ channel (Or.inr (Or.inl rfl)) (f := .sent) (fun c h => ?_)
    rwa [Channel.sent, Channel.trySend, if_pos h]
  | hangUp channel =>
    exact s.updateChannel_transition _ channel (Or.inr (Or.inr rfl)) (f := .hungUp) (fun _ _ => rfl)

end CpuExecutor

/-! ## What the lock protects -/

namespace CpuExecutor

variable {s t d : CpuExecutor} {e : ExecutorEvent} {w w' : WorkerState} {i : ℕ}

theorem Acts.queue_suffix (h : s.Acts i w w' t) : t.queue <:+ s.queue := by
  cases h with
  | found job queue h => exact ⟨[job], h.symm⟩
  | _ => exact List.suffix_refl _

theorem new_of_valid {config : CpuConfig} (hwor : 0 < config.workers)
    (hcap : 0 < config.queueCapacity) (channels : ℕ → Channel) :
    new config channels = .ok (spawned config channels) := by
  rw [new, if_neg hwor.ne', if_neg hcap.ne']

/-- What a valid configuration starts with. -/
theorem new_of_ok {config : CpuConfig} {channels : ℕ → Channel} (h : new config channels = .ok s) :
    0 < config.workers ∧ 0 < config.queueCapacity ∧ s = spawned config channels := by
  unfold new at h
  split at h
  · cases h
  · next hwor =>
    split at h
    · cases h
    · next hcap =>
      exact ⟨Nat.pos_of_ne_zero hwor, Nat.pos_of_ne_zero hcap, (Except.ok.inj h).symm⟩

end CpuExecutor

end Logan
