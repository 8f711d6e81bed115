import Logan.Sched.ExecutorAccounts
import Logan.Sched.ExecutorShutdown

/-!
# Reports to a full channel

A worker that cannot report, because the channel stays full for nine
attempts, parks the report, and whichever worker next passes the top of the
loop tries it again. Nothing else does. So a report is forgotten if the
workers go to sleep while it is parked: the last one passes the top of the
loop, finds the channel still full, parks the report again, and then finds
the queue empty (`report_forgotten`).

`CpuExecutor.Attended` rules out just the steps that leave a report behind:
a worker that goes idle while no other one is awake. Without them no report is
ever forgotten (`reports_delivered`); that none is lost or delivered twice is a
matter of the accounts.
-/

namespace Logan

open List Function
open Or (inl inr)

namespace WorkerState

/-- The worker does nothing by itself: it waits, or is gone. -/
def Idle : WorkerState → Prop
  | waiting | exited | panicked => True
  | _ => False

instance : DecidablePred Idle := fun w => by
  unfold Idle
  split <;> infer_instance

theorem next_not_idle (parked : Bool) (others : List Report) : ¬ (next parked others).Idle := by
  cases others with
  | nil => cases parked <;> exact not_false
  | cons => exact not_false

/-- The reports that the worker will make: those in its hands, and that of
the job it has yet to record. -/
def outgoing (w : WorkerState) : List Report := w.reports ++ w.records.flatMap reportsOf

end WorkerState

namespace CpuExecutor

open WorkerState (Idle outgoing)

variable {s t d : CpuExecutor} {e : ExecutorEvent} {w w' : WorkerState} {i : ℕ}

/-- **A report is forgotten**: it is parked, while every worker waits on an
empty queue or is gone. -/
def Forgotten (s : CpuExecutor) : Prop :=
  s.pendingSink ≠ [] ∧ ∀ w ∈ s.workers, (w = .waiting ∧ s.queue = []) ∨ w.Gone

instance (s : CpuExecutor) : Decidable s.Forgotten :=
  inferInstanceAs (Decidable (_ ∧ ∀ w ∈ s.workers, _))

/-- The parked reports are remembered: there are none, or some worker is
awake, or one waits that a queued job will wake. -/
def Remembered (parked : List Report) (queue : List Job) (workers : List WorkerState) : Prop :=
  parked = [] ∨ (∃ w ∈ workers, ¬ w.Idle) ∨ (queue ≠ [] ∧ .waiting ∈ workers)

instance (parked : List Report) (queue : List Job) (workers : List WorkerState) :
    Decidable (Remembered parked queue workers) :=
  inferInstanceAs (Decidable (_ ∨ (∃ w ∈ workers, ¬ w.Idle) ∨ _))

theorem not_forgotten_iff : ¬ s.Forgotten ↔ Remembered s.pendingSink s.queue s.workers := by
  constructor
  · intro h
    by_contra hnot
    obtain ⟨hpar, hidl, hwtn⟩ := not_or.mp hnot |>.imp id not_or.mp
    refine h ⟨hpar, fun w hw => ?_⟩
    have hw' : w.Idle := by_contra (fun haw => hidl ⟨w, hw, haw⟩)
    cases w with
    | waiting => exact inl ⟨rfl, by_contra (fun hque => hwtn ⟨hque, hw⟩)⟩
    | exited | panicked => exact inr trivial
    | _ => exact absurd hw' not_false
  · rintro h ⟨hpar, hidl⟩
    rcases h with hnon | ⟨w, hw, haw⟩ | ⟨hque, hw⟩
    · exact hpar hnon
    · rcases hidl w hw with ⟨rfl, -⟩ | hgon
      · exact haw trivial
      · cases w with
        | exited | panicked => exact haw trivial
        | _ => exact hgon
    · rcases hidl _ hw with ⟨-, hemp⟩ | hgon
      · exact hque hemp
      · exact hgon

/-- **No report is left behind** by this event. If a worker goes idle – it
enters the wait set, returns, or ends by a panic of its handler – then the
parked reports are remembered by the others; and if a cancellation takes the
last job from the queue, then by a worker that is awake. -/
def Attended (s : CpuExecutor) : ExecutorEvent → Prop
  | .work i =>
    match s.workers[i]? with
    | some .committed => Remembered s.pendingSink s.queue (s.workers.eraseIdx i)
    | some .deciding =>
      s.shuttingDown = true → Remembered s.pendingSink s.queue (s.workers.eraseIdx i)
    | _ => True
  | .panic i =>
    match s.workers[i]? with
    | some (.running _) => Remembered s.pendingSink s.queue (s.workers.eraseIdx i)
    | _ => True
  | .cancelTicket ticket =>
    s.queue.map Job.ticket = [ticket] → Remembered s.pendingSink [] s.workers
  | _ => True

instance (s : CpuExecutor) (e : ExecutorEvent) : Decidable (s.Attended e) := by
  unfold Attended
  repeat' split
  all_goals infer_instance

/-- The worker at a place in the list, and the others. -/
theorem at_split {before after : List WorkerState} (h : s.workers = before ++ w :: after) :
    s.workers[before.length]? = some w ∧ s.workers.eraseIdx before.length = before ++ after := by
  constructor
  · rw [h, List.getElem?_append_right le_rfl, Nat.sub_self]
    rfl
  · rw [h, eraseIdx_append_of_length_le le_rfl, Nat.sub_self]
    rfl

/-- One more worker remembers no less. -/
theorem Remembered.insert {parked : List Report} {queue : List Job}
    {before after : List WorkerState} (h : Remembered parked queue (before ++ after))
    (w : WorkerState) : Remembered parked queue (before ++ w :: after) := by
  have hsub : before ++ after ⊆ before ++ w :: after :=
    append_subset.mpr ⟨subset_append_left _ _,
      fun v hv => mem_append_right _ (mem_cons_of_mem _ hv)⟩
  rcases h with hnon | ⟨v, hv, haw⟩ | ⟨hque, hv⟩
  · exact inl hnon
  · exact inr (inl ⟨v, hsub hv, haw⟩)
  · exact inr (inr ⟨hque, hsub hv⟩)

/-- **A step remembers the parked reports**, unless it leaves them behind. -/
theorem Transition.remembered (ht : s.Transition e d)
    (h : Remembered s.pendingSink s.queue s.workers) (he : s.Attended e) :
    Remembered d.pendingSink d.queue d.workers := by
  have haw {parked : List Report} {queue : List Job} {before after : List WorkerState}
      {w' : WorkerState} (hw' : ¬ w'.Idle) : Remembered parked queue (before ++ w' :: after) :=
    inr (inl ⟨w', mem_append_right _ mem_cons_self, hw'⟩)
  cases ht with
  | accepted =>
    refine h.imp id (Or.imp id (fun h => ⟨?_, h.2⟩))
    exact append_ne_nil_of_right_ne_nil _ (cons_ne_nil _ _)
  | noticed | finished | woke => exact haw not_false
  | cancelled before job after hque =>
    rcases h with hnon | hsom | ⟨-, hwtn⟩
    · exact inl hnon
    · exact inr (inl hsom)
    · by_cases hlas : before ++ after = []
      · -- it was the last job
        obtain ⟨rfl, rfl⟩ := append_eq_nil_iff.mp hlas
        exact he (by rw [hque]; rfl)
      · exact inr (inr ⟨hlas, hwtn⟩)
  | notified =>
    rcases h with hnon | ⟨w, hw, hidl⟩ | ⟨-, hwtn⟩
    · exact inl hnon
    · refine inr (inl ⟨w.notified, mem_map_of_mem hw, ?_⟩)
      cases w <;> first | exact hidl | exact not_false
    · exact inr (inl ⟨.locking, mem_map.mpr ⟨_, hwtn, rfl⟩, not_false⟩)
  | worked before w after hwor w' t hact =>
    cases hact with
    | retried | delivered | dropped | parked | recorded =>
      exact haw (WorkerState.next_not_idle _ _)
    | exited hfl =>
      obtain ⟨hget, her⟩ := at_split hwor
      rw [Attended, hget, her] at he
      exact (he hfl).insert _
    | waits =>
      obtain ⟨hget, her⟩ := at_split hwor
      rw [Attended, hget, her] at he
      exact Remembered.insert he _
    | idle => rw [← hwor]; exact h
    | _ => exact haw not_false
  | panicked before job after hwor =>
    obtain ⟨hget, her⟩ := at_split hwor
    rw [Attended, hget, her] at he
    exact Remembered.insert he _
  | _ => exact h

/-! ## Closed channels -/

/-- Only the reports of closed channels are dropped. -/
def DroppedClosed (s : CpuExecutor) : Prop :=
  ∀ report ∈ s.log.dropped, (s.channels report.sink.channel).closed = true

/-- A worker closes no channel, and opens none. -/
theorem Acts.closed (h : s.Acts i w w' t) (c : ℕ) :
    (t.channels c).closed = (s.channels c).closed := by
  cases h with
  | delivered parked attempts report others channel hrm =>
    show (update s.channels report.sink.channel channel c).closed = _
    by_cases hc : c = report.sink.channel
    · rw [hc, update_self]
      unfold Channel.trySend at hrm
      split at hrm
      · cases hrm
      · split at hrm
        · rw [← Except.ok.inj hrm]
        · cases hrm
    · rw [update_of_ne hc]
  | _ => rfl

theorem Acts.droppedClosed (hact : s.Acts i w w' t) (h : s.DroppedClosed) : t.DroppedClosed := by
  intro report hrep
  rw [hact.closed]
  cases hact with
  | dropped parked attempts own others hcl =>
    rcases mem_append.mp hrep with hrep | hown
    · exact h report hrep
    · rwa [mem_singleton.mp hown]
  | _ => exact h report hrep

theorem Transition.droppedClosed (ht : s.Transition e d) (h : s.DroppedClosed) :
    d.DroppedClosed := by
  cases ht with
  | worked before w after hwor w' t hact => exact hact.droppedClosed h
  | channel e channels he hcl => exact fun report hrep => hcl _ (h report hrep)
  | _ => exact h

theorem run_droppedClosed {config : CpuConfig} {channels : ℕ → Channel}
    (h : new config channels = .ok s) (events : List ExecutorEvent) :
    (machine.run s events).DroppedClosed := by
  obtain ⟨-, -, rfl⟩ := new_of_ok h
  exact Machine.run_of_step (fun s e h => (s.step_transition e).droppedClosed h)
    (fun report hrep => absurd hrep not_mem_nil) events

/-! ## Every run -/

/-- **What can be relied on about the reports.** -/
structure ReportsDelivered (s : CpuExecutor) : Prop where
  /-- The reports of the jobs whose handler has returned are delivered, parked
  or in the hands of a worker, each once – if their channel is not closed. -/
  once : ∀ report, (s.channels report.sink.channel).closed = false →
    (s.log.returned.flatMap reportsOf).count report = s.log.delivered.count report
        + (s.pendingSink.count report + (s.workers.flatMap outgoing).count report)
  /-- None of the parked ones is forgotten. -/
  remembered : ¬ s.Forgotten

/-- The accounts, and that only reports to closed channels are dropped. -/
theorem Accounted.reports_once (h : s.Accounted) (hdr : s.DroppedClosed) {report : Report}
    (hop : (s.channels report.sink.channel).closed = false) :
    (s.log.returned.flatMap reportsOf).count report = s.log.delivered.count report
        + (s.pendingSink.count report + (s.workers.flatMap outgoing).count report) := by
  have hnon : s.log.dropped.count report = 0 := by
    refine count_eq_zero_of_not_mem (fun hmem => ?_)
    rw [hdr report hmem] at hop
    cases hop
  have hret := (h.returned.flatMap_right reportsOf).count_eq report
  rw [flatMap_append, flatMap_assoc, count_append] at hret
  have hrep := h.reports.count_eq report
  simp only [count_append] at hrep
  have hout := (flatMap_append_perm s.workers WorkerState.reports
    (fun w => w.records.flatMap reportsOf)).count_eq report
  rw [count_append] at hout
  change _ = (s.workers.flatMap outgoing).count report at hout
  omega

/-- **No report is lost to a full channel**, in every run in which none is
left behind. -/
theorem reports_delivered {config : CpuConfig} {channels : ℕ → Channel}
    (hnew : new config channels = .ok s) (events : List ExecutorEvent)
    (hevents : machine.Along Attended s events) : ReportsDelivered (machine.run s events) where
  once _ := (run_accounted hnew events).reports_once (run_droppedClosed hnew events)
  remembered := by
    refine not_forgotten_iff.mpr (Machine.run_of_along
      (fun s e h he => (s.step_transition e).remembered h he) ?_ hevents)
    obtain ⟨-, -, rfl⟩ := new_of_ok hnew
    exact inl rfl

/-- Two workers. One finds the channel full nine times and parks its report
while the other one runs a job; that one retries it, the receiver having made
room, before both go idle. -/
theorem reports_delivered_of_two :
    ReportsDelivered (machine.run (spawned ⟨2, 4⟩ (fun _ => ⟨1, 1, false⟩)) (List.flatten
      [[.work 0, .work 1, .submit ⟨⟨1⟩, ⟨.cpu, [1]⟩, [], some ⟨0⟩⟩, .enqueue 0, .notifyOne 0,
          .submit ⟨⟨2⟩, ⟨.cpu, [2]⟩, [], none⟩, .enqueue 0, .work 0, .work 0, .work 1, .work 1,
          .finish 0 .ok], List.replicate 11 (.work 0),
        [.receive 0, .finish 1 .ok, .work 1, .work 1, .work 1],
        List.replicate 5 (.work 0), List.replicate 4 (.work 1)])) := by
  refine reports_delivered (new_of_valid (by decide) (by decide) _) _ ?_
  decide +kernel

/-- A single worker runs a job, parks its report, takes it again at the top of
the loop, parks it again, and finds the queue empty. -/
def parkedTwice : List ExecutorEvent := List.flatten
  [[.work 0, .submit ⟨⟨1⟩, ⟨.cpu, [1]⟩, [], some ⟨0⟩⟩, .enqueue 0, .notifyOne 0, .work 0, .work 0,
      .finish 0 .ok],
    List.replicate 11 (.work 0), List.replicate 11 (.work 0), List.replicate 4 (.work 0)]

/-- **A report is forgotten.** The only worker sleeps while the report is
parked; the receiver makes room for it, and no step of the worker is
possible. -/
theorem report_forgotten :
    new ⟨1, 1⟩ (fun _ => ⟨1, 1, false⟩) = .ok (spawned ⟨1, 1⟩ (fun _ => ⟨1, 1, false⟩))
    ∧ (machine.run (spawned ⟨1, 1⟩ (fun _ => ⟨1, 1, false⟩)) parkedTwice).Forgotten
    ∧ (machine.run (spawned ⟨1, 1⟩ (fun _ => ⟨1, 1, false⟩))
        (parkedTwice ++ [.receive 0])).Forgotten
    ∧ ((machine.run (spawned ⟨1, 1⟩ (fun _ => ⟨1, 1, false⟩))
        (parkedTwice ++ [.receive 0])).channels 0).messages = 0
    ∧ ∀ e, ¬ (machine.run (spawned ⟨1, 1⟩ (fun _ => ⟨1, 1, false⟩))
        (parkedTwice ++ [.receive 0])).GoesOn e := by
  refine ⟨rfl, ?_, ?_, ?_, not_goesOn ?_⟩
  · decide +kernel
  · decide +kernel
  · decide +kernel
  · decide +kernel

end CpuExecutor

end Logan
