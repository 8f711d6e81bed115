import Logan.Sched.ExecutorTransition

/-!
# Where every job and every report is

Between its submission and its end a job passes from hand to hand: from its
submitter to the queue, from the queue to a worker or to whoever cancels it,
from the worker to the handler and back, and into a record. Its report goes
from the worker to the channel or is parked, and goes through another
worker's hands when it is tried again. No step duplicates anything and none
loses anything; `CpuExecutor.Accounted` says so for each of the passages, by
permutations of what has been handed over and where it is now.
-/

namespace Logan

open List
open List (append_nil count flatMap map_append replicate)
open WorkerState (recording retrying running)

/-- The job that was handed back. -/
def SubmitOutcome.job : SubmitOutcome → List Job
  | accepted => []
  | full job | closed job => [job]

/-- The reports of a job that has run. -/
def reportsOf (ran : Job × Outcome) : List Report := (ran.1.report ran.2).toList

/-- The records of a job that has run. -/
def recordsOf (ran : Job × Outcome) : List Completed :=
  if ran.1.recorded then [ran.1.record ran.2] else []

/-- The records of a cancelled job. -/
def Job.cancelledRecords (job : Job) : List Completed :=
  if job.retained.isEmpty then [] else [job.cancelledRecord]

namespace WorkerState

/-- The job whose handler the worker runs. -/
def runs : WorkerState → List Job
  | running job => [job]
  | _ => []

/-- The job that the worker has yet to record. -/
def records : WorkerState → List (Job × Outcome)
  | recording job outcome => [(job, outcome)]
  | _ => []

/-- The reports in the worker's hands. -/
def reports : WorkerState → List Report
  | reporting _ _ report others | parking _ report others => report :: others
  | _ => []

@[simp] theorem next_runs (parked : Bool) (others : List Report) :
    (next parked others).runs = [] := by
  cases others <;> cases parked <;> rfl

@[simp] theorem next_records (parked : Bool) (others : List Report) :
    (next parked others).records = [] := by
  cases others <;> cases parked <;> rfl

@[simp] theorem next_reports (parked : Bool) (others : List Report) :
    (next parked others).reports = others := by
  cases others <;> cases parked <;> rfl

variable (w : WorkerState)

theorem notified_runs : w.notified.runs = w.runs := by cases w <;> rfl

theorem notified_records : w.notified.records = w.records := by
  cases w <;> rfl

theorem notified_reports : w.notified.reports = w.reports := by
  cases w <;> rfl

end WorkerState

namespace CpuExecutor

open WorkerState (runs records reports)

variable {s t d : CpuExecutor} {e : ExecutorEvent} {w w' : WorkerState} {i : ℕ}

/-- **Everything is somewhere, and in one place.** -/
structure Accounted (s : CpuExecutor) : Prop where
  submitted : s.log.submitted.Perm
    (s.log.accepted ++ s.log.refused.flatMap SubmitOutcome.job ++ s.offered)
  accepted : s.log.accepted.Perm (s.queue ++ s.log.claimed.map Prod.snd ++ s.log.cancelled)
  claimed : (s.log.claimed.map Prod.snd).Perm
    (s.workers.flatMap runs ++ s.log.returned.map Prod.fst ++ s.log.lost)
  returned : s.log.returned.Perm (s.workers.flatMap records ++ s.log.finished)
  records : (s.completed ++ s.log.drained).Perm
    (s.log.finished.flatMap recordsOf ++ s.log.cancelled.flatMap Job.cancelledRecords)
  reports : (s.log.finished.flatMap reportsOf).Perm
    (s.log.delivered ++ s.log.dropped ++ s.pendingSink ++ s.workers.flatMap reports)

theorem accounted_spawned (config : CpuConfig) (channels : ℕ → Channel) :
    (spawned config channels).Accounted := by
  have hnon {α : Type} {f : WorkerState → List α} (h : f .retrying = []) :
      (replicate config.workers retrying).flatMap f = [] := by
    rw [flatMap_eq_nil_iff]
    intro w hw
    rw [eq_of_mem_replicate hw, h]
  refine ⟨List.Perm.nil, List.Perm.nil, ?_, ?_, List.Perm.nil, ?_⟩
  · show [].Perm (flatMap _ (replicate _ _) ++ [] ++ [])
    rw [hnon rfl]
    exact List.Perm.nil
  · show [].Perm (flatMap _ (replicate _ _) ++ [])
    rw [hnon rfl]
    exact List.Perm.nil
  · show [].Perm ([] ++ [] ++ [] ++ flatMap _ (replicate _ _))
    rw [hnon rfl]
    exact List.Perm.nil

/-! ## Passing on -/

theorem perm_of_count {α : Type} [BEq α] [LawfulBEq α] {l m l' m' : List α} (h : l.Perm m)
    (hc : ∀ a, l.count a = m.count a → l'.count a = m'.count a) : l'.Perm m' :=
  perm_iff_count.mpr fun a => hc a (h.count_eq a)

theorem count_flatMap_split {α : Type} [BEq α] (f : WorkerState → List α)
    (before : List WorkerState) (w : WorkerState) (after : List WorkerState) (a : α) :
    ((before ++ w :: after).flatMap f).count a
      = ((before ++ after).flatMap f).count a + (f w).count a := by
  simp only [flatMap_append, flatMap_cons, count_append]
  omega

/-- What the workers hold is the same if the one that moves holds the
same. -/
theorem flatMap_move {α : Type} {f : WorkerState → List α} (w w' : WorkerState) (h : f w' = f w)
    (before after : List WorkerState) :
    (before ++ w' :: after).flatMap f = (before ++ w :: after).flatMap f := by
  simp only [flatMap_append, flatMap_cons, h]

/-- **A worker passes on a report**, or moves without passing on anything. -/
theorem Accounted.pass (h : s.Accounted) {before after : List WorkerState}
    (hwor : s.workers = before ++ w :: after) (hrun : w'.runs = w.runs)
    (hrec : w'.records = w.records) {delivered dropped pending : List Report}
    (hsum : ∀ a, (delivered ++ dropped ++ pending ++ w'.reports).count a
      = (s.log.delivered ++ s.log.dropped ++ s.pendingSink ++ w.reports).count a)
    (channels : ℕ → Channel) (notices : ℕ) : Accounted { s with
      workers := before ++ w' :: after
      pendingSink := pending
      channels := channels
      notices := notices
      log := { s.log with delivered := delivered, dropped := dropped } } := by
  obtain ⟨hsub, hacc, hcl, hret, hcom, hrep⟩ := h
  rw [hwor] at hcl hret hrep
  refine ⟨hsub, hacc, ?_, ?_, hcom, ?_⟩
  · show (s.log.claimed.map Prod.snd).Perm (flatMap _ _ ++ _ ++ _)
    rwa [flatMap_move w w' hrun]
  · show s.log.returned.Perm (flatMap _ _ ++ _)
    rwa [flatMap_move w w' hrec]
  · refine perm_of_count hrep fun a hbef => ?_
    have hpas := hsum a
    simp only [count_append, count_flatMap_split] at hbef hpas ⊢
    omega

/-- **What a worker does with what it holds.** -/
theorem Acts.accounted (hact : s.Acts i w w' t) {before after : List WorkerState}
    (hwor : s.workers = before ++ w :: after) (h : s.Accounted) :
    Accounted { t with workers := before ++ w' :: after } := by
  have hmov (hrun : w'.runs = w.runs) (hrec : w'.records = w.records)
      (hrep : w'.reports = w.reports) : Accounted { s with workers := before ++ w' :: after } :=
    h.pass hwor hrun hrec (fun a => by rw [hrep]) s.channels s.notices
  cases hact with
  | retried =>
    refine h.pass hwor (WorkerState.next_runs _ _) (WorkerState.next_records _ _) ?_ _ _
    intro a
    rw [WorkerState.next_reports, append_nil]
    show _ = count a (_ ++ [])
    rw [append_nil]
  | delivered parked attempts report others =>
    refine h.pass hwor (WorkerState.next_runs _ _) (WorkerState.next_records _ _) ?_ _ _
    intro a
    rw [WorkerState.next_reports]
    show count a (s.log.delivered ++ [report] ++ s.log.dropped ++ s.pendingSink ++ others)
      = count a (s.log.delivered ++ s.log.dropped ++ s.pendingSink ++ report :: others)
    simp only [count_append, count_cons, count_nil]
    omega
  | again | gaveUp | locked | empty | exited | stays | waits | idle => exact hmov rfl rfl rfl
  | dropped parked attempts report others =>
    refine h.pass hwor (WorkerState.next_runs _ _) (WorkerState.next_records _ _) ?_ _ _
    intro a
    rw [WorkerState.next_reports]
    show count a (s.log.delivered ++ (s.log.dropped ++ [report]) ++ s.pendingSink ++ others)
      = count a (s.log.delivered ++ s.log.dropped ++ s.pendingSink ++ report :: others)
    simp only [count_append, count_cons, count_nil]
    omega
  | parked parked report others =>
    refine h.pass hwor (WorkerState.next_runs _ _) (WorkerState.next_records _ _) ?_ _ _
    intro a
    rw [WorkerState.next_reports]
    show count a (s.log.delivered ++ s.log.dropped ++ (s.pendingSink ++ [report]) ++ others)
      = count a (s.log.delivered ++ s.log.dropped ++ s.pendingSink ++ report :: others)
    simp only [count_append, count_cons, count_nil]
    omega
  | found job queue hque =>
    obtain ⟨hsub, hacc, hcl, hret, hcom, hrep⟩ := h
    rw [hwor] at hcl hret hrep
    rw [hque] at hacc
    refine ⟨hsub, ?_, ?_, ?_, hcom, ?_⟩
    · refine perm_of_count hacc fun a hbef => ?_
      simp only [map_append, map_cons, map_nil, count_append, count_cons, count_nil] at hbef ⊢
      omega
    · refine perm_of_count hcl fun a hbef => ?_
      simp only [map_append, map_cons, map_nil, count_append,
        count_flatMap_split, runs, count_nil] at hbef ⊢
      omega
    · show s.log.returned.Perm (flatMap _ _ ++ _)
      rwa [flatMap_move .checking (.running job) rfl]
    · show (s.log.finished.flatMap reportsOf).Perm (_ ++ flatMap _ _)
      rwa [flatMap_move .checking (.running job) rfl]
  | recorded job outcome =>
    obtain ⟨hsub, hacc, hcl, hret, hcom, hrep⟩ := h
    rw [hwor] at hcl hret hrep
    refine ⟨hsub, hacc, ?_, ?_, ?_, ?_⟩
    · show (s.log.claimed.map Prod.snd).Perm (flatMap _ _ ++ _ ++ _)
      rwa [flatMap_move (.recording job outcome) _ (WorkerState.next_runs _ _)]
    · refine perm_of_count hret fun a hbef => ?_
      have hown : (recording job outcome).records = [(job, outcome)] := rfl
      simp only [count_append, count_flatMap_split, hown] at hbef
      simp only [count_append, count_flatMap_split, WorkerState.next_records, count_nil]
      omega
    · refine perm_of_count hcom fun a hbef => ?_
      simp only [flatMap_append, flatMap_cons, flatMap_nil, recordsOf,
        count_append, append_nil] at hbef ⊢
      by_cases hrcr : job.recorded
      · simp only [hrcr, if_true, count_append] at hbef ⊢
        omega
      · simp only [hrcr, Bool.false_eq_true, if_false, count_nil] at hbef ⊢
        omega
    · refine perm_of_count hrep fun a hbef => ?_
      have hnon : (recording job outcome).reports = [] := rfl
      have hown : [(job, outcome)].flatMap reportsOf = (job.report outcome).toList :=
        flatMap_singleton _ _
      simp only [count_append, count_flatMap_split, hnon, count_nil] at hbef
      rw [flatMap_append, hown]
      simp only [count_append, count_flatMap_split, WorkerState.next_reports]
      omega

/-- **No step loses or duplicates anything.** -/
theorem Transition.accounted (ht : s.Transition e d) (h : s.Accounted) : d.Accounted := by
  cases ht with
  | closed job =>
    refine ⟨?_, h.accepted, h.claimed, h.returned, h.records, h.reports⟩
    refine perm_of_count h.submitted fun a hbef => ?_
    simp only [flatMap_append, flatMap_singleton, SubmitOutcome.job, count_append] at hbef ⊢
    omega
  | offered =>
    refine ⟨?_, h.accepted, h.claimed, h.returned, h.records, h.reports⟩
    refine perm_of_count h.submitted fun a hbef => ?_
    simp only [count_append] at hbef ⊢
    omega
  | full before job after hoff =>
    refine ⟨?_, h.accepted, h.claimed, h.returned, h.records, h.reports⟩
    refine perm_of_count h.submitted fun a hbef => ?_
    rw [hoff] at hbef
    simp only [flatMap_append, flatMap_singleton, SubmitOutcome.job,
      count_append, count_cons, count_nil] at hbef ⊢
    omega
  | accepted before job after hoff =>
    refine ⟨?_, ?_, h.claimed, h.returned, h.records, h.reports⟩
    · refine perm_of_count h.submitted fun a hbef => ?_
      rw [hoff] at hbef
      simp only [count_append, count_cons, count_nil] at hbef ⊢
      omega
    · refine perm_of_count h.accepted fun a hbef => ?_
      simp only [count_append] at hbef ⊢
      omega
  | unnoticed =>
    exact ⟨h.submitted, h.accepted, h.claimed, h.returned, h.records, h.reports⟩
  | noticed before after hwor =>
    refine h.pass hwor ?_ ?_ ?_ s.channels (s.notices - 1)
    · rfl
    · rfl
    · exact fun a => rfl
  | cancelled before job after hque =>
    refine ⟨h.submitted, ?_, h.claimed, h.returned, ?_, h.reports⟩
    · refine perm_of_count h.accepted fun a hbef => ?_
      rw [hque] at hbef
      simp only [count_append, count_cons, count_nil] at hbef ⊢
      omega
    · refine perm_of_count h.records fun a hbef => ?_
      simp only [flatMap_append, flatMap_singleton, Job.cancelledRecords, count_append] at hbef ⊢
      by_cases hnon : job.retained.isEmpty
      · simp only [hnon, if_true, count_nil] at hbef ⊢
        omega
      · simp only [hnon, Bool.false_eq_true, if_false, count_append] at hbef ⊢
        omega
  | drained =>
    refine ⟨h.submitted, h.accepted, h.claimed, h.returned, ?_, h.reports⟩
    refine perm_of_count h.records fun a hbef => ?_
    simp only [count_append, count_nil] at hbef ⊢
    omega
  | flagged =>
    exact ⟨h.submitted, h.accepted, h.claimed, h.returned, h.records, h.reports⟩
  | notified hph =>
    have hmap {α : Type} {f : WorkerState → List α} (hf : ∀ w : WorkerState, f w.notified = f w) :
        (s.workers.map .notified).flatMap f = s.workers.flatMap f := by
      rw [flatMap_map]
      exact congrArg (fun g => s.workers.flatMap g) (funext hf)
    refine ⟨h.submitted, h.accepted, ?_, ?_, h.records, ?_⟩
    · show (s.log.claimed.map Prod.snd).Perm (flatMap _ (s.workers.map _) ++ _ ++ _)
      rw [hmap WorkerState.notified_runs]
      exact h.claimed
    · show s.log.returned.Perm (flatMap _ (s.workers.map _) ++ _)
      rw [hmap WorkerState.notified_records]
      exact h.returned
    · show (s.log.finished.flatMap reportsOf).Perm (_ ++ flatMap _ (s.workers.map _))
      rw [hmap WorkerState.notified_reports]
      exact h.reports
  | joined =>
    exact ⟨h.submitted, h.accepted, h.claimed, h.returned, h.records, h.reports⟩
  | worked before w after hwor w' t hact => exact hact.accounted hwor h
  | finished before job after hwor outcome =>
    obtain ⟨hsub, hacc, hcl, hret, hcom, hrep⟩ := h
    rw [hwor] at hcl hret hrep
    have hown : (recording job outcome).records = [(job, outcome)] := rfl
    have hhel : (running job).runs = [job] := rfl
    have hnon : (recording job outcome).runs = [] := rfl
    have hnon' : (running job).records = [] := rfl
    refine ⟨hsub, hacc, ?_, ?_, hcom, ?_⟩
    · refine perm_of_count hcl fun a hbef => ?_
      simp only [map_append, map_cons, map_nil, count_append,
        count_flatMap_split, hhel, hnon, count_nil] at hbef ⊢
      omega
    · refine perm_of_count hret fun a hbef => ?_
      simp only [count_append, count_flatMap_split, hown, hnon', count_nil] at hbef ⊢
      omega
    · show (s.log.finished.flatMap reportsOf).Perm (_ ++ flatMap _ _)
      rwa [flatMap_move (.running job) (.recording job outcome) rfl]
  | panicked before job after hwor =>
    obtain ⟨hsub, hacc, hcl, hret, hcom, hrep⟩ := h
    rw [hwor] at hcl hret hrep
    have hhel : (running job).runs = [job] := rfl
    have hnon : WorkerState.panicked.runs = [] := rfl
    refine ⟨hsub, hacc, ?_, ?_, hcom, ?_⟩
    · refine perm_of_count hcl fun a hbef => ?_
      simp only [count_append, count_flatMap_split, hhel, hnon, count_nil] at hbef ⊢
      omega
    · show s.log.returned.Perm (flatMap _ _ ++ _)
      rwa [flatMap_move (.running job) .panicked rfl]
    · show (s.log.finished.flatMap reportsOf).Perm (_ ++ flatMap _ _)
      rwa [flatMap_move (.running job) .panicked rfl]
  | woke before after hwor =>
    refine h.pass hwor ?_ ?_ ?_ s.channels s.notices
    · rfl
    · rfl
    · exact fun a => rfl
  | channel =>
    exact ⟨h.submitted, h.accepted, h.claimed, h.returned, h.records, h.reports⟩
  | idle => exact h

/-- **In every state of every run.** -/
theorem run_accounted {config : CpuConfig} {channels : ℕ → Channel}
    (h : new config channels = .ok s) (events : List ExecutorEvent) :
    (machine.run s events).Accounted := by
  obtain ⟨-, -, rfl⟩ := new_of_ok h
  exact Machine.run_of_step (fun s e h => (s.step_transition e).accounted h)
    (accounted_spawned config channels) events

end CpuExecutor

end Logan
