import Logan.Sched.ExecutorAccounts

/-!
# Every job once, and every lease back

What became of a job is read off the accounts. If no two submissions carry
one ticket, a job is known by its ticket, and what the accounts say of the
number of its copies says which of the hands it is in: an accepted job is in
the queue, or was claimed once, or was cancelled once (`JobSafety.placed`);
the handler was called once for a claimed job and for no other; and the
leases it retains are in one record, from the moment the worker that ran it
is through with it.

A handler that panics ends its worker. It has not returned, and its leases
are in no record; this is the only way for a lease to be lost.
-/

namespace Logan

open List
open Prod (fst snd)

/-- The tickets of the jobs submitted in a run. -/
def submissions (events : List ExecutorEvent) : List Ticket :=
  events.flatMap (fun e => match e with
    | .submit job => [job.ticket]
    | _ => [])

namespace CpuExecutor

open WorkerState (runs records reports)

variable {s t d : CpuExecutor} {e : ExecutorEvent} {w w' : WorkerState} {i : ℕ}

/-- All records, waiting to be drained or drained. -/
def allRecords (s : CpuExecutor) : List Completed := s.completed ++ s.log.drained

/-- The records of one ticket. -/
def recordsFor (s : CpuExecutor) (ticket : Ticket) : List Completed :=
  s.allRecords.filter (fun record => record.ticket = ticket)

/-- **What can be relied on about every job.** -/
structure JobSafety (s : CpuExecutor) : Prop where
  /-- The queue is bounded. -/
  bounded : s.queue.length ≤ s.queueCapacity
  /-- An accepted job is in the queue, or claimed by one worker, or removed
  by one cancellation. -/
  placed : ∀ job ∈ s.log.accepted,
    s.queue.count job + (s.log.claimed.map snd).count job + s.log.cancelled.count job = 1
  /-- Only accepted jobs are claimed or cancelled. -/
  origin : ∀ job, job ∈ s.log.claimed.map snd ∨ job ∈ s.log.cancelled → job ∈ s.log.accepted
  /-- The handler is called once for each claim: it runs, or has returned, or
  has panicked. -/
  run : ∀ job, (s.log.claimed.map snd).count job = (s.workers.flatMap runs).count job
    + (s.log.returned.map fst).count job + s.log.lost.count job
  /-- A job whose handler has returned is recorded by the next step of its
  worker, or was. -/
  recording : ∀ ran ∈ s.log.returned, ran ∈ s.log.finished ∨ .recording ran.1 ran.2 ∈ s.workers
  /-- A job is recorded only after its handler has returned. -/
  after : ∀ ran ∈ s.log.finished, ran ∈ s.log.returned
  /-- What a job that has run retained is in one record. -/
  ran : ∀ ran ∈ s.log.finished, ran.1.retained ≠ [] →
    s.recordsFor ran.1.ticket = [ran.1.record ran.2]
  /-- What a cancelled job retained is in one record. -/
  cancelled : ∀ job ∈ s.log.cancelled, job.retained ≠ [] →
    s.recordsFor job.ticket = [job.cancelledRecord]
  /-- Before that, it is in none. -/
  retained : ∀ job ∈ s.log.accepted, job ∉ s.log.cancelled →
    (∀ outcome, (job, outcome) ∉ s.log.finished) → s.recordsFor job.ticket = []
  /-- The leases handed back are those of the jobs that have run and of those
  that were cancelled, no more and no fewer. -/
  leases : (s.allRecords.flatMap Completed.released).Perm
    ((s.log.finished.map fst ++ s.log.cancelled).flatMap Job.retained)
  /-- A job that was handed back is not run, not recorded and not
  reported. -/
  refused : ∀ job, .full job ∈ s.log.refused ∨ .closed job ∈ s.log.refused →
    job ∉ s.log.claimed.map snd ∧ s.recordsFor job.ticket = []
      ∧ ∀ report ∈ s.log.delivered ++ s.log.dropped ++ s.pendingSink ++ s.workers.flatMap reports,
        report.ticket ≠ job.ticket

/-! ## The queue is bounded -/

theorem Acts.queue_length_le (h : s.Acts i w w' t) :
    t.queueCapacity = s.queueCapacity ∧ t.queue.length ≤ s.queue.length :=
  ⟨by cases h <;> rfl, h.queue_suffix.length_le⟩

theorem Transition.bounded (ht : s.Transition e d) (h : s.queue.length ≤ s.queueCapacity) :
    d.queue.length ≤ d.queueCapacity := by
  cases ht with
  | accepted before job after hoff hloc hrm =>
    rwa [length_append]
  | cancelled before job after hque =>
    rw [hque] at h
    simp only [length_append, length_cons] at h ⊢
    omega
  | worked before w after hwor w' t hact =>
    obtain ⟨hcap, hlen⟩ := hact.queue_length_le
    exact (hlen.trans h).trans_eq hcap.symm
  | _ => exact h

theorem run_bounded {config : CpuConfig} {channels : ℕ → Channel}
    (h : new config channels = .ok s) (events : List ExecutorEvent) :
    (machine.run s events).queue.length ≤ (machine.run s events).queueCapacity := by
  obtain ⟨-, -, rfl⟩ := new_of_ok h
  have hst (s : CpuExecutor) (e : ExecutorEvent) (h : s.queue.length ≤ s.queueCapacity) :
      (machine.next s e).queue.length ≤ (machine.next s e).queueCapacity :=
    (s.step_transition e).bounded h
  exact Machine.run_of_step hst (Nat.zero_le _) events

/-! ## The submissions -/

theorem Acts.submitted (h : s.Acts i w w' t) : t.log.submitted = s.log.submitted := by
  cases h <;> rfl

theorem Transition.submitted (ht : s.Transition e d) :
    d.log.submitted.map Job.ticket = s.log.submitted.map Job.ticket ++ submissions [e] := by
  cases ht with
  | closed | offered => exact List.map_append
  | worked before w after hwor w' t hact =>
    rw [hact.submitted]
    exact (List.append_nil _).symm
  | channel e channels he =>
    obtain ⟨c, rfl | rfl | rfl⟩ := he <;> exact (List.append_nil _).symm
  | idle e he =>
    cases e with
    | submit job => exact absurd rfl (he job)
    | _ => exact (List.append_nil _).symm
  | _ => exact (List.append_nil _).symm

theorem run_submitted (s : CpuExecutor) (events : List ExecutorEvent) :
    (machine.run s events).log.submitted.map Job.ticket
      = s.log.submitted.map Job.ticket ++ submissions events := by
  induction events generalizing s with
  | nil => exact (List.append_nil _).symm
  | cons e events ih =>
    have hst : (machine.next s e).log.submitted.map Job.ticket
        = s.log.submitted.map Job.ticket ++ submissions [e] := (s.step_transition e).submitted
    rw [Machine.run_cons, ih, hst, append_assoc]
    exact congrArg _ (@flatMap_append _ _ [e] _ _).symm

/-! ## The end of a job -/

/-- The jobs that have come to their end, each with the records it left. -/
def ended (s : CpuExecutor) : List (Job × List Completed) :=
  s.log.finished.map (fun ran => (ran.1, recordsOf ran))
    ++ s.log.cancelled.map (fun job => (job, job.cancelledRecords))

theorem Accounted.allRecords (h : s.Accounted) : s.allRecords.Perm (s.ended.flatMap snd) := by
  refine h.records.trans (List.Perm.of_eq ?_)
  rw [ended, flatMap_append, flatMap_map, flatMap_map]

/-- What an ended job retained is what its records release. -/
theorem released_of_ended {ending : Job × List Completed} (h : ending ∈ s.ended) :
    ending.2.flatMap Completed.released = ending.1.retained := by
  have hnil {job : Job} (hnon : job.retained.isEmpty) : [] = job.retained :=
    (List.isEmpty_iff.mp hnon).symm
  rcases mem_append.mp h with h | h
  · obtain ⟨ran, -, rfl⟩ := mem_map.mp h
    unfold recordsOf
    by_cases hrec : ran.1.recorded
    · rw [if_pos hrec]
      exact flatMap_singleton _ _
    · rw [if_neg hrec]
      unfold Job.recorded at hrec
      rw [Bool.or_eq_true, not_or, Bool.not_eq_true', Bool.not_eq_false] at hrec
      exact hnil hrec.2
  · obtain ⟨job, -, rfl⟩ := mem_map.mp h
    unfold Job.cancelledRecords
    by_cases hnon : job.retained.isEmpty
    · rw [if_pos hnon]
      exact hnil hnon
    · rw [if_neg hnon]
      exact flatMap_singleton _ _

/-- The records of an ended job carry its ticket. -/
theorem ticket_of_ended {ending : Job × List Completed} (h : ending ∈ s.ended) :
    ∀ record ∈ ending.2, record.ticket = ending.1.ticket := by
  intro record hrec
  rcases mem_append.mp h with h | h
  · obtain ⟨ran, -, rfl⟩ := mem_map.mp h
    change record ∈ recordsOf ran at hrec
    unfold recordsOf at hrec
    split at hrec
    · rw [mem_singleton.mp hrec]
      rfl
    · cases hrec
  · obtain ⟨job, -, rfl⟩ := mem_map.mp h
    change record ∈ job.cancelledRecords at hrec
    unfold Job.cancelledRecords at hrec
    split at hrec
    · cases hrec
    · rw [mem_singleton.mp hrec]
      rfl

theorem Accounted.mem_accepted (h : s.Accounted) {job : Job} : job ∈ s.log.accepted ↔
      job ∈ s.queue ∨ job ∈ s.log.claimed.map snd ∨ job ∈ s.log.cancelled := by
  rw [h.accepted.mem_iff, mem_append, mem_append, or_assoc]

theorem Accounted.accepted_of_returned (h : s.Accounted) {ran : Job × Outcome}
    (hran : ran ∈ s.log.returned) : ran.1 ∈ s.log.accepted := by
  refine h.mem_accepted.mpr (Or.inr (Or.inl (h.claimed.mem_iff.mpr ?_)))
  exact mem_append_left _ (mem_append_right _ (mem_map_of_mem hran))

theorem Accounted.returned_of_finished (h : s.Accounted) {ran : Job × Outcome}
    (hran : ran ∈ s.log.finished) : ran ∈ s.log.returned :=
  h.returned.mem_iff.mpr (mem_append_right _ hran)

theorem Accounted.ended_subperm (h : s.Accounted) : (s.ended.map fst).Subperm s.log.accepted := by
  have hend : s.ended.map fst = s.log.finished.map fst ++ s.log.cancelled := by
    rw [ended, List.map_append, map_map, map_map]
    exact congrArg _ (map_id _)
  rw [hend, subperm_ext_iff]
  intro job _
  have hacc := h.accepted.count_eq job
  have hcl := h.claimed.count_eq job
  have hret := (h.returned.map fst).count_eq job
  simp only [List.map_append, count_append] at hacc hcl hret ⊢
  omega

/-! ## Distinct tickets -/

/-- **The accounts with distinct tickets**: what they say of each job. -/
structure Ticketed (s : CpuExecutor) : Prop where
  accounted : s.Accounted
  distinct : (s.log.submitted.map Job.ticket).Nodup

namespace Ticketed

variable (h : s.Ticketed)

include h

/-- Accepted jobs are known by their tickets, and handed back jobs have
others. -/
theorem accepted_nodup : (s.log.accepted.map Job.ticket).Nodup
    ∧ ∀ job ∈ s.log.refused.flatMap SubmitOutcome.job,
      job.ticket ∉ s.log.accepted.map Job.ticket := by
  have hnd := (h.accounted.submitted.map Job.ticket).nodup_iff.mp h.distinct
  rw [List.map_append, List.map_append, nodup_append, nodup_append] at hnd
  obtain ⟨⟨hacc, -, happ⟩, -, -⟩ := hnd
  refine ⟨hacc, fun job hjob hmem => ?_⟩
  exact happ _ hmem _ (mem_map_of_mem hjob) rfl

theorem eq_of_ticket {job job' : Job} (hjob : job ∈ s.log.accepted) (hjob' : job' ∈ s.log.accepted)
    (heq : job.ticket = job'.ticket) : job = job' :=
  inj_on_of_nodup_map h.accepted_nodup.1 hjob hjob' heq

theorem ended_nodup : ((s.ended.map fst).map Job.ticket).Nodup := by
  obtain ⟨jobs, hper, hsub⟩ := h.accounted.ended_subperm
  exact (hper.map Job.ticket).nodup_iff.mp (h.accepted_nodup.1.sublist (hsub.map Job.ticket))

/-- **The records of an ended job are those it left.** -/
theorem recordsFor_ended {ending : Job × List Completed} (hend : ending ∈ s.ended) :
    (s.recordsFor ending.1.ticket).Perm ending.2 := by
  have hnd := h.ended_nodup
  rw [map_map] at hnd
  have hkey := Table.filter_flatMap_of_key Completed.ticket
    (fun ending hmem => ticket_of_ended hmem) hnd hend
  exact (h.accounted.allRecords.filter _).trans (List.Perm.of_eq hkey)

/-- Nothing is recorded under another ticket. -/
theorem recordsFor_other {ticket : Ticket} (hnon : ∀ ending ∈ s.ended, ending.1.ticket ≠ ticket) :
    s.recordsFor ticket = [] := by
  have habs : ticket ∉ s.ended.map (Job.ticket ∘ fst) := by
    intro hmem
    obtain ⟨ending, hend, heq⟩ := mem_map.mp hmem
    exact hnon ending hend heq
  have hkey := Table.filter_flatMap_of_absent Completed.ticket
    (fun ending hmem => ticket_of_ended hmem) habs
  exact ((h.accounted.allRecords.filter _).trans (List.Perm.of_eq hkey)).eq_nil

end Ticketed

/-- **Distinct tickets and the accounts make every job safe.** -/
theorem Ticketed.jobSafety (h : s.Ticketed) (hbnd : s.queue.length ≤ s.queueCapacity) :
    JobSafety s where
  bounded := hbnd
  placed := by
    intro job hjob
    have hone := count_eq_one_of_mem (List.Nodup.of_map _ h.accepted_nodup.1) hjob
    have hcount := h.accounted.accepted.count_eq job
    simp only [count_append] at hcount
    omega
  origin := fun job hjob => h.accounted.mem_accepted.mpr (Or.inr hjob)
  run := by
    intro job
    have hcount := h.accounted.claimed.count_eq job
    simp only [count_append] at hcount
    exact hcount
  recording := by
    intro ran hran
    rcases mem_append.mp (h.accounted.returned.mem_iff.mp hran) with hhel | hdon
    · obtain ⟨w, hw, hrec⟩ := mem_flatMap.mp hhel
      cases w with
      | recording =>
        rw [mem_singleton.mp hrec]
        exact Or.inr hw
      | _ => cases hrec
    · exact Or.inl hdon
  after := fun ran hran => h.accounted.returned_of_finished hran
  ran := by
    intro ran hran hret
    have hend : (ran.1, recordsOf ran) ∈ s.ended :=
      mem_append_left _ (mem_map_of_mem hran)
    have hrcr : ran.1.recorded = true := by
      simp [Job.recorded, hret]
    have hrec := h.recordsFor_ended hend
    rw [recordsOf, if_pos hrcr] at hrec
    exact perm_singleton.mp hrec
  cancelled := by
    intro job hjob hret
    have hend : (job, job.cancelledRecords) ∈ s.ended :=
      mem_append_right _ (mem_map_of_mem hjob)
    have hrec := h.recordsFor_ended hend
    rw [Job.cancelledRecords, if_neg (by simpa using hret)] at hrec
    exact perm_singleton.mp hrec
  retained := by
    intro job hjob hnot hnon
    refine h.recordsFor_other (fun ending hend heq => ?_)
    -- the ended job of this ticket would be this job
    have hmem := h.accounted.ended_subperm.subset (mem_map_of_mem hend)
    have hsam := h.eq_of_ticket hmem hjob heq
    rcases mem_append.mp hend with hend | hend
    · obtain ⟨ran, hran, rfl⟩ := mem_map.mp hend
      subst hsam
      exact hnon ran.2 hran
    · obtain ⟨other, hoth, rfl⟩ := mem_map.mp hend
      subst hsam
      exact hnot hoth
  leases := by
    refine (h.accounted.allRecords.flatMap_right _).trans (List.Perm.of_eq ?_)
    have hend : s.ended.map fst = s.log.finished.map fst ++ s.log.cancelled := by
      rw [ended, List.map_append, map_map, map_map]
      exact congrArg _ (map_id _)
    rw [← hend, flatMap_assoc, flatMap_map]
    exact flatMap_congr (fun ending hmem => released_of_ended hmem)
  refused := by
    intro job hjob
    have href : job ∈ s.log.refused.flatMap SubmitOutcome.job := by
      rcases hjob with hjob | hjob
      · exact mem_flatMap.mpr ⟨_, hjob, mem_singleton_self _⟩
      · exact mem_flatMap.mpr ⟨_, hjob, mem_singleton_self _⟩
    have hoth := h.accepted_nodup.2 job href
    refine ⟨fun hcl => hoth (mem_map_of_mem
      (h.accounted.mem_accepted.mpr (Or.inr (Or.inl hcl)))), ?_, ?_⟩
    · refine h.recordsFor_other (fun ending hend heq => hoth (heq ▸ ?_))
      exact mem_map_of_mem (h.accounted.ended_subperm.subset (mem_map_of_mem hend))
    · intro report hrep heq
      obtain ⟨ran, hran, hof⟩ := mem_flatMap.mp (h.accounted.reports.mem_iff.mpr hrep)
      obtain ⟨sink, -, rfl⟩ := Option.map_eq_some_iff.mp (Option.mem_toList.mp hof)
      refine hoth (heq ▸ mem_map_of_mem ?_)
      exact h.accounted.accepted_of_returned (h.accounted.returned_of_finished hran)

/-- **Every job is run or cancelled at most once, and its leases come back
once**, in every run whose submissions carry distinct tickets. -/
theorem job_safety {config : CpuConfig} {channels : ℕ → Channel}
    (hnew : new config channels = .ok s) (events : List ExecutorEvent)
    (hdistinct : (submissions events).Nodup) : JobSafety (machine.run s events) := by
  refine Ticketed.jobSafety ⟨run_accounted hnew events, ?_⟩ (run_bounded hnew events)
  obtain ⟨-, -, rfl⟩ := new_of_ok hnew
  rwa [run_submitted]

/-- One worker and a queue of one job. The first job retains a lease and is
run, the second is handed back, the third is cancelled and its lease is
returned as well. -/
theorem job_safety_of_cancel : JobSafety (machine.run (spawned ⟨1, 1⟩ (fun _ => ⟨1, 0, false⟩))
      [.work 0, .submit ⟨⟨1⟩, ⟨.cpu, [1]⟩, [⟨⟨0⟩, ⟨1, 2, 3, 4, ⟨5, 6, 7⟩, ⟨0⟩⟩, ⟨0⟩, ⟨7⟩⟩], none⟩,
        .enqueue 0, .notifyOne 0, .submit ⟨⟨2⟩, ⟨.cpu, [2]⟩, [], none⟩, .enqueue 0, .work 0, .work 0,
        .submit ⟨⟨3⟩, ⟨.cpu, [3]⟩, [⟨⟨1⟩, ⟨1, 2, 3, 4, ⟨5, 6, 7⟩, ⟨0⟩⟩, ⟨0⟩, ⟨8⟩⟩], some ⟨0⟩⟩,
        .enqueue 0, .cancelTicket ⟨3⟩, .finish 0 .ok, .work 0, .drainCompleted]) :=
  job_safety (new_of_valid (by decide) (by decide) _) _ (by decide)

end CpuExecutor

end Logan
