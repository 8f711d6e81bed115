import Logan.Sched.ExecutorTransition

/-!
# Shutting down the executor

`shutdown` stores the flag and notifies all waiting workers, without the
mutex of the queue. A worker that has read the flag as unset and is about to
enter the wait set holds that mutex, but nobody else needs it to notify: the
notification falls in between and is lost, and the worker waits for ever.
That is the only way. If no worker stands there when all are notified, then
none waits afterwards, for the flag is set for those that read it later; and
then every worker comes to its end, in any schedule in which the workers go
on as long as they can (`shutdown_returns`).

What a worker has yet to do is ranked in three levels: how often it will
still pass the top of the loop, whether it stands there, and how far it is
from its end otherwise. A job in the queue, or on its way to it, is one more
pass.
-/

namespace Logan

open List
open Or (inl inr)

/-- The event is a step of a worker or of its handler. -/
def ExecutorEvent.OfWorker : ExecutorEvent → Prop
  | .work _ | .finish _ _ | .panic _ => True
  | _ => False

namespace WorkerState

/-- Passes through the top of the loop that the worker has yet to make. -/
def rounds : WorkerState → ℕ
  | running _ | recording _ _ => 1
  | reporting parked _ _ _ | parking parked _ _ => if parked then 0 else 1
  | _ => 0

/-- The worker is at the top of the loop. -/
def tops : WorkerState → ℕ
  | retrying => 1
  | _ => 0

/-- How far the worker is from the end of the pass it is in. -/
def effort : WorkerState → ℕ
  | running _ => 17
  | recording _ _ => 16
  | reporting _ attempts _ others => 12 * others.length + 6 + (9 - attempts)
  | parking _ _ others => 12 * others.length + 5
  | locking => 3
  | checking => 2
  | deciding => 1
  | _ => 0

/-- The worker waits, or will do nothing else first. -/
def Sleeping : WorkerState → Prop
  | waiting | committed => True
  | _ => False

instance : DecidablePred Sleeping := fun w => by
  unfold Sleeping
  split <;> infer_instance

/-- What is left after one of the worker's own reports, or a parked one. -/
theorem next_rank (parked : Bool) (others : List Report) :
    (next parked others).rounds < (if parked then 0 else 1)
    ∨ (next parked others).rounds = (if parked then 0 else 1) ∧ (next parked others).tops = 0
      ∧ (next parked others).effort ≤ 12 * others.length + 3 := by
  cases others with
  | nil => cases parked <;> simp [next, rounds, tops, effort]
  | cons => cases parked <;> simp [next, rounds, tops, effort] <;> omega

theorem next_not_sleeping (parked : Bool) (others : List Report) :
    ¬ (next parked others).Sleeping := by
  cases others with
  | nil => cases parked <;> exact not_false
  | cons => exact not_false

end WorkerState

namespace CpuExecutor

open WorkerState (rounds tops effort Sleeping)

variable {s t d : CpuExecutor} {e : ExecutorEvent} {w w' : WorkerState} {i : ℕ}

/-- A sum over all workers. -/
def total (f : WorkerState → ℕ) (workers : List WorkerState) : ℕ := (workers.map f).sum

@[simp] theorem total_split (f : WorkerState → ℕ) (before : List WorkerState) (w : WorkerState)
    (after : List WorkerState) :
    total f (before ++ w :: after) = total f before + f w + total f after := by
  simp [total, Nat.add_assoc]

/-- **What the workers have yet to do.** -/
def rank (s : CpuExecutor) : ℕ ×ₗ ℕ ×ₗ ℕ :=
  toLex (3 * s.offered.length + 2 * s.queue.length + total rounds s.workers,
    toLex (total tops s.workers, total effort s.workers))

/-- The shutdown has come to the workers: the flag is set, and nobody
sleeps. -/
structure Awake (s : CpuExecutor) : Prop where
  flag : s.shuttingDown = true
  notified : ∃ joined, s.shutdown = .joining joined
  awake : ∀ w ∈ s.workers, ¬ w.Sleeping

/-! ## Nobody falls asleep again -/

theorem Acts.not_sleeping (h : s.Acts i w w' t) (hfl : s.shuttingDown = true)
    (hw : ¬ w.Sleeping) : ¬ w'.Sleeping := by
  cases h with
  | retried | delivered | dropped | parked | recorded => exact WorkerState.next_not_sleeping _ _
  | stays h => rw [hfl] at h; cases h
  | waits => exact absurd trivial hw
  | idle => exact hw
  | _ => exact not_false

theorem Acts.shutdown (h : s.Acts i w w' t) :
    t.shuttingDown = s.shuttingDown ∧ t.shutdown = s.shutdown := by
  cases h <;> exact ⟨rfl, rfl⟩

theorem Transition.awake (ht : s.Transition e d) (h : s.Awake) : d.Awake := by
  obtain ⟨hfl, ⟨joined, hjnn⟩, haw⟩ := h
  have hrew : ∀ {before w after w'}, s.workers = before ++ w :: after → ¬ w'.Sleeping →
      ∀ v ∈ before ++ w' :: after, ¬ v.Sleeping := by
    intro before w after w' hwor hw' v hv
    rw [hwor] at haw
    simp only [mem_append, mem_cons] at hv haw
    rcases hv with hv | rfl | hv
    · exact haw v (inl hv)
    · exact hw'
    · exact haw v (inr (inr hv))
  cases ht with
  | flagged h => rw [hjnn] at h; cases h
  | notified h => rw [hjnn] at h; cases h
  | joined => exact ⟨hfl, ⟨_, rfl⟩, haw⟩
  | noticed before after hwor =>
    exact ⟨hfl, ⟨joined, hjnn⟩, hrew hwor not_false⟩
  | worked before w after hwor w' t hact =>
    have hw : ¬ w.Sleeping := haw w (by rw [hwor]; simp)
    refine ⟨hact.shutdown.1.trans hfl, ⟨joined, hact.shutdown.2.trans hjnn⟩, ?_⟩
    exact hrew hwor (hact.not_sleeping hfl hw)
  | finished before job after hwor =>
    exact ⟨hfl, ⟨joined, hjnn⟩, hrew hwor not_false⟩
  | panicked before job after hwor =>
    exact ⟨hfl, ⟨joined, hjnn⟩, hrew hwor not_false⟩
  | woke before after hwor =>
    exact ⟨hfl, ⟨joined, hjnn⟩, hrew hwor not_false⟩
  | _ => exact ⟨hfl, ⟨joined, hjnn⟩, haw⟩

/-! ## The work gets less -/

theorem lex_lt_iff {a b c a' b' c' : ℕ} :
    (toLex (a, toLex (b, c)) : ℕ ×ₗ ℕ ×ₗ ℕ) < toLex (a', toLex (b', c'))
      ↔ a < a' ∨ a = a' ∧ (b < b' ∨ b = b' ∧ c < c') := by
  rw [Prod.Lex.toLex_lt_toLex, Prod.Lex.toLex_lt_toLex]

variable {before after : List WorkerState}

/-- One worker and the queue have less to do, the others as much. -/
theorem rank_lt_of (hwor : s.workers = before ++ w :: after)
    (hmov : d.workers = before ++ w' :: after) (hoff : d.offered = s.offered)
    (h : 2 * d.queue.length + w'.rounds < 2 * s.queue.length + w.rounds
      ∨ 2 * d.queue.length + w'.rounds = 2 * s.queue.length + w.rounds
        ∧ (w'.tops < w.tops ∨ w'.tops = w.tops ∧ w'.effort < w.effort)) : d.rank < s.rank := by
  unfold rank
  rw [hwor, hmov, hoff, lex_lt_iff]
  simp only [total_split]
  omega

theorem rank_lt_of_next {parked : Bool} {others : List Report}
    (hwor : s.workers = before ++ w :: after)
    (hmov : d.workers = before ++ .next parked others :: after)
    (hoff : d.offered = s.offered) (hque : d.queue = s.queue)
    (hrnds : w.rounds = if parked then 0 else 1) (htop : w.tops = 0)
    (heff : 12 * others.length + 3 < w.effort) : d.rank < s.rank := by
  refine rank_lt_of hwor hmov hoff ?_
  rw [hque, hrnds, htop]
  rcases WorkerState.next_rank parked others with h | ⟨h, h', heff'⟩
  · exact inl (Nat.add_lt_add_left h _)
  · exact inr ⟨by rw [h], inr ⟨h', heff'.trans_lt heff⟩⟩

/-- **A worker that goes on has less to do then**, or it has not gone on. -/
theorem Acts.rank_lt (h : s.Acts i w w' t) (hfl : s.shuttingDown = true) (hw : ¬ w.Sleeping)
    (hwor : s.workers = before ++ w :: after) :
    (w' = w ∧ t = s) ∨ rank { t with workers := before ++ w' :: after } < s.rank := by
  cases h with
  | retried =>
    refine inr (rank_lt_of hwor rfl rfl ?_)
    rcases WorkerState.next_rank true s.pendingSink with h | ⟨hrnds, htop, -⟩
    · exact absurd h (Nat.not_lt_zero _)
    · rw [hrnds, htop]
      exact inr ⟨rfl, inl Nat.zero_lt_one⟩
  | delivered parked attempts report others channel h =>
    refine inr (rank_lt_of_next hwor rfl rfl rfl rfl rfl ?_)
    simp only [effort]
    omega
  | again =>
    refine inr (rank_lt_of hwor rfl rfl (inr ⟨rfl, inr ⟨rfl, ?_⟩⟩))
    simp only [effort]
    omega
  | gaveUp =>
    refine inr (rank_lt_of hwor rfl rfl (inr ⟨rfl, inr ⟨rfl, ?_⟩⟩))
    simp only [effort]
    omega
  | dropped parked attempts report others h =>
    refine inr (rank_lt_of_next hwor rfl rfl rfl rfl rfl ?_)
    simp only [effort]
    omega
  | parked parked report others =>
    refine inr (rank_lt_of_next hwor rfl rfl rfl rfl rfl ?_)
    simp only [effort]
    omega
  | locked =>
    exact inr (rank_lt_of hwor rfl rfl (inr ⟨rfl, inr ⟨rfl, by decide⟩⟩))
  | found job queue h =>
    refine inr (rank_lt_of hwor rfl rfl (inl ?_))
    -- the job was worth two passes in the queue, and is worth one in hand
    rw [h]
    show 2 * queue.length + 1 < 2 * (queue.length + 1) + 0
    omega
  | empty =>
    exact inr (rank_lt_of hwor rfl rfl (inr ⟨rfl, inr ⟨rfl, by decide⟩⟩))
  | exited =>
    exact inr (rank_lt_of hwor rfl rfl (inr ⟨rfl, inr ⟨rfl, by decide⟩⟩))
  | stays h => rw [hfl] at h; cases h
  | waits => exact absurd trivial hw
  | recorded job outcome =>
    refine inr (rank_lt_of_next hwor rfl rfl rfl rfl rfl ?_)
    have hlen : (job.report outcome).toList.length ≤ 1 := Option.length_toList_le
    show _ < 16
    omega
  | idle => exact inl ⟨rfl, rfl⟩

/-- **No step gives the workers more to do**, and a step of theirs less. -/
theorem Transition.rank_le (ht : s.Transition e d) (h : s.Awake) :
    d.rank ≤ s.rank ∧ (e.OfWorker → d ≠ s → d.rank < s.rank) := by
  obtain ⟨hfl, ⟨joined, hjnn⟩, haw⟩ := h
  have hnon {before after : List WorkerState}
      (hwor : s.workers = before ++ .waiting :: after) : False :=
    haw .waiting (by rw [hwor]; simp) trivial
  cases ht with
  | closed | unnoticed | drained | joined => exact ⟨le_rfl, False.elim⟩
  | offered job h => rw [hfl] at h; cases h
  | full before job after hoff =>
    refine ⟨le_of_lt (lex_lt_iff.mpr (inl ?_)), False.elim⟩
    simp only [hoff, length_append, length_cons]
    omega
  | accepted before job after hoff =>
    -- an offered job is worth three passes, and one in the queue two
    refine ⟨le_of_lt (lex_lt_iff.mpr (inl ?_)), False.elim⟩
    simp only [hoff, length_append, length_cons, length_nil]
    omega
  | noticed before after hwor => exact (hnon hwor).elim
  | cancelled before job after hque =>
    refine ⟨le_of_lt (lex_lt_iff.mpr (inl ?_)), False.elim⟩
    simp only [hque, length_append, length_cons]
    omega
  | flagged h => rw [hjnn] at h; cases h
  | notified h => rw [hjnn] at h; cases h
  | worked before w after hwor w' t hact =>
    rcases hact.rank_lt hfl (haw w (by rw [hwor]; simp)) hwor with ⟨rfl, rfl⟩ | hlt
    · rw [← hwor]
      exact ⟨le_rfl, fun _ h => absurd rfl h⟩
    · exact ⟨hlt.le, fun _ _ => hlt⟩
  | finished before job after hwor outcome =>
    have hlt : rank { s with
        workers := before ++ .recording job outcome :: after
        log := { s.log with returned := s.log.returned ++ [(job, outcome)] } } < s.rank :=
      rank_lt_of hwor rfl rfl (inr ⟨rfl, inr ⟨rfl, Nat.lt_succ_self 16⟩⟩)
    exact ⟨hlt.le, fun _ _ => hlt⟩
  | panicked before job after hwor =>
    have hlt : rank { s with
        workers := before ++ .panicked :: after
        log := { s.log with lost := s.log.lost ++ [job] } } < s.rank :=
      rank_lt_of hwor rfl rfl (inl (Nat.lt_succ_self _))
    exact ⟨hlt.le, fun _ _ => hlt⟩
  | woke before after hwor => exact (hnon hwor).elim
  | channel e channels he =>
    obtain ⟨c, rfl | rfl | rfl⟩ := he
    · exact ⟨le_rfl, False.elim⟩
    · exact ⟨le_rfl, False.elim⟩
    · exact ⟨le_rfl, False.elim⟩
  | idle => exact ⟨le_rfl, fun _ h => absurd rfl h⟩

/-! ## Somebody can go on -/

/-- A step of a worker that changes something. -/
def GoesOn (s : CpuExecutor) (e : ExecutorEvent) : Prop := e.OfWorker ∧ s.step e ≠ s

theorem next_ne_reporting (parked : Bool) (attempts : ℕ) (report : Report) (others : List Report) :
    WorkerState.next parked others ≠ .reporting parked attempts report others := by
  cases others with
  | nil => cases parked <;> simp [WorkerState.next]
  | cons =>
    intro h
    have hlen := congrArg List.length (WorkerState.reporting.inj h).2.2.2
    simp at hlen

/-- **A worker that waits for nobody goes on.** -/
theorem act_ne (s : CpuExecutor) (i : ℕ) (hgon : ¬ w.Gone) (hsl : w ≠ .waiting)
    (hrun : ∀ job, w ≠ .running job) (hloc : w = .locking → s.Unlocked) : (s.act i w).1 ≠ w := by
  cases w with
  | retrying =>
    dsimp only [act]
    cases s.pendingSink <;> simp [WorkerState.next]
  | reporting parked attempts report others =>
    dsimp only [act]
    have hne := next_ne_reporting parked attempts report others
    cases (s.channels report.sink.channel).trySend with
    | ok => exact hne
    | error error =>
      cases error with
      | full =>
        by_cases hlt : attempts < 8
        · rw [if_pos hlt]
          simp
        · rw [if_neg hlt]
          simp
      | closed => exact hne
  | parking parked report others =>
    dsimp only [act]
    cases others with
    | nil => cases parked <;> simp [WorkerState.next]
    | cons => simp [WorkerState.next]
  | locking =>
    dsimp only [act]
    rw [if_pos (hloc rfl)]
    simp
  | checking =>
    dsimp only [act]
    cases s.queue <;> simp
  | deciding =>
    dsimp only [act]
    cases s.shuttingDown <;> simp
  | committed => simp [act]
  | waiting => exact absurd rfl hsl
  | running job => exact absurd rfl (hrun job)
  | recording job outcome =>
    dsimp only [act]
    cases (job.report outcome).toList <;> simp [WorkerState.next]
  | exited | panicked => exact absurd trivial hgon

theorem goesOn_work (hw : s.workers[i]? = some w) (hne : (s.act i w).1 ≠ w) :
    s.GoesOn (.work i) := by
  refine ⟨trivial, fun h => hne ?_⟩
  have hi : i < s.workers.length := (List.getElem?_eq_some_iff.mp hw).1
  have hmov : (s.step (.work i)).workers[i]? = some (s.act i w).1 := by
    show (s.work i).workers[i]? = _
    unfold work
    rw [hw]
    dsimp only
    rw [(s.act_acts i w).workers, List.getElem?_set_self hi]
  rw [h, hw] at hmov
  exact (Option.some.inj hmov).symm

/-- **Workers that wait or are gone do nothing** by themselves. -/
theorem not_goesOn (h : ∀ w ∈ s.workers, w = .waiting ∨ w.Gone) (e : ExecutorEvent) :
    ¬ s.GoesOn e := by
  rintro ⟨hwor, hne⟩
  refine hne ?_
  have hwrk (i : ℕ) : s.work i = s := by
    unfold work
    cases hw : s.workers[i]? with
    | none => rfl
    | some w =>
      have hi : i < s.workers.length := (List.getElem?_eq_some_iff.mp hw).1
      have hst : s.act i w = (w, s) := by
        rcases h w (mem_of_getElem? hw) with rfl | hgon
        · rfl
        · cases w <;> first | rfl | exact hgon.elim
      have hset : s.workers.set i w = s.workers := by
        rw [← Option.some.inj ((List.getElem?_eq_getElem hi).symm.trans hw), set_getElem_self]
      dsimp only
      rw [hst, hset]
  have hrun (i : ℕ) (job : Job) : s.workers[i]? ≠ some (.running job) := by
    intro hw
    rcases h _ (mem_of_getElem? hw) with heq | hgon
    · cases heq
    · exact hgon
  cases e with
  | work i => exact hwrk i
  | finish i outcome =>
    show s.finish i outcome = s
    unfold finish
    split
    · next job hw => exact absurd hw (hrun i job)
    · rfl
  | panic i =>
    show s.panic i = s
    unfold panic
    split
    · next job hw => exact absurd hw (hrun i job)
    · rfl
  | _ => exact hwor.elim

/-- **There is no deadlock**: as long as somebody is there and nobody
sleeps, somebody can go on. -/
theorem exists_goesOn (h : ∀ w ∈ s.workers, ¬ w.Sleeping) (hres : ¬ ∀ w ∈ s.workers, w.Gone) :
    ∃ e, s.GoesOn e := by
  obtain ⟨w, hmem, hgon⟩ : ∃ w ∈ s.workers, ¬ w.Gone := by
    by_contra hall
    exact hres (fun w hw => by_contra (fun hgon => hall ⟨w, hw, hgon⟩))
  obtain ⟨i, hw⟩ := mem_iff_getElem?.mp hmem
  have hsl : w ≠ .waiting := fun heq => h w hmem (heq ▸ trivial)
  by_cases hrun : ∃ job, w = .running job
  · -- its handler returns
    obtain ⟨job, rfl⟩ := hrun
    refine ⟨.finish i .ok, trivial, fun heq => ?_⟩
    have hi : i < s.workers.length := (List.getElem?_eq_some_iff.mp hw).1
    have hmov : (s.step (.finish i .ok)).workers[i]? = some (.recording job .ok) := by
      show (s.finish i .ok).workers[i]? = _
      unfold finish
      rw [hw]
      exact List.getElem?_set_self hi
    rw [heq, hw] at hmov
    cases hmov
  · by_cases hloc : w = .locking ∧ ¬ s.Unlocked
    · -- it waits for the worker that holds the lock
      obtain ⟨v, hv, hhol⟩ : ∃ v ∈ s.workers, v.HoldsLock := by
        by_contra hnon
        exact hloc.2 (fun v hv hhol => hnon ⟨v, hv, hhol⟩)
      obtain ⟨j, hj⟩ := mem_iff_getElem?.mp hv
      refine ⟨.work j, goesOn_work hj (act_ne s j ?_ ?_ ?_ ?_)⟩
      · cases v <;> first | exact not_false | exact hhol.elim
      · rintro rfl
        exact hhol
      · rintro job rfl
        exact hhol
      · rintro rfl
        exact hhol.elim
    · refine ⟨.work i, goesOn_work hw (act_ne s i hgon hsl ?_ ?_)⟩
      · exact fun job heq => hrun ⟨job, heq⟩
      · exact fun heq => by_contra (fun hno => hloc ⟨heq, hno⟩)

/-! ## Every run, and the rest of the shutdown -/

/-- **A worker is stranded**: all were notified, the queue is empty, and it
waits without a notification. -/
def Stranded (s : CpuExecutor) : Prop :=
  (∃ joined, s.shutdown = .joining joined) ∧ s.queue = [] ∧ .waiting ∈ s.workers

/-- When all are notified, no worker is about to enter the wait set. -/
def Unraced (s : CpuExecutor) : ExecutorEvent → Prop
  | .notifyAll => s.shutdown = .flagged → .committed ∉ s.workers
  | _ => True

instance (s : CpuExecutor) (e : ExecutorEvent) : Decidable (s.Unraced e) := by
  unfold Unraced
  split <;> infer_instance

/-- The flag is set once the shutdown has begun, and nobody sleeps once all
were notified. -/
structure Guarded (s : CpuExecutor) : Prop where
  flag : s.shutdown ≠ .running → s.shuttingDown = true
  awake : ∀ joined, s.shutdown = .joining joined → s.Awake

theorem Transition.guarded (ht : s.Transition e d) (h : s.Guarded) (he : s.Unraced e) :
    d.Guarded := by
  by_cases hjnn : ∃ joined, s.shutdown = .joining joined
  · obtain ⟨joined, hjnn⟩ := hjnn
    have haw := ht.awake (h.awake joined hjnn)
    exact ⟨fun _ => haw.flag, fun _ _ => haw⟩
  · -- before that, only `notify_all` has something to show
    have hkep (hfl : d.shuttingDown = s.shuttingDown) (hsam : d.shutdown = s.shutdown) :
        d.Guarded := by
      refine ⟨fun hne => hfl.trans (h.flag (hsam ▸ hne)), fun joined heq => ?_⟩
      exact absurd ⟨joined, hsam.symm.trans heq⟩ hjnn
    cases ht with
    | flagged => exact ⟨fun _ => rfl, fun joined heq => by cases heq⟩
    | notified h' =>
      have hfl := h.flag (by rw [h']; simp)
      refine ⟨fun _ => hfl, fun joined heq => ⟨hfl, ⟨joined, heq⟩, fun w hw => ?_⟩⟩
      obtain ⟨v, hv, rfl⟩ := mem_map.mp hw
      cases v with
      | committed => exact absurd hv (he h')
      | _ => exact not_false
    | joined joined h' => exact absurd ⟨joined, h'⟩ hjnn
    | worked before w after hwor w' t hact =>
      exact hkep hact.shutdown.1 hact.shutdown.2
    | _ => exact hkep rfl rfl

/-- **What the thread that shuts the executor down can rely on.** -/
structure ShutdownReturns (s : CpuExecutor) : Prop where
  /-- No worker is stranded. -/
  unstranded : ¬ s.Stranded
  /-- After all were notified, every worker is gone in the end, so that every
  join returns: in any schedule in which some worker goes on as long as some
  worker can. -/
  returns : ∀ joined, s.shutdown = .joining joined → ∀ schedule, machine.Fair GoesOn s schedule →
    ∃ n, ∀ w ∈ (machine.stateAt s schedule n).workers, w.Gone

/-- Nobody is stranded while nobody sleeps, and the work comes to an end. -/
theorem Guarded.shutdownReturns (h : s.Guarded) : ShutdownReturns s where
  unstranded := fun ⟨⟨joined, hjnn⟩, _, hwtn⟩ =>
    (h.awake joined hjnn).awake _ hwtn trivial
  returns joined hjnn schedule hfr := by
    have hinv : ∀ s e, s.Awake → (machine.next s e).Awake :=
      fun s e h => (s.step_transition e).awake h
    have hle : ∀ s e, s.Awake → (machine.next s e).rank ≤ s.rank :=
      fun s e h => ((s.step_transition e).rank_le h).1
    have hlt : ∀ s e, s.Awake → s.GoesOn e → (machine.next s e).rank < s.rank :=
      fun s e h hgo => ((s.step_transition e).rank_le h).2 hgo.1 hgo.2
    exact hfr.eventually rank hinv hle hlt (fun s h hres => exists_goesOn h.awake hres)
      (h.awake joined hjnn)

/-- **Shutdown never strands a worker**, in every run in which no worker is
about to enter the wait set when all are notified. -/
theorem shutdown_returns {config : CpuConfig} {channels : ℕ → Channel}
    (hnew : new config channels = .ok s) (events : List ExecutorEvent)
    (hevents : machine.Along Unraced s events) : ShutdownReturns (machine.run s events) := by
  refine Guarded.shutdownReturns (Machine.run_of_along
    (fun s e h he => (s.step_transition e).guarded h he) ?_ hevents)
  obtain ⟨-, -, rfl⟩ := new_of_ok hnew
  exact ⟨fun h => absurd rfl h, fun joined h => by cases h⟩

/-- Two workers, one of which waits for a job and gets it, and a shutdown
that finds the other one waiting. -/
theorem shutdown_returns_of_two :
    ShutdownReturns (machine.run (spawned ⟨2, 4⟩ (fun _ => ⟨1, 0, false⟩))
      [.work 0, .work 0, .work 0, .work 0, .work 0, .submit ⟨⟨7⟩, ⟨.cpu, [1]⟩, [], none⟩,
        .enqueue 0, .notifyOne 0, .work 1, .work 1, .work 1, .work 0, .finish 1 .ok, .work 1,
        .work 1, .work 0, .work 0, .work 0, .storeFlag, .notifyAll, .work 0, .work 1]) :=
  shutdown_returns (new_of_valid (by decide) (by decide) _) _ (by decide +kernel)

/-- A single worker reads the flag before it is stored, and enters the wait
set after all were notified. -/
def race : List ExecutorEvent :=
  [.work 0, .work 0, .work 0, .work 0, .storeFlag, .notifyAll, .work 0]

/-- **A shutdown that never returns.** The only worker is stranded, and no
step of it is possible. -/
theorem shutdown_strands :
    new ⟨1, 1⟩ (fun _ => ⟨1, 0, false⟩) = .ok (spawned ⟨1, 1⟩ (fun _ => ⟨1, 0, false⟩))
    ∧ (machine.run (spawned ⟨1, 1⟩ (fun _ => ⟨1, 0, false⟩)) race).Stranded
    ∧ ∀ e, ¬ (machine.run (spawned ⟨1, 1⟩ (fun _ => ⟨1, 0, false⟩)) race).GoesOn e := by
  refine ⟨rfl, ⟨⟨0, rfl⟩, rfl, ?_⟩, not_goesOn ?_⟩
  · decide +kernel
  · decide +kernel

end CpuExecutor

end Logan
