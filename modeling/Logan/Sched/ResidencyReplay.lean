import Logan.Sched.ResidencyEviction

/-!
# Runs of the residency manager can be replayed

The source traverses a hash map in search of an eviction victim, and a hash
map is traversed in no specified order. Here every traversal is given its
order from outside (`VisitOrder`), and the operations that look for a victim
are written over again with it: `evictIn`, and above it `beginLoadIn`, which
evicts until there is room.

As long as the clock has not saturated, the order makes no difference. The
time stamps are apart, so the least of them is found in any order
(`evictIn_eq`), every operation does what it does in the order of the model
(`executeIn_eq`), and two runs of one sequence of operations agree in every
answer and in the state they end in. The simulator records what it did as a
trace; applying the operations of a trace to a fresh simulator records the
same trace again (`replayable`).
-/

namespace Logan

open Prod (fst snd)

deriving instance DecidableEq for ResidencyOutcome

/-- **An order in which a hash map is traversed**: every entry is visited
once, in an order that may depend on the contents in any way. -/
structure VisitOrder where
  visit : List (ExpertKey × Entry) → List (ExpertKey × Entry)
  perm : ∀ l, (visit l).Perm l

/-- The entries as they are listed. -/
def VisitOrder.listed : VisitOrder := ⟨id, fun l => List.Perm.refl l⟩

/-- The entries from the last to the first. -/
def VisitOrder.backwards : VisitOrder := ⟨List.reverse, List.reverse_perm⟩

variable {steps : List (VisitOrder × ResidencyOp)}

namespace ResidencyManager

variable {m d : ResidencyManager} {key : ExpertKey} {op : ResidencyOp} {out : ResidencyOutcome}

/-! ## The operations, traversed in a given order -/

variable (o : VisitOrder)

/-- The entries that `evict` may remove from a pool, as they are visited. -/
def evictableIn (m : ResidencyManager) (pool : MemoryPoolId) :
    List (ExpertKey × Entry) :=
  (o.visit (m.entries.entries.map (fun e => (e.1, e.2)))).filter
    (fun (key, entry) => key.pool = pool ∧ entry.leases = 0 ∧ entry.IsResident)

/-- `evict`, with its traversal in the given order. -/
def evictIn (m : ResidencyManager) (pool : MemoryPoolId) :
    Except ResidencyError (Option ExpertKey) × ResidencyManager :=
  match m.pools.lookup pool with
  | none => (.error (.unknownPool pool), m)
  | some _ =>
    match (m.evictableIn o pool).argmin (fun (_, entry) => entry.lastTouch) with
    | none => (.ok none, m)
    | some (key, entry) =>
      let m := { m with entries := m.entries.erase key }
      match m.updateStats pool (fun stats => { stats with
          residentBytes := stats.residentBytes - entry.bytes
          evictions := stats.evictions + 1 }) with
      | (.error e, m) => (.error e, m)
      | (.ok (), m) => (.ok (some key), m.refreshPinned pool)

/-- The `loop` of `ensure_space`, its traversals in the given order. -/
def ensureSpaceLoopIn (o : VisitOrder) (pool : MemoryPoolId) (bytes budget : ℕ) :
    ℕ → ResidencyManager → Except ResidencyError Unit × ResidencyManager
  | 0, m => (.error (.budgetExceeded pool bytes 0), m)
  | fuel + 1, m =>
    match m.pools.lookup pool with
    | none => (.error (.unknownPool pool), m)
    | some stats =>
      let used := saturatingAdd usizeMax stats.residentBytes stats.reservedLoadingBytes
      if saturatingAdd usizeMax used bytes ≤ budget then (.ok (), m)
      else
        match m.evictIn o pool with
        | (.error e, m) => (.error e, m)
        | (.ok none, m) => (.error (.budgetExceeded pool bytes (budget - used)), m)
        | (.ok (some _), m) => ensureSpaceLoopIn o pool bytes budget fuel m

/-- `ensure_space`, its traversals in the given order. -/
def ensureSpaceIn (m : ResidencyManager) (pool : MemoryPoolId) (bytes : ℕ) :
    Except ResidencyError Unit × ResidencyManager :=
  match m.pools.lookup pool with
  | none => (.error (.unknownPool pool), m)
  | some stats =>
    let budget := stats.budgetBytes
    if budget < bytes then (.error (.budgetExceeded pool bytes budget), m)
    else ensureSpaceLoopIn o pool bytes budget (m.entries.entries.length + 1) m

/-- The second half of `begin_load`, its traversals in the given order. -/
def startLoadIn (m : ResidencyManager) (key : ExpertKey) (bytes : ℕ)
    (waiter : SessionId) : Except ResidencyError LoadDisposition × ResidencyManager :=
  match m.ensureSpaceIn o key.pool bytes with
  | (.error e, m) => (.error e, m)
  | (.ok (), m) =>
    let (loadId, m) := m.allocLoad
    let (lastTouch, m) := m.tick
    let m := { m with
      entries := m.entries.insert key ⟨.loading loadId, bytes, [waiter], 0, lastTouch⟩
      loads := m.loads.insert loadId key }
    match m.updateStats key.pool (fun stats => { stats with
        misses := stats.misses + 1
        loadsStarted := stats.loadsStarted + 1
        reservedLoadingBytes := stats.reservedLoadingBytes + bytes }) with
    | (.error e, m) => (.error e, m)
    | (.ok (), m) => (.ok (.started loadId), m)

/-- `begin_load`, its traversals in the given order. -/
def beginLoadIn (m : ResidencyManager) (key : ExpertKey) (bytes : ℕ)
    (waiter : SessionId) : Except ResidencyError LoadDisposition × ResidencyManager :=
  match m.state key with
  -- a resident key and a load in progress are found without a traversal
  | .resident _ | .loading _ => m.beginLoad key bytes waiter
  | .failed _ | .absent => m.startLoadIn o key bytes waiter

/-- `ResidencySimulator::execute`, its traversals in the given order. -/
def executeIn (m : ResidencyManager) :
    ResidencyOp → ResidencyOutcome × ResidencyManager
  | .beginLoad key bytes waiter => ((m.beginLoadIn o key bytes waiter).map .load id)
  | .evict pool => ((m.evictIn o pool).map .evicted id)
  | op => m.execute op

/-- **The manager as a machine** reading operations, each with the order of
its traversals. -/
def machineIn : Machine ResidencyManager (VisitOrder × ResidencyOp) ResidencyOutcome :=
  ⟨fun m step => m.executeIn step.1 step.2⟩

/-- The answers of a run. -/
def answers (m : ResidencyManager) (steps : List (VisitOrder × ResidencyOp)) :
    List ResidencyOutcome :=
  machineIn.gather (fun m step => [machineIn.out m step]) m steps

instance : DecidablePred ClockLimit := fun m => inferInstanceAs (Decidable (m.clock < u64Max))

/-! ## The order makes no difference -/

/-- **The victim does not depend on the order** of the traversal. -/
theorem evictIn_eq (h : Stamped m.entries m.clock) (o : VisitOrder) (pool : MemoryPoolId) :
    m.evictIn o pool = m.evict pool := by
  have hper : (m.evictableIn o pool).Perm (m.evictable pool) := (o.perm _).filter _
  have hmin : (m.evictableIn o pool).argmin (fun e => e.2.lastTouch)
      = (m.evictable pool).argmin (fun e => e.2.lastTouch) := by
    refine Table.argmin_perm hper ?_
    rintro ⟨j, e⟩ he ⟨j', e'⟩ he' hsam
    have hfnd := (mem_evictable (hper.mem_iff.mp he)).1
    have hfnd' := (mem_evictable (hper.mem_iff.mp he')).1
    obtain rfl : j = j' := h.distinct j e j' e' hfnd hfnd' hsam
    rw [Option.some.inj (hfnd.symm.trans hfnd')]
  unfold evictIn evict
  cases m.pools.lookup pool with
  | none => rfl
  | some =>
    exact hmin ▸ rfl

theorem ensureSpaceLoopIn_eq (pool : MemoryPoolId) (bytes budget fuel : ℕ)
    (h : Stamped m.entries m.clock) :
    ensureSpaceLoopIn o pool bytes budget fuel m = ensureSpaceLoop pool bytes budget fuel m := by
  induction fuel generalizing m with
  | zero => rfl
  | succ fuel ih =>
    simp only [ensureSpaceLoopIn, ensureSpaceLoop, evictIn_eq h]
    rcases evict_cases m pool with ⟨key, d, heq, -, hev, -⟩ | ⟨heq, -⟩ | ⟨e, heq, -⟩
    · rw [heq]
      dsimp only
      exact ih (h.evictions (Evictions.of_evicts hev)) ▸ rfl
    · exact heq ▸ rfl
    · exact heq ▸ rfl

theorem ensureSpaceIn_eq (h : Stamped m.entries m.clock) (o : VisitOrder) (pool : MemoryPoolId)
    (bytes : ℕ) : m.ensureSpaceIn o pool bytes = m.ensureSpace pool bytes := by
  unfold ensureSpaceIn ensureSpace
  cases m.pools.lookup pool with
  | none => rfl
  | some =>
    dsimp only
    rw [ensureSpaceLoopIn_eq o pool bytes _ _ h]

theorem beginLoadIn_eq (h : Stamped m.entries m.clock) (o : VisitOrder) (key : ExpertKey)
    (bytes : ℕ) (waiter : SessionId) :
    m.beginLoadIn o key bytes waiter = m.beginLoad key bytes waiter := by
  have hst : m.startLoadIn o key bytes waiter = m.startLoad key bytes waiter := by
    unfold startLoadIn startLoad
    exact ensureSpaceIn_eq h o key.pool bytes ▸ rfl
  cases he : m.entries.lookup key with
  | none =>
    rwa [beginLoadIn, state_of_absent he, beginLoad, he]
  | some entry =>
    rw [beginLoadIn, state_of_lookup he]
    cases hstt : entry.state with
    | resident | loading => rfl
    | failed =>
      rw [beginLoad, he]
      dsimp only
      rwa [hstt]
    | absent =>
      rw [beginLoad, he]
      dsimp only
      rwa [hstt]

/-- **No operation depends on the order** of its traversals. -/
theorem executeIn_eq (h : Stamped m.entries m.clock) (o : VisitOrder) (op : ResidencyOp) :
    m.executeIn o op = m.execute op := by
  cases op with
  | beginLoad key bytes waiter =>
    show (m.beginLoadIn o key bytes waiter).map _ _ = _
    rw [beginLoadIn_eq h]
    rfl
  | evict pool =>
    show (m.evictIn o pool).map _ _ = _
    rw [evictIn_eq h]
    rfl
  | _ => rfl

/-- The clock has not saturated in the run of the model either. -/
theorem within_of_runIn (hpl : m.Placed) (h : Stamped m.entries m.clock)
    (hlim : machineIn.Within ClockLimit m steps) :
    machine.Within ClockLimit m (steps.map snd) := by
  induction steps generalizing m with
  | nil => trivial
  | cons step steps ih =>
    obtain ⟨o, op⟩ := step
    obtain ⟨hnex, hres⟩ := hlim
    have hsam : machineIn.next m (o, op) = machine.next m op :=
      congrArg snd (executeIn_eq h o op)
    rw [hsam] at hnex hres
    have ht := execute_transition hpl op
    exact ⟨hnex, ih (ht.placed hpl) (ht.stamped h hnex) hres⟩

/-- **A run is the run of the model**, whatever the orders of its
traversals, and answers what that answers. -/
theorem runIn_eq (hpl : m.Placed) (h : Stamped m.entries m.clock)
    (hlim : machine.Within ClockLimit m (steps.map snd)) :
    machineIn.run m steps = machine.run m (steps.map snd) ∧ answers m steps
        = machine.gather (fun m op => [machine.out m op]) m (steps.map snd) := by
  induction steps generalizing m with
  | nil => exact ⟨rfl, rfl⟩
  | cons step steps ih =>
    obtain ⟨o, op⟩ := step
    obtain ⟨hnex, hres⟩ := hlim
    have hout : machineIn.out m (o, op) = machine.out m op :=
      congrArg fst (executeIn_eq h o op)
    have hsam : machineIn.next m (o, op) = machine.next m op :=
      congrArg snd (executeIn_eq h o op)
    have ht := execute_transition hpl op
    obtain ⟨hrun, hans⟩ := ih (m := machine.next m op) (ht.placed hpl) (ht.stamped h hnex) hres
    refine ⟨?_, ?_⟩
    · show machineIn.run (machineIn.next m (o, op)) steps = _
      rw [hsam, hrun]
      rfl
    · show machineIn.out m (o, op) :: answers (machineIn.next m (o, op)) steps = _
      rw [hout, hsam, hans]
      rfl

end ResidencyManager

/-! ## The simulator -/

/-- One trace record, under a logical sequence number. -/
structure ResidencyTraceEvent where
  seq : ℕ
  op : ResidencyOp
  outcome : ResidencyOutcome
deriving DecidableEq

/-- A mismatch found by a replay. -/
structure ResidencyReplayError where
  seq : ℕ
  expected : ResidencyTraceEvent
  actual : ResidencyTraceEvent

/-- **A simulator around the residency manager**, which records what it
does. -/
structure ResidencySimulator where
  manager : ResidencyManager
  trace : List ResidencyTraceEvent
  nextSeq : ℕ

namespace ResidencySimulator

open ResidencyManager

/-- A simulator that has done nothing. -/
def new : ResidencySimulator := ⟨.new, [], 0⟩

/-- What the next operation will be recorded as. -/
def event (o : VisitOrder) (s : ResidencySimulator) (op : ResidencyOp) : ResidencyTraceEvent :=
  ⟨s.nextSeq, op, (s.manager.executeIn o op).1⟩

/-- **Apply and record one operation.** -/
def apply (o : VisitOrder) (s : ResidencySimulator) (op : ResidencyOp) :
    ResidencyOutcome × ResidencySimulator :=
  let (outcome, manager) := s.manager.executeIn o op
  (outcome, ⟨manager, s.trace ++ [⟨s.nextSeq, op, outcome⟩], s.nextSeq + 1⟩)

/-- The simulator as a machine reading operations. -/
def machine : Machine ResidencySimulator (VisitOrder × ResidencyOp) ResidencyOutcome :=
  ⟨fun s step => s.apply step.1 step.2⟩

/-- The loop of `replay`: each expected operation is applied, and the event
it records is compared with the expected one. -/
def replayFrom (s : ResidencySimulator) :
    List (VisitOrder × ResidencyTraceEvent) → Except ResidencyReplayError ResidencySimulator
  | [] => .ok s
  | (o, expected) :: rest =>
    let actual := s.event o expected.op
    if actual ≠ expected then .error ⟨expected.seq, expected, actual⟩
    else (s.apply o expected.op).2.replayFrom rest

/-- **Replay a trace** on a fresh simulator. The source answers `Ok(())`
where this answers the simulator it has driven to the end of the trace. -/
def replay (expected : List (VisitOrder × ResidencyTraceEvent)) :
    Except ResidencyReplayError ResidencySimulator :=
  new.replayFrom expected

/-- The trace a run appends. -/
def recorded (s : ResidencySimulator) (steps : List (VisitOrder × ResidencyOp)) :
    List ResidencyTraceEvent :=
  machine.gather (fun s step => [s.event step.1 step.2]) s steps

theorem trace_run (s : ResidencySimulator) (steps : List (VisitOrder × ResidencyOp)) :
    (machine.run s steps).trace = s.trace ++ s.recorded steps := by
  induction steps generalizing s with
  | nil => exact (List.append_nil _).symm
  | cons step steps ih =>
    show (machine.run (machine.next s step) steps).trace
      = s.trace ++ (s.event step.1 step.2 :: (machine.next s step).recorded steps)
    rw [ih, List.append_cons]
    rfl

/-- **What a run has recorded can be applied again**, in any orders, and
leads to the same simulator. -/
theorem replayFrom_recorded {s : ResidencySimulator} (hpl : s.manager.Placed)
    (h : Stamped s.manager.entries s.manager.clock)
    (hlim : machineIn.Within ClockLimit s.manager steps)
    {expected : List (VisitOrder × ResidencyTraceEvent)}
    (hexp : expected.map snd = s.recorded steps) :
    s.replayFrom expected = .ok (machine.run s steps) := by
  induction steps generalizing s expected with
  | nil =>
    obtain rfl : expected = [] := List.map_eq_nil_iff.mp hexp
    rfl
  | cons step steps ih =>
    obtain ⟨o, op⟩ := step
    obtain ⟨⟨o', event⟩, rest, rfl, hev, hres⟩ := List.map_eq_cons_iff.mp hexp
    obtain rfl : event = s.event o op := hev
    obtain ⟨hnex, hwit⟩ := hlim
    have hsam : s.manager.executeIn o' op = s.manager.executeIn o op := by
      rw [executeIn_eq h, executeIn_eq h]
    have hact : s.event o' op = s.event o op := by rw [event, event, hsam]
    have happ : s.apply o' op = s.apply o op := by rw [apply, apply, hsam]
    have ht : s.manager.Transition op (s.manager.executeIn o op).1
        (s.manager.executeIn o op).2 := by
      rw [executeIn_eq h]
      exact execute_transition hpl op
    have hst : s.replayFrom ((o', s.event o op) :: rest) = (s.apply o op).2.replayFrom rest := by
      refine (if_neg (not_not_intro hact)).trans ?_
      rw [← happ]
      rfl
    rw [hst]
    exact ih (s := (s.apply o op).2) (ht.placed hpl) (ht.stamped h hnex) hwit hres

end ResidencySimulator

namespace ResidencyManager

/-- **What a run of the manager does not depend on**: the orders in which
its hash map was traversed. -/
structure Replayable (steps : List (VisitOrder × ResidencyOp)) : Prop where
  /-- No two entries carry the same time stamp. -/
  distinct : ∀ key e key' e', (machineIn.run new steps).entries.lookup key = some e →
    (machineIn.run new steps).entries.lookup key' = some e' →
    e.lastTouch = e'.lastTouch → key = key'
  /-- The victim of an eviction was touched before everything else that may
  be removed from the pool. -/
  oldest : ∀ o pool key, ((machineIn.run new steps).evictIn o pool).1 = .ok (some key) →
    ∃ entry, (machineIn.run new steps).MayEvict pool key entry
      ∧ ∀ j e, (machineIn.run new steps).MayEvict pool j e → j ≠ key → entry.lastTouch < e.lastTouch
  /-- It is the same in every order of the traversal. -/
  unordered : ∀ o o' pool, (machineIn.run new steps).evictIn o pool
    = (machineIn.run new steps).evictIn o' pool
  /-- A second manager driven by the same operations gives the same answers
  and ends in the same state. -/
  same : ∀ steps', steps'.map snd = steps.map snd → answers new steps' = answers new steps
      ∧ machineIn.run new steps' = machineIn.run new steps
  /-- The trace that a simulator records of the operations is accepted by a
  replay, which records the same trace. -/
  replays : ∀ expected, expected.map snd = (ResidencySimulator.machine.run .new steps).trace →
    ∃ s, ResidencySimulator.replay expected = .ok s
      ∧ s.trace = (ResidencySimulator.machine.run .new steps).trace

/-- **Every run of the manager can be replayed**, as long as the clock has
not saturated. -/
theorem replayable (steps : List (VisitOrder × ResidencyOp))
    (hlimit : machineIn.Within ClockLimit new steps) : Replayable steps := by
  have hwit := within_of_runIn placed_new stamped_new hlimit
  obtain ⟨hrun, hans⟩ := runIn_eq placed_new stamped_new hwit
  have hst : Stamped (machineIn.run new steps).entries (machineIn.run new steps).clock := by
    rw [hrun]
    exact run_stamped hwit
  refine
    { distinct := hst.distinct
      oldest := ?_
      unordered := ?_
      same := ?_
      replays := ?_ }
  · intro o pool key hev
    rw [evictIn_eq hst, hrun] at hev
    rw [hrun]
    exact evict_oldest hwit hev
  · intro o o' pool
    rw [evictIn_eq hst, evictIn_eq hst]
  · intro steps' hsam
    have hwit' : machine.Within ClockLimit new (steps'.map snd) := hsam ▸ hwit
    obtain ⟨hrun', hans'⟩ := runIn_eq placed_new stamped_new hwit'
    rw [hans', hans, hrun', hrun, hsam]
    exact ⟨rfl, rfl⟩
  · intro expected hexp
    rw [ResidencySimulator.trace_run] at hexp
    exact ⟨_, ResidencySimulator.replayFrom_recorded placed_new stamped_new hlimit hexp, rfl⟩

/-- Two keys are published and their leases released, then the pool is
evicted twice, with the hash map traversed this way and that. -/
theorem replayable_of_evictions : Replayable [(.listed, .addPool ⟨0⟩ 100),
        (.listed, .beginLoad ⟨1, 2, 3, 4, ⟨5, 6, 7⟩, ⟨0⟩⟩ 40 ⟨1⟩),
        (.listed, .beginLoad ⟨1, 2, 3, 5, ⟨5, 6, 7⟩, ⟨0⟩⟩ 40 ⟨1⟩),
        (.listed, .completeLoad ⟨⟨0⟩, .success⟩), (.listed, .completeLoad ⟨⟨1⟩, .success⟩),
        (.listed, .release ⟨⟨0⟩, ⟨1, 2, 3, 4, ⟨5, 6, 7⟩, ⟨0⟩⟩, ⟨0⟩, ⟨1⟩⟩),
        (.listed, .release ⟨⟨1⟩, ⟨1, 2, 3, 5, ⟨5, 6, 7⟩, ⟨0⟩⟩, ⟨0⟩, ⟨1⟩⟩),
        (.backwards, .evict ⟨0⟩), (.listed, .evict ⟨0⟩)] :=
  replayable _ (by decide +kernel)

end ResidencyManager

end Logan
