import Logan.Sched.RuntimeQueue

/-!
# What a retry leaves behind

A retry goes through the backpressure queue by an index. A request that is
closed fails its session, and the cancelled requests of that session leave
the queue wherever they stand, also before the index. The index stays where it
is, and so the loop passes over as many requests as have left before it. What
it passes over may be of the kind that is retried.

Up to there the loop does what it is meant to (`RuntimeLoop.Walk`): before the
index stands what is left of the other kinds, behind it what has not been
offered yet. Whether answers exist that make it pass over a request is a
question about the queue alone (`RuntimeLoop.Overtaken`): there are if and only
if one request of the kind is overtaken by another one
(`Runtime.retry_law_iff`).
-/

namespace Logan

open List Function RuntimeLoop DispatchRequest

namespace RuntimeLoop

variable {l d : RuntimeLoop} {kind : ActionKind} {c : SchedulerCore} {t : Ticket} {s : SessionId}

/-! ## The queue -/

/-- A request that none of the sessions owns. -/
def Alive (c : SchedulerCore) (failed : List SessionId) (request : DispatchRequest) : Prop :=
  ∀ s ∈ failed, c.ownerOf request.ticket ≠ some s

instance (c : SchedulerCore) (failed : List SessionId) (request : DispatchRequest) :
    Decidable (Alive c failed request) := by
  unfold Alive
  infer_instance

/-- What stays before the index: the requests of other kinds. -/
def passed (c : SchedulerCore) (kind : ActionKind) (failed : List SessionId)
    (requests : List DispatchRequest) : List DispatchRequest :=
  requests.filter fun request => request.action.kind ≠ kind ∧ Alive c failed request

/-- What stays behind the index. -/
def ahead (c : SchedulerCore) (failed : List SessionId) (requests : List DispatchRequest) :
    List DispatchRequest :=
  requests.filter fun request => Alive c failed request

theorem passed_append (xs ys : List DispatchRequest) (failed : List SessionId) :
    passed c kind failed (xs ++ ys) = passed c kind failed xs ++ passed c kind failed ys :=
  filter_append _ _

/-- **A retry on its way**: of the queue it started with, whose core was
`c`, it has dealt with the first requests and not yet with the others, and
these sessions have failed. -/
structure Walk (c : SchedulerCore) (kind : ActionKind) (before after : List DispatchRequest)
    (failed : List SessionId) (l : RuntimeLoop) (index : ℕ) : Prop where
  taken : l.pending.take index = passed c kind failed before
  left : l.pending.drop index = ahead c failed after
  consistent : l.core.Consistent
  owner : ∀ u j, l.core.ownerOf u = some j ↔ c.ownerOf u = some j ∧ j ∉ failed

section Walk

variable {before after : List DispatchRequest} {failed : List SessionId} {index : ℕ}
variable {request : DispatchRequest}

theorem walk_start (h : l.core.Consistent) : Walk l.core kind [] l.pending [] l 0 where
  taken := rfl
  left := (filter_eq_self.mpr fun _ _ => by simp [Alive]).symm
  consistent := h
  owner u j := by simp

/-- What stands at the index, and what had gone before it. -/
theorem Walk.head (h : Walk c kind before after failed l index)
    (hget : l.pending[index]? = some request) :
    ∃ gone rest, after = gone ++ request :: rest ∧ (∀ x ∈ gone, ¬ Alive c failed x)
      ∧ Alive c failed request
      ∧ Walk c kind (before ++ gone) (request :: rest) failed l index := by
  obtain ⟨hlt, hval⟩ := List.getElem?_eq_some_iff.mp hget
  have hlef := h.left
  rw [drop_eq_getElem_cons hlt, hval] at hlef
  obtain ⟨gone, rest, rfl, hgon, hal, hres⟩ := filter_eq_cons_iff.mp hlef.symm
  have hgon' : ∀ x ∈ gone, ¬ Alive c failed x := fun x hx => by simpa using hgon x hx
  have hal' : Alive c failed request := by simpa using hal
  refine ⟨gone, rest, rfl, hgon', hal', ?_, ?_, h.consistent, h.owner⟩
  · have hnon : passed c kind failed gone = [] :=
      filter_eq_nil_iff.mpr fun x hx => by simp [hgon' x hx]
    rw [h.taken, passed_append, hnon, List.append_nil]
  · rw [drop_eq_getElem_cons hlt, hval, ahead, filter_cons_of_pos (by simpa using hal'), hres]

section

variable (h : Walk c kind before (request :: after) failed l index)

include h

/-- The split of the queue at the index. -/
theorem Walk.pending_eq (hal : Alive c failed request) :
    l.pending = passed c kind failed before ++ request :: ahead c failed after
      ∧ index = (passed c kind failed before).length := by
  have hlef := h.left
  rw [ahead, filter_cons_of_pos (by simpa using hal)] at hlef
  have hspl := take_append_drop index l.pending
  rw [h.taken, hlef] at hspl
  refine ⟨hspl.symm, ?_⟩
  have hlen := congrArg List.length h.taken
  have hdr := congrArg List.length hlef
  rw [length_drop, length_cons] at hdr
  rw [length_take] at hlen
  omega

theorem Walk.pass (hal : Alive c failed request) (hkin : request.action.kind ≠ kind) :
    Walk c kind (before ++ [request]) after failed l (index + 1) := by
  obtain ⟨hpen, rfl⟩ := h.pending_eq hal
  have hone : passed c kind failed [request] = [request] :=
    filter_cons_of_pos (by simp [hkin, hal])
  refine ⟨?_, ?_, h.consistent, h.owner⟩
  · rw [hpen, passed_append, hone, append_cons, take_left' (by simp)]
  · rw [hpen, append_cons, drop_left' (by simp)]

theorem Walk.accept (hal : Alive c failed request) (hkin : request.action.kind = kind)
    (hpen : d.pending = l.pending.eraseIdx index) (hcor : d.core = l.core) :
    Walk c kind (before ++ [request]) after failed d index := by
  obtain ⟨hspl, rfl⟩ := h.pending_eq hal
  have hnon : passed c kind failed [request] = [] :=
    filter_eq_nil_iff.mpr fun x hx => by simp [mem_singleton.mp hx, hkin]
  rw [hspl, eraseIdx_append_of_length_le le_rfl, Nat.sub_self, eraseIdx_cons_zero] at hpen
  refine ⟨?_, ?_, hcor ▸ h.consistent, hcor ▸ h.owner⟩
  · rw [hpen, passed_append, hnon, List.append_nil, take_left]
  · rw [hpen, drop_left]

end

/-- The requests of other kinds of a session. -/
def othersOf (c : SchedulerCore) (kind : ActionKind) (s : SessionId)
    (requests : List DispatchRequest) : ℕ :=
  requests.countP fun request => request.action.kind ≠ kind ∧ c.ownerOf request.ticket = some s

theorem alive_cons :
    Alive c (s :: failed) request ↔ c.ownerOf request.ticket ≠ some s ∧ Alive c failed request :=
  forall_mem_cons

theorem alive_of_owner (ho : c.ownerOf request.ticket = some s) (hs : s ∉ failed) :
    Alive c failed request := by
  intro j hj heq
  obtain rfl := Option.some.inj (ho.symm.trans heq)
  exact hs hj

theorem passed_cons (x : DispatchRequest) (xs : List DispatchRequest) :
    passed c kind failed (x :: xs) = if x.action.kind ≠ kind ∧ Alive c failed x then
      x :: passed c kind failed xs else passed c kind failed xs := by
  rw [passed, filter_cons]
  simp only [decide_eq_true_eq]
  rfl

theorem othersOf_cons (x : DispatchRequest) (xs : List DispatchRequest) :
    othersOf c kind s (x :: xs) = othersOf c kind s xs
      + if x.action.kind ≠ kind ∧ c.ownerOf x.ticket = some s then 1 else 0 := by
  rw [othersOf, countP_cons]
  simp only [decide_eq_true_eq]
  rfl

/-- When one more session fails, its requests of other kinds leave. -/
theorem length_passed (hs : s ∉ failed) (before : List DispatchRequest) :
    (passed c kind failed before).length
      = (passed c kind (s :: failed) before).length + othersOf c kind s before := by
  induction before with
  | nil => rfl
  | cons x xs ih =>
    rw [passed_cons, passed_cons, othersOf_cons]
    by_cases ho : c.ownerOf x.ticket = some s
    · have hgon : ¬ (x.action.kind ≠ kind ∧ Alive c (s :: failed) x) :=
        fun h => (alive_cons.mp h.2).1 ho
      rw [if_neg hgon]
      by_cases hkin : x.action.kind = kind
      · rw [if_neg (fun h => h.1 hkin), if_neg (fun h => h.1 hkin)]
        exact ih
      · rw [if_pos ⟨hkin, alive_of_owner ho hs⟩, if_pos ⟨hkin, ho⟩, length_cons]
        omega
    · have hnot : ¬ (x.action.kind ≠ kind ∧ c.ownerOf x.ticket = some s) := fun h => ho h.2
      rw [if_neg hnot]
      by_cases hkep : x.action.kind ≠ kind ∧ Alive c failed x
      · rw [if_pos hkep, if_pos ⟨hkep.1, alive_cons.mpr ⟨ho, hkep.2⟩⟩, length_cons, length_cons]
        omega
      · rw [if_neg hkep, if_neg fun h => hkep ⟨h.1, (alive_cons.mp h.2).2⟩]
        exact ih

/-- **A session fails with its request.** What has left before the index
makes the loop pass over as many requests behind it. -/
theorem Walk.fail (h : Walk c kind before (request :: after) failed l index)
    (hal : Alive c failed request) (hs : c.ownerOf request.ticket = some s)
    (hfr : ∀ other ∈ before ++ after, other.ticket ≠ request.ticket)
    (hpen : d.pending = l.pending.eraseIdx index) (hcor : d.core = l.core) :
    (d.failing request.ticket).pending.take index = passed c kind (s :: failed) before
          ++ (ahead c (s :: failed) after).take (othersOf c kind s before)
      ∧ (d.failing request.ticket).pending.drop index
        = (ahead c (s :: failed) after).drop (othersOf c kind s before)
      ∧ (d.failing request.ticket).core.Consistent
      ∧ ∀ u j, (d.failing request.ticket).core.ownerOf u = some j
          ↔ c.ownerOf u = some j ∧ j ∉ s :: failed := by
  obtain ⟨hspl, rfl⟩ := h.pending_eq hal
  have hnew : s ∉ failed := fun hmem => hal s hmem hs
  have hown := fun u j => (hcor ▸ h.owner u j : d.core.ownerOf u = some j ↔ _)
  rw [hspl, eraseIdx_append_of_length_le le_rfl, Nat.sub_self, eraseIdx_cons_zero] at hpen
  have hoth : ∀ other ∈ d.pending, other.ticket ≠ request.ticket := by
    intro other hmem
    rw [hpen, mem_append] at hmem
    exact hfr other (mem_append.mpr (hmem.imp mem_of_mem_filter mem_of_mem_filter))
  obtain ⟨hcon, hdr, hlef⟩ := failing_of_owner (hcor ▸ h.consistent)
    ((hown request.ticket s).mpr ⟨hs, hnew⟩) hoth
  have hkep : (d.failing request.ticket).pending
      = passed c kind (s :: failed) before ++ ahead c (s :: failed) after := by
    rw [hlef, hpen, filter_append, passed, ahead, filter_filter, filter_filter]
    have hsam (x : DispatchRequest) : (d.core.ownerOf x.ticket ≠ some s ∧ Alive c failed x)
        ↔ Alive c (s :: failed) x := by
      rw [alive_cons]
      refine and_congr_left fun _ => not_congr ?_
      rw [hown]
      exact and_iff_left hnew
    refine congrArg₂ (· ++ ·) (filter_congr fun x _ => ?_) (filter_congr fun x _ => ?_)
    · have hx := hsam x
      by_cases hkin : x.action.kind = kind
      · simp [hkin]
      · simp only [ne_eq, hkin, not_false_eq_true, true_and, ← Bool.decide_and]
        exact decide_eq_decide.mpr hx
    · rw [← Bool.decide_and]
      exact decide_eq_decide.mpr (hsam x)
  rw [hkep, length_passed hnew, take_length_add_append, drop_length_add_append]
  refine ⟨rfl, rfl, hcon, fun u j => ?_⟩
  rw [hdr, hown, mem_cons, not_or, and_assoc, and_comm (a := j ∉ failed)]

/-- **Nothing of the kind is passed over**, and the walk goes on. -/
theorem Walk.skip (hnon : ∀ x ∈ (ahead c (s :: failed) after).take (othersOf c kind s before),
      x.action.kind ≠ kind) (hs : c.ownerOf request.ticket = some s)
    (htak : l.pending.take index = passed c kind (s :: failed) before
      ++ (ahead c (s :: failed) after).take (othersOf c kind s before))
    (hlef : l.pending.drop index = (ahead c (s :: failed) after).drop (othersOf c kind s before))
    (hcon : l.core.Consistent)
    (hown : ∀ u j, l.core.ownerOf u = some j ↔ c.ownerOf u = some j ∧ j ∉ s :: failed) :
    ∃ skipped rest, after = skipped ++ rest
      ∧ (∀ x ∈ skipped, x.action.kind = kind → ¬ Alive c (s :: failed) x)
      ∧ Walk c kind (before ++ request :: skipped) rest (s :: failed) l index := by
  obtain ⟨skipped, rest, rfl, hsk, hres⟩ := filter_eq_append_iff.mp
    (take_append_drop (othersOf c kind s before) (ahead c (s :: failed) after)).symm
  have hkin : ∀ x ∈ skipped, x.action.kind = kind → ¬ Alive c (s :: failed) x := by
    intro x hx hknd hal
    refine hnon x ?_ hknd
    rw [← hsk]
    exact mem_filter.mpr ⟨hx, decide_eq_true hal⟩
  refine ⟨skipped, rest, rfl, hkin, ?_, ?_, hcon, hown⟩
  · have hgon : ¬ Alive c (s :: failed) request := fun h => (alive_cons.mp h).1 hs
    rw [htak, passed_append, passed_cons, if_neg fun h => hgon h.2, ← hsk]
    refine congrArg (_ ++ ·) (filter_congr fun x hx => decide_eq_decide.mpr ?_)
    exact ⟨fun h => ⟨fun hknd => hkin x hx hknd h, h⟩, And.right⟩
  · rw [hlef, ← hres]
    rfl

end Walk

/-! ## Overtaking -/

/-- **A request that will have left the queue** when another one of the
session is closed: it is of that session, or of a session – other than that
of the request `last` – that an earlier request of the kind can take with it. -/
def Gone (c : SchedulerCore) (kind : ActionKind) (before : List DispatchRequest) (s : SessionId)
    (last request : DispatchRequest) : Prop :=
  c.ownerOf request.ticket = some s
    ∨ ∃ earlier ∈ before, earlier.action.kind = kind ∧ (c.ownerOf earlier.ticket).isSome
      ∧ c.ownerOf earlier.ticket = c.ownerOf request.ticket
      ∧ c.ownerOf earlier.ticket ≠ c.ownerOf last.ticket

instance (c : SchedulerCore) (kind : ActionKind) (before : List DispatchRequest) (s : SessionId)
    (last request : DispatchRequest) : Decidable (Gone c kind before s last request) := by
  unfold Gone
  infer_instance

/-- **One request of the kind overtakes another**: its session has more
requests of other kinds before it than there are requests between the two
that may be left when it is closed. -/
structure Overtakes (c : SchedulerCore) (kind : ActionKind) (before : List DispatchRequest)
    (first : DispatchRequest) (between : List DispatchRequest) (last : DispatchRequest)
    (s : SessionId) : Prop where
  first_kind : first.action.kind = kind
  last_kind : last.action.kind = kind
  first_owner : c.ownerOf first.ticket = some s
  last_owner : c.ownerOf last.ticket ≠ some s
  few : between.countP (fun request => ¬ Gone c kind before s last request)
    < othersOf c kind s before

/-- Some request of the queue overtakes another one. -/
def Overtaken (c : SchedulerCore) (kind : ActionKind) (pending : List DispatchRequest) : Prop :=
  ∃ before first between last after s, pending = before ++ first :: (between ++ last :: after)
      ∧ Overtakes c kind before first between last s

/-- **What is passed over is overtaken.** -/
theorem overtakes_of_mem {before after : List DispatchRequest} {failed : List SessionId}
    {request last : DispatchRequest} (hkin : request.action.kind = kind)
    (hs : c.ownerOf request.ticket = some s)
    (hfld : ∀ j ∈ failed, ∃ x ∈ before, x.action.kind = kind ∧ c.ownerOf x.ticket = some j)
    (hmem : last ∈ (ahead c (s :: failed) after).take (othersOf c kind s before))
    (hlas : last.action.kind = kind) : ∃ between rest, after = between ++ last :: rest
      ∧ Overtakes c kind before request between last s := by
  obtain ⟨first, more, htak⟩ := append_of_mem hmem
  have hlen : first.length < othersOf c kind s before := by
    have hle := length_take_le (othersOf c kind s before) (ahead c (s :: failed) after)
    rw [htak, length_append, length_cons] at hle
    omega
  have hah : ahead c (s :: failed) after = first ++ last
      :: (more ++ (ahead c (s :: failed) after).drop (othersOf c kind s before)) := by
    rw [← cons_append, ← append_assoc, ← htak, take_append_drop]
  obtain ⟨front, back, rfl, hfr, hbac⟩ := filter_eq_append_iff.mp hah
  obtain ⟨gone, rest, rfl, hgon, hal, -⟩ := filter_eq_cons_iff.mp hbac
  have hal' : Alive c (s :: failed) last := by simpa using hal
  refine ⟨front ++ gone, rest, by rw [append_assoc], hkin, hlas, hs,
    (alive_cons.mp hal').1, ?_⟩
  refine lt_of_le_of_lt (b := first.length) ?_ hlen
  -- what may be left is alive, and of the requests in between those that are alive come first
  have hnot (x : DispatchRequest) (hx : ¬ Gone c kind before s last x) :
      Alive c (s :: failed) x := by
    refine alive_cons.mpr ⟨fun ho => hx (Or.inl ho), fun j hj ho => hx (Or.inr ?_)⟩
    obtain ⟨y, hy, hyk, hyow⟩ := hfld j hj
    refine ⟨y, hy, hyk, by rw [hyow]; rfl, hyow.trans ho.symm, ?_⟩
    rw [hyow]
    exact fun heq => (alive_cons.mp hal').2 j hj heq.symm
  have hzer : gone.countP (fun request => ¬ Gone c kind before s last request) = 0 :=
    countP_eq_zero.mpr fun x hx hx' =>
      hgon x hx (decide_eq_true (hnot x (of_decide_eq_true hx')))
  rw [countP_append, hzer, Nat.add_zero, countP_eq_length_filter, ← hfr]
  refine List.Sublist.length_le (monotone_filter_right front fun x hx => ?_)
  exact decide_eq_true (hnot x (of_decide_eq_true hx))

/-! ## The loop -/

/-- The lane has answered that it is full, since there were so many calls. -/
def AnsweredFull (n : ℕ) (l : RuntimeLoop) : Prop :=
  ∃ request live, Call.trySubmit request .full live ∈ l.calls.drop n

section Loop

variable {pending before after : List DispatchRequest} {failed : List SessionId} {index : ℕ}
variable {request : DispatchRequest}

/-- The tickets of a queue are distinct: one request's is no other's. -/
theorem ticket_ne (hnd : (pending.map ticket).Nodup) (hpen : pending = before ++ request :: after) :
    ∀ other ∈ before ++ after, other.ticket ≠ request.ticket := by
  intro other hmem heq
  rw [hpen, List.map_append, map_cons] at hnd
  have hper := (@perm_middle _ request.ticket (before.map ticket)
    (after.map ticket)).nodup_iff.mp hnd
  rw [← List.map_append, nodup_cons] at hper
  exact hper.1 (heq ▸ mem_map_of_mem hmem)

/-- The walk over a request that is dropped without effect. -/
theorem Walk.drop (h : Walk c kind before (request :: after) failed l index)
    (hal : Alive c failed request) (hkin : request.action.kind = kind)
    (hdd : c.ownerOf request.ticket = none) : Walk c kind (before ++ [request]) after failed
      ((l.offered request index .closed).failing request.ticket) index := by
  have hnon : l.core.ownerOf request.ticket = none := by
    cases ho : l.core.ownerOf request.ticket with
    | none => rfl
    | some j =>
      have hj := ((h.owner _ j).mp ho).1
      rw [hdd] at hj
      cases hj
  have hsam : (l.offered request index .closed).failing request.ticket
      = l.offered request index .closed := failing_of_dead h.consistent hnon
  rw [hsam]
  exact h.accept hal hkin rfl rfl

theorem Walk.finished (h : Walk c kind before after failed l index)
    (hend : l.pending.length ≤ index) : ∀ r ∈ l.pending, r.action.kind ≠ kind := by
  intro r hr
  rw [← take_of_length_le hend, h.taken] at hr
  exact (of_decide_eq_true (mem_filter.mp hr).2).1

/-- **If nothing is overtaken, nothing of the kind is left**, unless a lane
answers that it is full. -/
theorem Walk.nothing_left (hnd : (pending.map ticket).Nodup)
    (hnot : ¬ Overtaken c kind pending) {n : ℕ} (fuel : ℕ) (hpen : pending = before ++ after)
    (h : Walk c kind before after failed l index)
    (hfld : ∀ j ∈ failed, ∃ x ∈ before, x.action.kind = kind ∧ c.ownerOf x.ticket = some j)
    (hfuel : l.pending.length ≤ index + fuel) (hn : n ≤ l.calls.length) :
    AnsweredFull n (retryFrom kind fuel l index)
      ∨ ∀ r ∈ (retryFrom kind fuel l index).pending, r.action.kind ≠ kind := by
  induction fuel generalizing before after failed l index with
  | zero => exact Or.inr (h.finished (by simpa using hfuel))
  | succ fuel ih =>
    cases hget : l.pending[index]? with
    | none =>
      rw [retryFrom_of_none kind _ hget]
      exact Or.inr (h.finished (List.getElem?_eq_none_iff.mp hget))
    | some request =>
      obtain ⟨gone, rest, rfl, hgon, hal, hwal⟩ := h.head hget
      obtain ⟨hlt, -⟩ := List.getElem?_eq_some_iff.mp hget
      have hlen : (l.pending.eraseIdx index).length ≤ index + fuel := by
        rw [length_eraseIdx_of_lt hlt]
        omega
      have hpen' : pending = (before ++ gone) ++ request :: rest := by
        rw [hpen, append_assoc]
      -- the requests whose sessions have failed are found again in a longer prefix
      have hmor (xs : List DispatchRequest) : ∀ j ∈ failed, ∃ x ∈ before ++ gone ++ xs,
          x.action.kind = kind ∧ c.ownerOf x.ticket = some j := by
        intro j hj
        obtain ⟨x, hx, hxk⟩ := hfld j hj
        exact ⟨x, mem_append_left _ (mem_append_left _ hx), hxk⟩
      rw [retryFrom_succ kind fuel hget]
      by_cases hkin : request.action.kind ≠ kind
      · rw [if_pos hkin]
        exact ih (by rw [hpen', append_cons]) (hwal.pass hal hkin) (hmor _) (by omega) hn
      · rw [if_neg hkin]
        rw [not_not] at hkin
        cases l.executors.submitAnswer l.calls.length with
        | accepted =>
          exact ih (by rw [hpen', append_cons]) (hwal.accept hal hkin rfl rfl)
            (hmor _) hlen (hn.trans (by simp [offered]))
        | full =>
          refine Or.inl ⟨request, (l.core.inflight.lookup request.ticket).isSome, ?_⟩
          show _ ∈ (l.calls ++ [Call.trySubmit request .full _]).drop n
          rw [drop_append_of_le_length hn]
          exact mem_append_right _ mem_cons_self
        | closed =>
          obtain ⟨probes, hcal, -⟩ := calls_failing (l.offered request index .closed) request.ticket
          have hn' : n ≤ ((l.offered request index .closed).failing
            request.ticket).calls.length := by
            rw [hcal]
            exact hn.trans (by simp [offered])
          have hlen' := (pending_failing (l.offered request index .closed)
            request.ticket).length_le.trans hlen
          cases hs : c.ownerOf request.ticket with
          | none =>
            exact ih (by rw [hpen', append_cons]) (hwal.drop hal hkin hs) (hmor _) hlen' hn'
          | some s =>
            obtain ⟨htak, hlef, hcon, hown⟩ := hwal.fail hal hs
              (ticket_ne hnd hpen') (d := l.offered request index .closed) rfl rfl
            have hnon : ∀ x ∈ (ahead c (s :: failed) rest).take
                (othersOf c kind s (before ++ gone)), x.action.kind ≠ kind := by
              intro last hmem hlas
              obtain ⟨between, more, rfl, hov⟩ := overtakes_of_mem hkin hs
                (by simpa using hmor []) hmem hlas
              exact hnot ⟨_, _, _, _, _, s, hpen', hov⟩
            obtain ⟨skipped, rest', rfl, -, hwal'⟩ :=
              Walk.skip hnon hs htak hlef hcon hown
            refine ih ?_ hwal' (fun j hj => ?_) hlen' hn'
            · rw [hpen', append_assoc (before ++ gone), cons_append]
            · rcases mem_cons.mp hj with rfl | hj
              · exact ⟨request, by simp, hkin, hs⟩
              · exact hmor _ j hj

end Loop

/-! ## Other answers -/

/-- The loop facing other answers to its offers. -/
def withAnswers (l : RuntimeLoop) (answers : ℕ → Answer) : RuntimeLoop :=
  { l with executors := { l.executors with submitAnswer := answers } }

theorem tryCancel_withAnswers (l : RuntimeLoop) (answers : ℕ → Answer) (t : Ticket) :
    (l.withAnswers answers).tryCancel t = (l.tryCancel t).withAnswers answers := by
  have hch (l : RuntimeLoop) : l.tryCancel t = if (l.probe .io t).1 then (l.probe .io t).2
        else if ((l.probe .io t).2.probe .cpu t).1 then ((l.probe .io t).2.probe .cpu t).2
        else (((l.probe .io t).2.probe .cpu t).2.probe .accelerator t).2 := rfl
  rw [hch, hch, apply_ite (withAnswers · answers), apply_ite (withAnswers · answers)]
  rfl

theorem applyEffects_withAnswers (l : RuntimeLoop) (answers : ℕ → Answer) (es : List Effect) :
    (l.withAnswers answers).applyEffects es = (l.applyEffects es).withAnswers answers := by
  unfold applyEffects
  induction es generalizing l with
  | nil => rfl
  | cons e es ih =>
    rw [foldl_cons, foldl_cons]
    cases e with
    | cancel t =>
      dsimp only
      rw [tryCancel_withAnswers]
      exact ih (l.tryCancel t)
    | _ => exact ih l

theorem settle_withAnswers (l : RuntimeLoop) (answers : ℕ → Answer)
    (result : Except SchedError (List Effect)) :
    (l.withAnswers answers).settle result = (l.settle result).withAnswers answers := by
  cases result with
  | error => rfl
  | ok es =>
    show ((l.withAnswers answers).removeCancelled es).applyEffects es
      = ((l.removeCancelled es).applyEffects es).withAnswers answers
    rw [← applyEffects_withAnswers, removeCancelled_eq, removeCancelled_eq]
    rfl

theorem failing_withAnswers (l : RuntimeLoop) (answers : ℕ → Answer) (t : Ticket) :
    (l.withAnswers answers).failing t = (l.failing t).withAnswers answers :=
  settle_withAnswers { l with core := (l.closing t).2 } answers (l.closing t).1

/-- **Only the answers still to come matter.** -/
theorem retryFrom_withAnswers (kind : ActionKind) (fuel : ℕ) (l : RuntimeLoop) (index : ℕ)
    {answers : ℕ → Answer}
    (hsam : ∀ i, l.calls.length ≤ i → answers i = l.executors.submitAnswer i) :
    retryFrom kind fuel (l.withAnswers answers) index
      = (retryFrom kind fuel l index).withAnswers answers := by
  induction fuel generalizing l index with
  | zero => rfl
  | succ fuel ih =>
    cases hget : l.pending[index]? with
    | none =>
      rw [retryFrom_of_none kind _ hget, retryFrom_of_none (l := l.withAnswers answers) kind _ hget]
    | some request =>
      rw [retryFrom_succ kind fuel hget, retryFrom_succ (l := l.withAnswers answers) kind fuel hget]
      by_cases hkin : request.action.kind ≠ kind
      · rw [if_pos hkin, if_pos hkin]
        exact ih l (index + 1) hsam
      · rw [if_neg hkin, if_neg hkin]
        have hans : (l.withAnswers answers).executors.submitAnswer
            (l.withAnswers answers).calls.length = l.executors.submitAnswer l.calls.length :=
          hsam _ le_rfl
        rw [hans]
        cases l.executors.submitAnswer l.calls.length with
        | accepted =>
          refine ih (l.offered request index .accepted) index fun i hi => hsam i ?_
          exact le_trans (by simp [offered]) hi
        | full => rfl
        | closed =>
          obtain ⟨probes, hcal, -⟩ := calls_failing (l.offered request index .closed) request.ticket
          have hfln := failing_withAnswers (l.offered request index .closed) answers request.ticket
          refine (congrArg (retryFrom kind fuel · index) hfln).trans (ih _ index fun i hi => ?_)
          rw [executors_failing]
          refine hsam i (le_trans ?_ hi)
          rw [hcal]
          simp [offered]

/-- An answer to a call that is over does not matter. -/
theorem retryFrom_update (kind : ActionKind) (fuel : ℕ) (l : RuntimeLoop) (index : ℕ)
    (answers : ℕ → Answer) {n : ℕ} (answer : Answer) (hn : n < l.calls.length) :
    (retryFrom kind fuel (l.withAnswers (update answers n answer)) index).pending
      = (retryFrom kind fuel (l.withAnswers answers) index).pending := by
  have hlat : ∀ i, l.calls.length ≤ i → update answers n answer i = answers i :=
    fun i hi => update_of_ne (ne_of_gt (lt_of_lt_of_le hn hi)) _ _
  have hsam := retryFrom_withAnswers kind fuel (l.withAnswers answers) index hlat
  rw [show l.withAnswers (update answers n answer)
    = (l.withAnswers answers).withAnswers (update answers n answer) from rfl, hsam]
  rfl

theorem submitAnswer_update (l : RuntimeLoop) (answers : ℕ → Answer) (answer : Answer) :
    (l.withAnswers (update answers l.calls.length answer)).executors.submitAnswer
      (l.withAnswers (update answers l.calls.length answer)).calls.length = answer :=
  update_self _ _ _

theorem retryFrom_accepted (fuel : ℕ) {index : ℕ} {request : DispatchRequest}
    (hget : l.pending[index]? = some request) (hkin : request.action.kind = kind)
    (answers : ℕ → Answer) : (retryFrom kind (fuel + 1)
        (l.withAnswers (update answers l.calls.length .accepted)) index).pending
      = (retryFrom kind fuel ((l.offered request index .accepted).withAnswers answers)
          index).pending := by
  have hget' : (l.withAnswers (update answers l.calls.length .accepted)).pending[index]?
      = some request := hget
  rw [retryFrom_succ kind fuel hget', if_neg (not_not_intro hkin), submitAnswer_update]
  exact retryFrom_update kind fuel (l.offered request index .accepted) index answers .accepted
    (by simp [offered])

/-- The next offer is closed. -/
theorem retryFrom_closed (fuel : ℕ) {index : ℕ} {request : DispatchRequest}
    (hget : l.pending[index]? = some request) (hkin : request.action.kind = kind)
    (answers : ℕ → Answer) : (retryFrom kind (fuel + 1)
        (l.withAnswers (update answers l.calls.length .closed)) index).pending
      = (retryFrom kind fuel
          (((l.offered request index .closed).failing request.ticket).withAnswers answers)
          index).pending := by
  have hget' : (l.withAnswers (update answers l.calls.length .closed)).pending[index]?
      = some request := hget
  obtain ⟨probes, hcal, -⟩ := calls_failing (l.offered request index .closed) request.ticket
  rw [retryFrom_succ kind fuel hget', if_neg (not_not_intro hkin), submitAnswer_update]
  show (retryFrom kind fuel (failing (withAnswers
    (l.offered request index .closed) _) request.ticket) index).pending = _
  rw [failing_withAnswers]
  refine retryFrom_update kind fuel _ index answers .closed ?_
  rw [hcal, length_append]
  have hone : l.calls.length < (l.offered request index .closed).calls.length := by simp [offered]
  omega

/-- A request before the index stays, if everything is accepted. -/
theorem mem_retryFrom_of_accepted (kind : ActionKind) (fuel : ℕ) (l : RuntimeLoop) {index : ℕ}
    (hall : ∀ i, l.executors.submitAnswer i = .accepted) {request : DispatchRequest}
    (hmem : request ∈ l.pending.take index) :
    request ∈ (retryFrom kind fuel l index).pending := by
  induction fuel generalizing l index with
  | zero => exact mem_of_mem_take hmem
  | succ fuel ih =>
    cases hget : l.pending[index]? with
    | none =>
      rw [retryFrom_of_none kind _ hget]
      exact mem_of_mem_take hmem
    | some other =>
      rw [retryFrom_succ kind fuel hget, hall]
      obtain ⟨hlt, -⟩ := List.getElem?_eq_some_iff.mp hget
      split_ifs
      · refine ih l hall ?_
        rw [take_add_one]
        exact mem_append_left _ hmem
      · refine ih (l.offered other index .accepted) hall ?_
        show request ∈ (l.pending.eraseIdx index).take index
        rw [eraseIdx_eq_take_drop_succ, take_append_of_le_length (by simp; omega),
          take_take, min_self]
        exact hmem

/-! ## Answers that leave a request behind -/

section Adversary

variable {pending target done todo between rest : List DispatchRequest} {failed : List SessionId}
variable {first last request : DispatchRequest} {index : ℕ} {j : SessionId}

/-- What comes before a member of one part of a split. -/
theorem split_before {A : Type} {xs ys us vs : List A} {a : A} (h : xs ++ a :: ys = us ++ vs)
    (ha : a ∉ us) : ∃ ws, xs = us ++ ws ∧ vs = ws ++ a :: ys := by
  rcases append_eq_append_iff.mp h with ⟨ws, rfl, hws⟩ | ⟨ws, rfl, rfl⟩
  · cases ws with
    | nil => exact ⟨[], by simp, by simpa using hws.symm⟩
    | cons =>
      obtain rfl := (List.cons.inj hws).1
      exact absurd (by simp) ha
  · exact ⟨ws, rfl, rfl⟩

/-- **Exactly these sessions have failed**: those, other than the session and
that of the request `last`, of which a request of the kind has been dealt
with. -/
def FailedExactly (c : SchedulerCore) (kind : ActionKind) (s : SessionId) (last : DispatchRequest)
    (done : List DispatchRequest) (failed : List SessionId) : Prop :=
  ∀ j, j ∈ failed ↔ ∃ x ∈ done, x.action.kind = kind ∧ c.ownerOf x.ticket = some j ∧ j ≠ s
    ∧ c.ownerOf last.ticket ≠ some j

section

variable (h : FailedExactly c kind s last done failed)

include h

theorem FailedExactly.append {xs : List DispatchRequest}
    (hxs : ∀ x ∈ xs, x.action.kind = kind → ∀ j, c.ownerOf x.ticket = some j → j ≠ s →
      c.ownerOf last.ticket ≠ some j → j ∈ failed) :
    FailedExactly c kind s last (done ++ xs) failed := by
  intro j
  constructor
  · intro hj
    obtain ⟨x, hx, hres⟩ := (h j).mp hj
    exact ⟨x, mem_append_left _ hx, hres⟩
  · rintro ⟨x, hx, hkin, ho, hne, hlas⟩
    rcases mem_append.mp hx with hx | hx
    · exact (h j).mpr ⟨x, hx, hkin, ho, hne, hlas⟩
    · exact hxs x hx hkin j ho hne hlas

theorem FailedExactly.append_dead
    {xs : List DispatchRequest} (hxs : ∀ x ∈ xs, x.action.kind = kind → ¬ Alive c failed x) :
    FailedExactly c kind s last (done ++ xs) failed := by
  refine h.append fun x hx hkin j ho _ _ => ?_
  have hdd := hxs x hx hkin
  unfold Alive at hdd
  push Not at hdd
  obtain ⟨j', hj', ho'⟩ := hdd
  rwa [Option.some.inj (ho.symm.trans ho')]

theorem FailedExactly.close
    (hkin : request.action.kind = kind) (ho : c.ownerOf request.ticket = some j) (hne : j ≠ s)
    (hlas : c.ownerOf last.ticket ≠ some j) :
    FailedExactly c kind s last (done ++ [request]) (j :: failed) := by
  intro i
  rw [mem_cons, h i]
  constructor
  · rintro (rfl | ⟨x, hx, hres⟩)
    · exact ⟨request, by simp, hkin, ho, hne, hlas⟩
    · exact ⟨x, mem_append_left _ hx, hres⟩
  · rintro ⟨x, hx, hxk, hxo, hres⟩
    rcases mem_append.mp hx with hx | hx
    · exact Or.inr ⟨x, hx, hxk, hxo, hres⟩
    · rw [mem_singleton.mp hx] at hxo
      exact Or.inl (Option.some.inj (hxo.symm.trans ho))

end

/-- **The overtaken request is passed over**, when the overtaking one is
closed. -/
theorem overtaken_mem (hfld : FailedExactly c kind s last target failed)
    (hov : Overtakes c kind target first between last s) :
    last ∈ (ahead c (s :: failed) (between ++ last :: rest)).take (othersOf c kind s target) := by
  have hal : Alive c (s :: failed) last := by
    refine alive_cons.mpr ⟨hov.last_owner, fun j hj => ?_⟩
    obtain ⟨x, -, -, -, -, hlas⟩ := (hfld j).mp hj
    exact hlas
  have hfew : (ahead c (s :: failed) between).length < othersOf c kind s target := by
    refine lt_of_le_of_lt ?_ hov.few
    rw [countP_eq_length_filter]
    refine List.Sublist.length_le (monotone_filter_right between fun x hx => ?_)
    have hx' := alive_cons.mp (of_decide_eq_true hx)
    refine decide_eq_true ?_
    rintro (ho | ⟨y, hy, hyk, hys, hyow, hyl⟩)
    · exact hx'.1 ho
    · obtain ⟨j, hj⟩ := Option.isSome_iff_exists.mp hys
      rw [hj] at hyow hyl
      refine hx'.2 j ((hfld j).mpr ⟨y, hy, hyk, hj, ?_, hyl.symm⟩) hyow.symm
      rintro rfl
      exact hx'.1 hyow.symm
  have hspl : ahead c (s :: failed) (between ++ last :: rest)
      = ahead c (s :: failed) between ++ last :: ahead c (s :: failed) rest := by
    rw [ahead, filter_append, filter_cons_of_pos (by simpa using hal)]
    rfl
  rw [hspl, List.take_append]
  refine mem_append_right _ ?_
  obtain ⟨k, hk⟩ := Nat.exists_eq_add_of_lt hfew
  rw [hk, Nat.add_assoc, Nat.add_sub_cancel_left, take_succ_cons]
  exact mem_cons_self

theorem FailedExactly.alive (h : FailedExactly c kind s last done failed)
    (ho : c.ownerOf first.ticket = some s) : Alive c failed first := by
  intro j hj hj'
  obtain ⟨x, -, -, -, hne, -⟩ := (h j).mp hj
  exact hne (Option.some.inj (hj'.symm.trans ho))

/-- A walk that has something to deal with is not at the end of the queue. -/
theorem Walk.not_finished (h : Walk c kind done todo failed l index) (hal : Alive c failed first)
    (hmem : first ∈ todo) : index < l.pending.length := by
  by_contra hend
  have hlef := h.left
  rw [drop_of_length_le (not_lt.mp hend)] at hlef
  have hah : first ∈ ahead c failed todo := mem_filter.mpr ⟨hmem, decide_eq_true hal⟩
  rw [← hlef] at hah
  exact not_mem_nil hah

theorem update_ne_full {answers : ℕ → Answer} (h : ∀ i, answers i ≠ .full) (n : ℕ)
    {answer : Answer} (hans : answer ≠ .full) (i : ℕ) :
    update answers n answer i ≠ .full := by
  by_cases hi : i = n
  · rwa [hi, update_self]
  · rw [update_of_ne hi]
    exact h i

/-- **There are answers that leave the overtaken request behind**, if none is
overtaken by an earlier one. The induction is on the iterations; the answers
are found from the last to the first. -/
theorem Walk.overtaken (hnd : (pending.map ticket).Nodup)
    (hov : Overtakes c kind target first between last s)
    (hlst : ∀ before first' between' last' after s',
      pending = before ++ first' :: (between' ++ last' :: after) →
      Overtakes c kind before first' between' last' s' → target.length ≤ before.length)
    (fuel : ℕ) (htar : target = done ++ todo)
    (hpen : pending = target ++ first :: (between ++ last :: rest))
    (h : Walk c kind done (todo ++ first :: (between ++ last :: rest)) failed l index)
    (hfld : FailedExactly c kind s last done failed) (hfuel : l.pending.length ≤ index + fuel) :
    ∃ answers : ℕ → Answer, (∀ i, answers i ≠ .full)
      ∧ last ∈ (retryFrom kind fuel (l.withAnswers answers) index).pending := by
  induction fuel generalizing done todo failed l index with
  | zero =>
    have hlt := h.not_finished (hfld.alive hov.first_owner) (by simp)
    omega
  | succ fuel ih =>
    have hfst := hfld.alive hov.first_owner
    obtain ⟨request, hget⟩ : ∃ request, l.pending[index]? = some request :=
      ⟨_, List.getElem?_eq_getElem (h.not_finished hfst (by simp))⟩
    obtain ⟨hlt, -⟩ := List.getElem?_eq_some_iff.mp hget
    have hlen : (l.pending.eraseIdx index).length ≤ index + fuel := by
      rw [length_eraseIdx_of_lt hlt]
      omega
    have hlen' := (pending_failing (l.offered request index .closed)
      request.ticket).length_le.trans hlen
    obtain ⟨gone, after, haft, hgon, hal, hwal⟩ := h.head hget
    obtain ⟨todo', rfl, hnex⟩ := split_before haft fun hmem => hgon _ hmem hfst
    replace hfld : FailedExactly c kind s last (done ++ gone) failed :=
      hfld.append_dead fun x hx _ => hgon x hx
    cases todo' with
    | nil =>
      -- the overtaking request itself: it is closed, and everything after it is accepted
      obtain ⟨rfl, rfl⟩ := List.cons.inj hnex
      rw [List.append_nil] at htar
      subst htar
      obtain ⟨htak, -⟩ := hwal.fail hal hov.first_owner (ticket_ne hnd hpen)
        (d := l.offered request index .closed) rfl rfl
      refine ⟨update (fun _ => .accepted) l.calls.length .closed,
        update_ne_full (by simp) _ (by simp), ?_⟩
      rw [retryFrom_closed fuel hget hov.first_kind]
      refine mem_retryFrom_of_accepted kind fuel _ (fun _ => rfl) ?_
      show last ∈ ((l.offered request index .closed).failing request.ticket).pending.take index
      rw [htak]
      exact mem_append_right _ (overtaken_mem hfld hov)
    | cons x todo' =>
      obtain ⟨rfl, rfl⟩ := List.cons.inj hnex
      have htar' : target = (done ++ gone) ++ request :: todo' := by
        rw [htar, append_assoc]
      have hone : target = (done ++ gone ++ [request]) ++ todo' := by
        rw [htar', append_cons]
      have hpen' : pending = (done ++ gone) ++ request
          :: (todo' ++ first :: (between ++ last :: rest)) := by
        rw [hpen, htar', append_assoc, cons_append]
      by_cases hkin : request.action.kind = kind
      · by_cases hcl : ∃ j, c.ownerOf request.ticket = some j ∧ j ≠ s
            ∧ c.ownerOf last.ticket ≠ some j
        · -- it takes its session with it, and passes over no request of the kind
          obtain ⟨j, ho, hne, hlas⟩ := hcl
          obtain ⟨htak, hlef, hcon, hown⟩ := hwal.fail hal ho
            (ticket_ne hnd hpen') (d := l.offered request index .closed) rfl rfl
          have hnon : ∀ y ∈ (ahead c (j :: failed)
            (todo' ++ first :: (between ++ last :: rest))).take
              (othersOf c kind j (done ++ gone)), y.action.kind ≠ kind := by
            intro y hmem hy
            obtain ⟨between', more, hspl, hov'⟩ := overtakes_of_mem hkin ho (fun i hi => by
                obtain ⟨z, hz, hzk, hzo, -⟩ := (hfld i).mp hi
                exact ⟨z, hz, hzk, hzo⟩) hmem hy
            rw [hspl] at hpen'
            have hle := hlst _ _ _ _ _ _ hpen' hov'
            have hlng := congrArg List.length htar'
            rw [length_append, length_cons] at hlng
            omega
          obtain ⟨skipped, rest', hres, hsk, hwal'⟩ :=
            Walk.skip hnon ho htak hlef hcon hown
          have hcls := hfld.close hkin ho hne hlas
          have hnex : Alive c (j :: failed) first := hcls.alive hov.first_owner
          obtain ⟨todo'', rfl, rfl⟩ := split_before hres fun hmem =>
            hsk _ hmem hov.first_kind hnex
          rw [append_cons] at hwal'
          obtain ⟨answers, hans, hmem⟩ := ih (by rw [hone, append_assoc _ skipped])
            hwal' (hcls.append_dead hsk) hlen'
          refine ⟨update answers l.calls.length .closed, update_ne_full hans _ (by simp), ?_⟩
          rwa [retryFrom_closed fuel hget hkin]
        · -- its session has to stay, and it is accepted
          have hkep : FailedExactly c kind s last (done ++ gone ++ [request]) failed := by
            refine hfld.append fun y hy _ j ho hne hlas => absurd ⟨j, ?_, hne, hlas⟩ hcl
            rwa [mem_singleton.mp hy] at ho
          obtain ⟨answers, hans, hmem⟩ := ih hone
            (hwal.accept hal hkin (d := l.offered request index .accepted) rfl rfl) hkep hlen
          refine ⟨update answers l.calls.length .accepted, update_ne_full hans _ (by simp), ?_⟩
          rwa [retryFrom_accepted fuel hget hkin]
      · have hkep : FailedExactly c kind s last (done ++ gone ++ [request]) failed :=
          hfld.append fun y hy hyk => absurd (mem_singleton.mp hy ▸ hyk) hkin
        obtain ⟨answers, hans, hmem⟩ := ih hone (hwal.pass hal hkin) hkep (by omega)
        refine ⟨answers, hans, ?_⟩
        rwa [retryFrom_succ (l := l.withAnswers answers) kind fuel hget, if_pos hkin]

end Adversary

/-! ## The law of the retry -/

/-- A lane that is never full does not answer that it is. -/
theorem not_answeredFull (kind : ActionKind) (fuel : ℕ) (l : RuntimeLoop) (index : ℕ)
    (hans : ∀ i, l.executors.submitAnswer i ≠ .full) {n : ℕ} (hn : n ≤ l.calls.length)
    (hnon : ¬ AnsweredFull n l) : ¬ AnsweredFull n (retryFrom kind fuel l index) := by
  induction fuel generalizing l index with
  | zero => exact hnon
  | succ fuel ih =>
    cases hget : l.pending[index]? with
    | none =>
      rwa [retryFrom_of_none kind _ hget]
    | some request =>
      rw [retryFrom_succ kind fuel hget]
      split_ifs
      · exact ih l (index + 1) hans hn hnon
      · have hmor {answer : Answer} (hansw : answer ≠ .full) :
            ¬ AnsweredFull n (l.offered request index answer) := by
          rintro ⟨other, live, hmem⟩
          rw [offered, drop_append_of_le_length hn, mem_append, mem_singleton] at hmem
          rcases hmem with hmem | heq
          · exact hnon ⟨other, live, hmem⟩
          · exact hansw (Call.trySubmit.inj heq).2.1.symm
        have hlen (answer : Answer) : n ≤ (l.offered request index answer).calls.length :=
          hn.trans (by simp [offered])
        cases hansw : l.executors.submitAnswer l.calls.length with
        | accepted => exact ih _ index hans (hlen .accepted) (hmor (by simp))
        | full => exact absurd hansw (hans _)
        | closed =>
          obtain ⟨probes, hcal, hpr⟩ :=
            calls_failing (l.offered request index .closed) request.ticket
          refine ih _ index ?_ ?_ ?_
          · rwa [executors_failing]
          · rw [hcal]
            exact (hlen .closed).trans (by simp)
          · rintro ⟨other, live, hmem⟩
            rw [hcal, drop_append_of_le_length (hlen .closed), mem_append] at hmem
            rcases hmem with hmem | hmem
            · exact hmor (by simp) ⟨other, live, hmem⟩
            · exact hpr _ hmem

/-- **What a retry is meant to do**: unless a lane answers that it is full,
nothing of the kind is left, and the live requests of the other kinds are
kept in their order. -/
structure RetryLaw (l : RuntimeLoop) (kind : ActionKind) : Prop where
  nothing_left : ¬ AnsweredFull l.calls.length (l.retryPending kind) →
    ∀ request ∈ (l.retryPending kind).pending, request.action.kind ≠ kind
  others : liveOthers (l.retryPending kind).core kind (l.retryPending kind).pending
    = liveOthers (l.retryPending kind).core kind l.pending

/-- **If a request is overtaken, there are answers that leave one behind**,
and none of them is that the lane is full. -/
theorem exists_left_behind (h : l.core.Consistent) (hqd : Queued l)
    (hov : Overtaken l.core kind l.pending) : ∃ answers : ℕ → Answer, (∀ i, answers i ≠ .full)
      ∧ ∃ request ∈ ((l.withAnswers answers).retryPending kind).pending,
        request.action.kind = kind := by
  classical
  -- the overtaking request that comes first in the queue
  have hsom : ∃ n, ∃ before first between last after s, before.length = n
      ∧ l.pending = before ++ first :: (between ++ last :: after)
      ∧ Overtakes l.core kind before first between last s := by
    obtain ⟨before, first, between, last, after, s, hres⟩ := hov
    exact ⟨_, before, first, between, last, after, s, rfl, hres⟩
  obtain ⟨target, first, between, last, rest, s, hlen, hpen, hov⟩ := Nat.find_spec hsom
  have hst : Walk l.core kind [] l.pending [] l 0 := walk_start h
  rw [hpen] at hst
  obtain ⟨answers, hans, hmem⟩ := hst.overtaken hqd.nodup hov
    (fun before first' between' last' after s' heq hov' => by
      rw [hlen]
      exact Nat.find_min' hsom ⟨before, first', between', last', after, s', rfl, heq, hov'⟩)
    l.pending.length rfl hpen (fun j => by simp) (by simp)
  exact ⟨answers, hans, last, hmem, hov.last_kind⟩

end RuntimeLoop

namespace Runtime

/-- **A retry does what it is meant to, whatever the lanes answer, if and only
if no request is overtaken**, in every state the owner thread can reach. -/
theorem retry_law_iff (budget : Budget) (executors : ExecutorSet) (inbounds : List Inbound)
    (kind : ActionKind) : (∀ answers, RuntimeLoop.RetryLaw
        ((machine.run (new budget executors) inbounds).loop.withAnswers answers) kind)
      ↔ ¬ RuntimeLoop.Overtaken (machine.run (new budget executors) inbounds).loop.core kind
          (machine.run (new budget executors) inbounds).loop.pending := by
  have hc := run_consistent budget executors inbounds
  have hqd := run_queued budget executors inbounds
  generalize (machine.run (new budget executors) inbounds).loop = l at hc hqd ⊢
  constructor
  · intro hlaw hov
    obtain ⟨answers, hans, request, hmem, hkin⟩ :=
      exists_left_behind hc hqd hov
    refine (hlaw answers).nothing_left ?_ request hmem hkin
    refine not_answeredFull kind _ (l.withAnswers answers) 0 hans le_rfl ?_
    rintro ⟨other, live, hoth⟩
    rw [drop_of_length_le le_rfl] at hoth
    exact absurd hoth not_mem_nil
  · intro hnot answers
    have hkep := keeps_retryPending (l := l.withAnswers answers) hc kind
    refine ⟨fun hful => ?_, hkep.others⟩
    have hst : RuntimeLoop.Walk (l.withAnswers answers).core kind [] (l.withAnswers answers).pending
        [] (l.withAnswers answers) 0 := walk_start hc
    exact (hst.nothing_left (n := l.calls.length) hqd.nodup hnot l.pending.length rfl
      (by simp) (by simp [withAnswers]) le_rfl).resolve_left hful

/-- Lanes that are full at first, and then closed. -/
def fullThenClosed : ExecutorSet where
  submitAnswer n := if n < 3 then .full else .closed
  cancelAnswer _ := false

/-- Three requests wait: one for the CPU lane and one for the I/O lane of one
session, and behind them one for the I/O lane of another session. -/
def threeWaiting : RuntimeLoop :=
  (machine.run (new ⟨4⟩ fullThenClosed) [.request .createSession, .request .createSession,
    .request (.submit ⟨0⟩ ⟨.cpu, []⟩), .request (.submit ⟨0⟩ ⟨.io, []⟩),
    .request (.submit ⟨1⟩ ⟨.io, []⟩)]).loop

/-- **A request is left behind.** The I/O lane has closed, the first session
fails with its request, its CPU request leaves the queue, and the index is
past the last request. -/
theorem retry_leaves_request : ¬ RuntimeLoop.RetryLaw threeWaiting .io := by
  intro hlaw
  have hcal : (threeWaiting.retryPending .io).calls.drop threeWaiting.calls.length
      = [.trySubmit ⟨⟨1⟩, ⟨.io, []⟩⟩ .closed true, .tryCancel .io ⟨0⟩ false,
        .tryCancel .cpu ⟨0⟩ false, .tryCancel .accelerator ⟨0⟩ false] := by
    decide +kernel
  refine hlaw.nothing_left ?_ ⟨⟨2⟩, ⟨.io, []⟩⟩ (by decide +kernel) rfl
  rintro ⟨request, live, hmem⟩
  rw [hcal] at hmem
  simp at hmem

end Runtime

end Logan
