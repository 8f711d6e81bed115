import Logan.Sched.ResidencyLeases
import Logan.Util.Roster

/-!
# One load a key, and every waiter woken once

A load is a single-use token as well: it is issued to its key when
`begin_load` starts it, and consumed by the completion that finds it
outstanding (`Transition.loadPosts`). While it is outstanding its entry is
being loaded, so no second load is started for the key.

Who is woken when a load completes is the roster of its history. A session
joins when `begin_load` answers it with the load, and leaves when
`cancel_waiter` names it; the waiters of a loading entry are the roster of
these events (`Transition.waited`). They therefore stand in the order of
their first request since they last cancelled – which is not the order of
their first request: a waiter that cancels and asks again goes to the end
(`rejoined_out_of_order`). All of this is as long as no identifier is given
out twice; past the last one, two loads are one (`Roomy.contended`).
-/

namespace Logan

open Table Option

/-- Who joins and who leaves a load by an operation, given its answer. -/
def attendances (loadId : LoadId) (op : ResidencyOp) (out : ResidencyOutcome) :
    List (Attendance SessionId) :=
  match op, out with
  | .beginLoad _ _ waiter, .load (.ok (.started id)) => if id = loadId then [.join waiter] else []
  | .beginLoad _ _ waiter, .load (.ok (.joined id)) => if id = loadId then [.join waiter] else []
  | .cancelWaiter id session, _ => if id = loadId then [.leave session] else []
  | _, _ => []

/-- **What an operation does to the loads**, given its answer. -/
def loadPostings (op : ResidencyOp) (out : ResidencyOutcome) : List (Posting LoadId ExpertKey) :=
  match op, out with
  | .beginLoad key _ _, .load (.ok (.started loadId)) => [.issue loadId key]
  | .completeLoad completion, .completion (.ok (.published _ _)) => [.consume completion.loadId]
  | .completeLoad completion, .completion (.ok (.failed _)) => [.consume completion.loadId]
  | _, _ => []

theorem loadPostings_of_refusal {op : ResidencyOp} {out : ResidencyOutcome}
    (h : out.IsRefusal) : loadPostings op out = [] := by
  unfold loadPostings
  split
  · exact absurd h id
  · exact absurd h id
  · exact absurd h id
  · rfl

theorem attendances_of_refusal {op : ResidencyOp} {out : ResidencyOutcome}
    (h : out.IsRefusal) (hop : ∀ loadId session, op ≠ .cancelWaiter loadId session)
    (loadId : LoadId) : attendances loadId op out = [] := by
  unfold attendances
  split
  · exact absurd h id
  · exact absurd h id
  · exact absurd rfl (hop _ _)
  · rfl

namespace ResidencyManager

variable {m d : ResidencyManager} {key : ExpertKey} {op : ResidencyOp} {out : ResidencyOutcome}
variable {entry entry' : Entry}

/-! ## The ledger of loads -/

/-- **The ledger of loads accepts what every transition posts.** -/
theorem Transition.loadPosts {l : Ledger LoadId ExpertKey} (ht : m.Transition op out d)
    (hldd : m.Loaded) (h : l.Kept LoadId.val m.loads m.nextLoad) (hlim : d.LoadLimit) :
    ∃ l', l.postAll (loadPostings op out) = some l' ∧ l'.Kept LoadId.val d.loads d.nextLoad := by
  cases ht with
  | started key bytes waiter d stats hev =>
    obtain ⟨hlds, hnex, -⟩ := hev.frame
    rw [← hlds, ← hnex] at h
    obtain ⟨l', hl', h'⟩ := h.issue (t := ⟨d.nextLoad⟩) rfl key
    rw [← saturatingAdd_of_lt hlim] at h'
    exact ⟨l', (l.postAll_singleton _).trans hl', h'⟩
  | crowded key bytes waiter _ e hev =>
    obtain ⟨hlds, hnex, -⟩ := hev.frame
    exact ⟨l, rfl, by rw [← hlds, ← hnex] at h; exact h⟩
  | published loadId key entry stats hl =>
    obtain ⟨l', hl', h'⟩ := h.consume hl
    exact ⟨l', (l.postAll_singleton _).trans hl', h'⟩
  | failed loadId result message key entry stats hres hl =>
    obtain ⟨l', hl', h'⟩ := h.consume hl
    exact ⟨l', (l.postAll_singleton _).trans hl', h'⟩
  | dropped loadId result key hl hgon =>
    obtain ⟨e, he, hld⟩ := (hldd.loads_iff loadId key).mp hl
    exact absurd hld (hgon e he)
  | evicted key _ hev =>
    cases hev
    exact ⟨l, rfl, h⟩
  | refused _ _ hout =>
    rw [loadPostings_of_refusal hout]
    exact ⟨l, rfl, h⟩
  | _ => exact ⟨l, rfl, h⟩

/-- **The history of the loads of a run**, oldest first. -/
def loadHistory (ops : List ResidencyOp) : List (Posting LoadId ExpertKey) :=
  machine.gather (fun m op => loadPostings op (machine.out m op)) new ops

/-- **The requests for a load in a run**, oldest first: who was answered with
it and who cancelled. -/
def requests (loadId : LoadId) (ops : List ResidencyOp) : List (Attendance SessionId) :=
  machine.gather (fun m op => attendances loadId op (machine.out m op)) new ops

/-- The ledger accepts the history of every run, and the manager keeps it as
its table of loads. -/
theorem loads_run {ops : List ResidencyOp} (hlim : machine.Within LoadLimit new ops) :
    ∃ l, Ledger.blank.postAll (loadHistory ops) = some l
      ∧ l.Kept LoadId.val (machine.run new ops).loads (machine.run new ops).nextLoad := by
  obtain ⟨l, hl, -, -, hkep⟩ := Machine.gather_replays (M := machine)
    (fun l m => m.Placed ∧ m.Loaded ∧ l.Kept LoadId.val m.loads m.nextLoad)
    (fun l m op ⟨hpl, hldd, hkep⟩ hnex => by
      have ht := execute_transition hpl op
      obtain ⟨l', hl', h'⟩ := ht.loadPosts hldd hkep hnex
      exact ⟨l', hl', ht.placed hpl, ht.loaded hldd hnex, h'⟩)
    ⟨placed_new, loaded_new, Ledger.kept_blank LoadId.val⟩ hlim
  exact ⟨l, hl, hkep⟩

/-- Loads are only issued and consumed. -/
theorem revoke_not_mem_loadHistory (ops : List ResidencyOp) (loadId : LoadId) :
    .revoke loadId ∉ loadHistory ops := by
  intro h
  obtain ⟨before, op, after, -, hmem⟩ := Machine.exists_step_of_mem_gather h
  unfold loadPostings at hmem
  split at hmem <;> simp at hmem

/-- **A load is outstanding exactly while it is started and not
completed.** -/
theorem lookup_loads_iff {ops : List ResidencyOp} (hlim : machine.Within LoadLimit new ops)
    (loadId : LoadId) (key : ExpertKey) : (machine.run new ops).loads.lookup loadId = some key
      ↔ .issue loadId key ∈ loadHistory ops ∧ .consume loadId ∉ loadHistory ops := by
  obtain ⟨l, hl, hkep⟩ := loads_run hlim
  rw [hkep.lookup_iff hl]
  exact ⟨fun h => ⟨h.1, h.2.1⟩, fun h => ⟨h.1, h.2, revoke_not_mem_loadHistory ops loadId⟩⟩

/-! ## The waiters are the roster -/

/-- **The waiters of a loading entry are the roster of its load's history**,
and nobody is on the roster of a load that was not started. -/
structure Waited (history : LoadId → List (Attendance SessionId))
    (entries : Table ExpertKey Entry) (next : ℕ) : Prop where
  waiters : ∀ key e loadId, entries.lookup key = some e → e.state = .loading loadId →
    e.waiters = Attendance.roster (history loadId)
  unstarted : ∀ loadId : LoadId, next ≤ loadId.val → Attendance.roster (history loadId) = []

variable {history : LoadId → List (Attendance SessionId)}

variable {entries : Table ExpertKey Entry} {next : ℕ}

/-- An operation that nobody joins or leaves a load by, and after which
everything that is being loaded was so before. -/
theorem Waited.frame {entries' : Table ExpertKey Entry} (h : Waited history entries next)
    {events : LoadId → List (Attendance SessionId)} (hev : ∀ loadId, events loadId = [])
    (hents : ∀ key e loadId, entries'.lookup key = some e → e.state = .loading loadId →
      ∃ e₀, entries.lookup key = some e₀ ∧ e₀.state = .loading loadId ∧ e.waiters = e₀.waiters) :
    Waited (fun loadId => history loadId ++ events loadId) entries' next where
  waiters := by
    intro key e loadId he hst
    obtain ⟨e₀, he₀, hst₀, hsam⟩ := hents key e loadId he hst
    rw [hev, List.append_nil, hsam]
    exact h.waiters key e₀ loadId he₀ hst₀
  unstarted := by
    intro loadId hle
    rw [hev, List.append_nil]
    exact h.unstarted loadId hle

/-- Rewriting an entry to one that is not being loaded starts no load. -/
theorem loading_insert (hno : ¬ entry'.IsLoading) (j : ExpertKey) (e : Entry) (loadId : LoadId)
    (he : (entries.insert key entry').lookup j = some e) (hst : e.state = .loading loadId) :
    ∃ e₀, entries.lookup j = some e₀ ∧ e₀.state = .loading loadId ∧ e.waiters = e₀.waiters := by
  rw [lookup_insert] at he
  by_cases hj : j = key
  · rw [if_pos hj] at he
    rw [← some.inj he] at hst
    exact absurd ⟨loadId, hst⟩ hno
  · rw [if_neg hj] at he
    exact ⟨e, he, hst, rfl⟩

/-- Evictions start no load. -/
theorem Waited.evictions (h : Waited history m.entries m.nextLoad) (hev : m.Evictions d) :
    Waited history d.entries d.nextLoad where
  waiters key e loadId he hst := h.waiters key e loadId (hev.lookup_eq he) hst
  unstarted := by
    rw [hev.frame.2.1]
    exact h.unstarted

variable {loads : Table LoadId ExpertKey} {loadId : LoadId}

section

variable (h : Waited history entries next)

include h

/-- **One session joins or leaves an outstanding load.** -/
theorem Waited.rewrite (hagr : LoadsAgree entries loads next)
    (he : entries.lookup key = some entry) (hld : entry.state = .loading loadId)
    (hst : entry'.state = entry.state) (event : Attendance SessionId)
    (hwtr : entry'.waiters = Attendance.attend entry.waiters event) :
    Waited (fun id => history id ++ if loadId = id then [event] else [])
      (entries.insert key entry') next where
  waiters := by
    intro j e id hj hid
    rw [lookup_insert] at hj
    by_cases hjk : j = key
    · rw [if_pos hjk] at hj
      rw [← some.inj hj, hst, hld] at hid
      rw [← some.inj hj, if_pos (ResidencyState.loading.inj hid),
        Attendance.roster_append_singleton, hwtr, ← ResidencyState.loading.inj hid,
        h.waiters key entry loadId he hld]
    · rw [if_neg hjk] at hj
      -- another key is being loaded by another load
      have hne : loadId ≠ id := by
        rintro rfl
        have hkey := (hagr.loads_iff loadId key).mpr ⟨entry, he, hld⟩
        have hoth := (hagr.loads_iff loadId j).mpr ⟨e, hj, hid⟩
        exact hjk (some.inj (hoth.symm.trans hkey))
      rw [if_neg hne, List.append_nil]
      exact h.waiters j e id hj hid
  unstarted := by
    intro id hle
    have hne : loadId ≠ id := by
      rintro rfl
      have hkey := (hagr.loads_iff loadId key).mpr ⟨entry, he, hld⟩
      exact absurd (hagr.load_lt loadId key hkey) (Nat.not_lt.mpr hle)
    rw [if_neg hne, List.append_nil]
    exact h.unstarted id hle

/-- **A load is started**, and its first waiter joins. -/
theorem Waited.start (hagr : LoadsAgree entries loads next)
    (key : ExpertKey) (entry' : Entry) {waiter : SessionId}
    (hst : entry'.state = .loading ⟨next⟩) (hwtr : entry'.waiters = [waiter]) :
    Waited (fun id => history id ++ if (⟨next⟩ : LoadId) = id then [.join waiter] else [])
      (entries.insert key entry') (next + 1) where
  waiters := by
    intro j e id hj hid
    rw [lookup_insert] at hj
    by_cases hjk : j = key
    · rw [if_pos hjk] at hj
      rw [← some.inj hj, hst] at hid
      rw [← some.inj hj, if_pos (ResidencyState.loading.inj hid),
        Attendance.roster_append_singleton, hwtr, ← ResidencyState.loading.inj hid,
        h.unstarted ⟨next⟩ le_rfl]
      rfl
    · rw [if_neg hjk] at hj
      have hne : (⟨next⟩ : LoadId) ≠ id := by
        rintro rfl
        have hlt := hagr.load_lt ⟨next⟩ j ((hagr.loads_iff _ _).mpr ⟨e, hj, hid⟩)
        exact absurd hlt (Nat.lt_irrefl next)
      rw [if_neg hne, List.append_nil]
      exact h.waiters j e id hj hid
  unstarted := by
    intro id hle
    have hne : (⟨next⟩ : LoadId) ≠ id := by
      rintro rfl
      exact absurd hle (Nat.not_succ_le_self next)
    rw [if_neg hne, List.append_nil]
    exact h.unstarted id (Nat.le_of_succ_le hle)

/-- **Someone leaves a load that nothing is loaded by.** -/
theorem Waited.ignore (hagr : LoadsAgree entries loads next) {session : SessionId}
    (hgon : ∀ key, loads.lookup loadId = some key → entries.lookup key = none) :
    Waited (fun id => history id ++ if loadId = id then [.leave session] else []) entries
      next where
  waiters := by
    intro j e id hj hid
    have hne : loadId ≠ id := by
      rintro rfl
      have hnon := hgon j ((hagr.loads_iff loadId j).mpr ⟨e, hj, hid⟩)
      exact absurd (hnon.symm.trans hj) (by simp)
    rw [if_neg hne, List.append_nil]
    exact h.waiters j e id hj hid
  unstarted := by
    intro id hle
    by_cases hid : loadId = id
    · rw [if_pos hid, Attendance.roster_append_singleton, h.unstarted id hle]
      rfl
    · rw [if_neg hid, List.append_nil]
      exact h.unstarted id hle

end

/-- **A transition keeps the waiters the roster of the history.** -/
theorem Transition.waited (ht : m.Transition op out d) (hldd : m.Loaded)
    (h : Waited history m.entries m.nextLoad) (hlim : d.LoadLimit) :
    Waited (fun loadId => history loadId ++ attendances loadId op out) d.entries d.nextLoad := by
  have hsam : ∀ key e loadId, m.entries.lookup key = some e → e.state = .loading loadId →
      ∃ e₀, m.entries.lookup key = some e₀ ∧ e₀.state = .loading loadId
        ∧ e.waiters = e₀.waiters := fun key e loadId he hst => ⟨e, he, hst, rfl⟩
  cases ht with
  | poolAdded | deviceAdded | dropped | transferred => exact h.frame (fun _ => rfl) hsam
  | hit key bytes waiter entry stats generation he hst =>
    exact h.frame (fun _ => rfl) (loading_insert (Entry.not_isLoading hst (by simp)))
  | joined key waiter entry stats loadId he hst =>
    refine h.rewrite hldd he hst (join_state _ _) (.join waiter) ?_
    unfold Entry.join
    rw [Attendance.attend_join]
    by_cases hw : waiter ∈ entry.waiters
    · rw [if_pos hw, if_pos hw]
    · rw [if_neg hw, if_neg hw]
  | started key bytes waiter d stats hev =>
    have hstr := (h.evictions hev).start (hev.preserves Evicts.loaded hldd)
      key ⟨.loading ⟨d.nextLoad⟩, bytes, [waiter], 0, d.tick.1⟩ rfl rfl
    rwa [← saturatingAdd_of_lt hlim] at hstr
  | crowded key bytes waiter _ e hev =>
    exact (h.evictions hev).frame (fun _ => rfl)
      (fun key e loadId he hst => ⟨e, he, hst, rfl⟩)
  | left loadId session key entry b hl he =>
    obtain ⟨e, he', hld⟩ := (hldd.loads_iff loadId key).mp hl
    obtain rfl : entry = e := some.inj (he.symm.trans he')
    refine h.rewrite hldd he hld ?_ (.leave session) ?_
    · rfl
    · rfl
  | published =>
    exact h.frame (fun _ => rfl)
      (loading_insert (Entry.not_isLoading rfl (by simp [publishedEntry])))
  | failed =>
    exact h.frame (fun _ => rfl) (loading_insert (Entry.not_isLoading rfl (by simp)))
  | acquired key owner entry stats generation he hst =>
    exact h.frame (fun _ => rfl) (loading_insert (Entry.not_isLoading hst (by simp)))
  | released lease owner entry stats hl he hst =>
    exact h.frame (fun _ => rfl) (loading_insert (Entry.not_isLoading hst (by simp)))
  | evicted key _ hev =>
    exact (h.evictions (Evictions.of_evicts hev)).frame (fun _ => rfl)
      (fun key e loadId he hst => ⟨e, he, hst, rfl⟩)
  | ignored loadId session hgon => exact h.ignore hldd hgon
  | refused _ _ hout hop =>
    exact h.frame (fun loadId => attendances_of_refusal hout hop loadId) hsam

/-- **The waiters of a loading entry are the roster of its load's
requests.** -/
theorem run_waited {ops : List ResidencyOp} (hlim : machine.Within LoadLimit new ops) :
    Waited (fun loadId => requests loadId ops) (machine.run new ops).entries
      (machine.run new ops).nextLoad := by
  induction ops using List.reverseRecOn with
  | nil => exact ⟨fun _ _ _ he => absurd he (by simp [new]), fun _ _ => rfl⟩
  | append_singleton ops op ih =>
    obtain ⟨hbef, hnex, -⟩ := (Machine.along_append _ _ _ ops [op]).mp hlim
    have ht := execute_transition (run_placed ops) op
    have hwtd := ht.waited (run_loaded hbef) (ih hbef) hnex
    have hreq : ∀ loadId, requests loadId (ops ++ [op]) = requests loadId ops
          ++ attendances loadId op (machine.out (machine.run new ops) op) := by
      intro loadId
      unfold requests
      rw [Machine.gather_append]
      exact congrArg _ (List.append_nil _)
    rw [Machine.run_append]
    simp only [hreq]
    exact hwtd

/-! ## What a completion hands out -/

theorem grant_sessions (generation : Generation) (waiters : List SessionId) (next : ℕ)
    (leases : LeaseTable) :
    (grant key generation waiters next leases).1.map LoadWake.session = waiters := by
  induction waiters generalizing next leases with
  | nil => rfl
  | cons session sessions ih => exact congrArg (List.cons session) (ih _ _)

/-- **Every waiter is granted a lease of its own**, on the published
generation and under a fresh identifier. -/
theorem exists_lease_of_mem_grant {generation : Generation} {waiters : List SessionId}
    {leases : LeaseTable} (hlim : (grant key generation waiters next leases).2.1 < u64Max)
    {wake : LoadWake} (hwak : wake ∈ (grant key generation waiters next leases).1) :
    ∃ lease : Lease, wake.result = .inl lease ∧ next ≤ lease.id.val
      ∧ lease.record = (key, generation, wake.session)
      ∧ (grant key generation waiters next leases).2.2.lookup lease.id = some lease.record := by
  rw [(grant_wakes generation waiters hlim).1] at hwak
  obtain ⟨i, hi, rfl⟩ := List.mem_mapIdx.mp hwak
  refine ⟨_, rfl, Nat.le_add_right next i, rfl, ?_⟩
  rw [lookup_grant generation waiters hlim, if_neg (Nat.not_lt.mpr (Nat.le_add_right next i))]
  rw [Nat.add_sub_cancel_left, List.getElem?_eq_getElem hi]
  rfl

/-- The granted identifiers are consecutive, hence distinct. -/
theorem grant_ids_nodup {generation : Generation} {waiters : List SessionId} {leases : LeaseTable}
    (hlim : (grant key generation waiters next leases).2.1 < u64Max) :
    ((wakeLeases (grant key generation waiters next leases).1).map Lease.id).Nodup := by
  have hids : ((wakeLeases (grant key generation waiters next leases).1).map Lease.id).map
      LeaseId.val = List.range' next waiters.length := by
    induction waiters generalizing next leases with
    | nil => rfl
    | cons session sessions ih =>
      have hst := grant_step hlim
      rw [hst] at hlim ⊢
      exact congrArg (List.cons next) (ih hlim)
  refine List.Nodup.of_map LeaseId.val ?_
  rw [hids]
  exact List.nodup_range'

/-- **The completion of an outstanding load.** -/
theorem completeLoad_of_outstanding (hpl : m.Placed) (hldd : m.Loaded)
    (hl : m.loads.lookup loadId = some key) :
    ∃ entry stats, m.entries.lookup key = some entry ∧ entry.state = .loading loadId
      ∧ m.completeLoad ⟨loadId, .success⟩
        = (.ok (.published (m.upcoming key) (m.granted key entry).1),
          m.published loadId key entry stats) ∧ ∀ result message, result.failure = some message →
        m.completeLoad ⟨loadId, result⟩
          = (.ok (.failed (entry.waiters.map (fun session => ⟨session, .inr message⟩))),
            m.failed loadId key entry stats message) := by
  obtain ⟨entry, he, hst⟩ := (hldd.loads_iff loadId key).mp hl
  obtain ⟨stats, hs⟩ := hpl key entry he
  exact ⟨entry, stats, he, hst, completeLoad_of_success hl he hst hs,
    fun result message hres => completeLoad_of_failure hres hl he hst hs⟩

/-- A key that is being loaded is not loaded again. -/
theorem beginLoad_ne_started (hpl : m.Placed) (hst : m.state key = .loading loadId)
    (bytes : ℕ) (waiter : SessionId) (id : LoadId) :
    (m.beginLoad key bytes waiter).1 ≠ .ok (.started id) := by
  intro heq
  have ht := beginLoad_transition hpl key bytes waiter
  rw [heq] at ht
  generalize (m.beginLoad key bytes waiter).2 = d at ht
  obtain ⟨e, he, hld⟩ := (m.state_eq_loading_iff key loadId).mp hst
  cases ht with
  | started _ _ _ d stats hev hidl => exact (hidl e he).2 ⟨loadId, hld⟩
  | refused _ _ hout => exact hout.elim

/-! ## Every run, and a completion -/

/-- The counters of loads and leases have not reached their limits. -/
def IdLimit (m : ResidencyManager) : Prop := m.LoadLimit ∧ m.LeaseIdLimit

instance : DecidablePred IdLimit := fun m =>
  inferInstanceAs (Decidable (m.LoadLimit ∧ m.LeaseIdLimit))

/-- **What those who wait for a load can rely on**, when it completes after a
run. -/
structure LoadSafety (ops : List ResidencyOp) (loadId : LoadId) (result : LoadResult) :
    Prop where
  /-- Between its start and its completion no second load is started for the
  key. -/
  single : ∀ key, .issue loadId key ∈ loadHistory ops → .consume loadId ∉ loadHistory ops →
    ∀ bytes waiter id, ((machine.run new ops).beginLoad key bytes waiter).1 ≠ .ok (.started id)
  /-- It is completed at most once. -/
  once : (loadHistory ops).count (.consume loadId) ≤ 1
  /-- A success wakes those in attendance, in the order they arrived, each
  with a fresh lease of its own on the published generation. -/
  published : ∀ key, .issue loadId key ∈ loadHistory ops → .consume loadId ∉ loadHistory ops →
    result = .success →
    ∃ generation wakes, ((machine.run new ops).completeLoad ⟨loadId, result⟩).1
          = .ok (.published generation wakes)
        ∧ ((machine.run new ops).completeLoad ⟨loadId, result⟩).2.state key = .resident generation
        ∧ Attendance.Attends (requests loadId ops) (wakes.map LoadWake.session)
        ∧ (∀ wake ∈ wakes, ∃ lease : Lease, wake.result = .inl lease
          ∧ lease.record = (key, generation, wake.session)
          ∧ (∀ record, .issue lease.id record ∉ leaseHistory ops)
          ∧ ((machine.run new ops).completeLoad ⟨loadId, result⟩).2.leases.lookup lease.id
            = some lease.record)
        ∧ ((wakeLeases wakes).map Lease.id).Nodup
  /-- Any other result wakes them in the same order, each with the error. -/
  failed : ∀ key message, .issue loadId key ∈ loadHistory ops →
    .consume loadId ∉ loadHistory ops → result.failure = some message →
    ∃ wakes, ((machine.run new ops).completeLoad ⟨loadId, result⟩).1 = .ok (.failed wakes)
      ∧ Attendance.Attends (requests loadId ops) (wakes.map LoadWake.session)
      ∧ ∀ wake ∈ wakes, wake.result = .inr message
  /-- The completion of a load that was never started, or was completed
  already, is stale and changes nothing. -/
  stale : ((∀ key, .issue loadId key ∉ loadHistory ops) ∨ .consume loadId ∈ loadHistory ops) →
    (machine.run new ops).completeLoad ⟨loadId, result⟩ = (.ok .stale, machine.run new ops)

/-- **Loads are coalesced, and every waiter is woken once**, in every run
whose counters of loads and leases stay within their limits. -/
theorem load_safety (ops : List ResidencyOp) (loadId : LoadId) (result : LoadResult)
    (hlimit : machine.Within IdLimit new (ops ++ [.completeLoad ⟨loadId, result⟩])) :
    LoadSafety ops loadId result := by
  obtain ⟨hbef, hnex, -⟩ := (Machine.along_append _ _ _ ops _).mp hlimit
  have hlds : machine.Within LoadLimit new ops := hbef.mono (fun _ _ h => h.1)
  have hpl := run_placed ops
  have hldd := run_loaded hlds
  have hlkp := lookup_loads_iff hlds
  have hwtd := run_waited hlds
  obtain ⟨l, hl, hkep⟩ := leases_run (hbef.mono (fun _ _ h => h.2))
  refine
    { single := ?_
      once := ?_
      published := ?_
      failed := ?_
      stale := ?_ }
  · intro key hiss hop
    refine beginLoad_ne_started hpl ((state_eq_loading_iff _ key loadId).mpr ?_)
    exact (hldd.loads_iff loadId key).mp ((hlkp loadId key).mpr ⟨hiss, hop⟩)
  · obtain ⟨books, hbks, -⟩ := loads_run hlds
    exact Nat.le_of_add_right_le (Ledger.retired_at_most_once hbks loadId)
  · rintro key hiss hop rfl
    have hout := (hlkp loadId key).mpr ⟨hiss, hop⟩
    obtain ⟨entry, stats, he, hst, heq, -⟩ := completeLoad_of_outstanding hpl hldd hout
    change ((machine.run new ops).completeLoad ⟨loadId, .success⟩).2.IdLimit at hnex
    rw [heq] at hnex ⊢
    have hgr : ((machine.run new ops).granted key entry).2.1 < u64Max := hnex.2
    refine ⟨_, _, rfl, ?_, ?_, fun wake hwak => ?_, grant_ids_nodup hgr⟩
    · exact (state_rewrite rfl key).trans (if_pos rfl)
    · rw [granted, grant_sessions, hwtd.waiters key entry loadId he hst]
      exact Attendance.attends_roster _
    · obtain ⟨lease, hres, hfr, hrec, hfnd⟩ := exists_lease_of_mem_grant hgr hwak
      refine ⟨lease, hres, hrec, fun record hissued => ?_, hfnd⟩
      exact absurd (hkep.stamp_lt_of_issue hl hissued) (Nat.not_lt.mpr hfr)
  · intro key message hiss hop hres
    have hout := (hlkp loadId key).mpr ⟨hiss, hop⟩
    obtain ⟨entry, stats, he, hst, -, heq⟩ := completeLoad_of_outstanding hpl hldd hout
    rw [heq result message hres]
    refine ⟨_, rfl, ?_, fun wake hwak => ?_⟩
    · rw [List.map_map]
      have hses : entry.waiters.map
          (LoadWake.session ∘ fun session => ⟨session, .inr message⟩) = entry.waiters :=
        List.map_id _
      rw [hses, hwtd.waiters key entry loadId he hst]
      exact Attendance.attends_roster _
    · obtain ⟨session, -, rfl⟩ := List.mem_map.mp hwak
      rfl
  · intro hgon
    have hnon : (machine.run new ops).loads.lookup loadId = none := by
      cases hout : (machine.run new ops).loads.lookup loadId with
      | none => rfl
      | some key =>
        obtain ⟨hiss, hop⟩ := (hlkp loadId key).mp hout
        exact hgon.elim (fun h => absurd hiss (h key)) (fun h => absurd h hop)
    rw [completeLoad, hnon]

/-- Two sessions ask for a key, the first cancels and asks again. -/
def rejoining : List ResidencyOp :=
  [.addPool ⟨0⟩ 100, .beginLoad ⟨1, 2, 3, 4, ⟨5, 6, 7⟩, ⟨0⟩⟩ 40 ⟨1⟩,
    .beginLoad ⟨1, 2, 3, 4, ⟨5, 6, 7⟩, ⟨0⟩⟩ 40 ⟨2⟩, .cancelWaiter ⟨0⟩ ⟨1⟩,
    .beginLoad ⟨1, 2, 3, 4, ⟨5, 6, 7⟩, ⟨0⟩⟩ 40 ⟨1⟩]

theorem load_safety_of_rejoining : LoadSafety rejoining ⟨0⟩ .success :=
  load_safety rejoining ⟨0⟩ .success (by decide +kernel)

/-! ## A waiter that asks again -/

/-- Someone's very first join, whatever they did since. -/
def FirstRequest (events : List (Attendance SessionId)) (session : SessionId) (n : ℕ) : Prop :=
  events[n]? = some (.join session) ∧ ∀ k, k < n → events[k]? ≠ some (.join session)

/-- The sessions stand in the order of their very first joins. -/
def InRequestOrder (events : List (Attendance SessionId)) (sessions : List SessionId) : Prop :=
  sessions.Pairwise (fun a b =>
    ∀ i j, FirstRequest events a i → FirstRequest events b j → i < j)

/-- **A waiter that cancels and asks again loses its place.** The first
session asked first, and is woken last. -/
theorem rejoined_out_of_order : ∃ generation wakes,
      ((machine.run new rejoining).completeLoad ⟨⟨0⟩, .success⟩).1
          = .ok (.published generation wakes)
        ∧ ¬ InRequestOrder (requests ⟨0⟩ rejoining) (wakes.map LoadWake.session) := by
  refine ⟨⟨0⟩, [⟨⟨2⟩, .inl ⟨⟨0⟩, ⟨1, 2, 3, 4, ⟨5, 6, 7⟩, ⟨0⟩⟩, ⟨0⟩, ⟨2⟩⟩⟩,
      ⟨⟨1⟩, .inl ⟨⟨1⟩, ⟨1, 2, 3, 4, ⟨5, 6, 7⟩, ⟨0⟩⟩, ⟨0⟩, ⟨1⟩⟩⟩], by decide +kernel, fun h => ?_⟩
  have hreq : requests ⟨0⟩ rejoining
      = [.join ⟨1⟩, .join ⟨2⟩, .leave ⟨1⟩, .join ⟨1⟩] := by decide +kernel
  rw [hreq] at h
  have hsec : FirstRequest [.join ⟨1⟩, .join ⟨2⟩, .leave ⟨1⟩, .join ⟨1⟩] ⟨2⟩ 1 := by
    refine ⟨rfl, fun k hk => ?_⟩
    obtain rfl : k = 0 := by omega
    simp
  have hfst : FirstRequest [.join ⟨1⟩, .join ⟨2⟩, .leave ⟨1⟩, .join ⟨1⟩] ⟨1⟩ 0 :=
    ⟨rfl, fun k hk => absurd hk (Nat.not_lt_zero k)⟩
  exact absurd ((List.pairwise_cons.mp h).1 ⟨1⟩ List.mem_cons_self 1 0 hsec hfst)
    (Nat.not_lt_zero 1)

/-! ## Where the identifiers run out

Identifiers are advanced by `saturating_add`: the last one is given out again
and again. What happens then is the same for loads that take no room, of which
there can be as many as there are keys. -/

/-- One of arbitrarily many keys of a pool. -/
def numberedKey (package i : ℕ) : ExpertKey := ⟨i, package, 0, 0, ⟨0, 0, 0⟩, ⟨0⟩⟩

/-- **A manager that has room for loads without bytes**, and the identifiers
it gives out next. -/
structure Roomy (load lease : ℕ) (m : ResidencyManager) : Prop where
  nextLoad : m.nextLoad = load
  nextLease : m.nextLease = lease
  room : ∃ stats, m.pools.lookup ⟨0⟩ = some stats
    ∧ stats.residentBytes + stats.reservedLoadingBytes = 0

section Roomy

variable {load lease package i : ℕ}

theorem Roomy.start (h : Roomy load lease m)
    (he : m.entries.lookup (numberedKey package i) = none) (waiter : SessionId) :
    ∃ d, m.beginLoad (numberedKey package i) 0 waiter = (.ok (.started ⟨load⟩), d)
      ∧ Roomy (saturatingAdd u64Max load 1) lease d
      ∧ d.entries = m.entries.insert (numberedKey package i)
        ⟨.loading ⟨load⟩, 0, [waiter], 0, m.tick.1⟩
      ∧ d.loads = m.loads.insert ⟨load⟩ (numberedKey package i) := by
  obtain ⟨rfl, hls, stats, hs, hrm⟩ := h
  exact ⟨_, beginLoad_of_vacant 0 waiter he hs (by omega),
    ⟨rfl, hls, _, lookup_insert_self _ _ _, hrm⟩, rfl, rfl⟩

theorem Roomy.join (h : Roomy load lease m)
    (he : m.entries.lookup (numberedKey package i) = some entry)
    (hst : entry.state = .loading loadId) (hbytes : entry.bytes = 0) (waiter : SessionId) :
    ∃ d, m.beginLoad (numberedKey package i) 0 waiter = (.ok (.joined loadId), d)
      ∧ Roomy load lease d
      ∧ d.entries = m.entries.insert (numberedKey package i) (entry.join waiter)
      ∧ d.loads = m.loads := by
  obtain ⟨hld, hls, stats, hs, hrm⟩ := h
  rw [← hbytes, beginLoad_of_loading waiter he hst hs]
  exact ⟨_, rfl, ⟨hld, hls, _, lookup_insert_self _ _ _, hrm⟩, rfl, rfl⟩

theorem Roomy.succeed (h : Roomy load lease m)
    (hl : m.loads.lookup loadId = some (numberedKey package i))
    (he : m.entries.lookup (numberedKey package i) = some entry)
    (hst : entry.state = .loading loadId) (hbytes : entry.bytes = 0) :
    ∃ d generation, m.completeLoad ⟨loadId, .success⟩ = (.ok (.published generation
          (grant (numberedKey package i) generation entry.waiters lease m.leases).1), d)
      ∧ Roomy load (grant (numberedKey package i) generation entry.waiters lease m.leases).2.1 d
      ∧ d.state (numberedKey package i) = .resident generation
      ∧ ∀ key, key ≠ numberedKey package i → d.entries.lookup key = m.entries.lookup key := by
  obtain ⟨hld, rfl, stats, hs, hrm⟩ := h
  have hrm' : stats.residentBytes + entry.bytes + (stats.reservedLoadingBytes - entry.bytes) = 0 :=
    by omega
  exact ⟨_, _, completeLoad_of_success hl he hst hs, ⟨hld, rfl, _, lookup_insert_self _ _ _, hrm'⟩,
    (state_rewrite rfl _).trans (if_pos rfl), fun key hne => lookup_insert_ne _ _ hne⟩

end Roomy

/-- One key after another is loaded, without taking any room. -/
def loadsInTurn : ℕ → List ResidencyOp
  | 0 => [.addPool ⟨0⟩ 0]
  | n + 1 => loadsInTurn n ++
    [.beginLoad (numberedKey 0 n) 0 ⟨0⟩, .completeLoad ⟨⟨n⟩, .success⟩]

/-- **Every load takes an identifier, and so does every lease**, while there
are any left. -/
theorem roomy_loadsInTurn {n : ℕ} (hn : n ≤ u64Max) :
    Roomy n n (machine.run new (loadsInTurn n)) ∧ (∀ package i, package ≠ 0 ∨ n ≤ i →
      (machine.run new (loadsInTurn n)).entries.lookup (numberedKey package i) = none)
    ∧ ∀ i, i < n → ∃ generation,
      (machine.run new (loadsInTurn n)).state (numberedKey 0 i) = .resident generation := by
  induction n with
  | zero =>
    exact ⟨⟨rfl, rfl, _, lookup_insert_self _ _ _, rfl⟩, fun _ _ _ => rfl,
      fun i hi => absurd hi (Nat.not_lt_zero i)⟩
  | succ n ih =>
    obtain ⟨h, hvac, hres⟩ := ih (by omega)
    rw [loadsInTurn, Machine.run_append]
    generalize machine.run new (loadsInTurn n) = m at h hvac hres
    have hnex : saturatingAdd u64Max n 1 = n + 1 := Nat.min_eq_left hn
    obtain ⟨d, hbeg, hd, hents, hlds⟩ := h.start (hvac 0 n (Or.inr le_rfl)) ⟨0⟩
    obtain ⟨d', generation, hcpl, hd', hst, hkep⟩ :=
      hd.succeed (by rw [hlds]; exact lookup_insert_self _ _ _)
        (by rw [hents]; exact lookup_insert_self _ _ _) rfl rfl
    have hrun : machine.run m
        [.beginLoad (numberedKey 0 n) 0 ⟨0⟩, .completeLoad ⟨⟨n⟩, .success⟩] = d' := by
      show ((m.beginLoad (numberedKey 0 n) 0 ⟨0⟩).2.completeLoad ⟨⟨n⟩, .success⟩).2 = d'
      rw [hbeg, hcpl]
    have hfr : ∀ package i, package ≠ 0 ∨ i ≠ n →
        d'.entries.lookup (numberedKey package i) = m.entries.lookup (numberedKey package i) := by
      intro package i hi
      have hne : numberedKey package i ≠ numberedKey 0 n := by
        intro heq
        have hmod : i = n := congrArg ExpertKey.model heq
        have hpac : package = 0 := congrArg ExpertKey.package heq
        omega
      rw [hkep _ hne, hents, lookup_insert_ne _ _ hne]
    rw [hrun]
    rw [← hnex]
    refine ⟨hd', fun package i hi => ?_, fun i hi => ?_⟩
    · rw [hfr package i (by omega)]
      exact hvac package i (by omega)
    · rcases Nat.lt_succ_iff_lt_or_eq.mp (hnex ▸ hi) with hlt | rfl
      · obtain ⟨generation, hear⟩ := hres i hlt
        refine ⟨generation, ?_⟩
        unfold state at hear ⊢
        rw [hfr 0 i (Or.inr hlt.ne), hear]
      · exact ⟨generation, hst⟩

/-- Three sessions ask for two keys. -/
def contending : List ResidencyOp :=
  [.beginLoad (numberedKey 1 0) 0 ⟨1⟩, .beginLoad (numberedKey 2 0) 0 ⟨2⟩,
    .beginLoad (numberedKey 2 0) 0 ⟨3⟩]

/-- **Loads beyond the last identifier share it**, and so do leases: one
session is never woken, and two hold one lease between them. -/
theorem Roomy.contended (h : Roomy u64Max u64Max m)
    (hvac : ∀ package, package ≠ 0 → m.entries.lookup (numberedKey package 0) = none) :
    machine.gather (fun m op => [machine.out m op]) m contending
        = [.load (.ok (.started ⟨u64Max⟩)), .load (.ok (.started ⟨u64Max⟩)),
          .load (.ok (.joined ⟨u64Max⟩))]
    ∧ ∃ generation, ((machine.run m contending).completeLoad ⟨⟨u64Max⟩, .success⟩).1
        = .ok (.published generation [⟨⟨2⟩, .inl ⟨⟨u64Max⟩, numberedKey 2 0, generation, ⟨2⟩⟩⟩,
            ⟨⟨3⟩, .inl ⟨⟨u64Max⟩, numberedKey 2 0, generation, ⟨3⟩⟩⟩]) := by
  have hlas : saturatingAdd u64Max u64Max 1 = u64Max := rfl
  obtain ⟨d₁, hfst, h₁, hents₁, -⟩ := h.start (hvac 1 (by omega)) ⟨1⟩
  rw [hlas] at h₁
  have hvac₁ : d₁.entries.lookup (numberedKey 2 0) = none := by
    rw [hents₁, lookup_insert_ne _ _ (by simp [numberedKey])]
    exact hvac 2 (by omega)
  obtain ⟨d₂, hsec, h₂, hents₂, hlds₂⟩ := h₁.start hvac₁ ⟨2⟩
  rw [hlas] at h₂
  obtain ⟨d₃, hth, h₃, hents₃, hlds₃⟩ := h₂.join
    (by rw [hents₂]; exact lookup_insert_self _ _ _) rfl rfl ⟨3⟩
  obtain ⟨d₄, generation, hcpl, -, -, -⟩ := h₃.succeed
    (by rw [hlds₃, hlds₂]; exact lookup_insert_self _ _ _)
    (by rw [hents₃]; exact lookup_insert_self _ _ _) rfl rfl
  have hrun : machine.run m contending = d₃ := by
    show (((m.beginLoad (numberedKey 1 0) 0 ⟨1⟩).2.beginLoad (numberedKey 2 0) 0 ⟨2⟩).2.beginLoad
      (numberedKey 2 0) 0 ⟨3⟩).2 = d₃
    rw [hfst, hsec, hth]
  refine ⟨?_, generation, ?_⟩
  · show ([.load (m.beginLoad (numberedKey 1 0) 0 ⟨1⟩).1,
      .load ((m.beginLoad (numberedKey 1 0) 0 ⟨1⟩).2.beginLoad (numberedKey 2 0) 0 ⟨2⟩).1,
      .load (((m.beginLoad (numberedKey 1 0) 0 ⟨1⟩).2.beginLoad (numberedKey 2 0) 0 ⟨2⟩).2.beginLoad
        (numberedKey 2 0) 0 ⟨3⟩).1] : List ResidencyOutcome) = _
    rw [hfst, hsec, hth]
  · rw [hrun, hcpl]
    rfl

/-- **The two exceptions.** A waiter that cancels and asks again is not woken
in the order of its first request; and after `u64::MAX` loads, a session that
was told its load has started is not woken by the completion of that load
identifier, and the others get one lease identifier twice. -/
theorem delivery_exceptions : (∃ generation wakes,
      ((machine.run new rejoining).completeLoad ⟨⟨0⟩, .success⟩).1
          = .ok (.published generation wakes)
        ∧ ¬ InRequestOrder (requests ⟨0⟩ rejoining) (wakes.map LoadWake.session))
    ∧ machine.gather (fun m op => [machine.out m op]) (machine.run new (loadsInTurn u64Max))
        contending = [.load (.ok (.started ⟨u64Max⟩)), .load (.ok (.started ⟨u64Max⟩)),
        .load (.ok (.joined ⟨u64Max⟩))] ∧ ∃ generation,
      ((machine.run new (loadsInTurn u64Max ++ contending)).completeLoad ⟨⟨u64Max⟩, .success⟩).1
      = .ok (.published generation [⟨⟨2⟩, .inl ⟨⟨u64Max⟩, numberedKey 2 0, generation, ⟨2⟩⟩⟩,
          ⟨⟨3⟩, .inl ⟨⟨u64Max⟩, numberedKey 2 0, generation, ⟨3⟩⟩⟩]) := by
  obtain ⟨hrmy, hvac, -⟩ := roomy_loadsInTurn (le_refl u64Max)
  rw [Machine.run_append]
  exact ⟨rejoined_out_of_order, hrmy.contended (fun package hne => hvac package 0 (Or.inl hne))⟩

end ResidencyManager

end Logan
