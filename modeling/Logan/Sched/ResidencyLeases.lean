import Logan.Sched.ResidencyAccounts
import Logan.Util.Ledger

/-!
# Leases are honoured, and generations only grow

A lease is a single-use token: it is issued by `acquire`, or to each waiter
when a load succeeds, and consumed by the release that succeeds. The manager
keeps the ledger of its leases as its table of lease records
(`Transition.leasePosts`), so a lease that was issued and not yet released
has its record, and a record pins its entry: that is the accounting
invariant of `Logan.Sched.ResidencyAccounts`.

A lease value may be presented long after its entry is gone. What keeps a
late release from touching newer data is that identifiers are not reissued,
and that the generation counter of a key outlives the entry
(`Transition.numbers`).
-/

namespace Logan

open List Table

/-- What the manager records of a lease. -/
def Lease.record (lease : Lease) : ExpertKey × Generation × SessionId :=
  (lease.key, lease.generation, lease.owner)

/-- A lease is issued. -/
def Lease.posting (lease : Lease) : Posting LeaseId (ExpertKey × Generation × SessionId) :=
  .issue lease.id lease.record

/-- The leases carried by wakes. -/
def wakeLeases (wakes : List LoadWake) : List Lease :=
  wakes.filterMap (fun wake => wake.result.getLeft?)

/-- The leases an answer hands out, in order. -/
def ResidencyOutcome.leases : ResidencyOutcome → List Lease
  | .lease (.ok l) => [l]
  | .completion (.ok (.published _ wakes)) => wakeLeases wakes
  | _ => []

/-- **What an operation does to the leases**, given its answer. -/
def leasePostings (op : ResidencyOp) (out : ResidencyOutcome) :
    List (Posting LeaseId (ExpertKey × Generation × SessionId)) :=
  match op, out with
  | .release lease, .released (.ok _) => [.consume lease.id]
  | _, out => out.leases.map Lease.posting

/-- A refusal hands out nothing. -/
theorem ResidencyOutcome.leases_of_refusal {out : ResidencyOutcome} (h : out.IsRefusal) :
    out.leases = [] := by
  unfold ResidencyOutcome.leases
  split
  · exact absurd h id
  · exact absurd h id
  · rfl

theorem leasePostings_of_refusal {op : ResidencyOp} {out : ResidencyOutcome}
    (h : out.IsRefusal) : leasePostings op out = [] := by
  unfold leasePostings
  split
  · exact absurd h id
  · rw [ResidencyOutcome.leases_of_refusal h]
    rfl

namespace ResidencyManager

variable {m d : ResidencyManager} {key : ExpertKey} {op : ResidencyOp} {out : ResidencyOutcome}
variable {l : Ledger LeaseId (ExpertKey × Generation × SessionId)}

/-! ## The ledger of leases -/

/-- Granting leases to waiters issues them one by one. -/
theorem grant_posts (generation : Generation) (waiters : List SessionId) {leases : LeaseTable}
    {next : ℕ} (h : l.Kept LeaseId.val leases next)
    (hlim : (grant key generation waiters next leases).2.1 < u64Max) : ∃ l', l.postAll
        ((wakeLeases (grant key generation waiters next leases).1).map Lease.posting) = some l'
      ∧ l'.Kept LeaseId.val (grant key generation waiters next leases).2.2
        (grant key generation waiters next leases).2.1 := by
  induction waiters generalizing l leases next with
  | nil => exact ⟨l, rfl, h⟩
  | cons session sessions ih =>
    have hst := grant_step hlim
    rw [hst] at hlim ⊢
    obtain ⟨l₁, hl₁, h₁⟩ := h.issue (t := ⟨next⟩) rfl (key, generation, session)
    obtain ⟨l₂, hl₂, h₂⟩ := ih h₁ hlim
    refine ⟨l₂, ?_, h₂⟩
    show (l.post (.issue ⟨next⟩ (key, generation, session))).bind _ = _
    rwa [hl₁]

/-- **The ledger of leases accepts what every transition posts.** -/
theorem Transition.leasePosts (ht : m.Transition op out d)
    (h : l.Kept LeaseId.val m.leases m.nextLease) (hlim : d.LeaseIdLimit) :
    ∃ l', l.postAll (leasePostings op out) = some l' ∧
      l'.Kept LeaseId.val d.leases d.nextLease := by
  cases ht with
  | started key bytes waiter d stats hev =>
    obtain ⟨-, -, hlss, hnex, -⟩ := hev.frame
    exact ⟨l, rfl, by rw [← hlss, ← hnex] at h; exact h⟩
  | crowded key bytes waiter _ e hev =>
    obtain ⟨-, -, hlss, hnex, -⟩ := hev.frame
    exact ⟨l, rfl, by rw [← hlss, ← hnex] at h; exact h⟩
  | published => exact grant_posts _ _ h hlim
  | acquired key owner entry stats generation =>
    obtain ⟨l', hl', h'⟩ := h.issue (t := ⟨m.nextLease⟩) rfl (key, generation, owner)
    rw [← saturatingAdd_of_lt hlim] at h'
    exact ⟨l', (l.postAll_singleton _).trans hl', h'⟩
  | released lease owner entry stats hl =>
    obtain ⟨l', hl', h'⟩ := h.consume hl
    exact ⟨l', (l.postAll_singleton _).trans hl', h'⟩
  | evicted key _ hev =>
    cases hev
    exact ⟨l, rfl, h⟩
  | refused _ _ hout =>
    rw [leasePostings_of_refusal hout]
    exact ⟨l, rfl, h⟩
  | _ => exact ⟨l, rfl, h⟩

/-- **The history of the leases of a run**, oldest first. -/
def leaseHistory (ops : List ResidencyOp) :
    List (Posting LeaseId (ExpertKey × Generation × SessionId)) :=
  machine.gather (fun m op => leasePostings op (machine.out m op)) new ops

/-- The ledger accepts the history of every run, and the manager keeps it as
its table of lease records. -/
theorem leases_run {ops : List ResidencyOp} (hlim : machine.Within LeaseIdLimit new ops) :
    ∃ l, Ledger.blank.postAll (leaseHistory ops) = some l
      ∧ l.Kept LeaseId.val (machine.run new ops).leases (machine.run new ops).nextLease := by
  obtain ⟨l, hl, -, hkep⟩ := Machine.gather_replays (M := machine)
    (fun l m => m.Placed ∧ l.Kept LeaseId.val m.leases m.nextLease)
    (fun l m op ⟨hpl, hkep⟩ hnex => by
      have ht := execute_transition hpl op
      obtain ⟨l', hl', h'⟩ := ht.leasePosts hkep hnex
      exact ⟨l', hl', ht.placed hpl, h'⟩)
    ⟨placed_new, Ledger.kept_blank LeaseId.val⟩ hlim
  exact ⟨l, hl, hkep⟩

/-- Leases are only issued and consumed. -/
theorem revoke_not_mem_leaseHistory (ops : List ResidencyOp) (id : LeaseId) :
    .revoke id ∉ leaseHistory ops := by
  intro h
  obtain ⟨before, op, after, -, hmem⟩ := Machine.exists_step_of_mem_gather h
  unfold leasePostings at hmem
  split at hmem
  · simp at hmem
  · simp [Lease.posting] at hmem

/-- **A lease has its record exactly while it is issued and not released.** -/
theorem lookup_leases_iff {ops : List ResidencyOp} (hlim : machine.Within LeaseIdLimit new ops)
    (id : LeaseId) (record : ExpertKey × Generation × SessionId) :
    (machine.run new ops).leases.lookup id = some record
      ↔ .issue id record ∈ leaseHistory ops ∧ .consume id ∉ leaseHistory ops := by
  obtain ⟨l, hl, hkep⟩ := leases_run hlim
  rw [hkep.lookup_iff hl]
  exact ⟨fun h => ⟨h.1, h.2.1⟩, fun h => ⟨h.1, h.2, revoke_not_mem_leaseHistory ops id⟩⟩

/-! ## A lease pins its entry -/

theorem Leased.state_eq (h : m.Leased) {id : LeaseId} {generation : Generation}
    {owner : SessionId} (hl : m.leases.lookup id = some (key, generation, owner)) :
    m.state key = .resident generation :=
  (m.state_eq_resident_iff key generation).mpr (h.live id key generation owner hl)

/-- **Neither `evict` nor the evictions of `begin_load` touch an entry with
a lease.** -/
theorem Transition.pinned (ht : m.Transition op out d) (h : m.Leased)
    (hop : (∃ pool, op = .evict pool) ∨ ∃ j bytes waiter, op = .beginLoad j bytes waiter)
    {id : LeaseId} {generation : Generation} {owner : SessionId}
    (hl : m.leases.lookup id = some (key, generation, owner)) :
    d.state key = .resident generation := by
  cases ht with
  | hit j bytes waiter entry stats g he =>
    exact (state_of_same he { entry with lastTouch := m.tick.1 } rfl rfl key).trans
      (h.state_eq hl)
  | joined j waiter entry stats loadId he =>
    exact (state_of_same he _ rfl (join_state _ _) key).trans (h.state_eq hl)
  | started j bytes waiter d stats hev hidl =>
    have hd : d.state key = .resident generation :=
      (hev.preserves Evicts.leased h).state_eq (hev.frame.2.2.1 ▸ hl)
    have hne : key ≠ j := by
      rintro rfl
      obtain ⟨e, he, hst⟩ := h.live id key generation owner hl
      exact (hidl e he).1 ⟨generation, hst⟩
    exact (state_rewrite rfl key).trans ((if_neg hne).trans hd)
  | crowded j bytes waiter _ e hev =>
    exact (hev.preserves Evicts.leased h).state_eq (hev.frame.2.2.1 ▸ hl)
  | evicted j _ hev =>
    have hlss := (Evictions.of_evicts hev).frame.2.2.1
    exact (hev.leased h).state_eq (hlss ▸ hl)
  | refused => exact h.state_eq hl
  | _ =>
    rcases hop with ⟨pool, hop⟩ | ⟨j, bytes, waiter, hop⟩ <;> cases hop

/-- **An entry with a lease is not what `evict` answers.** -/
theorem evict_ne (h : m.Leased) {id : LeaseId} {generation : Generation}
    {owner : SessionId} (hl : m.leases.lookup id = some (key, generation, owner))
    (pool : MemoryPoolId) : (m.evict pool).1 ≠ .ok (some key) := by
  intro heq
  have hst : (m.evict pool).2.state key = .resident generation :=
    (evict_transition pool).pinned h (Or.inl ⟨pool, rfl⟩) hl
  rcases m.evict_cases pool with ⟨j, d, hev, -, hevi, -⟩ | ⟨hev, -⟩ | ⟨e, hev, -⟩
  · rw [hev] at heq hst
    obtain rfl : j = key := Option.some.inj (Except.ok.inj heq)
    cases hevi with
    | evicted =>
      rw [state_of_absent (lookup_erase_self _ _)] at hst
      cases hst
  · rw [hev] at heq
    exact absurd (Except.ok.inj heq) (by simp)
  · rw [hev] at heq
    cases heq

/-! ## The life of a record -/

/-- **A record stays until its own lease is released.** -/
theorem Transition.record_kept (ht : m.Transition op out d) (hlim : d.LeaseIdLimit)
    {id : LeaseId} {record : ExpertKey × Generation × SessionId} (hlt : id.val < m.nextLease)
    (hl : m.leases.lookup id = some record)
    (hop : ∀ lease, op = .release lease → lease.id ≠ id) : d.leases.lookup id = some record := by
  cases ht with
  | started key bytes waiter d stats hev =>
    have hlss : d.leases = m.leases := hev.frame.2.2.1
    exact (congrArg (AList.lookup id) hlss).trans hl
  | crowded key bytes waiter _ e hev =>
    have hlss : d.leases = m.leases := hev.frame.2.2.1
    exact (congrArg (AList.lookup id) hlss).trans hl
  | published =>
    exact (lookup_grant _ _ hlim id).trans ((if_pos hlt).trans hl)
  | acquired =>
    have hne : id ≠ ⟨m.nextLease⟩ := fun heq => by
      rw [heq] at hlt
      exact Nat.lt_irrefl _ hlt
    exact (lookup_insert_ne _ _ hne).trans hl
  | released lease =>
    exact (lookup_erase_ne _ (fun heq => hop lease rfl heq.symm)).trans hl
  | evicted key _ hev =>
    cases hev
    exact hl
  | _ => exact hl

/-- **A lease handed out gets a new identifier**, and identifiers only
grow. -/
theorem Transition.leases_fresh (ht : m.Transition op out d) (hlim : d.LeaseIdLimit) :
    m.nextLease ≤ d.nextLease
      ∧ ∀ lease ∈ out.leases, m.nextLease ≤ lease.id.val ∧ lease.id.val < d.nextLease := by
  have hnon {n k : ℕ} (hsam : k = n) :
      n ≤ k ∧ ∀ lease ∈ ([] : List Lease), n ≤ lease.id.val ∧ lease.id.val < k :=
    ⟨hsam.ge, fun _ hmem => absurd hmem not_mem_nil⟩
  cases ht with
  | started key bytes waiter d stats hev => exact hnon hev.frame.2.2.2.1
  | crowded key bytes waiter _ e hev => exact hnon hev.frame.2.2.2.1
  | published loadId key entry =>
    obtain ⟨hwak, hnex⟩ := grant_wakes (m.upcoming key) entry.waiters hlim
    have hsum : (m.granted key entry).2.1 = m.nextLease + entry.waiters.length := hnex
    refine ⟨(Nat.le_add_right _ _).trans_eq hsum.symm, fun lease hmem => ?_⟩
    obtain ⟨wake, hwk, hls⟩ := mem_filterMap.mp hmem
    rw [show (m.granted key entry).1 = _ from hwak, mem_mapIdx] at hwk
    obtain ⟨i, hi, rfl⟩ := hwk
    obtain rfl : _ = lease := Option.some.inj hls
    show m.nextLease ≤ m.nextLease + i ∧ m.nextLease + i < (m.granted key entry).2.1
    omega
  | acquired key owner entry stats generation he hst hs =>
    have hnex : saturatingAdd u64Max m.nextLease 1 = m.nextLease + 1 :=
      saturatingAdd_of_lt hlim
    refine ⟨(Nat.le_succ _).trans_eq hnex.symm, fun lease hmem => ?_⟩
    rw [mem_singleton.mp hmem]
    exact ⟨le_rfl, (Nat.lt_succ_self _).trans_eq hnex.symm⟩
  | evicted key _ hev =>
    cases hev
    exact hnon rfl
  | refused _ _ hout =>
    rw [ResidencyOutcome.leases_of_refusal hout]
    exact hnon rfl
  | _ => exact hnon rfl

/-- **What `acquire` does**: on a resident key it takes the next identifier,
and on any other key nothing. -/
theorem acquire_cases (hpl : m.Placed) (key : ExpertKey) (owner : SessionId) :
    (∃ generation d, m.acquire key owner = (.ok ⟨⟨m.nextLease⟩, key, generation, owner⟩, d)
        ∧ m.state key = .resident generation
        ∧ d.leases = m.leases.insert ⟨m.nextLease⟩ (key, generation, owner)
        ∧ ∀ j, d.state j = m.state j) ∨ ∃ e, m.acquire key owner = (.error e, m) := by
  by_cases hres : ∃ generation, m.state key = .resident generation
  · obtain ⟨generation, hst⟩ := hres
    obtain ⟨entry, he, hent⟩ := (m.state_eq_resident_iff key generation).mp hst
    obtain ⟨stats, hs⟩ := hpl key entry he
    exact Or.inl ⟨generation, _, acquire_of_resident owner he hent hs, hst, rfl,
      state_of_same he _ rfl rfl⟩
  · exact Or.inr ⟨_, acquire_of_other owner (fun generation hst => hres ⟨generation, hst⟩)⟩

/-- **A recorded lease can be released.** -/
theorem release_of_recorded (hpl : m.Placed) (h : m.Leased) {lease : Lease}
    (hl : m.leases.lookup lease.id = some lease.record) :
    ∃ d, m.release lease = (.ok (), d) ∧ d.leases = m.leases.erase lease.id
      ∧ ∀ j, d.state j = m.state j := by
  obtain ⟨entry, he, hst⟩ := h.live _ _ _ _ hl
  obtain ⟨stats, hs⟩ := hpl lease.key entry he
  exact ⟨_, release_of_resident hl he hst hs, rfl, state_of_same he _ rfl rfl⟩

/-! ## Generations -/

/-- The generations an operation publishes for a key, given its answer. -/
def publishedFor (m : ResidencyManager) (key : ExpertKey) (op : ResidencyOp)
    (out : ResidencyOutcome) : List Generation :=
  match op, out with
  | .completeLoad completion, .completion (.ok (.published generation _)) =>
    if m.loads.lookup completion.loadId = some key then [generation] else []
  | _, _ => []

/-- **The generations published for a key in a run**, oldest first. -/
def publications (key : ExpertKey) (ops : List ResidencyOp) : List Generation :=
  machine.gather (fun m op => m.publishedFor key op (machine.out m op)) new ops

/-- **A publication takes the key's next generation**, and nothing else
moves the counter. -/
theorem Transition.numbers (ht : m.Transition op out d) (key : ExpertKey)
    (hlim : d.GenerationLimit) :
    (m.publishedFor key op out = [] ∧ d.upcoming key = m.upcoming key)
    ∨ (m.publishedFor key op out = [m.upcoming key]
      ∧ (d.upcoming key).val = (m.upcoming key).val + 1) := by
  cases ht with
  | started j bytes waiter d stats hev =>
    exact Or.inl ⟨rfl, congrArg (fun t => Generation.mk ((t.lookup key).getD 0))
      hev.frame.2.2.2.2.1⟩
  | crowded j bytes waiter _ e hev =>
    exact Or.inl ⟨rfl, congrArg (fun t => Generation.mk ((t.lookup key).getD 0))
      hev.frame.2.2.2.2.1⟩
  | published loadId j entry stats hl =>
    have hst : saturatingAdd u64Max (m.upcoming j).val 1 = (m.upcoming j).val + 1 :=
      saturatingAdd_of_lt (hlim _
        (AList.mem_lookup_iff.mp (lookup_insert_self m.nextGeneration j _)))
    have hpub : m.publishedFor key (.completeLoad ⟨loadId, .success⟩)
          (.completion (.ok (.published (m.upcoming j) (m.granted j entry).1)))
        = if j = key then [m.upcoming j] else [] := by
      simp only [publishedFor, hl, Option.some.injEq]
    have hupc : (m.published loadId j entry stats).upcoming key
        = if key = j then ⟨(m.upcoming j).val + 1⟩ else m.upcoming key := by
      show Generation.mk (((m.nextGeneration.insert j
        (saturatingAdd u64Max (m.upcoming j).val 1)).lookup key).getD 0) = _
      rw [lookup_insert]
      by_cases hj : key = j
      · rw [if_pos hj, if_pos hj]
        exact congrArg Generation.mk hst
      · rw [if_neg hj, if_neg hj]
        rfl
    rw [hpub, hupc]
    by_cases hj : j = key
    · rw [if_pos hj, if_pos hj.symm, hj]
      exact Or.inr ⟨rfl, rfl⟩
    · rw [if_neg hj, if_neg (fun hk => hj hk.symm)]
      exact Or.inl ⟨rfl, rfl⟩
  | evicted j _ hev =>
    cases hev
    exact Or.inl ⟨rfl, rfl⟩
  | refused _ _ hout _ =>
    refine Or.inl ⟨?_, rfl⟩
    unfold publishedFor
    split
    · exact absurd hout id
    · rfl
  | _ => exact Or.inl ⟨rfl, rfl⟩

/-- **The generations published for a key grow**, across evictions, failed
loads and reloads. -/
theorem publications_increasing {ops : List ResidencyOp}
    (hlim : machine.Within GenerationLimit new ops) (key : ExpertKey) :
    (publications key ops).Pairwise (· < ·) := by
  refine (Machine.gather_pairwise (M := machine) (P := Placed)
    (C := fun m op => (machine.next m op).GenerationLimit)
    (fun m generation => (m.upcoming key).val ≤ generation.val)
    (fun m op h _ => (execute_transition h op).placed h) ?_ ?_ ?_ placed_new hlim).1
  · intro m op h hnex
    rcases (execute_transition h op).numbers key hnex with ⟨hnon, -⟩ | ⟨hone, -⟩
    · exact (congrArg (List.Pairwise (· < ·)) hnon).mpr List.Pairwise.nil
    · exact (congrArg (List.Pairwise (· < ·)) hone).mpr (pairwise_singleton _ _)
  · intro m op h hnex generation hmem
    rcases (execute_transition h op).numbers key hnex with ⟨hnon, -⟩ | ⟨hone, -⟩
    · exact absurd (hnon ▸ hmem) not_mem_nil
    · have heq := mem_singleton.mp (hone ▸ hmem)
      exact le_of_eq (congrArg Generation.val heq.symm)
  · intro m op h hnex generation hle
    change ((m.execute op).2.upcoming key).val ≤ generation.val at hle
    rcases (execute_transition h op).numbers key hnex with ⟨hnon, hsam⟩ | ⟨hone, hmor⟩
    · rw [hsam] at hle
      exact ⟨hle, fun g hmem => absurd (hnon ▸ hmem) not_mem_nil⟩
    · rw [hmor] at hle
      refine ⟨Nat.le_of_succ_le hle, fun g hmem => ?_⟩
      have heq := mem_singleton.mp (hone ▸ hmem)
      rwa [heq]

/-! ## Releases -/

/-- **What a successful release does**: it removes the lease's record and
takes one off the counter of the entry the lease was issued for, and nothing
else. -/
structure Released (m : ResidencyManager) (lease : Lease) (d : ResidencyManager) : Prop where
  recorded : ∃ owner, m.leases.lookup lease.id = some (lease.key, lease.generation, owner)
  removed : ∀ id, d.leases.lookup id = if id = lease.id then none else m.leases.lookup id
  counted : ∃ e, m.entries.lookup lease.key = some e ∧ e.state = .resident lease.generation
    ∧ 0 < e.leases ∧ d.entries.lookup lease.key = some { e with leases := e.leases - 1 }
  others : ∀ key, key ≠ lease.key → d.entries.lookup key = m.entries.lookup key

theorem release_released (hpl : m.Placed) (h : m.Leased) (lease : Lease)
    (hok : (m.release lease).1 = .ok ()) : Released m lease (m.release lease).2 := by
  have ht := release_transition hpl lease
  rw [hok] at ht
  generalize (m.release lease).2 = d at ht
  cases ht with
  | released _ owner entry stats hl he hst =>
    refine ⟨⟨owner, hl⟩, fun id => lookup_erase _ _ _, ⟨entry, he, hst, ?_, ?_⟩, ?_⟩
    · have hles := leasesOn_erase hl lease.key
      rw [if_pos rfl, ← h.counted lease.key entry he] at hles
      omega
    · exact lookup_insert_self _ _ _
    · exact fun key hne => lookup_insert_ne _ _ hne
  | refused _ _ hout => exact absurd hout id

/-- **What the leases of a run can rely on.** -/
structure LeaseSafety (ops : List ResidencyOp) : Prop where
  /-- While a lease is not released, its entry stays resident at its
  generation. -/
  held : ∀ id key generation owner, .issue id (key, generation, owner) ∈ leaseHistory ops →
    .consume id ∉ leaseHistory ops → (machine.run new ops).state key = .resident generation
  /-- In particular no eviction takes it, be it asked for or made by
  `begin_load` in search of space. -/
  pinned : ∀ id key generation owner, .issue id (key, generation, owner) ∈ leaseHistory ops →
    .consume id ∉ leaseHistory ops →
    (∀ pool, ((machine.run new ops).evict pool).1 ≠ .ok (some key)
      ∧ ((machine.run new ops).evict pool).2.state key = .resident generation)
    ∧ ∀ j bytes waiter,
      ((machine.run new ops).beginLoad j bytes waiter).2.state key = .resident generation
  /-- The generations published for a key are strictly increasing. -/
  increasing : ∀ key, (publications key ops).Pairwise (· < ·)
  /-- A successful release takes back one lease that was issued and not
  released, for the key and the generation it was issued for. -/
  released : ∀ lease, ((machine.run new ops).release lease).1 = .ok () →
    Released (machine.run new ops) lease ((machine.run new ops).release lease).2
      ∧ (∃ owner, .issue lease.id (lease.key, lease.generation, owner) ∈ leaseHistory ops)
      ∧ .consume lease.id ∉ leaseHistory ops
  /-- A lease that was released cannot be released again. -/
  again : ∀ lease, .consume lease.id ∈ leaseHistory ops →
    (machine.run new ops).release lease
      = (.error (.unknownLease lease.id), machine.run new ops)
  /-- Neither can a lease with another key or another generation. -/
  mismatched : ∀ lease key generation owner,
    .issue lease.id (key, generation, owner) ∈ leaseHistory ops →
    key ≠ lease.key ∨ generation ≠ lease.generation →
    ∃ e, (machine.run new ops).release lease = (.error e, machine.run new ops)

/-- The counters of leases and generations are within their limits. -/
def LeaseCounterLimit (m : ResidencyManager) : Prop := m.LeaseLimit ∧ m.GenerationLimit

instance : DecidablePred LeaseCounterLimit := fun m =>
  inferInstanceAs (Decidable (m.LeaseLimit ∧ m.GenerationLimit))

/-- **Leases are honoured along every run** whose counters of leases and
generations stay within their limits. -/
theorem lease_safety (ops : List ResidencyOp)
    (hlimit : machine.Within LeaseCounterLimit new ops) : LeaseSafety ops := by
  have hlss : machine.Within LeaseLimit new ops := hlimit.mono (fun _ _ h => h.1)
  have hpl := run_placed ops
  have hlsd := run_leased hlss
  have hlkp := lookup_leases_iff (hlss.mono (fun _ _ h => h.1))
  refine
    { held := ?_
      pinned := ?_
      increasing := publications_increasing (hlimit.mono (fun _ _ h => h.2))
      released := ?_
      again := ?_
      mismatched := ?_ }
  · intro id key generation owner hiss hkep
    exact hlsd.state_eq ((hlkp id _).mpr ⟨hiss, hkep⟩)
  · intro id key generation owner hiss hkep
    have hl := (hlkp id _).mpr ⟨hiss, hkep⟩
    refine ⟨fun pool => ⟨evict_ne hlsd hl pool, ?_⟩, fun j bytes waiter => ?_⟩
    · exact (evict_transition pool).pinned hlsd (Or.inl ⟨pool, rfl⟩) hl
    · exact (beginLoad_transition hpl j bytes waiter).pinned hlsd
        (Or.inr ⟨j, bytes, waiter, rfl⟩) hl
  · intro lease hok
    have hrel := release_released hpl hlsd lease hok
    obtain ⟨owner, hl⟩ := hrel.recorded
    obtain ⟨hiss, hkep⟩ := (hlkp _ _).mp hl
    exact ⟨hrel, ⟨owner, hiss⟩, hkep⟩
  · intro lease hgon
    refine release_of_unknown ?_
    cases hl : (machine.run new ops).leases.lookup lease.id with
    | none => rfl
    | some => exact absurd hgon ((hlkp _ _).mp hl).2
  · intro lease key generation owner hiss hne
    by_cases hgon : .consume lease.id ∈ leaseHistory ops
    · cases hl : (machine.run new ops).leases.lookup lease.id with
      | none => exact ⟨_, release_of_unknown hl⟩
      | some => exact absurd hgon ((hlkp _ _).mp hl).2
    · exact ⟨_, release_of_mismatch ((hlkp _ _).mpr ⟨hiss, hgon⟩) hne⟩

/-- A key is published, its lease released, the entry evicted, and the key
published again for another session. -/
theorem lease_safety_of_reload : LeaseSafety
      [.addPool ⟨0⟩ 100, .beginLoad ⟨1, 2, 3, 4, ⟨5, 6, 7⟩, ⟨0⟩⟩ 40 ⟨1⟩,
        .completeLoad ⟨⟨0⟩, .success⟩,
        .release ⟨⟨0⟩, ⟨1, 2, 3, 4, ⟨5, 6, 7⟩, ⟨0⟩⟩, ⟨0⟩, ⟨1⟩⟩, .evict ⟨0⟩,
        .beginLoad ⟨1, 2, 3, 4, ⟨5, 6, 7⟩, ⟨0⟩⟩ 40 ⟨2⟩, .completeLoad ⟨⟨1⟩, .success⟩] :=
  lease_safety _ (by decide +kernel)

end ResidencyManager

end Logan
