import Logan.Sched.ResidencyBudget

/-!
# The accounts of the residency manager

Besides the byte counters, the manager keeps two facts twice. Who holds a
lease is kept as a record per lease and as a counter per entry
(`LeasesAgree`); which loads are outstanding is kept as a table of loads and
as the state of the entries (`LoadsAgree`). Each pair is kept in agreement by
every transition that stays within the limits of its counters, because a
fresh identifier is above all those in use and because only a resident entry
has leases.

Together with the balance of the pools this is the accounting invariant of
the manager, `reachable_accounts`: it holds in every state of every run,
whatever operations are called, with whatever arguments.
-/

namespace Logan

open List Table Option

namespace ResidencyManager

variable {m d : ResidencyManager} {key : ExpertKey} {entry entry' : Entry} {stats : PoolStats}
variable {op : ResidencyOp} {out : ResidencyOutcome}
variable {entries : Table ExpertKey Entry} {leases : LeaseTable} {loads : Table LoadId ExpertKey}
variable {next : ℕ}

/-! ## The state of a key -/

theorem state_of_lookup (he : m.entries.lookup key = some entry) : m.state key = entry.state := by
  rw [state, he]
  rfl

theorem state_of_absent (he : m.entries.lookup key = none) : m.state key = .absent := by
  rw [state, he]
  rfl

/-- What a rewrite of one entry does to the states. -/
theorem state_rewrite (hd : d.entries = m.entries.insert key entry) (j : ExpertKey) :
    d.state j = if j = key then entry.state else m.state j := by
  unfold state
  rw [hd, lookup_insert]
  by_cases hj : j = key
  · rw [if_pos hj, if_pos hj]
    rfl
  · rw [if_neg hj, if_neg hj]

/-- A rewrite that keeps the state of its entry keeps every state. -/
theorem state_of_same (he : m.entries.lookup key = some entry) (entry' : Entry)
    (hd : d.entries = m.entries.insert key entry') (hst : entry'.state = entry.state)
    (j : ExpertKey) : d.state j = m.state j := by
  rw [state_rewrite hd]
  by_cases hj : j = key
  · rw [if_pos hj, hj, state_of_lookup he, hst]
  · rw [if_neg hj]

theorem state_eq_resident_iff (m : ResidencyManager) (key : ExpertKey) (generation : Generation) :
    m.state key = .resident generation
      ↔ ∃ e, m.entries.lookup key = some e ∧ e.state = .resident generation := by
  unfold state
  cases m.entries.lookup key with
  | none | some => simp

theorem state_eq_loading_iff (m : ResidencyManager) (key : ExpertKey) (loadId : LoadId) :
    m.state key = .loading loadId
      ↔ ∃ e, m.entries.lookup key = some e ∧ e.state = .loading loadId := by
  unfold state
  cases m.entries.lookup key with
  | none | some => simp

/-! ## Granting leases -/

variable (generation : Generation)

/-- The wakes carry consecutive lease identifiers, in the order of the
waiters. -/
theorem grant_wakes (waiters : List SessionId)
    (hlim : (grant key generation waiters next leases).2.1 < u64Max) :
    (grant key generation waiters next leases).1 = waiters.mapIdx (fun i session =>
          ⟨session, .inl ⟨⟨next + i⟩, key, generation, session⟩⟩)
      ∧ (grant key generation waiters next leases).2.1 = next + waiters.length := by
  induction waiters generalizing next leases with
  | nil => exact ⟨rfl, rfl⟩
  | cons session sessions ih =>
    obtain ⟨hwak, hnex⟩ := ih hlim
    have hst : saturatingAdd u64Max next 1 = next + 1 := by
      refine saturatingAdd_of_lt ?_
      have hlt : (grant key generation sessions (saturatingAdd u64Max next 1)
        (leases.insert ⟨next⟩ (key, generation, session))).2.1 < u64Max := hlim
      omega
    rw [hst] at hwak hnex
    refine ⟨?_, ?_⟩
    · rw [mapIdx_cons, grant, hst]
      rw [hwak, Nat.add_zero]
      refine congrArg _ (congrArg (fun f => sessions.mapIdx f) ?_)
      funext i s
      rw [Nat.add_right_comm, Nat.add_assoc next i 1]
    · rw [grant, hst]
      rw [hnex, length_cons]
      omega

/-- Granting leases within the limits takes identifiers one by one. -/
theorem grant_step {generation : Generation} {session : SessionId} {sessions : List SessionId}
    (hlim : (grant key generation (session :: sessions) next leases).2.1 < u64Max) :
    grant key generation (session :: sessions) next leases
      = (⟨session, .inl ⟨⟨next⟩, key, generation, session⟩⟩ ::
          (grant key generation sessions (next + 1)
            (leases.insert ⟨next⟩ (key, generation, session))).1,
        (grant key generation sessions (next + 1)
          (leases.insert ⟨next⟩ (key, generation, session))).2) := by
  have hnex := (grant_wakes generation sessions hlim).2
  have hst : saturatingAdd u64Max next 1 = next + 1 := by
    refine saturatingAdd_of_lt ?_
    have hlt : (grant key generation sessions (saturatingAdd u64Max next 1)
      (leases.insert ⟨next⟩ (key, generation, session))).2.1 < u64Max := hlim
    omega
  rw [grant, hst]

/-- **The lease records after a grant**: the granted identifiers belong to
the waiters, the others to whom they belonged. -/
theorem lookup_grant (waiters : List SessionId)
    (hlim : (grant key generation waiters next leases).2.1 < u64Max) (id : LeaseId) :
    (grant key generation waiters next leases).2.2.lookup id
      = if id.val < next then leases.lookup id
        else ((waiters[id.val - next]?).map (fun session => (key, generation, session))).or
          (leases.lookup id) := by
  induction waiters generalizing next leases with
  | nil => simp [grant]
  | cons session sessions ih =>
    have hst := grant_step hlim
    rw [hst] at hlim ⊢
    rw [ih hlim]
    rcases Nat.lt_trichotomy id.val next with hlt | heq | hgt
    · have hne : id ≠ ⟨next⟩ := fun h => by rw [h] at hlt; exact absurd hlt (Nat.lt_irrefl _)
      rw [if_pos (by omega), if_pos hlt, lookup_insert_ne _ _ hne]
    · obtain rfl : id = ⟨next⟩ := by
        cases id
        exact congrArg LeaseId.mk heq
      rw [if_pos (Nat.lt_succ_self next), if_neg (Nat.lt_irrefl next),
        lookup_insert_self, Nat.sub_self]
      rfl
    · have hne : id ≠ ⟨next⟩ := fun h => by rw [h] at hgt; exact absurd hgt (Nat.lt_irrefl _)
      have hidx : id.val - next = (id.val - (next + 1)) + 1 := by omega
      rw [if_neg (by omega), if_neg (by omega), lookup_insert_ne _ _ hne, hidx,
        List.getElem?_cons_succ]

/-- A record found after a grant was there before or names the granted
generation, under a fresh identifier. -/
theorem lookup_grant_cases {generation : Generation} {waiters : List SessionId}
    (hlim : (grant key generation waiters next leases).2.1 < u64Max) {id : LeaseId}
    {record : ExpertKey × Generation × SessionId}
    (h : (grant key generation waiters next leases).2.2.lookup id = some record) :
    leases.lookup id = some record
      ∨ ∃ session, record = (key, generation, session) ∧ id.val < next + waiters.length := by
  rw [lookup_grant generation waiters hlim] at h
  by_cases hlt : id.val < next
  · rw [if_pos hlt] at h
    exact Or.inl h
  · rw [if_neg hlt] at h
    cases hget : waiters[id.val - next]? with
    | none =>
      rw [hget] at h
      exact Or.inl h
    | some session =>
      rw [hget] at h
      obtain ⟨hbnd, -⟩ := List.getElem?_eq_some_iff.mp hget
      exact Or.inr ⟨session, (some.inj h).symm, by omega⟩

/-- A fresh record adds one lease to the key it names. -/
theorem leasesOn_insert {id : LeaseId} (hfr : leases.lookup id = none)
    (generation : Generation) (owner : SessionId) (j : ExpertKey) :
    leasesOn (leases.insert id (key, generation, owner)) j
      = leasesOn leases j + if key = j then 1 else 0 := by
  have hsum := leases.sum_insert_add (fun _ record => if record.1 = j then 1 else 0) id
    (key, generation, owner)
  rw [weigh_of_absent hfr] at hsum
  exact hsum.trans (Nat.add_comm _ _)

/-- A grant adds a lease for every waiter. -/
theorem leasesOn_grant (waiters : List SessionId)
    (hlim : (grant key generation waiters next leases).2.1 < u64Max)
    (hlt : ∀ id record, leases.lookup id = some record → id.val < next) (j : ExpertKey) :
    leasesOn (grant key generation waiters next leases).2.2 j
      = leasesOn leases j + if key = j then waiters.length else 0 := by
  induction waiters generalizing next leases with
  | nil => simp [grant]
  | cons session sessions ih =>
    have hfr : leases.lookup ⟨next⟩ = none := by
      cases hl : leases.lookup ⟨next⟩ with
      | none => rfl
      | some => exact absurd (hlt _ _ hl) (Nat.lt_irrefl next)
    have hst := grant_step hlim
    rw [hst] at hlim ⊢
    rw [ih hlim ?_, leasesOn_insert hfr]
    · by_cases hj : key = j
      · simp only [if_pos hj, length_cons]
        omega
      · simp only [if_neg hj]
    · intro id record hl
      rw [lookup_insert] at hl
      by_cases hid : id = ⟨next⟩
      · rw [hid]
        exact Nat.lt_succ_self next
      · rw [if_neg hid] at hl
        exact Nat.lt_succ_of_lt (hlt id record hl)

theorem leasesOn_erase {id : LeaseId} {generation : Generation} {owner : SessionId}
    (hl : leases.lookup id = some (key, generation, owner)) (j : ExpertKey) :
    leasesOn (leases.erase id) j + (if key = j then 1 else 0) = leasesOn leases j := by
  have hsum := leases.sum_erase_add (fun _ record => if record.1 = j then 1 else 0) id
  rwa [weigh_of_lookup hl] at hsum

/-! ## The lease records and the lease counters -/

/-- **The lease records agree with the entries.** -/
structure LeasesAgree (entries : Table ExpertKey Entry) (leases : LeaseTable) (next : ℕ) :
    Prop where
  /-- The counter of an entry is the number of records naming it. -/
  counted : ∀ key e, entries.lookup key = some e → e.leases = leasesOn leases key
  /-- A record names a resident entry at exactly its generation. -/
  live : ∀ id key generation owner, leases.lookup id = some (key, generation, owner) →
    ∃ e, entries.lookup key = some e ∧ e.state = .resident generation
  /-- The identifiers in use are below the next one. -/
  lease_lt : ∀ id record, leases.lookup id = some record → id.val < next

/-- The lease records and counters of the manager agree. -/
def Leased (m : ResidencyManager) : Prop := LeasesAgree m.entries m.leases m.nextLease

section LeasesAgree

variable (h : LeasesAgree entries leases next)

include h

theorem LeasesAgree.fresh : leases.lookup ⟨next⟩ = none := by
  cases hl : leases.lookup ⟨next⟩ with
  | none => rfl
  | some => exact absurd (h.lease_lt _ _ hl) (Nat.lt_irrefl next)

theorem LeasesAgree.unnamed (hno : ∀ e, entries.lookup key = some e → ¬ e.IsResident)
    {id : LeaseId} {record : ExpertKey × Generation × SessionId}
    (hl : leases.lookup id = some record) : record.1 ≠ key := by
  rintro rfl
  obtain ⟨e, he, hst⟩ := h.live id record.1 record.2.1 record.2.2 hl
  exact hno e he ⟨_, hst⟩

theorem LeasesAgree.leasesOn_eq_zero
    (hno : ∀ e, entries.lookup key = some e → ¬ e.IsResident) : leasesOn leases key = 0 :=
  sum_eq_zero (fun _ _ hl => if_neg (h.unnamed hno hl))

/-- A record still names a resident entry after an entry is rewritten and
keeps its state. -/
theorem LeasesAgree.live_insert (he : entries.lookup key = some entry)
    (hst : entry'.state = entry.state) {id : LeaseId} {j : ExpertKey}
    {generation : Generation} {owner : SessionId}
    (hl : leases.lookup id = some (j, generation, owner)) :
    ∃ e, (entries.insert key entry').lookup j = some e ∧ e.state = .resident generation := by
  obtain ⟨e, hj, hres⟩ := h.live id j generation owner hl
  by_cases hjk : j = key
  · refine ⟨entry', by rw [hjk, lookup_insert_self], ?_⟩
    rw [hjk, he] at hj
    rwa [hst, some.inj hj]
  · exact ⟨e, (lookup_insert_ne _ _ hjk).trans hj, hres⟩

theorem LeasesAgree.insert_entry (he : entries.lookup key = some entry)
    (hst : entry'.state = entry.state) (hlss : entry'.leases = entry.leases) :
    LeasesAgree (entries.insert key entry') leases next where
  counted := by
    intro j e hj
    rw [lookup_insert] at hj
    by_cases hjk : j = key
    · rw [if_pos hjk] at hj
      rw [← some.inj hj, hlss, hjk]
      exact h.counted key entry he
    · rw [if_neg hjk] at hj
      exact h.counted j e hj
  live := fun _ _ _ _ hl => h.live_insert he hst hl
  lease_lt := h.lease_lt

/-- **An entry that is not resident gives way to one without leases.** -/
theorem LeasesAgree.insert_unleased
    (hno : ∀ e, entries.lookup key = some e → ¬ e.IsResident) (hlss : entry'.leases = 0) :
    LeasesAgree (entries.insert key entry') leases next where
  counted := by
    intro j e hj
    rw [lookup_insert] at hj
    by_cases hjk : j = key
    · rw [if_pos hjk] at hj
      rw [← some.inj hj, hlss, hjk]
      exact (h.leasesOn_eq_zero hno).symm
    · rw [if_neg hjk] at hj
      exact h.counted j e hj
  live := by
    intro id j generation owner hl
    obtain ⟨e, hj, hres⟩ := h.live id j generation owner hl
    have hjk : j ≠ key := h.unnamed hno hl
    exact ⟨e, (lookup_insert_ne _ _ hjk).trans hj, hres⟩
  lease_lt := h.lease_lt

/-- An entry without leases is removed. -/
theorem LeasesAgree.erase (he : entries.lookup key = some entry) (hidl : entry.leases = 0) :
    LeasesAgree (entries.erase key) leases next where
  counted := by
    intro j e hj
    rw [lookup_erase] at hj
    by_cases hjk : j = key
    · rw [if_pos hjk] at hj
      exact absurd hj (by simp)
    · rw [if_neg hjk] at hj
      exact h.counted j e hj
  live := by
    intro id j generation owner hl
    obtain ⟨e, hj, hres⟩ := h.live id j generation owner hl
    have hjk : j ≠ key := by
      rintro rfl
      have hzer := h.counted j entry he
      have hone := leases.weigh_le_sum (fun _ record => if record.1 = j then 1 else 0) id
      rw [weigh_of_lookup hl, if_pos rfl] at hone
      have hsum : leases.sum (fun _ record => if record.1 = j then 1 else 0) = 0 :=
        hzer.symm.trans hidl
      omega
    exact ⟨e, (lookup_erase_ne _ hjk).trans hj, hres⟩
  lease_lt := h.lease_lt

/-- **A load succeeds and its waiters are granted leases.** -/
theorem LeasesAgree.grant {generation : Generation} {waiters : List SessionId}
    (hno : ∀ e, entries.lookup key = some e → ¬ e.IsResident)
    (hst : entry'.state = .resident generation)
    (hlim : (grant key generation waiters next leases).2.1 < u64Max)
    (hcount : entry'.leases = leasesOn (grant key generation waiters next leases).2.2 key) :
    LeasesAgree (entries.insert key entry') (grant key generation waiters next leases).2.2
      (grant key generation waiters next leases).2.1 where
  counted := by
    intro j e hj
    rw [lookup_insert] at hj
    by_cases hjk : j = key
    · rw [if_pos hjk] at hj
      rwa [← some.inj hj, hjk]
    · rw [if_neg hjk] at hj
      rw [leasesOn_grant generation waiters hlim h.lease_lt, if_neg (fun hk => hjk hk.symm)]
      exact h.counted j e hj
  live := by
    intro id j g owner hl
    rcases lookup_grant_cases hlim hl with hold | ⟨session, hnew, -⟩
    · obtain ⟨e, hj, hres⟩ := h.live id j g owner hold
      have hjk : j ≠ key := h.unnamed hno hold
      exact ⟨e, (lookup_insert_ne _ _ hjk).trans hj, hres⟩
    · obtain ⟨rfl, rfl, rfl⟩ : j = key ∧ g = generation ∧ owner = session := by
        simpa using hnew
      exact ⟨entry', lookup_insert_self _ _ _, hst⟩
  lease_lt := by
    intro id record hl
    rw [(grant_wakes generation waiters hlim).2]
    rcases lookup_grant_cases hlim hl with hold | ⟨session, -, hlt⟩
    · exact Nat.lt_of_lt_of_le (h.lease_lt id record hold) (Nat.le_add_right _ _)
    · exact hlt

/-- **A lease is acquired** on a resident entry. -/
theorem LeasesAgree.acquire {generation : Generation} (owner : SessionId) (entry' : Entry)
    (he : entries.lookup key = some entry) (hres : entry.state = .resident generation)
    (hst : entry'.state = entry.state) (hlss : entry'.leases = entry.leases + 1) :
    LeasesAgree (entries.insert key entry') (leases.insert ⟨next⟩ (key, generation, owner))
      (next + 1) where
  counted := by
    intro j e hj
    rw [leasesOn_insert h.fresh]
    rw [lookup_insert] at hj
    by_cases hjk : j = key
    · rw [if_pos hjk] at hj
      rw [← some.inj hj, hlss, hjk, if_pos rfl, h.counted key entry he]
    · rw [if_neg hjk] at hj
      rw [if_neg (fun hk => hjk hk.symm)]
      exact h.counted j e hj
  live := by
    intro id j g owner' hl
    rw [lookup_insert] at hl
    by_cases hid : id = ⟨next⟩
    · rw [if_pos hid] at hl
      obtain ⟨rfl, rfl, rfl⟩ : key = j ∧ generation = g ∧ owner = owner' := by
        simpa using hl
      exact ⟨entry', lookup_insert_self _ _ _, hst.trans hres⟩
    · rw [if_neg hid] at hl
      exact h.live_insert he hst hl
  lease_lt := by
    intro id record hl
    rw [lookup_insert] at hl
    by_cases hid : id = ⟨next⟩
    · rw [hid]
      exact Nat.lt_succ_self next
    · rw [if_neg hid] at hl
      exact Nat.lt_succ_of_lt (h.lease_lt id record hl)

/-- **A lease is released**: its record goes, and its entry has one less. -/
theorem LeasesAgree.release {id : LeaseId} {generation : Generation} {owner : SessionId}
    (hl : leases.lookup id = some (key, generation, owner))
    (he : entries.lookup key = some entry) (hst : entry'.state = entry.state)
    (hlss : entry'.leases = entry.leases - 1) :
    LeasesAgree (entries.insert key entry') (leases.erase id) next where
  counted := by
    intro j e hj
    have hles := leasesOn_erase hl j
    rw [lookup_insert] at hj
    by_cases hjk : j = key
    · rw [if_pos hjk] at hj
      rw [← some.inj hj, hlss, h.counted key entry he, ← hjk]
      rw [if_pos hjk.symm] at hles
      omega
    · rw [if_neg hjk] at hj
      rw [if_neg (fun hk => hjk hk.symm)] at hles
      rw [h.counted j e hj]
      omega
  live := by
    intro i j g owner' hi
    rw [lookup_erase] at hi
    by_cases hid : i = id
    · rw [if_pos hid] at hi
      exact absurd hi (by simp)
    · rw [if_neg hid] at hi
      exact h.live_insert he hst hi
  lease_lt := by
    intro i record hi
    rw [lookup_erase] at hi
    by_cases hid : i = id
    · rw [if_pos hid] at hi
      exact absurd hi (by simp)
    · rw [if_neg hid] at hi
      exact h.lease_lt i record hi

end LeasesAgree

theorem not_isResident_of_loading {loadId : LoadId} (he : entries.lookup key = some entry)
    (hst : entry.state = .loading loadId) :
    ∀ e, entries.lookup key = some e → ¬ e.IsResident := by
  intro e hl
  rw [he] at hl
  rw [← some.inj hl]
  exact Entry.not_isResident hst (by simp)

theorem Evicts.leased (hev : m.Evicts key d) (h : m.Leased) : d.Leased := by
  cases hev with
  | evicted entry stats he hidl => exact LeasesAgree.erase h he hidl

/-- **A transition keeps the lease records and counters in agreement.** -/
theorem Transition.leased (ht : m.Transition op out d) (h : m.Leased) (hlim : d.LeaseLimit) :
    d.Leased := by
  cases ht with
  | poolAdded | deviceAdded | dropped | transferred | ignored | refused => exact h
  | hit key bytes waiter entry stats generation he =>
    exact LeasesAgree.insert_entry h he rfl rfl
  | joined key waiter entry stats loadId he =>
    exact LeasesAgree.insert_entry h he (join_state _ _) (join_leases _ _)
  | started key bytes waiter d stats hev hidl =>
    exact LeasesAgree.insert_unleased (hev.preserves Evicts.leased h)
      (fun e he => (hidl e (hev.lookup_eq he)).1) rfl
  | crowded key bytes waiter _ e hev => exact hev.preserves Evicts.leased h
  | left loadId session key entry b hl he => exact LeasesAgree.insert_entry h he rfl rfl
  | published loadId key entry stats hl he hst hs =>
    have hno := not_isResident_of_loading he hst
    have hnex : (m.granted key entry).2.1 < u64Max := hlim.1
    have hcount : leasesOn (m.granted key entry).2.2 key = entry.waiters.length := by
      rw [granted, leasesOn_grant _ _ hnex h.lease_lt, if_pos rfl,
        LeasesAgree.leasesOn_eq_zero h hno, Nat.zero_add]
    have hbnd : leasesOn (m.granted key entry).2.2 key < 2 ^ 32 :=
      hlim.2 _ (AList.mem_lookup_iff.mp (lookup_insert_self m.entries key _))
    refine LeasesAgree.grant h hno rfl hnex ?_
    show entry.waiters.length % 2 ^ 32 = _
    rw [Nat.mod_eq_of_lt (hcount ▸ hbnd)]
    exact hcount.symm
  | failed loadId result message key entry stats hres hl he hst =>
    have hno := not_isResident_of_loading he hst
    exact LeasesAgree.insert_unleased h hno
      ((h.counted key entry he).trans (LeasesAgree.leasesOn_eq_zero h hno))
  | acquired key owner entry stats generation he hst =>
    have hagr := LeasesAgree.acquire h owner (m.leasedEntry entry) he hst rfl rfl
    rwa [← saturatingAdd_of_lt hlim.1] at hagr
  | released lease owner entry stats hl he =>
    exact LeasesAgree.release h hl he rfl rfl
  | evicted key _ hev => exact hev.leased h

theorem leased_new : new.Leased where
  counted _ _ he := absurd he (by simp [new])
  live _ _ _ _ hl := absurd hl (by simp [new])
  lease_lt _ _ hl := absurd hl (by simp [new])

/-- **The lease records and counters of a reachable manager agree.** -/
theorem run_leased {ops : List ResidencyOp} (hlim : machine.Within LeaseLimit new ops) :
    (machine.run new ops).Leased :=
  run_of_transition (fun ht _ h hnex => ht.leased h hnex) leased_new hlim

/-! ## The load table and the loading entries -/

/-- **The table of loads agrees with the entries.** -/
structure LoadsAgree (entries : Table ExpertKey Entry) (loads : Table LoadId ExpertKey)
    (next : ℕ) : Prop where
  /-- A load is outstanding for a key exactly when the key's entry is being
  loaded by it. -/
  loads_iff : ∀ loadId key, loads.lookup loadId = some key
    ↔ ∃ e, entries.lookup key = some e ∧ e.state = .loading loadId
  /-- Nobody waits twice. -/
  waiters_nodup : ∀ key e, entries.lookup key = some e → e.waiters.Nodup
  /-- The identifiers in use are below the next one. -/
  load_lt : ∀ loadId key, loads.lookup loadId = some key → loadId.val < next

/-- The load table and the loading entries of the manager agree. -/
def Loaded (m : ResidencyManager) : Prop := LoadsAgree m.entries m.loads m.nextLoad

section LoadsAgree

variable (h : LoadsAgree entries loads next)

include h

/-- The waiters of every entry stay distinct when one entry is rewritten. -/
theorem LoadsAgree.nodup_insert (hnd : entry'.waiters.Nodup) (j : ExpertKey) (e : Entry)
    (hj : (entries.insert key entry').lookup j = some e) : e.waiters.Nodup := by
  rw [lookup_insert] at hj
  by_cases hjk : j = key
  · rw [if_pos hjk] at hj
    rwa [← some.inj hj]
  · rw [if_neg hjk] at hj
    exact h.waiters_nodup j e hj

theorem LoadsAgree.insert_entry (he : entries.lookup key = some entry)
    (hst : entry'.state = entry.state) (hnd : entry'.waiters.Nodup) :
    LoadsAgree (entries.insert key entry') loads next where
  loads_iff := by
    intro loadId j
    rw [h.loads_iff, lookup_insert]
    by_cases hjk : j = key
    · rw [if_pos hjk, hjk, he]
      simp [hst]
    · rw [if_neg hjk]
  waiters_nodup := h.nodup_insert hnd
  load_lt := h.load_lt

/-- **A load is started** for a key that is not being loaded. -/
theorem LoadsAgree.start (entry' : Entry) (hidl : ∀ e, entries.lookup key = some e → ¬ e.IsLoading)
    (hst : entry'.state = .loading ⟨next⟩) (hnd : entry'.waiters.Nodup) :
    LoadsAgree (entries.insert key entry') (loads.insert ⟨next⟩ key) (next + 1) where
  loads_iff := by
    intro loadId j
    rw [lookup_insert, lookup_insert]
    by_cases hjk : j = key
    · subst hjk
      by_cases hid : loadId = ⟨next⟩
      · rw [if_pos hid, if_pos rfl, hid]
        exact ⟨fun _ => ⟨entry', rfl, hst⟩, fun _ => rfl⟩
      · rw [if_neg hid, if_pos rfl]
        constructor
        · intro hl
          obtain ⟨e, he, hld⟩ := (h.loads_iff loadId j).mp hl
          exact absurd ⟨loadId, hld⟩ (hidl e he)
        · rintro ⟨e, he, hld⟩
          rw [← some.inj he, hst] at hld
          exact absurd (ResidencyState.loading.inj hld).symm hid
    · rw [if_neg hjk]
      by_cases hid : loadId = ⟨next⟩
      · rw [if_pos hid]
        constructor
        · intro hl
          exact absurd (some.inj hl).symm hjk
        · intro hld
          have hlt := h.load_lt loadId j ((h.loads_iff loadId j).mpr hld)
          rw [hid] at hlt
          exact absurd hlt (Nat.lt_irrefl next)
      · rw [if_neg hid]
        exact h.loads_iff loadId j
  waiters_nodup := h.nodup_insert hnd
  load_lt := by
    intro loadId j hl
    rw [lookup_insert] at hl
    by_cases hid : loadId = ⟨next⟩
    · rw [hid]
      exact Nat.lt_succ_self next
    · rw [if_neg hid] at hl
      exact Nat.lt_succ_of_lt (h.load_lt loadId j hl)

/-- **A load ends**, and its entry is no longer being loaded. -/
theorem LoadsAgree.finish {loadId : LoadId} (he : entries.lookup key = some entry)
    (hld : entry.state = .loading loadId) (hst : ¬ entry'.IsLoading)
    (hnd : entry'.waiters.Nodup) :
    LoadsAgree (entries.insert key entry') (loads.erase loadId) next where
  loads_iff := by
    intro id j
    rw [lookup_insert, lookup_erase]
    by_cases hjk : j = key
    · subst hjk
      rw [if_pos rfl]
      constructor
      · intro hl
        by_cases hid : id = loadId
        · rw [if_pos hid] at hl
          exact absurd hl (by simp)
        · rw [if_neg hid] at hl
          obtain ⟨e, hj, hoth⟩ := (h.loads_iff id j).mp hl
          rw [he] at hj
          rw [← some.inj hj, hld] at hoth
          exact absurd (ResidencyState.loading.inj hoth).symm hid
      · rintro ⟨e, hj, hoth⟩
        rw [← some.inj hj] at hoth
        exact absurd ⟨id, hoth⟩ hst
    · rw [if_neg hjk]
      by_cases hid : id = loadId
      · rw [if_pos hid]
        constructor
        · intro hl
          exact absurd hl (by simp)
        · intro hoth
          have hj := (h.loads_iff id j).mpr hoth
          have hkey := (h.loads_iff loadId key).mpr ⟨entry, he, hld⟩
          rw [hid, hkey] at hj
          exact absurd (some.inj hj).symm hjk
      · rw [if_neg hid]
        exact h.loads_iff id j
  waiters_nodup := h.nodup_insert hnd
  load_lt := by
    intro id j hl
    rw [lookup_erase] at hl
    by_cases hid : id = loadId
    · rw [if_pos hid] at hl
      exact absurd hl (by simp)
    · rw [if_neg hid] at hl
      exact h.load_lt id j hl

/-- A resident entry is removed. -/
theorem LoadsAgree.erase (he : entries.lookup key = some entry) (hres : entry.IsResident) :
    LoadsAgree (entries.erase key) loads next where
  loads_iff := by
    intro loadId j
    rw [h.loads_iff, lookup_erase]
    by_cases hjk : j = key
    · obtain ⟨g, hg⟩ := hres
      rw [if_pos hjk, hjk, he]
      simp [hg]
    · rw [if_neg hjk]
  waiters_nodup := by
    intro j e hj
    rw [lookup_erase] at hj
    by_cases hjk : j = key
    · rw [if_pos hjk] at hj
      exact absurd hj (by simp)
    · rw [if_neg hjk] at hj
      exact h.waiters_nodup j e hj
  load_lt := h.load_lt

end LoadsAgree

theorem Evicts.loaded (hev : m.Evicts key d) (h : m.Loaded) : d.Loaded := by
  cases hev with
  | evicted entry stats he hidl hres => exact LoadsAgree.erase h he hres

/-- Joining twice is joining once. -/
theorem join_nodup (h : entry.waiters.Nodup) (waiter : SessionId) :
    (entry.join waiter).waiters.Nodup := by
  unfold Entry.join
  split
  · exact h
  · rename_i hout
    exact nodup_append.mpr ⟨h, nodup_singleton waiter, fun a ha b hb hab => by
      rw [hab, mem_singleton.mp hb] at ha
      exact hout ha⟩

/-- **A transition keeps the load table and the loading entries in
agreement.** -/
theorem Transition.loaded (ht : m.Transition op out d) (h : m.Loaded) (hlim : d.LoadLimit) :
    d.Loaded := by
  cases ht with
  | poolAdded | deviceAdded | transferred | ignored | refused => exact h
  | hit key bytes waiter entry stats generation he =>
    exact LoadsAgree.insert_entry h he rfl (h.waiters_nodup key entry he)
  | joined key waiter entry stats loadId he =>
    exact LoadsAgree.insert_entry h he (join_state entry waiter)
      (join_nodup (h.waiters_nodup key entry he) waiter)
  | started key bytes waiter d stats hev hidl =>
    have hagr := LoadsAgree.start (hev.preserves Evicts.loaded h)
      ⟨.loading ⟨d.nextLoad⟩, bytes, [waiter], 0, d.tick.1⟩
      (fun e he => (hidl e (hev.lookup_eq he)).2) rfl (nodup_singleton waiter)
    rwa [← saturatingAdd_of_lt hlim] at hagr
  | crowded key bytes waiter _ e hev => exact hev.preserves Evicts.loaded h
  | left loadId session key entry b hl he =>
    exact LoadsAgree.insert_entry h he rfl ((h.waiters_nodup key entry he).filter _)
  | published loadId key entry stats hl he hst =>
    exact LoadsAgree.finish h he hst (Entry.not_isLoading rfl (by simp [publishedEntry])) nodup_nil
  | failed loadId result message key entry stats hres hl he hst =>
    exact LoadsAgree.finish h he hst (Entry.not_isLoading rfl (by simp)) nodup_nil
  | dropped loadId result key hl hgon =>
    obtain ⟨e, he, hld⟩ := (h.loads_iff loadId key).mp hl
    exact absurd hld (hgon e he)
  | acquired key owner entry stats generation he =>
    exact LoadsAgree.insert_entry h he rfl (h.waiters_nodup key entry he)
  | released lease owner entry stats hl he =>
    exact LoadsAgree.insert_entry h he rfl (h.waiters_nodup lease.key entry he)
  | evicted key _ hev => exact hev.loaded h

theorem loaded_new : new.Loaded where
  loads_iff _ _ := by simp [new]
  waiters_nodup _ _ he := absurd he (by simp [new])
  load_lt _ _ hl := absurd hl (by simp [new])

/-- **The load table and the loading entries of a reachable manager
agree.** -/
theorem run_loaded {ops : List ResidencyOp} (hlim : machine.Within LoadLimit new ops) :
    (machine.run new ops).Loaded :=
  run_of_transition (fun ht _ h hnex => ht.loaded h hnex) loaded_new hlim

/-! ## Every reachable manager -/

/-- The counters that the accounts are kept with are within their limits. -/
def CounterLimit (m : ResidencyManager) : Prop := m.LoadLimit ∧ m.LeaseLimit ∧ m.ByteLimit

instance : DecidablePred CounterLimit := fun m =>
  inferInstanceAs (Decidable (m.LoadLimit ∧ m.LeaseLimit ∧ m.ByteLimit))

/-- The loads that were started and have not ended. -/
def outstanding (m : ResidencyManager) : Set LoadId :=
  { loadId | ∃ key, m.loads.lookup loadId = some key }

/-- The keys that are being loaded. -/
def loadingKeys (m : ResidencyManager) : Set ExpertKey :=
  { key | ∃ loadId, m.state key = .loading loadId }

/-- **What the accounts of the manager promise.** -/
structure Accounts (m : ResidencyManager) : Prop where
  /-- No pool exceeds its budget. -/
  within : ∀ pool stats, m.pools.lookup pool = some stats →
    stats.residentBytes + stats.reservedLoadingBytes ≤ stats.budgetBytes
  /-- The resident bytes of a pool are those of its resident entries. -/
  resident : ∀ pool stats, m.pools.lookup pool = some stats →
    stats.residentBytes = m.entries.sum (residentIn pool)
  /-- The reserved bytes of a pool are those of its loading entries. -/
  reserved : ∀ pool stats, m.pools.lookup pool = some stats →
    stats.reservedLoadingBytes = m.entries.sum (loadingIn pool)
  /-- The pinned bytes of a pool are those of its leased resident entries. -/
  pinned : ∀ pool stats, m.pools.lookup pool = some stats →
    stats.pinnedBytes = m.entries.sum (pinnedIn pool)
  /-- An entry's lease counter is the number of lease records naming its
  key. -/
  leases : ∀ key e, m.entries.lookup key = some e → e.leases = leasesOn m.leases key
  /-- A lease record names a resident entry at exactly the recorded
  generation. -/
  live : ∀ id key generation owner, m.leases.lookup id = some (key, generation, owner) →
    m.state key = .resident generation
  /-- The load table and the loading entries are the same relation. -/
  loads : ∀ loadId key, m.loads.lookup loadId = some key ↔ m.state key = .loading loadId
  /-- It is a bijection between outstanding loads and loading keys. -/
  loads_bijOn : Set.BijOn (fun loadId => m.loads.lookup loadId) m.outstanding
    (some '' m.loadingKeys)
  /-- The waiters of an entry have no duplicates. -/
  waiters : ∀ key e, m.entries.lookup key = some e → e.waiters.Nodup

/-- **The accounts of the manager balance in every state it can be brought
to**, whatever operations are called, in whatever order, with whatever
arguments, as long as its counters stay within their limits. -/
theorem reachable_accounts (ops : List ResidencyOp)
    (hlimit : machine.Within CounterLimit new ops) : Accounts (machine.run new ops) := by
  have hbud := run_budgeted (hlimit.mono (fun _ _ h => h.2.2))
  have hlsd := run_leased (hlimit.mono (fun _ _ h => h.2.1))
  have hldd := run_loaded (hlimit.mono (fun _ _ h => h.1))
  generalize machine.run new ops = m at hbud hlsd hldd
  have hlds : ∀ loadId key, m.loads.lookup loadId = some key ↔ m.state key = .loading loadId :=
    fun loadId key => (hldd.loads_iff loadId key).trans (m.state_eq_loading_iff key loadId).symm
  exact
    { within := fun pool stats hs => (hbud pool stats hs).within
      resident := fun pool stats hs => (hbud pool stats hs).resident
      reserved := fun pool stats hs => (hbud pool stats hs).reserved
      pinned := fun pool stats hs => (hbud pool stats hs).pinned
      leases := hlsd.counted
      live := fun id key generation owner hl =>
        (m.state_eq_resident_iff key generation).mpr (hlsd.live id key generation owner hl)
      loads := hlds
      loads_bijOn := by
        refine ⟨?_, ?_, ?_⟩
        · rintro loadId ⟨key, hl⟩
          exact ⟨key, ⟨loadId, (hlds loadId key).mp hl⟩, hl.symm⟩
        · rintro loadId ⟨key, hl⟩ loadId' - heq
          have hl' : m.loads.lookup loadId' = some key := heq.symm.trans hl
          have hsam := ((hlds loadId key).mp hl).symm.trans ((hlds loadId' key).mp hl')
          exact ResidencyState.loading.inj hsam
        · rintro - ⟨key, ⟨loadId, hld⟩, rfl⟩
          have hl := (hlds loadId key).mpr hld
          exact ⟨loadId, ⟨key, hl⟩, hl⟩
      waiters := hldd.waiters_nodup }

/-- A load with two waiters is published, a lease is released and acquired
again, and the cache is asked to evict. -/
theorem reachable_accounts_of_load : Accounts (machine.run new
      [.addPool ⟨0⟩ 100, .beginLoad ⟨1, 2, 3, 4, ⟨5, 6, 7⟩, ⟨0⟩⟩ 40 ⟨1⟩,
        .beginLoad ⟨1, 2, 3, 4, ⟨5, 6, 7⟩, ⟨0⟩⟩ 40 ⟨2⟩, .completeLoad ⟨⟨0⟩, .success⟩,
        .release ⟨⟨0⟩, ⟨1, 2, 3, 4, ⟨5, 6, 7⟩, ⟨0⟩⟩, ⟨0⟩, ⟨1⟩⟩,
        .acquire ⟨1, 2, 3, 4, ⟨5, 6, 7⟩, ⟨0⟩⟩ ⟨3⟩, .evict ⟨0⟩]) :=
  reachable_accounts _ (by decide +kernel)

end ResidencyManager

end Logan
