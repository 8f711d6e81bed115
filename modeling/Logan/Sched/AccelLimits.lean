import Logan.Sched.AccelLeases
import Logan.Sched.ResidencyLoads

/-!
# Where the lease counters run out

`lease_lifetime` is about runs whose lease counters stay within their
limits, and it needs them to. The identifiers are advanced by
`saturating_add`, so past `u64::MAX` leases the last identifier is given out
again: a second lease overwrites the record of the first, and the ticket that
holds the first cannot return it (`release_fails_of_saturated`). The leases of
an entry are counted by a `u32`, which a completion sets to the number of its
waiters: with `2 ^ 32` of them the counter is zero, and a lease taken by a
submission and given back by one of the waiters leaves the entry unpinned
(`evicted_of_wrapped`).
-/

namespace Logan

open List Table
open ResidencyManager (acquire_of_resident evictable grant granted lookup_grant returnedEntry
  state_of_absent state_of_same upcoming)

namespace AccelSystem

open ResidencyManager (Roomy numberedKey loadsInTurn)

variable {s : AccelSystem}

/-- Operations on the manager alone work on the manager alone. -/
theorem run_residency (s : AccelSystem) (ops : List ResidencyOp) :
    machine.run s (ops.map .residency) = { s with
          residency := ResidencyManager.machine.run s.residency ops
          calls := s.calls ++ ops
          handed := s.handed ++ ResidencyManager.machine.gather
            (fun m op => (ResidencyManager.machine.out m op).leases) s.residency ops } := by
  induction ops generalizing s with
  | nil =>
    rw [List.append_nil]
    exact congrArg (fun handed => { s with handed := handed }) (List.append_nil _).symm
  | cons op ops ih =>
    refine (ih _).trans ?_
    show AccelSystem.mk _ _ _ (s.calls ++ [op] ++ ops) (s.handed ++ _ ++ _) = _
    rw [append_assoc, append_assoc]
    rfl

/-- No operation of the manager breaks the discipline, as long as none is a
release. -/
theorem along_residency (s : AccelSystem) {ops : List ResidencyOp}
    (h : ∀ lease, .release lease ∉ ops) : machine.Along Disciplined s (ops.map .residency) := by
  refine machine.along_of_forall s (fun op hop s => ?_)
  obtain ⟨residencyOp, hmem, rfl⟩ := mem_map.mp hop
  cases residencyOp with
  | release lease => exact absurd hmem (h lease)
  | _ => trivial

/-! ## Identifiers -/

theorem release_not_mem_loadsInTurn (lease : Lease) (n : ℕ) : .release lease ∉ loadsInTurn n := by
  induction n with
  | zero => simp [loadsInTurn]
  | succ n ih => simp [loadsInTurn, ih]

/-- An execution target for accelerator work. -/
def someTarget : ExecutionTarget := ⟨⟨0⟩, .gpu, [.accelerator]⟩

/-- A registry of that target alone. -/
def someRegistry : DeviceRegistry :=
  ⟨(∅ : Table DeviceId ExecutionTarget).insert ⟨0⟩ someTarget⟩

/-- A session submits work on one key, and another session takes a lease on
another one. -/
def overlapping : List AccelOp :=
  [.core .createSession, .submit someRegistry ⟨0⟩ someTarget ⟨[], [numberedKey 0 0]⟩,
    .residency (.acquire (numberedKey 0 1) ⟨9⟩)]

/-- A system with an empty table, and a session. -/
abbrev started (m : ResidencyManager) (calls : List ResidencyOp) (handed : List Lease) :
    AccelSystem :=
  machine.next ⟨⟨∅⟩, .new ⟨64⟩, m, calls, handed⟩ (.core .createSession)

/-- **Work on a key is submitted** if the key is leased to the session. -/
theorem submit_of_acquire {m d : ResidencyManager} {key : ExpertKey} {lease : Lease}
    (h : m.acquire key ⟨0⟩ = (.ok lease, d)) (calls : List ResidencyOp) (handed : List Lease) :
    (started m calls handed).submit someRegistry ⟨0⟩ someTarget ⟨[], [key]⟩
      = (.ok (⟨0⟩, ⟨⟨0⟩, someTarget, ⟨[], [key]⟩⟩),
        ⟨⟨(∅ : Table Ticket (List Lease)).insert ⟨0⟩ [lease]⟩,
          ((started m calls handed).core.submit ⟨0⟩ ⟨.accelerator, []⟩).2, d,
          calls ++ [.acquire key ⟨0⟩], handed⟩) := by
  have hget : (someRegistry.get someTarget.device).filter (fun r => r = someTarget)
      = some someTarget := by decide
  show submit ⟨⟨∅⟩, (started m calls handed).core, m, calls, handed⟩ _ _ _ _ = _
  rw [submit, hget]
  dsimp only
  rw [if_neg (by decide), pin]
  unfold acquire
  rw [h]
  rfl

variable {m : ResidencyManager}

theorem acquire_of_roomy {load lease package i : ℕ} {generation : Generation}
    (h : Roomy load lease m) (hst : m.state (numberedKey package i) = .resident generation)
    (owner : SessionId) : ∃ d, m.acquire (numberedKey package i) owner
        = (.ok ⟨⟨lease⟩, numberedKey package i, generation, owner⟩, d)
      ∧ Roomy load (saturatingAdd u64Max lease 1) d
      ∧ d.leases = m.leases.insert ⟨lease⟩ (numberedKey package i, generation, owner)
      ∧ ∀ key, d.state key = m.state key := by
  obtain ⟨entry, he, hres⟩ := (ResidencyManager.state_eq_resident_iff _ _ _).mp hst
  obtain ⟨hld, rfl, stats, hs, hrm⟩ := h
  refine ⟨_, acquire_of_resident owner he hres hs,
    ⟨hld, rfl, _, lookup_insert_self _ _ _, hrm⟩, rfl, fun key => ?_⟩
  exact state_of_same he (m.leasedEntry entry) rfl rfl key

/-- **An identifier given out twice is returned once.** The submission holds
the last identifier, the other lease overwrites its record, and the
completion of the ticket is refused its lease. -/
theorem release_fails_of_roomy {load : ℕ} {g g' : Generation}
    (h : Roomy load u64Max m) (hst : m.state (numberedKey 0 0) = .resident g)
    (hst' : m.state (numberedKey 0 1) = .resident g') (calls : List ResidencyOp)
    (handed : List Lease) :
    machine.out (machine.run ⟨⟨∅⟩, .new ⟨64⟩, m, calls, handed⟩ overlapping)
        (.complete ⟨⟨0⟩, .success⟩) = .completed (.error (.release ⟨0⟩ .staleGeneration)) := by
  obtain ⟨d, hfst, hd, -, hsam⟩ := acquire_of_roomy h hst ⟨0⟩
  have hlas : saturatingAdd u64Max u64Max 1 = u64Max := rfl
  rw [hlas] at hd
  obtain ⟨d', hsec, -, hlss, -⟩ := acquire_of_roomy hd ((hsam _).trans hst') ⟨9⟩
  have hsub := congrArg Prod.snd (submit_of_acquire hfst calls handed)
  have hacq : ((d.execute (.acquire (numberedKey 0 1) ⟨9⟩)).2).leases.lookup ⟨u64Max⟩
      = some (numberedKey 0 1, g', ⟨9⟩) := by
    show (d.acquire (numberedKey 0 1) ⟨9⟩).2.leases.lookup _ = _
    rw [hsec, hlss]
    exact lookup_insert_self _ _ _
  show AccelAnswer.completed (complete (machine.next ((started m calls handed).submit someRegistry
    ⟨0⟩ someTarget ⟨[], [numberedKey 0 0]⟩).2 (.residency (.acquire (numberedKey 0 1) ⟨9⟩)))
      ⟨⟨0⟩, .success⟩).1 = _
  rw [hsub]
  show AccelAnswer.completed (complete ⟨_, _, (d.execute (.acquire (numberedKey 0 1) ⟨9⟩)).2, _, _⟩
    ⟨⟨0⟩, .success⟩).1 = _
  rw [complete]
  rw [lookup_insert_self]
  dsimp only
  rw [releaseAll, release, ResidencyManager.release_of_mismatch hacq]
  exact Or.inl (by simp [numberedKey])

/-! ## The leases of an entry -/

/-- The key that everybody asks for. -/
def crowdedKey : ExpertKey := numberedKey 0 0

/-- Session after session asks for one key. -/
def crowd : ℕ → List ResidencyOp
  | 0 => [.addPool ⟨0⟩ 0, .beginLoad crowdedKey 0 ⟨0⟩]
  | n + 1 => crowd n ++ [.beginLoad crowdedKey 0 ⟨n + 1⟩]

theorem release_not_mem_crowd (lease : Lease) (n : ℕ) : .release lease ∉ crowd n := by
  induction n with
  | zero => simp [crowd]
  | succ n ih => simp [crowd, ih]

/-- **All of them wait for the one load.** -/
structure Crowded (n : ℕ) (m : ResidencyManager) : Prop where
  entry : ∃ lastTouch, m.entries = (∅ : Table ExpertKey Entry).insert crowdedKey
    ⟨.loading ⟨0⟩, 0, (range (n + 1)).map SessionId.mk, 0, lastTouch⟩
  pool : ∃ stats, m.pools.lookup crowdedKey.pool = some stats
  load : m.loads.lookup ⟨0⟩ = some crowdedKey
  generation : m.nextGeneration = ∅
  lease : m.nextLease = 0

theorem crowded_crowd (n : ℕ) : Crowded n (ResidencyManager.machine.run .new (crowd n)) := by
  induction n with
  | zero => exact ⟨⟨_, rfl⟩, ⟨_, rfl⟩, rfl, rfl, rfl⟩
  | succ n ih =>
    rw [crowd, Machine.run_append]
    generalize ResidencyManager.machine.run .new (crowd n) = m at ih
    obtain ⟨⟨lastTouch, hents⟩, ⟨stats, hs⟩, hld, hgen, hls⟩ := ih
    have he : m.entries.lookup crowdedKey
        = some ⟨.loading ⟨0⟩, 0, (List.range (n + 1)).map SessionId.mk, 0, lastTouch⟩ := by
      rw [hents]
      exact lookup_insert_self _ _ _
    have hjn : (⟨.loading ⟨0⟩, 0, (List.range (n + 1)).map SessionId.mk, 0, lastTouch⟩ :
        Entry).join ⟨n + 1⟩
        = ⟨.loading ⟨0⟩, 0, (List.range (n + 2)).map SessionId.mk, 0, lastTouch⟩ := by
      rw [Entry.join, if_neg (by simp), range_succ (n := n + 1), List.map_append]
      rfl
    show Crowded (n + 1) (m.beginLoad crowdedKey 0 ⟨n + 1⟩).2
    rw [ResidencyManager.beginLoad_of_loading ⟨n + 1⟩ he rfl hs]
    refine ⟨⟨lastTouch, ?_⟩, ⟨_, lookup_insert_self _ _ _⟩, hld, hgen, hls⟩
    show m.entries.insert crowdedKey (Entry.join _ _) = _
    rw [hjn, hents, insert_insert]

theorem grant_next (key : ExpertKey) (generation : Generation) (waiters : List SessionId)
    (next : ℕ) (leases : ResidencyManager.LeaseTable) (h : next + waiters.length ≤ u64Max) :
    (grant key generation waiters next leases).2.1 = next + waiters.length := by
  induction waiters generalizing next leases with
  | nil => rfl
  | cons session sessions ih =>
    rw [length_cons] at h
    have hst : saturatingAdd u64Max next 1 = next + 1 := Nat.min_eq_left (by omega)
    rw [grant, hst]
    rw [ih _ _ (by omega), length_cons]
    omega

/-- The lease of the session that asked first. -/
def firstLease : Lease := ⟨⟨0⟩, crowdedKey, ⟨0⟩, ⟨0⟩⟩

/-- **A resident key whose leases do not show**: its counter is zero, and
the lease of the session that asked first is recorded. -/
structure Unpinned (m : ResidencyManager) : Prop where
  entry : ∃ entry, m.entries = (∅ : Table ExpertKey Entry).insert crowdedKey entry
    ∧ entry.state = .resident ⟨0⟩ ∧ entry.leases = 0
  pool : ∃ stats, m.pools.lookup crowdedKey.pool = some stats
  recorded : m.leases.lookup firstLease.id
    = some (firstLease.key, firstLease.generation, firstLease.owner)
  next : m.nextLease ≠ 0

/-- **The leases of a multiple of `2 ^ 32` waiters do not show.** -/
theorem Crowded.publish {n : ℕ} (h : Crowded n m)
    (hwr : (n + 1) % 2 ^ 32 = 0) (hn : n + 1 < u64Max) :
    Unpinned (m.completeLoad ⟨⟨0⟩, .success⟩).2
      ∧ firstLease ∈ (m.execute (.completeLoad ⟨⟨0⟩, .success⟩)).1.leases := by
  obtain ⟨⟨lastTouch, hents⟩, ⟨stats, hs⟩, hld, hgen, hls⟩ := h
  have he : m.entries.lookup crowdedKey
      = some ⟨.loading ⟨0⟩, 0, (List.range (n + 1)).map SessionId.mk, 0, lastTouch⟩ := by
    rw [hents]
    exact lookup_insert_self _ _ _
  have hupc : m.upcoming crowdedKey = ⟨0⟩ := by
    rw [upcoming, hgen]
    rfl
  have hlen : ((List.range (n + 1)).map SessionId.mk).length = n + 1 := by simp
  have hnex := grant_next crowdedKey ⟨0⟩ ((List.range (n + 1)).map SessionId.mk) 0 m.leases
    (by omega)
  have hgr : (grant crowdedKey ⟨0⟩ ((List.range (n + 1)).map SessionId.mk) 0
      m.leases).2.1 < u64Max := by omega
  have heq := ResidencyManager.completeLoad_of_success hld he rfl hs
  rw [granted, hupc, hls] at heq
  have hex : (m.execute (.completeLoad ⟨⟨0⟩, .success⟩)).1.leases = wakeLeases (grant crowdedKey ⟨0⟩
        ((List.range (n + 1)).map SessionId.mk) 0 m.leases).1 := by
    show (ResidencyOutcome.completion (m.completeLoad _).1).leases = _
    rw [heq]
    rfl
  rw [hex, heq]
  refine ⟨⟨⟨_, (congrArg (fun t => insert t _ _) hents).trans (insert_insert _ _ _ _),
    ?_, ?_⟩, ⟨_, lookup_insert_self _ _ _⟩, ?_, ?_⟩, ?_⟩
  · exact congrArg ResidencyState.resident hupc
  · show ((List.range (n + 1)).map SessionId.mk).length % 2 ^ 32 = 0
    rw [hlen, hwr]
  · show (m.granted crowdedKey _).2.2.lookup _ = _
    rw [granted, hupc, hls, lookup_grant _ _ hgr]
    simp [firstLease]
  · show (m.granted crowdedKey _).2.1 ≠ 0
    rw [granted, hupc, hls, hnex]
    omega
  · rw [range_succ_eq_map, map_cons]
    exact mem_cons_self

/-- Work on the key is submitted, its first lease released, and its pool
asked to evict. -/
def wrapping : List AccelOp :=
  [.core .createSession, .submit someRegistry ⟨0⟩ someTarget ⟨[], [crowdedKey]⟩,
    .residency (.release firstLease), .residency (.evict ⟨0⟩)]

theorem eq_of_lookup_singleton {K V : Type} [DecidableEq K] {k j : K} {v w : V}
    (h : ((∅ : Table K V).insert k v).lookup j = some w) : j = k := by
  rw [lookup_insert] at h
  by_contra hne
  rw [if_neg hne] at h
  cases h

/-- **An entry whose leases do not show is evicted** under a submitted
ticket. -/
theorem evicted_of_unpinned (h : Unpinned m) (calls : List ResidencyOp)
    {handed : List Lease} (hhan : firstLease ∈ handed) :
    machine.Along Disciplined ⟨⟨∅⟩, .new ⟨64⟩, m, calls, handed⟩ wrapping
    ∧ machine.out (machine.run ⟨⟨∅⟩, .new ⟨64⟩, m, calls, handed⟩ [.core .createSession])
        (.submit someRegistry ⟨0⟩ someTarget ⟨[], [crowdedKey]⟩)
      = .submitted (.ok (⟨0⟩, ⟨⟨0⟩, someTarget, ⟨[], [crowdedKey]⟩⟩))
    ∧ (machine.run ⟨⟨∅⟩, .new ⟨64⟩, m, calls, handed⟩ wrapping).residency.state crowdedKey
      = .absent := by
  obtain ⟨⟨entry, hents, hst, hlss⟩, ⟨stats, hs⟩, hrec, hnex⟩ := h
  have he : m.entries.lookup crowdedKey = some entry := by
    rw [hents]
    exact lookup_insert_self _ _ _
  have hacq := acquire_of_resident ⟨0⟩ he hst hs
  have hsub := submit_of_acquire hacq calls handed
  have hkep : (m.acquired crowdedKey entry stats ⟨0⟩ ⟨0⟩).leases.lookup firstLease.id
      = some (firstLease.key, firstLease.generation, firstLease.owner) := by
    have hne : firstLease.id ≠ ⟨m.nextLease⟩ := fun heq => hnex (congrArg LeaseId.val heq).symm
    exact (lookup_insert_ne _ _ hne).trans hrec
  have hent : (m.acquired crowdedKey entry stats ⟨0⟩ ⟨0⟩).entries.lookup firstLease.key
      = some (m.leasedEntry entry) := lookup_insert_self _ _ _
  have hrel := ResidencyManager.release_of_resident hkep hent hst (lookup_insert_self _ _ _)
  let m' : ResidencyManager := ((m.acquired crowdedKey entry stats ⟨0⟩ ⟨0⟩).release firstLease).2
  have hm' : m'.entries = (∅ : Table ExpertKey Entry).insert crowdedKey
        (returnedEntry (m.leasedEntry entry))
      ∧ ∃ stats, m'.pools.lookup ⟨0⟩ = some stats := by
    show (ResidencyManager.release _ firstLease).2.entries = _
      ∧ ∃ stats, (ResidencyManager.release _ firstLease).2.pools.lookup _ = some stats
    rw [hrel]
    refine ⟨?_, _, lookup_insert_self _ _ _⟩
    show insert (insert m.entries crowdedKey _) crowdedKey _ = _
    rw [insert_insert, hents, insert_insert]
  have hevi : (m'.evict ⟨0⟩).2.state crowdedKey = .absent := by
    generalize m' = m' at hm' ⊢
    obtain ⟨hents', stats', hs'⟩ := hm'
    rcases m'.evict_cases ⟨0⟩ with ⟨key, d, heq, -, hev, -⟩ | ⟨-, hnon⟩ | ⟨e, -, hnon⟩
    · cases hev with
      | evicted entry' stats' he' =>
        rw [hents'] at he'
        obtain rfl := eq_of_lookup_singleton he'
        rw [heq]
        exact state_of_absent (lookup_erase_self _ _)
    · -- the entry is there, resident, and its counter is zero
      rw [evictable, hents'] at hnon
      have hmem := filter_eq_nil_iff.mp hnon
        (crowdedKey, returnedEntry (m.leasedEntry entry)) mem_cons_self
      refine absurd (decide_eq_true ⟨rfl, ?_, ⟨0⟩, hst⟩) hmem
      show entry.leases + 1 - 1 = 0
      rw [hlss]
    · rw [hs'] at hnon
      cases hnon
  have hrun : machine.run ⟨⟨∅⟩, .new ⟨64⟩, m, calls, handed⟩ wrapping = machine.run
        ((started m calls handed).submit someRegistry ⟨0⟩ someTarget ⟨[], [crowdedKey]⟩).2
        [.residency (.release firstLease), .residency (.evict ⟨0⟩)] := rfl
  refine ⟨⟨trivial, trivial, ?_, trivial, trivial⟩, congrArg AccelAnswer.submitted
    (congrArg Prod.fst hsub), ?_⟩
  · show firstLease ∈
      ((started m calls handed).submit someRegistry ⟨0⟩ someTarget ⟨[], [crowdedKey]⟩).2.handed
    rwa [hsub]
  · rw [hrun, hsub]
    exact hevi

/-- Everybody asks for the key, and its load succeeds. -/
def crowdedLoad (n : ℕ) : List ResidencyOp :=
  crowd n ++ [.completeLoad ⟨⟨0⟩, .success⟩]

/-- **Past the last identifier a completion is refused a lease.** -/
theorem release_fails_of_saturated {n : ℕ} (hn : n = u64Max) :
    machine.Along Disciplined (new ⟨64⟩) ((loadsInTurn n).map .residency ++ overlapping)
    ∧ machine.out (machine.run (new ⟨64⟩) ((loadsInTurn n).map .residency ++ overlapping))
        (.complete ⟨⟨0⟩, .success⟩) = .completed (.error (.release ⟨0⟩ .staleGeneration)) := by
  obtain ⟨hrmy, -, hres⟩ := ResidencyManager.roomy_loadsInTurn hn.le
  have hpos : 1 < n := by
    rw [hn]
    decide
  obtain ⟨g, hg⟩ := hres 0 (Nat.lt_of_succ_lt hpos)
  obtain ⟨g', hg'⟩ := hres 1 hpos
  rw [machine.along_append, Machine.run_append, run_residency]
  refine ⟨⟨along_residency _ (fun lease => release_not_mem_loadsInTurn lease n), ?_⟩, ?_⟩
  · exact ⟨trivial, trivial, trivial, trivial⟩
  · exact release_fails_of_roomy ⟨hrmy.nextLoad, hrmy.nextLease.trans hn, hrmy.room⟩ hg hg' _ _

/-- **A multiple of `2 ^ 32` waiters does not pin the key they waited
for.** -/
theorem evicted_of_wrapped {n : ℕ} (hwr : (n + 1) % 2 ^ 32 = 0) (hn : n + 1 < u64Max) :
    machine.Along Disciplined (new ⟨64⟩) ((crowdedLoad n).map .residency ++ wrapping)
    ∧ machine.out (machine.run (new ⟨64⟩)
          ((crowdedLoad n).map .residency ++ [.core .createSession]))
        (.submit someRegistry ⟨0⟩ someTarget ⟨[], [crowdedKey]⟩)
      = .submitted (.ok (⟨0⟩, ⟨⟨0⟩, someTarget, ⟨[], [crowdedKey]⟩⟩)) ∧ (machine.run (new ⟨64⟩)
        ((crowdedLoad n).map .residency ++ wrapping)).residency.state crowdedKey = .absent := by
  obtain ⟨hunp, hfst⟩ := (crowded_crowd n).publish hwr hn
  have hqt : ∀ lease, .release lease ∉ crowdedLoad n := by
    intro lease hmem
    rcases mem_append.mp hmem with hmem | hmem
    · exact release_not_mem_crowd lease n hmem
    · simp at hmem
  have hrun : ResidencyManager.machine.run .new (crowdedLoad n)
      = ((ResidencyManager.machine.run .new (crowd n)).completeLoad ⟨⟨0⟩, .success⟩).2 :=
    Machine.run_append _ _ _ _
  rw [machine.along_append, Machine.run_append, Machine.run_append, run_residency]
  have hhan : firstLease ∈ [] ++ ResidencyManager.machine.gather
      (fun m op => (ResidencyManager.machine.out m op).leases) .new (crowdedLoad n) := by
    rw [nil_append, crowdedLoad, Machine.gather_append]
    exact mem_append_right _ (mem_append_left _ hfst)
  have h := evicted_of_unpinned (hrun ▸ hunp) ([] ++ crowdedLoad n) hhan
  exact ⟨⟨along_residency _ hqt, h.1⟩, h.2⟩

/-- **The two limits.** Past `u64::MAX` leases a completion is refused one
of its leases; and with `2 ^ 32` waiters of one load, what a submitted ticket
references is evicted before its completion. -/
theorem lease_lifetime_limits :
    (machine.Along Disciplined (new ⟨64⟩) ((loadsInTurn u64Max).map .residency ++ overlapping)
      ∧ machine.out (machine.run (new ⟨64⟩)
          ((loadsInTurn u64Max).map .residency ++ overlapping)) (.complete ⟨⟨0⟩, .success⟩)
        = .completed (.error (.release ⟨0⟩ .staleGeneration)))
    ∧ machine.Along Disciplined (new ⟨64⟩) ((crowdedLoad (2 ^ 32 - 1)).map .residency ++ wrapping)
      ∧ machine.out (machine.run (new ⟨64⟩)
            ((crowdedLoad (2 ^ 32 - 1)).map .residency ++ [.core .createSession]))
          (.submit someRegistry ⟨0⟩ someTarget ⟨[], [crowdedKey]⟩)
        = .submitted (.ok (⟨0⟩, ⟨⟨0⟩, someTarget, ⟨[], [crowdedKey]⟩⟩)) ∧ (machine.run (new ⟨64⟩)
          ((crowdedLoad (2 ^ 32 - 1)).map .residency ++ wrapping)).residency.state crowdedKey
        = .absent :=
  ⟨release_fails_of_saturated rfl, evicted_of_wrapped (by decide) (by decide)⟩

end AccelSystem

end Logan
