import Mathlib.Data.List.TakeWhile
import Logan.Sched.AccelLimits

/-!
# What a rejected submission leaves

A submission pins its references before it knows whether it will be
accepted, and when it is not, it releases what it has pinned, in the order in
which it was pinned. The leases of the other holders are untouched, the
counters of the entries are again what they were, and so are the pinned bytes
of the pools (`ResidencyManager.Pinned`, `ResidencyManager.SameHoldings`).

It takes identifiers to tell the leases apart. Where `saturating_add` gives
the last one out twice, only one of the two leases can be released: each
release that succeeds consumes a record
(`ResidencyManager.leaseCount_le_returned`), and there are more pins than
records. The submissions that leave everything as it was when they are
rejected are therefore those for which the identifiers suffice
(`AccelSystem.submit_atomic_iff`).
-/

namespace Logan

open List Table

/-- Two tables in which the lookups agree up to a function have the same
total weight, when the weight sees no more than the function. -/
theorem Table.sum_eq_of_map {K V W : Type} [DecidableEq K] {t t' : Table K V} (g : V → W)
    (f : K → W → ℕ) (h : ∀ k, (t'.lookup k).map g = (t.lookup k).map g) :
    t'.sum (fun k v => f k (g v)) = t.sum (fun k v => f k (g v)) := by
  have hnd (t : Table K V) : (t.entries.map fun e => (e.1, g e.2)).Nodup := by
    refine Nodup.of_map Prod.fst ?_
    rw [map_map]
    exact t.nodupKeys
  have hmem (t : Table K V) (k : K) (w : W) :
      (k, w) ∈ (t.entries.map fun e => (e.1, g e.2)) ↔ (t.lookup k).map g = some w := by
    rw [mem_map, Option.map_eq_some_iff]
    constructor
    · rintro ⟨⟨k', v⟩, he, hpr⟩
      cases hpr
      exact ⟨v, AList.mem_lookup_iff.mpr he, rfl⟩
    · rintro ⟨v, hv, rfl⟩
      exact ⟨⟨k, v⟩, AList.mem_lookup_iff.mp hv, rfl⟩
  have hper : (t'.entries.map fun e => (e.1, g e.2)).Perm
      (t.entries.map fun e => (e.1, g e.2)) := by
    refine (perm_ext_iff_of_nodup (hnd t') (hnd t)).mpr fun ⟨k, w⟩ => ?_
    rw [hmem, hmem, h]
  have hsum := (hper.map fun p => f p.1 p.2).sum_eq
  rwa [map_map, map_map] at hsum

/-- An entry but for its time stamp. -/
def Entry.unstamped (entry : Entry) : Entry := { entry with lastTouch := 0 }

/-- Counters but for the pinned bytes. -/
def PoolStats.unpinned (stats : PoolStats) : PoolStats := { stats with pinnedBytes := 0 }

namespace ResidencyManager

variable {m d d' : ResidencyManager} {key : ExpertKey} {entry : Entry} {stats : PoolStats}
variable {session : SessionId} {lease : Lease} {leases issued hand : List Lease}
variable {keys : List ExpertKey}

/-- **Two states hold the same**: the entries but for their time stamps, the
lease records, the counters of the pools, the generations and the loads. -/
structure SameHoldings (m d : ResidencyManager) : Prop where
  entries : ∀ key, (d.entries.lookup key).map Entry.unstamped
    = (m.entries.lookup key).map Entry.unstamped
  leases : ∀ id, d.leases.lookup id = m.leases.lookup id
  pools : ∀ pool, d.pools.lookup pool = m.pools.lookup pool
  devices : d.devices = m.devices
  loads : d.loads = m.loads
  nextGeneration : d.nextGeneration = m.nextGeneration

theorem SameHoldings.refl (m : ResidencyManager) : SameHoldings m m :=
  ⟨fun _ => rfl, fun _ => rfl, fun _ => rfl, rfl, rfl, rfl⟩

/-- The leases of all entries, counted by the entries. -/
def leaseCount (m : ResidencyManager) : ℕ := m.entries.sum fun _ entry => entry.leases

theorem SameHoldings.leaseCount_eq (h : SameHoldings m d) : d.leaseCount = m.leaseCount :=
  sum_eq_of_map Entry.unstamped (fun _ entry => entry.leases) h.entries

/-! ## Taking leases -/

/-- **A session takes a lease on each of the keys**, in order. -/
inductive Pins (session : SessionId) :
    ResidencyManager → List ExpertKey → List Lease → ResidencyManager → Prop
  | nil (m : ResidencyManager) : Pins session m [] [] m
  | cons {m d d' : ResidencyManager} {key : ExpertKey} {keys : List ExpertKey} {lease : Lease}
    {leases : List Lease} (hfirst : m.acquire key session = (.ok lease, d))
    (hrest : Pins session d keys leases d') : Pins session m (key :: keys) (lease :: leases) d'

/-- The leases are returned, in order, whatever the answers. -/
def returned (m : ResidencyManager) : List Lease → ResidencyManager
  | [] => m
  | lease :: leases => (m.release lease).2.returned leases

/-- **What an acquisition that succeeds does.** -/
theorem acquire_ok (hpl : m.Placed) (h : m.acquire key session = (.ok lease, d)) :
    ∃ entry stats generation, m.entries.lookup key = some entry
      ∧ entry.state = .resident generation ∧ m.pools.lookup key.pool = some stats
      ∧ lease = ⟨⟨m.nextLease⟩, key, generation, session⟩
      ∧ d = m.acquired key entry stats generation session := by
  by_cases hres : ∃ generation, m.state key = .resident generation
  · obtain ⟨generation, hst⟩ := hres
    obtain ⟨entry, he, hent⟩ := (m.state_eq_resident_iff key generation).mp hst
    obtain ⟨stats, hs⟩ := hpl key entry he
    rw [acquire_of_resident session he hent hs] at h
    obtain ⟨hls, rfl⟩ := Prod.mk.inj h
    exact ⟨entry, stats, generation, he, hent, hs, (Except.ok.inj hls).symm, rfl⟩
  · rw [acquire_of_other session (fun generation hst => hres ⟨generation, hst⟩)] at h
    cases (Prod.mk.inj h).1

/-- The identifiers of the leases are the next ones, as long as there are
any. -/
theorem Pins.ids (h : Pins session m keys leases d) (hpl : m.Placed)
    (hnex : m.nextLease ≤ u64Max) : leases.map Lease.id
        = (range keys.length).map (fun i => ⟨saturatingAdd u64Max m.nextLease i⟩) := by
  induction h with
  | nil => rfl
  | @cons m d d' key keys lease leases hfst hres ih =>
    obtain ⟨entry, stats, generation, he, hst, hs, rfl, rfl⟩ := acquire_ok hpl hfst
    have hpl' : (m.acquired key entry stats generation session).Placed := by
      have ht := acquire_transition hpl key session
      rw [hfst] at ht
      exact ht.placed hpl
    rw [map_cons, ih hpl' (Nat.min_le_right _ _), length_cons, range_succ_eq_map, map_cons, map_map]
    refine congrArg₂ List.cons ?_ (map_congr_left fun i _ => ?_)
    · show LeaseId.mk m.nextLease = ⟨min (m.nextLease + 0) u64Max⟩
      rw [Nat.add_zero, Nat.min_eq_left hnex]
    · show LeaseId.mk (min (min (m.nextLease + 1) u64Max + i) u64Max)
        = ⟨min (m.nextLease + (i + 1)) u64Max⟩
      congr 1
      omega

theorem Pins.leaseCount_eq (h : Pins session m keys leases d) (hpl : m.Placed) :
    d.leaseCount = m.leaseCount + keys.length := by
  induction h with
  | nil => rfl
  | @cons m d d' key keys lease leases hfst hres ih =>
    have ht := acquire_transition hpl key session
    rw [hfst] at ht
    obtain ⟨entry, stats, generation, he, hst, hs, rfl, rfl⟩ := acquire_ok hpl hfst
    rw [ih (ht.placed hpl), length_cons]
    have hsum := m.entries.sum_insert_add (fun _ entry => entry.leases) key (m.leasedEntry entry)
    rw [weigh_of_lookup he] at hsum
    have hcount : (m.acquired key entry stats generation session).leaseCount + entry.leases
        = entry.leases + 1 + m.leaseCount := hsum
    omega

/-! ## Returning them -/

/-- **What a release does**: it fails without effect, or it consumes the
record of its lease and takes one lease off the entry. -/
theorem release_cases (hpl : m.Placed) (lease : Lease) : (m.release lease).2 = m
    ∨ ∃ owner entry stats, m.leases.lookup lease.id = some (lease.key, lease.generation, owner)
      ∧ m.entries.lookup lease.key = some entry ∧ m.pools.lookup lease.key.pool = some stats
      ∧ (m.release lease).2 = m.released lease.id lease.key entry stats := by
  cases hrec : m.leases.lookup lease.id with
  | none =>
    rw [release_of_unknown hrec]
    exact Or.inl rfl
  | some record =>
    obtain ⟨key, generation, owner⟩ := record
    by_cases hmat : key ≠ lease.key ∨ generation ≠ lease.generation
    · rw [release_of_mismatch hrec hmat]
      exact Or.inl rfl
    · rw [not_or, not_not, not_not] at hmat
      obtain ⟨rfl, rfl⟩ := hmat
      cases he : m.entries.lookup lease.key with
      | none =>
        left
        rw [release, hrec]
        dsimp only
        rw [if_neg (by simp), he]
      | some entry =>
        by_cases hst : entry.state = .resident lease.generation
        · obtain ⟨stats, hs⟩ := hpl lease.key entry he
          refine Or.inr ⟨owner, entry, stats, rfl, rfl, hs, ?_⟩
          rw [release_of_resident hrec he hst hs]
        · left
          rw [release, hrec]
          dsimp only
          rw [if_neg (by simp), he]
          dsimp only
          rw [if_pos hst]

theorem release_placed (hpl : m.Placed) (lease : Lease) : (m.release lease).2.Placed :=
  (release_transition hpl lease).placed hpl

/-- The identifiers of the leases that have a record. -/
def recordedIds (m : ResidencyManager) (leases : List Lease) : Finset LeaseId :=
  (leases.map Lease.id).toFinset.filter fun id => (m.leases.lookup id).isSome

/-- **Each lease that is taken off an entry has consumed a record.** -/
theorem leaseCount_le_returned (hpl : m.Placed) (leases : List Lease) :
    m.leaseCount ≤ (m.returned leases).leaseCount + (m.recordedIds leases).card := by
  induction leases generalizing m with
  | nil => exact Nat.le_add_right _ _
  | cons lease leases ih =>
    have hres := ih (release_placed hpl lease)
    rw [returned]
    rcases release_cases hpl lease with hsam | ⟨owner, entry, stats, hrec, he, hs, heq⟩
    · rw [hsam] at hres ⊢
      have hsub : m.recordedIds leases ⊆ m.recordedIds (lease :: leases) := by
        intro id hid
        rw [recordedIds, Finset.mem_filter, mem_toFinset] at hid ⊢
        exact ⟨mem_cons_of_mem _ hid.1, hid.2⟩
      have hcar := Finset.card_le_card hsub
      omega
    · have hsub : (m.release lease).2.recordedIds leases
          ⊆ (m.recordedIds (lease :: leases)).erase lease.id := by
        intro id hid
        rw [recordedIds, Finset.mem_filter, mem_toFinset, heq] at hid
        obtain ⟨hmem, hsom⟩ := hid
        change ((m.leases.erase lease.id).lookup id).isSome at hsom
        rw [lookup_erase] at hsom
        split_ifs at hsom with hid
        · exact absurd hsom (by simp)
        · rw [Finset.mem_erase, recordedIds, Finset.mem_filter, mem_toFinset]
          exact ⟨hid, mem_cons_of_mem _ hmem, hsom⟩
      have hmem : lease.id ∈ m.recordedIds (lease :: leases) := by
        rw [recordedIds, Finset.mem_filter, mem_toFinset, hrec]
        exact ⟨mem_cons_self, rfl⟩
      have hcar := Finset.card_le_card hsub
      rw [Finset.card_erase_of_mem hmem] at hcar
      have hpos := Finset.card_pos.mpr ⟨_, hmem⟩
      have hsum := m.entries.sum_insert_add (fun _ entry => entry.leases) lease.key
        (returnedEntry entry)
      rw [weigh_of_lookup he] at hsum
      have hcount : (m.release lease).2.leaseCount + entry.leases
          = entry.leases - 1 + m.leaseCount := by
        rwa [heq]
      omega

/-- **If identifiers are given out twice, leases are left behind.** -/
theorem Pins.leaked (h : Pins session m keys leases d) (hpl : m.Placed)
    (hnex : m.nextLease ≤ u64Max) (hfew : u64Max + 1 < m.nextLease + keys.length)
    (hpl' : d.Placed) : m.leaseCount < (d.returned leases).leaseCount := by
  have hcount := leaseCount_le_returned hpl' leases
  rw [h.leaseCount_eq hpl] at hcount
  have hsub : d.recordedIds leases ⊆ (Finset.Icc m.nextLease u64Max).image LeaseId.mk := by
    intro id hid
    rw [recordedIds, Finset.mem_filter, mem_toFinset, h.ids hpl hnex, mem_map] at hid
    obtain ⟨⟨i, -, rfl⟩, -⟩ := hid
    refine Finset.mem_image_of_mem _ (Finset.mem_Icc.mpr ⟨?_, Nat.min_le_right _ _⟩)
    exact le_min (Nat.le_add_right _ _) hnex
  have hcar := (Finset.card_le_card hsub).trans Finset.card_image_le
  rw [Nat.card_Icc] at hcar
  omega

/-! ## When the identifiers are distinct -/

/-- An entry with so many leases more, but for its time stamp. -/
def pinnedEntry (entry : Entry) (count : ℕ) : Entry :=
  { entry.unstamped with leases := entry.leases + count }

/-- **Some leases in hand, some issued**: beside what `m` holds, `d` holds
the leases in hand, which are the last of those that were issued. -/
structure Pinned (m : ResidencyManager) (issued hand : List Lease) (d : ResidencyManager) :
    Prop where
  suffix : hand <:+ issued
  entries : ∀ key, (d.entries.lookup key).map Entry.unstamped
    = (m.entries.lookup key).map (fun entry => pinnedEntry entry ((hand.map Lease.key).count key))
  live : ∀ lease ∈ hand, m.state lease.key = .resident lease.generation
  recorded : ∀ lease ∈ hand, d.leases.lookup lease.id = some lease.record
  gone : ∀ lease ∈ issued, lease ∉ hand → d.leases.lookup lease.id = none
  others : ∀ id, (∀ lease ∈ issued, lease.id ≠ id) → d.leases.lookup id = m.leases.lookup id
  pools : ∀ pool, (d.pools.lookup pool).map PoolStats.unpinned
    = (m.pools.lookup pool).map PoolStats.unpinned
  placed : d.Placed
  tallied : d.Tallied
  devices : d.devices = m.devices
  loads : d.loads = m.loads
  nextGeneration : d.nextGeneration = m.nextGeneration

theorem Pinned.refl (hpl : m.Placed) (htal : m.Tallied) : Pinned m [] [] m where
  suffix := suffix_rfl
  entries _ := rfl
  live _ h := absurd h not_mem_nil
  recorded _ h := absurd h not_mem_nil
  gone _ h := absurd h not_mem_nil
  others _ _ := rfl
  pools _ := rfl
  placed := hpl
  tallied := htal
  devices := rfl
  loads := rfl
  nextGeneration := rfl

/-- An entry that is pinned is there, in the same state. -/
theorem Pinned.found (h : Pinned m issued hand d) (he : d.entries.lookup key = some entry) :
    ∃ entry₀, m.entries.lookup key = some entry₀
      ∧ entry.unstamped = pinnedEntry entry₀ ((hand.map Lease.key).count key) := by
  have hkey := h.entries key
  rw [he, Option.map_some] at hkey
  obtain ⟨entry₀, he₀, heq⟩ := Option.map_eq_some_iff.mp hkey.symm
  exact ⟨entry₀, he₀, heq.symm⟩

theorem Pinned.pools_insert (h : Pinned m issued hand d) (hs : d.pools.lookup key.pool = some stats)
    (bytes : ℕ) (pool : MemoryPoolId) :
    ((d.pools.insert key.pool { stats with pinnedBytes := bytes }).lookup pool).map
        PoolStats.unpinned
      = (m.pools.lookup pool).map PoolStats.unpinned := by
  rw [lookup_insert, ← h.pools pool]
  by_cases hp : pool = key.pool
  · rw [if_pos hp, hp, hs]
    rfl
  · rw [if_neg hp]

/-- **One lease more is taken.** -/
theorem Pinned.acquire (h : Pinned m hand hand d) (hfst : d.acquire key session = (.ok lease, d'))
    (hfr : lease.id ∉ hand.map Lease.id) : Pinned m (hand ++ [lease]) (hand ++ [lease]) d' := by
  have ht := acquire_transition h.placed key session
  rw [hfst] at ht
  have hpl := ht.placed h.placed
  have htal := ht.tallied h.placed h.tallied
  obtain ⟨entry, stats, generation, he, hst, hs, rfl, rfl⟩ := acquire_ok h.placed hfst
  obtain ⟨entry₀, he₀, hent⟩ := h.found he
  have hlss (id : LeaseId) : (d.acquired key entry stats generation session).leases.lookup id
      = if id = ⟨d.nextLease⟩ then some (key, generation, session) else d.leases.lookup id :=
    lookup_insert _ _ id _
  have hne : ∀ other ∈ hand, other.id ≠ ⟨d.nextLease⟩ := fun other hmem hid =>
    hfr (mem_map.mpr ⟨other, hmem, hid⟩)
  refine ⟨suffix_rfl, fun j => ?_, fun other hmem => ?_, fun other hmem => ?_,
    fun other hmem hnot => absurd hmem hnot, fun id hid => ?_, h.pools_insert hs _, hpl,
    htal, h.devices, h.loads, h.nextGeneration⟩
  · rw [map_append, count_append]
    show ((d.entries.insert key (d.leasedEntry entry)).lookup j).map Entry.unstamped = _
    rw [lookup_insert]
    by_cases hj : j = key
    · subst hj
      rw [if_pos rfl, he₀, Option.map_some, Option.map_some]
      refine congrArg some ?_
      show { entry.unstamped with leases := entry.unstamped.leases + 1 } = _
      rw [hent]
      simp [pinnedEntry, Nat.add_assoc]
    · rw [if_neg hj, h.entries j]
      simp [Ne.symm hj]
  · rcases mem_append.mp hmem with hmem | hmem
    · exact h.live other hmem
    · rw [mem_singleton.mp hmem]
      show m.state key = .resident generation
      rw [state_of_lookup he₀, ← hst]
      exact (congrArg Entry.state hent).symm
  · rw [hlss]
    rcases mem_append.mp hmem with hmem | hmem
    · rw [if_neg (hne other hmem)]
      exact h.recorded other hmem
    · rw [mem_singleton.mp hmem]
      exact if_pos rfl
  · have hlas := hid ⟨⟨d.nextLease⟩, key, generation, session⟩ (by simp)
    rw [hlss, if_neg (fun heq => hlas heq.symm)]
    exact h.others id fun other hmem => hid other (mem_append_left _ hmem)

/-- **All of them are taken.** -/
theorem Pins.pinned {c : ResidencyManager} (h : Pins session c keys leases d)
    (hpin : Pinned m hand hand c) (hnd : ((hand ++ leases).map Lease.id).Nodup) :
    Pinned m (hand ++ leases) (hand ++ leases) d := by
  induction h generalizing hand with
  | nil =>
    rwa [append_nil]
  | @cons c d d' key keys lease leases hfst hres ih =>
    rw [append_cons] at hnd ⊢
    refine ih (hpin.acquire hfst fun hmem => ?_) hnd
    rw [map_append, nodup_append, map_append, nodup_append] at hnd
    exact hnd.1.2.2 _ hmem _ (by simp) rfl

/-- **The first of the leases in hand is returned.** -/
theorem Pinned.release (h : Pinned m issued (lease :: hand) d)
    (hnd : (issued.map Lease.id).Nodup) : Pinned m issued hand (d.release lease).2 := by
  have hliv := h.live lease mem_cons_self
  have hrec := h.recorded lease mem_cons_self
  obtain ⟨entry₀, he₀, hst₀⟩ := (m.state_eq_resident_iff _ _).mp hliv
  have hkey := h.entries lease.key
  rw [he₀, Option.map_some, Option.map_eq_some_iff] at hkey
  obtain ⟨entry, he, hent⟩ := hkey
  have hsam := congrArg Entry.state hent
  have hst : entry.state = .resident lease.generation := hsam.trans hst₀
  obtain ⟨stats, hs⟩ := h.placed lease.key entry he
  have ht := release_transition h.placed lease
  have hpl := ht.placed h.placed
  have htal := ht.tallied h.placed h.tallied
  rw [release_of_resident hrec he hst hs] at hpl htal ⊢
  have hlss (id : LeaseId) : (d.released lease.id lease.key entry stats).leases.lookup id
      = if id = lease.id then none else d.leases.lookup id := lookup_erase _ _ id
  have hhan : ((lease :: hand).map Lease.id).Nodup := hnd.sublist (h.suffix.sublist.map _)
  have hne : ∀ other ∈ hand, other.id ≠ lease.id := fun other hmem hid =>
    (nodup_cons.mp hhan).1 (mem_map.mpr ⟨other, hmem, hid⟩)
  refine ⟨(suffix_cons lease hand).trans h.suffix, fun j => ?_, fun other hmem => ?_,
    fun other hmem => ?_, fun other hmem hnot => ?_, fun id hid => ?_, h.pools_insert hs _,
    hpl, htal, h.devices, h.loads, h.nextGeneration⟩
  · show ((d.entries.insert lease.key (returnedEntry entry)).lookup j).map Entry.unstamped = _
    rw [lookup_insert]
    by_cases hj : j = lease.key
    · subst hj
      rw [if_pos rfl, he₀, Option.map_some, Option.map_some]
      refine congrArg some ?_
      show { entry.unstamped with leases := entry.unstamped.leases - 1 } = _
      rw [hent]
      simp [pinnedEntry]
    · rw [if_neg hj, h.entries j, map_cons, count_cons_of_ne (Ne.symm hj)]
  · exact h.live other (mem_cons_of_mem _ hmem)
  · rw [hlss, if_neg (hne other hmem)]
    exact h.recorded other (mem_cons_of_mem _ hmem)
  · rw [hlss]
    split_ifs with hid
    · rfl
    · refine h.gone other hmem fun hcon => ?_
      rcases mem_cons.mp hcon with rfl | hcon
      · exact hid rfl
      · exact hnot hcon
  · rw [hlss, if_neg fun heq => hid lease (h.suffix.mem mem_cons_self) heq.symm]
    exact h.others id hid

/-- **All of them are returned.** -/
theorem Pinned.returned (h : Pinned m issued hand d) (hnd : (issued.map Lease.id).Nodup) :
    Pinned m issued [] (d.returned hand) := by
  induction hand generalizing d with
  | nil => exact h
  | cons lease hand ih => exact ih (h.release hnd)

/-- What is left then is what was there, if the identifiers were free. -/
theorem Pinned.same_iff (h : Pinned m issued [] d) (htal : m.Tallied) :
    SameHoldings m d ↔ ∀ lease ∈ issued, m.leases.lookup lease.id = none := by
  constructor
  · intro hsam lease hmem
    rw [← hsam.leases]
    exact h.gone lease hmem not_mem_nil
  · intro hfr
    refine ⟨h.entries, fun id => ?_, fun pool => ?_, h.devices, h.loads, h.nextGeneration⟩
    · by_cases hid : ∀ lease ∈ issued, lease.id ≠ id
      · exact h.others id hid
      · simp only [not_forall, not_not] at hid
        obtain ⟨lease, hmem, rfl⟩ := hid
        rw [h.gone lease hmem not_mem_nil, hfr lease hmem]
    · have hpl := h.pools pool
      cases hs : m.pools.lookup pool with
      | none =>
        rwa [hs, Option.map_none, Option.map_eq_none_iff] at hpl
      | some stats =>
        rw [hs, Option.map_some, Option.map_eq_some_iff] at hpl
        obtain ⟨stats', hs', heq⟩ := hpl
        rw [hs']
        have hpin : stats'.pinnedBytes = stats.pinnedBytes := by
          rw [(h.tallied pool stats' hs').pinned, (htal pool stats hs).pinned]
          have hwgh (t : Table ExpertKey Entry) : t.sum (pinnedIn pool)
              = t.sum fun key entry => pinnedIn pool key entry.unstamped :=
            sum_congr fun key entry _ =>
              (weights_congr (e := entry.unstamped) rfl rfl rfl pool key).2.2
          rw [hwgh, hwgh]
          exact sum_eq_of_map Entry.unstamped (pinnedIn pool) h.entries
        have hbac (s : PoolStats) : s = { s.unpinned with pinnedBytes := s.pinnedBytes } := rfl
        rw [hbac stats', hbac stats, heq, hpin]

/-! ## Identifiers -/

/-- **There are identifiers for so many leases**, and none of them is on
record. -/
def IdsSuffice (m : ResidencyManager) (count : ℕ) : Prop :=
  m.nextLease + count ≤ u64Max + 1 ∧ ∀ i < count, m.leases.lookup ⟨m.nextLease + i⟩ = none

/-- **Taking leases and returning them changes nothing exactly when the
identifiers suffice.** -/
theorem Pins.returned_iff (h : Pins session m keys leases d) (hpl : m.Placed)
    (htal : m.Tallied) (hnex : m.nextLease ≤ u64Max) (hpl' : d.Placed) :
    SameHoldings m (d.returned leases) ↔ m.IdsSuffice keys.length := by
  by_cases hfew : m.nextLease + keys.length ≤ u64Max + 1
  · have hids : leases.map Lease.id
        = (range keys.length).map fun i => LeaseId.mk (m.nextLease + i) := by
      rw [h.ids hpl hnex]
      refine map_congr_left fun i hi => ?_
      have hlt := mem_range.mp hi
      show LeaseId.mk (min (m.nextLease + i) u64Max) = _
      rw [Nat.min_eq_left (by omega)]
    have hnd : (leases.map Lease.id).Nodup := by
      rw [hids]
      refine nodup_range.map fun i j hij => ?_
      exact Nat.add_left_cancel (LeaseId.mk.inj hij)
    have hpin := (h.pinned (.refl hpl htal) hnd).returned hnd
    rw [nil_append] at hpin
    rw [hpin.same_iff htal]
    constructor
    · intro hfr
      refine ⟨hfew, fun i hi => ?_⟩
      have hmem : LeaseId.mk (m.nextLease + i) ∈ leases.map Lease.id := by
        rw [hids]
        exact mem_map.mpr ⟨i, mem_range.mpr hi, rfl⟩
      obtain ⟨lease, hls, hid⟩ := mem_map.mp hmem
      rw [← hid]
      exact hfr lease hls
    · rintro ⟨-, hfr⟩ lease hls
      have hmem := mem_map_of_mem (f := Lease.id) hls
      rw [hids] at hmem
      obtain ⟨i, hi, hid⟩ := mem_map.mp hmem
      rw [← hid]
      exact hfr i (mem_range.mp hi)
  · refine iff_of_false (fun hsam => ?_) (fun hsuf => hfew hsuf.1)
    have hlkd := h.leaked hpl hnex (not_le.mp hfew) hpl'
    rw [hsam.leaseCount_eq] at hlkd
    exact Nat.lt_irrefl _ hlkd

theorem grant_next_le (key : ExpertKey) (generation : Generation) (waiters : List SessionId)
    {next : ℕ} (hnex : next ≤ u64Max) (leases : LeaseTable) :
    (grant key generation waiters next leases).2.1 ≤ u64Max := by
  induction waiters generalizing next leases with
  | nil => exact hnex
  | cons session sessions ih => exact ih (Nat.min_le_right _ _) _

/-- The next identifier is an unsigned integer. -/
theorem run_nextLease_le (ops : List ResidencyOp) : (machine.run new ops).nextLease ≤ u64Max := by
  have hst {m d : ResidencyManager} {op : ResidencyOp} {out : ResidencyOutcome}
      (ht : m.Transition op out d) (h : m.nextLease ≤ u64Max) : d.nextLease ≤ u64Max := by
    cases ht with
    | started key bytes waiter d stats hev => exact hev.frame.2.2.2.1.trans_le h
    | crowded key bytes waiter _ e hev => exact hev.frame.2.2.2.1.trans_le h
    | published => exact grant_next_le _ _ _ h _
    | acquired => exact Nat.min_le_right _ _
    | evicted key _ hev =>
      cases hev
      exact h
    | _ => exact h
  exact (Machine.run_of_step (M := machine) (P := fun m => m.Placed ∧ m.nextLease ≤ u64Max)
    (fun _ op h => ⟨(execute_transition h.1 op).placed h.1,
      hst (execute_transition h.1 op) h.2⟩) ⟨placed_new, Nat.zero_le _⟩ ops).2

/-- A key of which a lease can be taken. -/
def isResident (m : ResidencyManager) (key : ExpertKey) : Bool :=
  match m.state key with
  | .resident _ => true
  | .absent | .loading _ | .failed _ => false

theorem isResident_iff : m.isResident key = true ↔ ∃ generation, m.state key =
    .resident generation := by
  unfold isResident
  cases m.state key <;> simp

/-- The references that a submission pins before it meets one that is not
resident. -/
def pinnedFirst (m : ResidencyManager) (keys : List ExpertKey) : List ExpertKey :=
  keys.takeWhile m.isResident

theorem pinnedFirst_of_all (h : ∀ key ∈ keys, m.isResident key = true) :
    m.pinnedFirst keys = keys :=
  takeWhile_eq_self_iff.mpr h

theorem pinnedFirst_of_append {after : List ExpertKey} (h : ∀ j ∈ keys, m.isResident j = true)
    (hnot : m.isResident key = false) : m.pinnedFirst (keys ++ key :: after) = keys := by
  rw [pinnedFirst, takeWhile_append_of_pos h, takeWhile_cons_of_neg (by rw [hnot]; simp),
    append_nil]

/-- **Taking leases changes no state**, and each key is resident. -/
theorem Pins.state_eq (h : Pins session m keys leases d) (hpl : m.Placed) :
    d.Placed ∧ (∀ j, d.state j = m.state j) ∧ ∀ key ∈ keys, m.isResident key = true := by
  induction h with
  | nil => exact ⟨hpl, fun _ => rfl, fun _ h => absurd h not_mem_nil⟩
  | @cons m d d' key keys lease leases hfst hrst ih =>
    have ht := acquire_transition hpl key session
    rw [hfst] at ht
    obtain ⟨hpl', hsam, hres⟩ := ih (ht.placed hpl)
    obtain ⟨entry, stats, generation, he, hst, hs, rfl, rfl⟩ := acquire_ok hpl hfst
    have hone (j : ExpertKey) : (m.acquired key entry stats generation session).state j
        = m.state j := state_of_same he (m.leasedEntry entry) rfl rfl j
    refine ⟨hpl', fun j => (hsam j).trans (hone j), fun j hj => ?_⟩
    rcases mem_cons.mp hj with rfl | hj
    · exact isResident_iff.mpr ⟨generation, (state_of_lookup he).trans hst⟩
    · rw [← hres j hj, isResident, isResident, hone]

end ResidencyManager

/-! ## The submission -/

/-- The core takes the session's action. -/
def SchedulerCore.Admits (core : SchedulerCore) (session : SessionId) : Prop :=
  ∃ record, core.sessions.lookup session = some record ∧ record.state = .runnable
    ∧ record.inflight.length < core.budget.maxInflightPerSession

/-- A core that refuses an action stays as it is. -/
theorem SchedulerCore.admits_cases (core : SchedulerCore) (session : SessionId) (action : Action) :
    (core.Admits session ∧ ∃ ticket effect core',
        core.submit session action = (.ok (ticket, effect), core'))
      ∨ ¬ core.Admits session ∧ ∃ e, core.submit session action = (.error e, core) := by
  unfold submit
  cases hrec : core.sessions.lookup session with
  | none =>
    refine Or.inr ⟨fun h => ?_, _, rfl⟩
    obtain ⟨record, hfnd, -⟩ := h
    rw [hrec] at hfnd
    cases hfnd
  | some record =>
    dsimp only
    have href (h : ¬ (record.state = .runnable
        ∧ record.inflight.length < core.budget.maxInflightPerSession)) :
        ¬ core.Admits session := by
      rintro ⟨record', hfnd, hadm⟩
      obtain rfl := Option.some.inj (hrec.symm.trans hfnd)
      exact h hadm
    by_cases hst : record.state ≠ .runnable
    · rw [if_pos hst]
      exact Or.inr ⟨href fun h => hst h.1, _, rfl⟩
    · rw [if_neg hst]
      by_cases hful : core.budget.maxInflightPerSession ≤ record.inflight.length
      · rw [if_pos hful]
        exact Or.inr ⟨href fun h => absurd h.2 (not_lt.mpr hful), _, rfl⟩
      · rw [if_neg hful]
        exact Or.inl ⟨⟨record, hrec, not_not.mp hst, not_le.mp hful⟩, _, _, _, rfl⟩

namespace AccelSystem

open ResidencyManager (Pins SameHoldings)

variable {s : AccelSystem}

theorem rollBack_residency (s : AccelSystem) (leases : List Lease) :
    (s.rollBack leases).residency = s.residency.returned leases := by
  induction leases generalizing s with
  | nil => rfl
  | cons lease leases ih => exact ih _

/-- **What the loop of pins does**: it takes all the leases, or it returns
those it took before the first key that is not resident. -/
theorem pin_cases (hpl : s.residency.Placed) (session : SessionId) (keys : List ExpertKey)
    (hand : List Lease) : (∃ leases d calls, Pins session s.residency keys leases d
        ∧ s.pin session keys hand
          = (.ok (hand ++ leases), { s with residency := d, calls := calls }))
      ∨ ∃ before key after leases d calls, keys = before ++ key :: after
        ∧ Pins session s.residency before leases d ∧ s.residency.isResident key = false
        ∧ s.pin session keys hand = (.error (.notResident key),
          ({ s with residency := d, calls := calls } : AccelSystem).rollBack (hand ++ leases)) := by
  induction keys generalizing s hand with
  | nil =>
    refine Or.inl ⟨[], s.residency, s.calls, .nil _, ?_⟩
    rw [List.append_nil]
    rfl
  | cons key keys ih =>
    by_cases hres : s.residency.isResident key
    · obtain ⟨generation, hst⟩ := ResidencyManager.isResident_iff.mp hres
      obtain ⟨entry, he, hent⟩ := (s.residency.state_eq_resident_iff key generation).mp hst
      obtain ⟨stats, hs⟩ := hpl key entry he
      have hfst := ResidencyManager.acquire_of_resident session he hent hs
      have ht := ResidencyManager.acquire_transition hpl key session
      rw [hfst] at ht
      have hone : Pins session s.residency [key] _ _ := .cons hfst (.nil _)
      have hstt := (hone.state_eq hpl).2.1
      have hpin : s.pin session (key :: keys) hand = AccelSystem.pin
          { s with
            residency := s.residency.acquired key entry stats generation session
            calls := s.calls ++ [.acquire key session] }
          session keys (hand ++ [⟨⟨s.residency.nextLease⟩, key, generation, session⟩]) := by
        rw [pin, acquire, hfst]
      rw [hpin]
      rcases ih (s := { s with
          residency := s.residency.acquired key entry stats generation session
          calls := s.calls ++ [.acquire key session] }) (ht.placed hpl)
          (hand ++ [⟨⟨s.residency.nextLease⟩, key, generation, session⟩])
        with ⟨leases, d, calls, hpns, heq⟩ | ⟨before, j, after, leases, d, calls, rfl, hpns, hnot, heq⟩
      · refine Or.inl ⟨_ :: leases, d, calls, .cons hfst hpns, ?_⟩
        rw [heq, append_assoc]
        rfl
      · refine Or.inr ⟨key :: before, j, after, _ :: leases, d, calls, rfl, .cons hfst hpns, ?_, ?_⟩
        · rw [← hnot, ResidencyManager.isResident, ResidencyManager.isResident, hstt]
        · rw [heq, append_assoc]
          rfl
    · rw [Bool.not_eq_true] at hres
      have hoth : ∀ generation, s.residency.state key ≠ .resident generation := by
        intro generation hst
        rw [ResidencyManager.isResident_iff.mpr ⟨generation, hst⟩] at hres
        cases hres
      refine Or.inr ⟨[], key, keys, [], s.residency, s.calls ++ [.acquire key session], rfl,
        .nil _, hres, ?_⟩
      rw [pin, acquire, ResidencyManager.acquire_of_other session hoth, List.append_nil]

/-- **A submission leaves no trace**, but for time stamps and
identifiers. -/
structure Untouched (s s' : AccelSystem) : Prop where
  core : s'.core = s.core
  accel : s'.accel = s.accel
  residency : SameHoldings s.residency s'.residency

/-- What was pinned is returned without a trace exactly when the identifiers
suffice for it. -/
theorem untouched_rollBack_iff {keys : List ExpertKey} {leases : List Lease} {session : SessionId}
    {d : ResidencyManager} (hpin : Pins session s.residency keys leases d)
    (hpl : s.residency.Placed) (htal : s.residency.Tallied)
    (hnex : s.residency.nextLease ≤ u64Max) (calls : List ResidencyOp) :
    Untouched s (({ s with residency := d, calls := calls } : AccelSystem).rollBack leases)
      ↔ s.residency.IdsSuffice keys.length := by
  have hwor := works_rollBack ({ s with residency := d, calls := calls } : AccelSystem) leases
  rw [← hpin.returned_iff hpl htal hnex (hpin.state_eq hpl).1]
  constructor
  · intro h
    have hsam := h.residency
    rwa [rollBack_residency] at hsam
  · intro h
    refine ⟨hwor.core, hwor.accel, ?_⟩
    rwa [rollBack_residency]

/-- The registry knows the target, and the target takes accelerator work. -/
def TargetAccepted (registry : DeviceRegistry) (target : ExecutionTarget) : Prop :=
  registry.get target.device = some target ∧ target.accepts .accelerator = true

/-- A target that is not accepted is refused at once. -/
theorem submit_of_not_accepted {registry : DeviceRegistry} {target : ExecutionTarget}
    (h : ¬ TargetAccepted registry target) (session : SessionId) (action : AccelAction) :
    ∃ e, s.submit registry session target action = (.error e, s) := by
  unfold submit
  cases hget : (registry.get target.device).filter (fun registered => registered = target) with
  | none => exact ⟨_, rfl⟩
  | some =>
    obtain ⟨hfnd, heq⟩ := Option.filter_eq_some_iff.mp hget
    obtain rfl := of_decide_eq_true heq
    dsimp only
    rw [if_pos]
    · exact ⟨_, rfl⟩
    · exact Bool.not_eq_true _ ▸ fun hacc => h ⟨hfnd, hacc⟩

/-- **Which submissions leave no trace when they are rejected**, whatever the
core and the bookkeeping, in any state the manager can reach. -/
theorem submit_atomic_iff (s : AccelSystem) (ops : List ResidencyOp)
    (hrun : s.residency = ResidencyManager.machine.run .new ops) (registry : DeviceRegistry)
    (session : SessionId) (target : ExecutionTarget) (action : AccelAction) :
    ((∃ e, (s.submit registry session target action).1 = .error e) →
        Untouched s (s.submit registry session target action).2)
      ↔ (TargetAccepted registry target →
          ¬ ((∀ key ∈ action.references, s.residency.isResident key = true)
            ∧ s.core.Admits session) →
          s.residency.IdsSuffice (s.residency.pinnedFirst action.references).length) := by
  have hpl : s.residency.Placed := hrun ▸ ResidencyManager.run_placed ops
  have htal : s.residency.Tallied := hrun ▸ ResidencyManager.run_tallied ops
  have hnex : s.residency.nextLease ≤ u64Max := hrun ▸ ResidencyManager.run_nextLease_le ops
  by_cases hacc : TargetAccepted registry target
  · have hget : (registry.get target.device).filter (fun registered => registered = target)
        = some target := by
      rw [hacc.1]
      exact Option.filter_some_pos (decide_eq_true rfl)
    unfold submit
    rw [hget]
    dsimp only
    rw [if_neg (by rw [hacc.2]; simp)]
    rcases pin_cases hpl session action.references [] with
      ⟨leases, d, calls, hpin, heq⟩ | ⟨before, key, after, leases, d, calls, hkey, hpin, hnot, heq⟩
    · -- all of the references are pinned, and the core decides
      have hall := (hpin.state_eq hpl).2.2
      rw [heq, ResidencyManager.pinnedFirst_of_all hall]
      dsimp only
      rcases s.core.admits_cases session ⟨.accelerator, action.payload⟩ with
        ⟨hadm, ticket, effect, core, hsub⟩ | ⟨href, e, hsub⟩
      · rw [hsub]
        refine iff_of_true (fun ⟨e, he⟩ => by cases he) (fun _ hnot => ?_)
        exact absurd ⟨hall, hadm⟩ hnot
      · rw [hsub]
        have hrol := untouched_rollBack_iff hpin hpl htal hnex calls
        exact ⟨fun h _ _ => hrol.mp (h ⟨_, rfl⟩),
          fun h _ => hrol.mpr (h hacc fun hbot => href hbot.2)⟩
    · -- one is not resident
      have hall := (hpin.state_eq hpl).2.2
      rw [heq, hkey, ResidencyManager.pinnedFirst_of_append hall hnot]
      have hrol := untouched_rollBack_iff hpin hpl htal hnex calls
      refine ⟨fun h _ _ => hrol.mp (h ⟨_, rfl⟩), fun h _ => hrol.mpr (h hacc ?_)⟩
      rintro ⟨hres, -⟩
      rw [hres key (mem_append_right _ mem_cons_self)] at hnot
      cases hnot
  · obtain ⟨e, heq⟩ := submit_of_not_accepted (s := s) hacc session action
    rw [heq]
    exact iff_of_true (fun _ => ⟨rfl, rfl, .refl _⟩) (fun h => absurd h hacc)

open ResidencyManager (numberedKey loadsInTurn)

/-- One key after another has been loaded, and nothing submitted. -/
def afterLoads (n : ℕ) : AccelSystem where
  accel := ⟨∅⟩
  core := .new ⟨64⟩
  residency := ResidencyManager.machine.run .new (loadsInTurn n)
  calls := []
  handed := []

/-- A submission that references a resident key twice and then one that is
not there leaves no trace. -/
theorem untouched_of_missing :
    Untouched (afterLoads 1) ((afterLoads 1).submit someRegistry ⟨0⟩ someTarget
      ⟨[], [numberedKey 0 0, numberedKey 0 0, numberedKey 0 1]⟩).2 :=
  (submit_atomic_iff (afterLoads 1) (loadsInTurn 1) rfl someRegistry ⟨0⟩ someTarget
    ⟨[], [numberedKey 0 0, numberedKey 0 0, numberedKey 0 1]⟩).mpr
    (fun _ _ => ⟨by decide +kernel, by decide +kernel⟩)
    ⟨.notResident (numberedKey 0 1), by decide +kernel⟩

/-- Two keys are pinned under the last identifier, and a third is not
there. -/
theorem leaks_of_last (hpl : s.residency.Placed) (htal : s.residency.Tallied)
    (hnex : s.residency.nextLease = u64Max)
    (hfst : s.residency.isResident (numberedKey 0 0) = true)
    (hsec : s.residency.isResident (numberedKey 0 1) = true)
    (hnot : s.residency.isResident (numberedKey 1 0) = false) :
    (s.submit someRegistry ⟨0⟩ someTarget
        ⟨[], [numberedKey 0 0, numberedKey 0 1, numberedKey 1 0]⟩).1
      = .error (.notResident (numberedKey 1 0))
    ∧ ¬ Untouched s (s.submit someRegistry ⟨0⟩ someTarget
        ⟨[], [numberedKey 0 0, numberedKey 0 1, numberedKey 1 0]⟩).2 := by
  have hget : (someRegistry.get someTarget.device).filter (fun r => r = someTarget)
      = some someTarget := by decide
  have hall : ∀ key ∈ [numberedKey 0 0, numberedKey 0 1], s.residency.isResident key = true := by
    intro key hkey
    rcases mem_cons.mp hkey with rfl | hkey
    · exact hfst
    · rwa [mem_singleton.mp hkey]
  unfold submit
  rw [hget]
  dsimp only
  rw [if_neg (by decide)]
  rcases pin_cases hpl ⟨0⟩ [numberedKey 0 0, numberedKey 0 1, numberedKey 1 0] [] with
    ⟨leases, d, calls, hpin, heq⟩ | ⟨before, key, after, leases, d, calls, hkys, hpin, hgon, heq⟩
  · rw [(hpin.state_eq hpl).2.2 _ (by simp)] at hnot
    cases hnot
  · have htak : [numberedKey 0 0, numberedKey 0 1] = before := by
      have hsam := congrArg s.residency.pinnedFirst hkys
      rw [ResidencyManager.pinnedFirst_of_append (hpin.state_eq hpl).2.2 hgon] at hsam
      have hfst : s.residency.pinnedFirst ([numberedKey 0 0, numberedKey 0 1]
          ++ numberedKey 1 0 :: []) = [numberedKey 0 0, numberedKey 0 1] :=
        ResidencyManager.pinnedFirst_of_append hall hnot
      rw [← hsam]
      exact hfst.symm
    subst htak
    obtain ⟨rfl, -⟩ := cons.inj (append_cancel_left
      (show [numberedKey 0 0, numberedKey 0 1] ++ [numberedKey 1 0] = _ from hkys))
    rw [heq]
    refine ⟨rfl, fun h => ?_⟩
    have hsuf := (untouched_rollBack_iff hpin hpl htal hnex.le calls).mp h
    rw [ResidencyManager.IdsSuffice, hnex] at hsuf
    exact absurd hsuf.1 (by decide)

theorem leaks_of_eq {n : ℕ} (hn : n = u64Max) : ((afterLoads n).submit someRegistry ⟨0⟩ someTarget
        ⟨[], [numberedKey 0 0, numberedKey 0 1, numberedKey 1 0]⟩).1
      = .error (.notResident (numberedKey 1 0))
    ∧ ¬ Untouched (afterLoads n) ((afterLoads n).submit someRegistry ⟨0⟩ someTarget
        ⟨[], [numberedKey 0 0, numberedKey 0 1, numberedKey 1 0]⟩).2 := by
  obtain ⟨hrmy, hvac, hres⟩ := ResidencyManager.roomy_loadsInTurn hn.le
  have hpos : 1 < n := by
    rw [hn]
    decide
  refine leaks_of_last (ResidencyManager.run_placed _) (ResidencyManager.run_tallied _)
    (hrmy.nextLease.trans hn) (ResidencyManager.isResident_iff.mpr (hres 0 (by omega)))
    (ResidencyManager.isResident_iff.mpr (hres 1 hpos)) ?_
  have habs : (afterLoads n).residency.state (numberedKey 1 0) = .absent :=
    ResidencyManager.state_of_absent (hvac 1 0 (Or.inl Nat.one_ne_zero))
  rw [ResidencyManager.isResident, habs]

/-- **After `u64::MAX` leases the last identifier is given out twice**, and
one of the two leases is left behind when the submission is rejected. -/
theorem submit_leaks : ((afterLoads u64Max).submit someRegistry ⟨0⟩ someTarget
        ⟨[], [numberedKey 0 0, numberedKey 0 1, numberedKey 1 0]⟩).1
      = .error (.notResident (numberedKey 1 0))
    ∧ ¬ Untouched (afterLoads u64Max) ((afterLoads u64Max).submit someRegistry ⟨0⟩ someTarget
        ⟨[], [numberedKey 0 0, numberedKey 0 1, numberedKey 1 0]⟩).2 :=
  leaks_of_eq rfl

end AccelSystem

end Logan
