import Logan.Sched.ResidencyAccounts

/-!
# The victim of an eviction

`evict` looks for the entry with the least time stamp among those it may
remove, over a hash map whose order is not specified. The answer does not
depend on that order: time stamps are clock readings, and no two entries
carry the same one (`Stamped`), as long as the clock has not saturated. The
victim is therefore the one entry that was touched before all the others
(`evict_oldest`).
-/

namespace Logan

namespace ResidencyManager

variable {m d : ResidencyManager} {key : ExpertKey} {op : ResidencyOp} {out : ResidencyOutcome}
variable {entries : Table ExpertKey Entry} {clock : ℕ} {entry entry' : Entry}

/-- The clock has not reached `u64::MAX`. -/
def ClockLimit (m : ResidencyManager) : Prop := m.clock < u64Max

/-- **The time stamps of the entries** are past readings of the clock, each
of them another. -/
structure Stamped (entries : Table ExpertKey Entry) (clock : ℕ) : Prop where
  le_clock : ∀ key e, entries.lookup key = some e → e.lastTouch ≤ clock
  distinct : ∀ key e key' e', entries.lookup key = some e → entries.lookup key' = some e' →
    e.lastTouch = e'.lastTouch → key = key'

/-- An entry is rewritten and keeps its time stamp. -/
theorem Stamped.insert_entry (h : Stamped entries clock) (he : entries.lookup key = some entry)
    (hsam : entry'.lastTouch = entry.lastTouch) : Stamped (entries.insert key entry') clock := by
  have hbac : ∀ j e, (entries.insert key entry').lookup j = some e →
      ∃ e₀, entries.lookup j = some e₀ ∧ e₀.lastTouch = e.lastTouch := by
    intro j e hj
    rw [Table.lookup_insert] at hj
    by_cases hjk : j = key
    · rw [if_pos hjk] at hj
      exact ⟨entry, hjk ▸ he, by rw [← Option.some.inj hj, hsam]⟩
    · rw [if_neg hjk] at hj
      exact ⟨e, hj, rfl⟩
  refine ⟨fun j e hj => ?_, fun j e j' e' hj hj' heq => ?_⟩
  · obtain ⟨e₀, he₀, hsam₀⟩ := hbac j e hj
    exact hsam₀ ▸ h.le_clock j e₀ he₀
  · obtain ⟨e₀, he₀, hsam₀⟩ := hbac j e hj
    obtain ⟨e₁, he₁, hsam₁⟩ := hbac j' e' hj'
    exact h.distinct j e₀ j' e₁ he₀ he₁ (hsam₀.trans (heq.trans hsam₁.symm))

/-- **An entry is stamped with a fresh reading of the clock.** -/
theorem Stamped.touch (h : Stamped entries clock) (key : ExpertKey)
    (hlim : saturatingAdd u64Max clock 1 < u64Max)
    (hfr : entry'.lastTouch = saturatingAdd u64Max clock 1) :
    Stamped (entries.insert key entry') (saturatingAdd u64Max clock 1) := by
  rw [saturatingAdd_of_lt hlim] at hfr ⊢
  have hbac : ∀ j e, (entries.insert key entry').lookup j = some e →
      (j = key ∧ e.lastTouch = clock + 1) ∨ (entries.lookup j = some e ∧ e.lastTouch ≤ clock) := by
    intro j e hj
    rw [Table.lookup_insert] at hj
    by_cases hjk : j = key
    · rw [if_pos hjk] at hj
      exact Or.inl ⟨hjk, by rw [← Option.some.inj hj, hfr]⟩
    · rw [if_neg hjk] at hj
      exact Or.inr ⟨hj, h.le_clock j e hj⟩
  refine ⟨fun j e hj => ?_, fun j e j' e' hj hj' heq => ?_⟩
  · rcases hbac j e hj with ⟨-, hnew⟩ | ⟨-, hle⟩
    · exact hnew.le
    · exact Nat.le_succ_of_le hle
  · rcases hbac j e hj with ⟨rfl, hnew⟩ | ⟨hold, hle⟩ <;>
      rcases hbac j' e' hj' with ⟨rfl, hnew'⟩ | ⟨hold', hle'⟩
    · rfl
    · omega
    · omega
    · exact h.distinct j e j' e' hold hold' heq

theorem Stamped.evictions (h : Stamped m.entries m.clock) (hev : m.Evictions d) :
    Stamped d.entries d.clock := by
  rw [hev.frame.2.2.2.2.2]
  exact ⟨fun key e he => h.le_clock key e (hev.lookup_eq he),
    fun key e key' e' he he' => h.distinct key e key' e' (hev.lookup_eq he) (hev.lookup_eq he')⟩

/-- **A transition keeps the time stamps apart.** -/
theorem Transition.stamped (ht : m.Transition op out d) (h : Stamped m.entries m.clock)
    (hlim : d.ClockLimit) : Stamped d.entries d.clock := by
  cases ht with
  | poolAdded | deviceAdded | dropped | transferred | ignored | refused => exact h
  | hit key =>
    exact h.touch key hlim rfl
  | joined key waiter entry stats loadId he =>
    exact h.insert_entry he (join_lastTouch _ _)
  | started key bytes waiter d stats hev =>
    exact (h.evictions hev).touch key hlim rfl
  | crowded key bytes waiter _ e hev => exact h.evictions hev
  | left loadId session key entry b hl he => exact h.insert_entry he rfl
  | published loadId key =>
    exact h.touch key hlim rfl
  | failed loadId result message key entry stats hres hl he =>
    exact h.insert_entry he rfl
  | acquired key =>
    exact h.touch key hlim rfl
  | released lease owner entry stats hl he => exact h.insert_entry he rfl
  | evicted key _ hev => exact h.evictions (Evictions.of_evicts hev)

theorem stamped_new : Stamped new.entries new.clock where
  le_clock _ _ he := absurd he (by simp [new])
  distinct _ _ _ _ he := absurd he (by simp [new])

theorem run_stamped {ops : List ResidencyOp} (hlim : machine.Within ClockLimit new ops) :
    Stamped (machine.run new ops).entries (machine.run new ops).clock :=
  run_of_transition (P := fun m => Stamped m.entries m.clock)
    (fun ht _ h hnex => ht.stamped h hnex) stamped_new hlim

/-! ## The victim -/

/-- **What `evict` may remove from a pool**: a resident entry without a
lease. -/
structure MayEvict (m : ResidencyManager) (pool : MemoryPoolId) (key : ExpertKey)
    (entry : Entry) : Prop where
  found : m.entries.lookup key = some entry
  here : key.pool = pool
  unleased : entry.leases = 0
  resident : entry.IsResident

theorem mem_evictable_iff {pool : MemoryPoolId} :
    (key, entry) ∈ m.evictable pool ↔ m.MayEvict pool key entry := by
  constructor
  · intro h
    obtain ⟨hfnd, hher, hidl, hres⟩ := mem_evictable h
    exact ⟨hfnd, hher, hidl, hres⟩
  · intro h
    refine List.mem_filter.mpr ⟨List.mem_map.mpr ?_, ?_⟩
    · exact ⟨⟨key, entry⟩, AList.mem_lookup_iff.mp h.found, rfl⟩
    · exact decide_eq_true ⟨h.here, h.unleased, h.resident⟩

/-- **The victim was touched before all the others** that may be removed. -/
theorem evict_oldest {ops : List ResidencyOp} (hlim : machine.Within ClockLimit new ops)
    {pool : MemoryPoolId} (hev : ((machine.run new ops).evict pool).1 = .ok (some key)) :
    ∃ entry, (machine.run new ops).MayEvict pool key entry
      ∧ ∀ j e, (machine.run new ops).MayEvict pool j e → j ≠ key →
        entry.lastTouch < e.lastTouch := by
  have hst := run_stamped hlim
  generalize machine.run new ops = m at hev hst
  rcases m.evict_cases pool with ⟨victim, d, heq, -, -, entry, hmin⟩ | ⟨heq, -⟩ | ⟨e, heq, -⟩
  · rw [heq] at hev
    obtain rfl : victim = key := Option.some.inj (Except.ok.inj hev)
    have hmay := mem_evictable_iff.mp (List.argmin_mem hmin)
    refine ⟨entry, hmay, fun j e hoth hne => ?_⟩
    have hle := List.le_of_mem_argmin (mem_evictable_iff.mpr hoth) hmin
    refine lt_of_le_of_ne hle (fun hsam => hne ?_)
    exact hst.distinct j e victim entry hoth.found hmay.found hsam.symm
  · rw [heq] at hev
    exact absurd (Except.ok.inj hev) (by simp)
  · rw [heq] at hev
    cases hev

end ResidencyManager

end Logan
