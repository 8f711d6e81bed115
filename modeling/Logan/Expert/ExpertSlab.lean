import Logan.Expert.ExpertOwnership

/-!
# The slab of an expert store

An eviction hands its place in the slab to the entry that comes in. The place
of an entry that was taken is never filled again, since nothing remembers
where the holes are. So the slab has a place for every entry that is there
and one for every value that was ever taken (`slab_length_eq`), and it stays
within the capacity exactly as long as these do (`slab_le_capacity_iff`). A
store from which values are taken again and again grows without bound.
-/

namespace Logan

/-- **The places that a run fills for good**: those of the entries that the
recency list has in the end, and those of the values that were taken on the
way. -/
def ExpertLayout.placesUsed (V : Type) (layout : ExpertLayout)
    (ops : List (CacheOp StoreKey V)) : ℕ :=
  ((Lru.machine Prod.fst).run (layout.lru V) ops).entries.length
    + (((layout.lru V).answers Prod.fst ops).flatMap CacheAnswer.takings).length

namespace ExpertStore

variable {V : Type} {s : ExpertStore V} {answers : List (CacheAnswer V)}

theorem run_append_eq_ok {ops ops' : List (CacheOp StoreKey V)} {s t : ExpertStore V}
    {answers : List (CacheAnswer V)} (h : s.run (ops ++ ops') = .ok (answers, t)) :
    ∃ answers' u, s.run ops = .ok (answers', u) := by
  induction ops generalizing s t answers with
  | nil => exact ⟨[], s, rfl⟩
  | cons op ops ih =>
    obtain ⟨⟨answer, u⟩, hst, hres⟩ := Result.bind_eq_ok.mp h
    obtain ⟨⟨answers', v⟩, hrun, -⟩ := Result.bind_eq_ok.mp hres
    obtain ⟨answers'', w, hw⟩ := ih hrun
    refine ⟨answer :: answers'', w, ?_⟩
    rw [run, hst, Result.ok_bind]
    dsimp only
    rw [hw]
    rfl

/-- **How long the slab is**, after any run. -/
theorem slab_length_eq (layout : ExpertLayout) {ops : List (CacheOp StoreKey V)}
    (hrun : (layout.build V).run ops = .ok (answers, s)) :
    s.slab.length = layout.placesUsed V ops := by
  have hsl : (layout.build V).slab.length = 0 := by cases layout <;> rfl
  rcases run_refines (build_refines layout) ops with ⟨t, ht, hlen, -⟩ | ⟨herr, -⟩
  · obtain ⟨-, rfl⟩ := Prod.mk.inj (Except.ok.inj (hrun.symm.trans ht))
    rwa [hsl, Nat.zero_add] at hlen
  · rw [hrun] at herr
    cases herr

theorem capacity_eq (layout : ExpertLayout) {ops : List (CacheOp StoreKey V)}
    (hrun : (layout.build V).run ops = .ok (answers, s)) :
    s.capacity = (layout.build V).capacity := by
  rcases run_refines (build_refines layout) ops with ⟨t, ht, -, href⟩ | ⟨herr, -⟩
  · obtain ⟨-, rfl⟩ := Prod.mk.inj (Except.ok.inj (hrun.symm.trans ht))
    exact href.capacity.trans (Lru.run_capacity Prod.fst (layout.lru V) ops).1
  · rw [hrun] at herr
    cases herr

/-- **When the slab stays within the capacity**, in every state of a run:
exactly if the entries and the values taken so far always do. -/
theorem slab_le_capacity_iff (layout : ExpertLayout) {ops : List (CacheOp StoreKey V)}
    (hrun : (layout.build V).run ops = .ok (answers, s)) :
    (∀ before answers s, before <+: ops → (layout.build V).run before = .ok (answers, s) →
        s.slab.length ≤ s.capacity) ↔ ∀ before, before <+: ops →
        layout.placesUsed V before ≤ (layout.build V).capacity := by
  constructor
  · rintro h before ⟨after, rfl⟩
    obtain ⟨answers', t, ht⟩ := run_append_eq_ok hrun
    rw [← slab_length_eq layout ht, ← capacity_eq layout ht]
    exact h before answers' t (List.prefix_append before after) ht
  · intro h before answers' t hbef ht
    rw [slab_length_eq layout ht, capacity_eq layout ht]
    exact h before hbef

/-- In a store of two, an entry comes and goes, and another one comes to a second place. -/
theorem slab_le_capacity_iff_of_three :
    (∀ before answers s, before <+: [.insert (0, 0) 10, .take (0, 0), .insert (0, 1) 11] →
        ((ExpertLayout.single 2).build ℕ).run before = .ok (answers, s) →
        s.slab.length ≤ s.capacity)
      ↔ ∀ before, before <+: [.insert (0, 0) 10, .take (0, 0), .insert (0, 1) 11] →
        (ExpertLayout.single 2).placesUsed ℕ before ≤ ((ExpertLayout.single 2).build ℕ).capacity :=
  @slab_le_capacity_iff ℕ _ [.inserted none none 10, .taken (some 10), .inserted none none 11]
    (.single 2) [.insert (0, 0) 10, .take (0, 0), .insert (0, 1) 11] rfl

/-- **A hole is not filled.** In a store of one entry, a value comes, is taken,
and comes again: it has a second place then. -/
theorem slab_exceeds_capacity : ¬ ∀ answers (s : ExpertStore ℕ),
    ((ExpertLayout.single 1).build ℕ).run
      [.insert (0, 0) 10, .take (0, 0), .insert (0, 0) 10] = .ok (answers, s) →
    s.slab.length ≤ s.capacity := fun h => absurd (h _ _ rfl) (by decide)

end ExpertStore

end Logan
