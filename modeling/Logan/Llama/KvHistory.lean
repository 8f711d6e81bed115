import Logan.Llama.Kv

/-!
# The history of the key/value cache

The history of a cache is meant to be a stack with one snapshot for each
generation below the present one. The rows of every layer do agree with the
number of tokens, whatever is called, and a call that fails changes nothing. But
going back to a snapshot leaves that snapshot in the history, and the next commit
records the same state once more. So the history is in order in a whole run
exactly when every commit of it **starts** a generation: none of the history has
the present one.
-/

namespace Logan

open List

namespace Llama

open Fault

namespace KvCache

variable {F : Type} {cache next : KvCache F} {numLayers kvWidth : ℕ}

/-- **A history in order**: at most one snapshot for a generation, in increasing order, and
none of a generation to come. -/
structure Ordered (cache : KvCache F) : Prop where
  increasing : cache.history.Pairwise fun s t => s.checkpoint.generation < t.checkpoint.generation
  current : ∀ s ∈ cache.history, s.checkpoint.generation ≤ cache.generation

/-- **A commit starts a generation** if the history has no snapshot of the present one, and if
there is a next one. -/
def Starts (cache : KvCache F) : Prop :=
  cache.generation.toNat < u64Max ∧ ∀ s ∈ cache.history, s.checkpoint.generation ≠ cache.generation

/-- **What is asked of every cache of a run**: rows and tokens agree, the history is in order
and so no longer than there have been generations, and a call that fails changes nothing. -/
structure Legal (numLayers kvWidth : ℕ) (cache : KvCache F) : Prop where
  rows : cache.RowsMatch numLayers kvWidth
  ordered : cache.Ordered
  bounded : cache.history.length ≤ cache.generation.toNat + 1
  unchanged : ∀ call e, (cache.call call).1 = .error (.failed e) → (cache.call call).2 = cache

/-! ## One commit -/

theorem Ordered.length_le (h : cache.Ordered) :
    cache.history.length ≤ cache.generation.toNat + 1 := by
  have hnd : (cache.history.map fun s => s.checkpoint.generation.toNat).Nodup := by
    refine pairwise_map.mpr (h.increasing.imp fun hlt => ?_)
    exact (UInt64.lt_iff_toNat_lt.mp hlt).ne
  have hsub : (cache.history.map fun s => s.checkpoint.generation.toNat)
      ⊆ List.range (cache.generation.toNat + 1) := by
    intro n hn
    obtain ⟨s, hs, rfl⟩ := mem_map.mp hn
    exact mem_range.mpr (Nat.lt_succ_of_le (UInt64.le_iff_toNat_le.mp (h.current s hs)))
  have hle := (hnd.subperm hsub).length_le
  rwa [length_map, length_range] at hle

theorem ordered_new (numLayers kvWidth : ℕ) : (new numLayers kvWidth : KvCache F).Ordered :=
  ⟨List.Pairwise.nil, fun _ hs => absurd hs not_mem_nil⟩

theorem toNat_succ {g : UInt64} (h : g.toNat < u64Max) : (g + 1).toNat = g.toNat + 1 := by
  rw [UInt64.toNat_add]
  exact Nat.mod_eq_of_lt (Nat.succ_lt_of_lt_pred h)

/-- **A commit keeps the history in order** exactly when it starts a generation. -/
theorem Ordered.committed_iff (h : cache.Ordered) {keys values : List (List F)} {rows : ℕ} :
    (cache.committed keys values rows).Ordered ↔ cache.Starts := by
  constructor
  · intro hnex
    have hlas : cache.snapshot ∈ (cache.committed keys values rows).history :=
      mem_append_right _ mem_cons_self
    refine ⟨?_, fun s hs => ?_⟩
    · -- after the last generation the first one comes again, which is not the largest
      by_contra hwr
      have htop : cache.generation.toNat = u64Max :=
        le_antisymm (Nat.le_pred_of_lt cache.generation.toNat_lt) (not_lt.mp hwr)
      have hle := UInt64.le_iff_toNat_le.mp (hnex.current _ hlas)
      have hzer : (cache.generation + 1).toNat = 0 := by
        rw [UInt64.toNat_add, htop]
        rfl
      have hle : cache.generation.toNat ≤ (cache.generation + 1).toNat := hle
      rw [hzer, htop] at hle
      exact absurd hle (by decide)
    · have hlt := (pairwise_append.mp hnex.increasing).2.2 s hs _ mem_cons_self
      exact (UInt64.lt_iff_toNat_lt.mp hlt).ne ∘ congrArg UInt64.toNat
  · rintro ⟨htop, hfr⟩
    have hlt : ∀ s ∈ cache.history, s.checkpoint.generation < cache.generation := by
      intro s hs
      exact UInt64.lt_of_le_of_ne (h.current s hs) (hfr s hs)
    have hnex : cache.generation < cache.generation + 1 := by
      rw [UInt64.lt_iff_toNat_lt, toNat_succ htop]
      exact Nat.lt_succ_self _
    refine ⟨pairwise_append.mpr ⟨h.increasing, pairwise_singleton _ _, ?_⟩, ?_⟩
    · intro s hs t ht
      rw [mem_singleton.mp ht]
      exact hlt s hs
    · intro s hs
      rcases mem_append.mp hs with hs | hs
      · exact UInt64.le_of_lt (UInt64.lt_trans (hlt s hs) hnex)
      · rw [mem_singleton.mp hs]
        exact UInt64.le_of_lt hnex

/-- **Moves keep the history in order** if commits start generations. -/
theorem Ordered.move (h : cache.Ordered) {call : KvCall F}
    {answer : Except (Fault KvError) (Option KvCheckpoint)} (hmov : Moves cache call answer next)
    (hst : ∀ keys values rows, call = .commit keys values rows →
      cache.Accepts keys values rows → cache.Starts) : next.Ordered := by
  cases hmov with
  | refused | stayed => exact h
  | @committed keys values rows hacc =>
    exact h.committed_iff.mpr (hst keys values rows rfl hacc)
  | rewound =>
    exact ⟨h.increasing.sublist filter_sublist, fun t ht => of_decide_eq_true (mem_filter.mp ht).2⟩
  | cleared => exact ⟨List.Pairwise.nil, fun _ hs => absurd hs not_mem_nil⟩

/-- **A call that fails changes nothing**, on a cache of the right shape. -/
theorem Shaped.unchanged (h : cache.Shaped numLayers kvWidth) {call : KvCall F} {e : KvError}
    (hfls : (cache.call call).1 = .error (.failed e)) : (cache.call call).2 = cache := by
  have hmov := h.moves call (by rw [hfls]; rintro ⟨⟩)
  rw [hfls] at hmov
  generalize (cache.call call).2 = next at hmov
  cases hmov
  rfl

theorem Shaped.legal (h : cache.Shaped numLayers kvWidth) (hord : cache.Ordered) :
    cache.Legal numLayers kvWidth :=
  ⟨h.rows, hord, hord.length_le, fun _ _ => h.unchanged⟩

/-! ## Runs -/

/-- The history is in order after a run whose commits start generations. -/
theorem ordered_after {calls : List (KvCall F)}
    (hst : ∀ before keys values rows, before ++ [.commit keys values rows] <+: calls →
      ∀ cache : KvCache F, after numLayers kvWidth before = some cache →
        cache.Accepts keys values rows → cache.Starts)
    (h : after numLayers kvWidth calls = some cache) : cache.Ordered := by
  induction calls using List.reverseRecOn generalizing cache with
  | nil =>
    obtain rfl := Option.some.inj h
    exact ordered_new numLayers kvWidth
  | append_singleton calls call ih =>
    obtain ⟨before, hbef, hpan, rfl⟩ := after_concat.mp h
    have hord := ih (fun earlier keys values rows hbeg =>
      hst earlier keys values rows (hbeg.trans (prefix_append _ _))) hbef
    refine hord.move ((shaped_after hbef).moves call hpan) ?_
    rintro keys values rows rfl
    exact hst calls keys values rows prefix_rfl before hbef

/-- **Every cache of a run is legal exactly when all its commits start generations.** -/
theorem legal_iff_starts (numLayers kvWidth : ℕ) (calls : List (KvCall F)) :
    (∀ before, before <+: calls → ∀ cache : KvCache F,
        after numLayers kvWidth before = some cache → cache.Legal numLayers kvWidth) ↔
      ∀ before keys values rows, before ++ [.commit keys values rows] <+: calls →
        ∀ cache : KvCache F, after numLayers kvWidth before = some cache →
          cache.Accepts keys values rows → cache.Starts := by
  constructor
  · intro hleg before keys values rows hbeg cache hcac hacc
    have hord := (hleg before ((prefix_append _ _).trans hbeg) cache hcac).ordered
    have hnex := hleg _ hbeg _ (after_commit hcac hacc)
    exact hord.committed_iff.mp hnex.ordered
  · intro hst before hbeg cache hcac
    refine (shaped_after hcac).legal (ordered_after (fun earlier keys values rows h => ?_) hcac)
    exact hst earlier keys values rows (h.trans hbeg)

/-- A token is speculated upon, discarded, and speculated upon again. -/
def speculatedTwice : List (KvCall UInt32) :=
  [.commit [[1]] [[2]] 1, .restore ⟨0, 0⟩, .commit [[3]] [[4]] 1]

theorem history_speculatedTwice :
    (after 1 1 speculatedTwice).map (fun cache => cache.history.map Snapshot.checkpoint)
      = some [⟨0, 0⟩, ⟨0, 0⟩] := by
  decide

/-- **Not every cache of a run is legal.** -/
theorem not_forall_legal :
    ¬ ∀ (numLayers kvWidth : ℕ) (calls : List (KvCall UInt32)) (cache : KvCache UInt32),
      after numLayers kvWidth calls = some cache → cache.Legal numLayers kvWidth := by
  intro h
  obtain ⟨cache, hcac, hhis⟩ := Option.map_eq_some_iff.mp history_speculatedTwice
  have hinc : (cache.history.map Snapshot.checkpoint).Pairwise
      fun c d => c.generation < d.generation :=
    pairwise_map.mpr (h 1 1 speculatedTwice cache hcac).ordered.increasing
  rw [hhis] at hinc
  exact absurd hinc (by decide)

end KvCache

end Llama

end Logan
