import Logan.Llama.Kv

/-!
# What a checkpoint of the cache names

A checkpoint is meant to name one state of the cache: going back to it brings
back the rows that there were. Its generation is rolled back with the rows,
though, and so a new branch counts the same generations again; with the same
number of tokens it reaches a checkpoint that a discarded branch has had. This is
the only way in which a checkpoint can be misunderstood: in a run none of whose
commits **reuses** a checkpoint for other rows, each checkpoint of the past brings
back the rows of its time.

The invariant is that the history only has states of the run, each of them a
beginning of the present rows (`known_after`). That a beginning of a beginning
is one needs the snapshots to be in a chain (`Chained`): of two snapshots, the one
with the smaller generation has fewer tokens.
-/

namespace Logan

open List

namespace Llama

open Fault

/-- **A checkpoint comes before another one**, on the same branch. -/
def KvCheckpoint.Before (a b : KvCheckpoint) : Prop :=
  a = b ∨ a.generation < b.generation ∧ a.processedTokens < b.processedTokens

theorem KvCheckpoint.Before.trans {a b c : KvCheckpoint} (hab : a.Before b) (hbc : b.Before c) :
    a.Before c := by
  rcases hab with rfl | ⟨hg, ht⟩
  · exact hbc
  · rcases hbc with rfl | ⟨hg', ht'⟩
    · exact Or.inr ⟨hg, ht⟩
    · exact Or.inr ⟨UInt64.lt_trans hg hg', ht.trans ht'⟩

theorem KvCheckpoint.Before.tokens_le {a b : KvCheckpoint} (h : a.Before b) :
    a.processedTokens ≤ b.processedTokens := by
  rcases h with rfl | ⟨-, ht⟩
  · exact le_rfl
  · exact ht.le

theorem KvCheckpoint.Before.generation_le {a b : KvCheckpoint} (h : a.Before b) :
    a.generation ≤ b.generation := by
  rcases h with rfl | ⟨hg, -⟩
  · exact UInt64.le_refl _
  · exact UInt64.le_of_lt hg

namespace KvCache

variable {F : Type} {cache next past : KvCache F} {numLayers kvWidth : ℕ}

/-- **A checkpoint of the past is understood**: where it is current, or restored, or
retained, the rows are those of its time. -/
structure Recalls (cache past : KvCache F) : Prop where
  current : cache.isCurrent past.checkpoint = true → cache.layers = past.layers
  restored : (cache.restore past.checkpoint).1 = .ok () →
    (cache.restore past.checkpoint).2.layers = past.layers
  retained : (cache.retainVerified past.checkpoint).1 = .ok () →
    (cache.retainVerified past.checkpoint).2.layers = past.layers

/-- **No commit of a run reuses a checkpoint**: if the run has been at the next generation
before, with as many tokens as there will be, then with the same rows. -/
def Distinguishes (numLayers kvWidth : ℕ) (calls : List (KvCall F)) : Prop :=
  ∀ before keys values rows, before ++ [.commit keys values rows] <+: calls →
    ∀ cache : KvCache F, after numLayers kvWidth before = some cache →
      cache.Accepts keys values rows → ∀ earlier, earlier <+: before → ∀ past : KvCache F,
          after numLayers kvWidth earlier = some past → past.generation = cache.generation + 1 →
            past.processedTokens = cache.processedTokens + rows →
            past.layers = extendLayers cache.layers keys values

/-! ## The chain of snapshots -/

/-- **The snapshots are in a chain** that ends in the present state. -/
structure Chained (cache : KvCache F) : Prop where
  comparable : ∀ s ∈ cache.history, ∀ t ∈ cache.history,
    s.checkpoint.Before t.checkpoint ∨ t.checkpoint.Before s.checkpoint
  current : ∀ s ∈ cache.history, s.checkpoint.Before cache.checkpoint

/-- What is not of a later generation comes before, in a chain. -/
theorem Chained.before (h : cache.Chained) {s t : Snapshot} (hs : s ∈ cache.history)
    (ht : t ∈ cache.history) (hle : t.checkpoint.generation ≤ s.checkpoint.generation) :
    t.checkpoint.Before s.checkpoint := by
  rcases h.comparable s hs t ht with (heq | ⟨hlt, -⟩) | hbef
  · exact Or.inl heq.symm
  · exact absurd hle (UInt64.not_le.mpr hlt)
  · exact hbef

theorem Chained.committed (h : cache.Chained) {keys values : List (List F)} {rows : ℕ}
    (hrow : rows ≠ 0) (htop : cache.generation < cache.generation + 1) :
    (cache.committed keys values rows).Chained := by
  have hlas : cache.checkpoint.Before (cache.committed keys values rows).checkpoint :=
    Or.inr ⟨htop, Nat.lt_add_of_pos_right (Nat.pos_of_ne_zero hrow)⟩
  refine ⟨fun s hs t ht => ?_, fun s hs => ?_⟩
  · rcases mem_append.mp hs with hs | hs <;> rcases mem_append.mp ht with ht | ht
    · exact h.comparable s hs t ht
    · rw [mem_singleton.mp ht]
      exact Or.inl (h.current s hs)
    · rw [mem_singleton.mp hs]
      exact Or.inr (h.current t ht)
    · rw [mem_singleton.mp hs, mem_singleton.mp ht]
      exact Or.inl (Or.inl rfl)
  · rcases mem_append.mp hs with hs | hs
    · exact (h.current s hs).trans hlas
    · rwa [mem_singleton.mp hs]

theorem Chained.rewound (h : cache.Chained) {s : Snapshot} (hs : s ∈ cache.history) :
    (cache.rewound s.checkpoint).Chained := by
  refine ⟨fun t ht u hu => ?_, fun t ht => ?_⟩
  · exact h.comparable t (mem_of_mem_filter ht) u (mem_of_mem_filter hu)
  · obtain ⟨ht, hle⟩ := mem_filter.mp ht
    exact h.before hs ht (of_decide_eq_true hle)

/-! ## Rows of the past -/

theorem Shaped.upTo_self (h : cache.Shaped numLayers kvWidth) :
    cache.upTo cache.processedTokens = cache.layers := by
  refine (map_congr_left fun layer hlay => ?_).trans (map_id _)
  obtain ⟨hk, hv⟩ := h.rows.2 layer hlay
  rw [← h.width] at hk hv
  exact LayerKv.ext (take_of_length_le hk.le) (take_of_length_le hv.le)

/-- A commit leaves the rows before it alone. -/
theorem Shaped.upTo_committed (h : cache.Shaped numLayers kvWidth) {keys values : List (List F)}
    {rows tokens : ℕ} (hle : tokens ≤ cache.processedTokens) :
    (cache.committed keys values rows).upTo tokens = cache.upTo tokens := by
  refine map_truncate_extendLayers keys values fun layer hlay => ?_
  obtain ⟨hk, hv⟩ := h.rows.2 layer hlay
  show tokens * cache.keyWidth ≤ _ ∧ tokens * cache.keyWidth ≤ _
  rw [hk, hv, h.width]
  exact ⟨Nat.mul_le_mul_right _ hle, Nat.mul_le_mul_right _ hle⟩

theorem upTo_rewound {checkpoint : KvCheckpoint} {tokens : ℕ}
    (hle : tokens ≤ checkpoint.processedTokens) :
    (cache.rewound checkpoint).upTo tokens = cache.upTo tokens := by
  show (cache.layers.map _).map _ = cache.layers.map _
  rw [map_map]
  exact map_congr_left fun layer _ => LayerKv.truncate_truncate (Nat.mul_le_mul_right _ hle)

theorem Shaped.layers_eq_of_zero (h : cache.Shaped numLayers kvWidth)
    (hzer : cache.processedTokens = 0) : cache.layers = List.replicate numLayers ⟨[], []⟩ := by
  refine eq_replicate_iff.mpr ⟨h.rows.1, fun layer hlay => ?_⟩
  obtain ⟨hk, hv⟩ := h.rows.2 layer hlay
  rw [hzer, Nat.zero_mul] at hk hv
  exact LayerKv.ext (eq_nil_of_length_eq_zero hk) (eq_nil_of_length_eq_zero hv)

/-! ## Runs -/

/-- **The states of a run agree**: where two of them have the same checkpoint, they have the
same rows. -/
def Agree (numLayers kvWidth : ℕ) (calls : List (KvCall F)) : Prop :=
  ∀ before, before <+: calls → ∀ later, later <+: calls →
    ∀ a : KvCache F, after numLayers kvWidth before = some a →
      ∀ b : KvCache F, after numLayers kvWidth later = some b →
        a.checkpoint = b.checkpoint → a.layers = b.layers

/-- **The history of a cache is of the run**: each snapshot is of a state that there has been,
and that is a beginning of the present one. -/
def Recorded (numLayers kvWidth : ℕ) (calls : List (KvCall F)) (cache : KvCache F) : Prop :=
  ∀ s ∈ cache.history, ∃ before, before <+: calls ∧ ∃ past : KvCache F,
    after numLayers kvWidth before = some past ∧ past.checkpoint = s.checkpoint ∧
      cache.upTo s.checkpoint.processedTokens = past.layers

variable {calls : List (KvCall F)}

theorem Recorded.mono {more : List (KvCall F)} (h : cache.Recorded numLayers kvWidth calls)
    (hbeg : calls <+: more) : cache.Recorded numLayers kvWidth more := by
  intro s hs
  obtain ⟨before, hbef, past, hpas⟩ := h s hs
  exact ⟨before, hbef.trans hbeg, past, hpas⟩

/-- What is known of the cache after a run. -/
structure Known (numLayers kvWidth : ℕ) (calls : List (KvCall F)) (cache : KvCache F) : Prop where
  shaped : cache.Shaped numLayers kvWidth
  chained : cache.Chained
  generation : cache.generation.toNat ≤ calls.length
  recorded : cache.Recorded numLayers kvWidth calls

theorem Known.toNat_succ (h : cache.Known numLayers kvWidth calls)
    (hfew : calls.length + 1 < 2 ^ 64) :
    (cache.generation + 1).toNat = cache.generation.toNat + 1 := by
  rw [UInt64.toNat_add]
  exact Nat.mod_eq_of_lt ((Nat.succ_le_succ h.generation).trans_lt hfew)

variable {answer : Except (Fault KvError) (Option KvCheckpoint)}

/-- **What is known is known after a move**, too. -/
theorem Known.move (h : cache.Known numLayers kvWidth calls) (hfew : calls.length + 1 < 2 ^ 64)
    (haft : after numLayers kvWidth calls = some cache) {call : KvCall F}
    (hmov : Moves cache call answer next) : next.Known numLayers kvWidth (calls ++ [call]) := by
  have hlen : (calls ++ [call]).length = calls.length + 1 := length_append
  have hbeg : calls <+: calls ++ [call] := prefix_append _ _
  have hst : cache.Known numLayers kvWidth (calls ++ [call]) :=
    ⟨h.shaped, h.chained, h.generation.trans (hlen ▸ Nat.le_succ _), h.recorded.mono hbeg⟩
  cases hmov with
  | refused | stayed => exact hst
  | @committed keys values rows hacc =>
    have hsuc := h.toNat_succ hfew
    have htop : cache.generation < cache.generation + 1 := by
      rw [UInt64.lt_iff_toNat_lt, hsuc]
      exact Nat.lt_succ_self _
    refine ⟨h.shaped.committed hacc.1, h.chained.committed hacc.1.2.2.1 htop, ?_, ?_⟩
    · rw [hlen]
      exact hsuc.le.trans (Nat.succ_le_succ h.generation)
    · intro s hs
      rcases mem_append.mp hs with hs | hs
      · obtain ⟨before, hbef, past, hpas, hsam, hrow⟩ := h.recorded s hs
        refine ⟨before, hbef.trans hbeg, past, hpas, hsam, ?_⟩
        rw [h.shaped.upTo_committed (h.chained.current s hs).tokens_le, hrow]
      · rw [mem_singleton.mp hs]
        refine ⟨calls, hbeg, cache, haft, rfl, ?_⟩
        exact (h.shaped.upTo_committed le_rfl).trans h.shaped.upTo_self
  | @rewound _ s hs hrow =>
    refine ⟨h.shaped.rewound hrow, h.chained.rewound hs, ?_, ?_⟩
    · exact (UInt64.le_iff_toNat_le.mp (h.chained.current s hs).generation_le).trans hst.generation
    · intro t ht
      obtain ⟨ht, hle⟩ := mem_filter.mp ht
      obtain ⟨before, hbef, past, hpas, hsam, hrow⟩ := h.recorded t ht
      refine ⟨before, hbef.trans hbeg, past, hpas, hsam, ?_⟩
      rw [upTo_rewound (h.chained.before hs ht (of_decide_eq_true hle)).tokens_le, hrow]
  | cleared =>
    refine ⟨h.shaped.clear, ⟨fun _ hs => absurd hs not_mem_nil,
      fun _ hs => absurd hs not_mem_nil⟩, ?_, fun _ hs => absurd hs not_mem_nil⟩
    rw [hlen]
    exact (h.toNat_succ hfew).le.trans (Nat.succ_le_succ h.generation)

/-- **What is known of the cache after a run of fewer than 2^64 calls.** -/
theorem known_after (hfew : calls.length < 2 ^ 64)
    (h : after numLayers kvWidth calls = some cache) : cache.Known numLayers kvWidth calls := by
  induction calls using List.reverseRecOn generalizing cache with
  | nil =>
    obtain rfl := Option.some.inj h
    exact ⟨shaped_new numLayers kvWidth, ⟨fun _ hs => absurd hs not_mem_nil,
      fun _ hs => absurd hs not_mem_nil⟩, Nat.zero_le _, fun _ hs => absurd hs not_mem_nil⟩
  | append_singleton calls call ih =>
    rw [length_append] at hfew
    obtain ⟨before, hbef, hpan, rfl⟩ := after_concat.mp h
    have hkn := ih ((Nat.lt_succ_self _).trans hfew) hbef
    exact hkn.move hfew hbef (hkn.shaped.moves call hpan)

/-- **A new state agrees with the past**, if no commit reuses a checkpoint. -/
theorem Known.agrees (h : cache.Known numLayers kvWidth calls)
    (haft : after numLayers kvWidth calls = some cache) (hagr : Agree numLayers kvWidth calls)
    {call : KvCall F} (hmov : Moves cache call answer next)
    (hdis : Distinguishes numLayers kvWidth (calls ++ [call])) {before : List (KvCall F)}
    (hbef : before <+: calls) (hpas : after numLayers kvWidth before = some past)
    (heq : past.checkpoint = next.checkpoint) : past.layers = next.layers := by
  cases hmov with
  | refused | stayed => exact hagr before hbef calls prefix_rfl past hpas cache haft heq
  | @committed keys values rows hacc =>
    exact hdis calls keys values rows prefix_rfl cache haft hacc before hbef
      past hpas (congrArg KvCheckpoint.generation heq) (congrArg KvCheckpoint.processedTokens heq)
  | @rewound _ s hs hrow =>
    obtain ⟨earlier, hear, origin, hor, hsam, hrow⟩ := h.recorded s hs
    exact (hagr before hbef earlier hear past hpas origin hor (heq.trans hsam.symm)).trans hrow.symm
  | cleared =>
    -- all states without tokens have the same rows
    have hzer : past.processedTokens = 0 := congrArg KvCheckpoint.processedTokens heq
    rw [(shaped_after hpas).layers_eq_of_zero hzer, h.shaped.clear.layers_eq_of_zero rfl]

/-- **The states of a run agree** if none of its commits reuses a checkpoint. -/
theorem agree_of_distinguishes (hfew : calls.length < 2 ^ 64)
    (h : Distinguishes numLayers kvWidth calls) : Agree numLayers kvWidth calls := by
  induction calls using List.reverseRecOn with
  | nil =>
    intro before hbef later hlat a ha b hb _
    rw [prefix_nil.mp hbef] at ha
    rw [prefix_nil.mp hlat] at hb
    rw [Option.some.inj (ha.symm.trans hb)]
  | append_singleton calls call ih =>
    rw [length_append] at hfew
    have hfew' := (Nat.lt_succ_self calls.length).trans hfew
    have hagr := ih hfew' fun before keys values rows hbeg =>
      h before keys values rows (hbeg.trans (prefix_append _ _))
    -- the new state and a state of the past
    have hnew : ∀ before, before <+: calls → ∀ a : KvCache F,
        after numLayers kvWidth before = some a → ∀ b : KvCache F,
          after numLayers kvWidth (calls ++ [call]) = some b →
            a.checkpoint = b.checkpoint → a.layers = b.layers := by
      intro before hbef a ha b hb heq
      obtain ⟨cache, hcac, hpan, rfl⟩ := after_concat.mp hb
      have hkn := known_after hfew' hcac
      exact hkn.agrees hcac hagr (hkn.shaped.moves call hpan) h hbef ha heq
    intro before hbef later hlat a ha b hb heq
    rcases prefix_concat_iff.mp hbef with rfl | hbef
    · rcases prefix_concat_iff.mp hlat with rfl | hlat
      · rw [Option.some.inj (ha.symm.trans hb)]
      · exact (hnew later hlat b hb a ha heq.symm).symm
    · rcases prefix_concat_iff.mp hlat with rfl | hlat
      · exact hnew before hbef a ha b hb heq
      · exact hagr before hbef later hlat a ha b hb heq

/-- Going back to a state that agrees with the past brings back its rows. -/
theorem Known.recalls (h : cache.Known numLayers kvWidth calls)
    (haft : after numLayers kvWidth calls = some cache) (hagr : Agree numLayers kvWidth calls)
    {before : List (KvCall F)} (hbef : before <+: calls)
    (hpas : after numLayers kvWidth before = some past) : cache.Recalls past := by
  have hcur : past.checkpoint = cache.checkpoint → cache.layers = past.layers := fun heq =>
    (hagr before hbef calls prefix_rfl past hpas cache haft heq).symm
  have hres : (cache.restore past.checkpoint).1 = .ok () →
      (cache.restore past.checkpoint).2.layers = past.layers := by
    intro hok
    rcases h.shaped.restore_cases past.checkpoint with
      ⟨e, heq⟩ | ⟨hcrr, heq⟩ | ⟨s, hs, hsam, -, heq⟩
    · rw [heq] at hok
      cases hok
    · rw [heq]
      exact hcur hcrr
    · obtain ⟨earlier, hear, origin, hor, hsam', hrow⟩ := h.recorded s hs
      rw [hsam] at hrow hsam'
      rw [heq]
      exact hrow.trans (hagr earlier hear before hbef origin hor past hpas hsam')
  refine ⟨fun htr => hcur (of_decide_eq_true htr), hres, ?_⟩
  unfold retainVerified
  split_ifs
  · exact fun hok => (by cases hok)
  · exact hres

/-- **Checkpoints are understood in a whole run exactly when none of its commits reuses one.** -/
theorem recalls_iff_distinguishes (numLayers kvWidth : ℕ) (calls : List (KvCall F))
    (hfew : calls.length < 2 ^ 64) :
    (∀ later, later <+: calls → ∀ cache : KvCache F, after numLayers kvWidth later = some cache →
        ∀ before, before <+: later → ∀ past : KvCache F,
          after numLayers kvWidth before = some past → cache.Recalls past) ↔
      Distinguishes numLayers kvWidth calls := by
  constructor
  · intro hrec before keys values rows hbeg cache hcac hacc earlier hear past hpas hgen htok
    have hnex := after_commit hcac hacc
    have hsam : past.checkpoint = (cache.committed keys values rows).checkpoint := by
      rw [checkpoint, hgen, htok]
      rfl
    exact ((hrec _ hbeg _ hnex earlier (hear.trans (prefix_append _ _)) past
      hpas).current (decide_eq_true hsam)).symm
  · intro hdis later hlat cache hcac before hbef past hpas
    have hlen : later.length < 2 ^ 64 := hlat.length_le.trans_lt hfew
    refine (known_after hlen hcac).recalls hcac ?_ hbef hpas
    refine agree_of_distinguishes hlen fun earlier keys values rows hbeg => ?_
    exact hdis earlier keys values rows (hbeg.trans hlat)

/-- A token is speculated upon and discarded, and another one takes its place. -/
def discardedBranch : List (KvCall UInt32) :=
  [.commit [[1]] [[2]] 1, .restore ⟨0, 0⟩, .commit [[3]] [[4]] 1]

/-- In this run one of the commits reuses a checkpoint. -/
theorem recalls_iff_distinguishes_discarded :
    (∀ later, later <+: discardedBranch → ∀ cache : KvCache UInt32,
        after 1 1 later = some cache → ∀ before, before <+: later → ∀ past : KvCache UInt32,
          after 1 1 before = some past → cache.Recalls past) ↔
      Distinguishes 1 1 discardedBranch :=
  recalls_iff_distinguishes 1 1 discardedBranch (by decide)

/-- **A checkpoint of a discarded branch can be taken for one of another branch.** -/
theorem not_forall_recalls :
    ¬ ∀ (numLayers kvWidth : ℕ) (calls : List (KvCall UInt32)), calls.length < 2 ^ 64 →
      ∀ cache : KvCache UInt32, after numLayers kvWidth calls = some cache →
        ∀ before, before <+: calls → ∀ past : KvCache UInt32,
          after numLayers kvWidth before = some past → cache.Recalls past := by
  intro h
  have hnow : (after 1 1 discardedBranch).map (fun cache => (cache.checkpoint, cache.layers))
      = some (⟨1, 1⟩, [⟨[3], [4]⟩]) := by decide
  have hth : (after 1 1 (discardedBranch.take 1)).map
      (fun cache => (cache.checkpoint, cache.layers)) = some (⟨1, 1⟩, [⟨[1], [2]⟩]) := by decide
  obtain ⟨cache, hcac, hnow⟩ := Option.map_eq_some_iff.mp hnow
  obtain ⟨past, hpas, hth⟩ := Option.map_eq_some_iff.mp hth
  obtain ⟨hch, hlay⟩ := Prod.mk.inj hnow
  obtain ⟨hch', hlay'⟩ := Prod.mk.inj hth
  have hrec := h 1 1 discardedBranch (by decide) cache hcac _ (List.take_prefix 1 _) past hpas
  have hsam := hrec.current (decide_eq_true (hch'.trans hch.symm))
  rw [hlay, hlay'] at hsam
  exact absurd hsam (by decide)

end KvCache

end Llama

end Logan
