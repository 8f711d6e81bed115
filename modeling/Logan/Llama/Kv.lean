import Logan.Util.Fault
import Logan.Util.Fields
import Logan.Util.Machine

/-!
# The key/value cache of a session

A session keeps, for each layer of its model, the keys and the values of the
tokens that it has processed. Rows are committed for all layers at once, and a
**checkpoint** – a generation and a number of tokens – names the state that a
commit has led to. To go back, the cache keeps a history of its states, of which
it only records the lengths: a state of the past is a beginning of the present
one.

What a call does to the cache is told by `KvCache.Moves`: it leaves it alone, it
appends rows, it takes it back to a state of its history, or it clears it. A
call that panics ends the run.
-/

namespace Logan

open List

namespace Llama

open Fault

/-- **A stable identity for a committed prefix** of the cache. -/
structure KvCheckpoint where
  generation : UInt64
  processedTokens : ℕ
deriving DecidableEq

/-- How a call on the cache fails. -/
inductive KvError where
  | staleCheckpoint (checkpoint : KvCheckpoint)
  | invalidLayer (index : ℕ)
  | invalidShape
deriving DecidableEq

/-- The rows of a layer. -/
@[ext]
structure LayerKv (F : Type) where
  keys : List F
  values : List F
deriving DecidableEq

/-- A state of the past. -/
structure Snapshot where
  checkpoint : KvCheckpoint
  layerLengths : List (ℕ × ℕ)
deriving DecidableEq

/-- **Committed key/value state.** -/
structure KvCache (F : Type) where
  layers : List (LayerKv F)
  keyWidth : ℕ
  generation : UInt64
  processedTokens : ℕ
  history : List Snapshot
deriving DecidableEq

variable {F : Type}

/-! ## Rows -/

/-- `truncate`, on the keys and on the values. -/
def LayerKv.truncate (layer : LayerKv F) (keys values : ℕ) : LayerKv F :=
  ⟨layer.keys.take keys, layer.values.take values⟩

/-- `extend_from_slice`, on the keys and on the values. -/
def LayerKv.extend (layer : LayerKv F) (keys values : List F) : LayerKv F :=
  ⟨layer.keys ++ keys, layer.values ++ values⟩

/-- The loop of `commit`: layers are extended as long as there are rows. -/
def extendLayers : List (LayerKv F) → List (List F) → List (List F) → List (LayerKv F)
  | layer :: layers, keys :: moreKeys, values :: moreValues =>
    layer.extend keys values :: extendLayers layers moreKeys moreValues
  | layers, _, _ => layers

/-- The loop of `restore`: layers are cut as long as there are lengths. It stops at a layer
that is too short. -/
def truncateLayers : List (LayerKv F) → List (ℕ × ℕ) → Except KvError Unit × List (LayerKv F)
  | layer :: layers, (keys, values) :: lengths =>
    if keys > layer.keys.length ∨ values > layer.values.length then
      (.error .invalidShape, layer :: layers)
    else
      ((truncateLayers layers lengths).1,
        layer.truncate keys values :: (truncateLayers layers lengths).2)
  | layers, _ => (.ok (), layers)

namespace KvCache

/-! ## The calls -/

/-- `KvCache::new` -/
def new (numLayers kvWidth : ℕ) : KvCache F where
  layers := List.replicate numLayers ⟨[], []⟩
  keyWidth := kvWidth
  generation := 0
  processedTokens := 0
  history := []

/-- `checkpoint` -/
def checkpoint (cache : KvCache F) : KvCheckpoint := ⟨cache.generation, cache.processedTokens⟩

/-- The snapshot of the present state. -/
def snapshot (cache : KvCache F) : Snapshot :=
  ⟨cache.checkpoint, cache.layers.map fun layer => (layer.keys.length, layer.values.length)⟩

/-- The checks of `commit`: one vector of rows for each layer, and all of one length. -/
def Fits (cache : KvCache F) (keys values : List (List F)) (rows : ℕ) : Prop :=
  keys.length = cache.layers.length ∧ values.length = cache.layers.length ∧ rows ≠ 0 ∧
    rows * cache.keyWidth ≤ usizeMax ∧
    (∀ x ∈ keys, x.length = rows * cache.keyWidth) ∧
    ∀ x ∈ values, x.length = rows * cache.keyWidth

/-- The cache after a commit. -/
def committed (cache : KvCache F) (keys values : List (List F)) (rows : ℕ) : KvCache F where
  layers := extendLayers cache.layers keys values
  keyWidth := cache.keyWidth
  generation := cache.generation + 1
  processedTokens := cache.processedTokens + rows
  history := cache.history ++ [cache.snapshot]

/-- `commit`: one complete set of rows for every layer. The number of tokens is raised when
the rows are already there, and this may overflow. -/
def commit (cache : KvCache F) (keys values : List (List F)) (rows : ℕ) :
    Except (Fault KvError) KvCheckpoint × KvCache F :=
  if keys.length ≠ cache.layers.length ∨ values.length ≠ cache.layers.length ∨ rows = 0 then
    (.error (.failed .invalidShape), cache)
  else
    match checkedProduct rows cache.keyWidth with
    | none => (.error (.failed .invalidShape), cache)
    | some width =>
      if (∃ x ∈ keys, x.length ≠ width) ∨ ∃ x ∈ values, x.length ≠ width then
        (.error (.failed .invalidShape), cache)
      else
        let pushed := { cache with
          history := cache.history ++ [cache.snapshot]
          layers := extendLayers cache.layers keys values }
        match checkedSum cache.processedTokens rows with
        | none => (.error .panicked, pushed)
        | some processed =>
          let committed := { pushed with
            processedTokens := processed
            generation := cache.generation + 1 }
          (.ok committed.checkpoint, committed)

/-- The snapshot of the history that `restore` finds: the last one of the checkpoint. -/
def find (cache : KvCache F) (checkpoint : KvCheckpoint) : Option Snapshot :=
  cache.history.reverse.find? fun s => s.checkpoint = checkpoint

/-- `restore`: a checkpoint previously returned by this cache. -/
def restore (cache : KvCache F) (checkpoint : KvCheckpoint) : Except KvError Unit × KvCache F :=
  if checkpoint = cache.checkpoint then (.ok (), cache)
  else
    match cache.find checkpoint with
    | none => (.error (.staleCheckpoint checkpoint), cache)
    | some snapshot =>
      if snapshot.layerLengths.length ≠ cache.layers.length then (.error .invalidShape, cache)
      else
        match truncateLayers cache.layers snapshot.layerLengths with
        | (.error e, layers) => (.error e, { cache with layers := layers })
        | (.ok (), layers) =>
          (.ok (), { cache with
            layers := layers
            generation := checkpoint.generation
            processedTokens := checkpoint.processedTokens
            history := cache.history.filter fun s =>
              s.checkpoint.generation ≤ checkpoint.generation })

/-- `retain_verified`: the verified prefix is kept, and later speculative rows are
discarded. -/
def retainVerified (cache : KvCache F) (checkpoint : KvCheckpoint) :
    Except KvError Unit × KvCache F :=
  if checkpoint.generation > cache.generation ∨
      checkpoint.processedTokens > cache.processedTokens then
    (.error (.staleCheckpoint checkpoint), cache)
  else cache.restore checkpoint

/-- `is_current` -/
def isCurrent (cache : KvCache F) (checkpoint : KvCheckpoint) : Bool :=
  checkpoint = cache.checkpoint

/-- `clear` -/
def clear (cache : KvCache F) : KvCache F where
  layers := cache.layers.map fun _ => ⟨[], []⟩
  keyWidth := cache.keyWidth
  generation := cache.generation + 1
  processedTokens := 0
  history := []

end KvCache

/-- A call that changes the cache. -/
inductive KvCall (F : Type) where
  | commit (keys values : List (List F)) (rows : ℕ)
  | restore (checkpoint : KvCheckpoint)
  | retainVerified (checkpoint : KvCheckpoint)
  | clear

namespace KvCache

/-- What a call answers – a commit, with a checkpoint – and the cache after it. -/
def call (cache : KvCache F) : KvCall F → Except (Fault KvError) (Option KvCheckpoint) × KvCache F
  | .commit keys values rows =>
    ((cache.commit keys values rows).1.map some, (cache.commit keys values rows).2)
  | .restore checkpoint =>
    (lift ((cache.restore checkpoint).1.map fun _ => none), (cache.restore checkpoint).2)
  | .retainVerified checkpoint =>
    (lift ((cache.retainVerified checkpoint).1.map fun _ => none),
      (cache.retainVerified checkpoint).2)
  | .clear => (.ok none, cache.clear)

/-- **A cache and its calls.** After a panic there is no cache any more. -/
def machine : Machine (Option (KvCache F)) (KvCall F) (Except (Fault KvError) (Option KvCheckpoint))
    where
  step
    | none, _ => (.error .panicked, none)
    | some cache, call =>
      match cache.call call with
      | (.error .panicked, _) => (.error .panicked, none)
      | (answer, next) => (answer, some next)

/-- **The cache after some calls** on a new one, if none of them has panicked. -/
def after (numLayers kvWidth : ℕ) (calls : List (KvCall F)) : Option (KvCache F) :=
  machine.run (some (new numLayers kvWidth)) calls

/-! ## Rows are cut and extended -/

end KvCache

variable {layers : List (LayerKv F)}

theorem length_extendLayers {keys values : List (List F)}
    (hkey : keys.length = layers.length) (hval : values.length = layers.length) :
    (extendLayers layers keys values).length = layers.length := by
  induction layers generalizing keys values with
  | nil => rfl
  | cons layer layers ih =>
    obtain ⟨k, keys, rfl⟩ := exists_cons_of_length_eq_add_one hkey
    obtain ⟨v, values, rfl⟩ := exists_cons_of_length_eq_add_one hval
    exact congrArg Nat.succ (ih (Nat.succ.inj hkey) (Nat.succ.inj hval))

variable {layer : LayerKv F}

/-- **Each layer is extended** by its rows. -/
theorem mem_extendLayers {keys values : List (List F)}
    (hkey : keys.length = layers.length) (hval : values.length = layers.length)
    (h : layer ∈ extendLayers layers keys values) :
    ∃ l ∈ layers, ∃ k ∈ keys, ∃ v ∈ values, layer = l.extend k v := by
  induction layers generalizing keys values with
  | nil => exact absurd h not_mem_nil
  | cons l layers ih =>
    obtain ⟨k, keys, rfl⟩ := exists_cons_of_length_eq_add_one hkey
    obtain ⟨v, values, rfl⟩ := exists_cons_of_length_eq_add_one hval
    rcases mem_cons.mp h with rfl | h
    · exact ⟨l, mem_cons_self, k, mem_cons_self, v, mem_cons_self, rfl⟩
    · obtain ⟨l', hl, k', hk, v', hv, heq⟩ := ih (Nat.succ.inj hkey) (Nat.succ.inj hval) h
      exact ⟨l', mem_cons_of_mem _ hl, k', mem_cons_of_mem _ hk, v', mem_cons_of_mem _ hv, heq⟩

theorem LayerKv.truncate_extend {keys values : List F} {n : ℕ}
    (h : n ≤ layer.keys.length ∧ n ≤ layer.values.length) :
    (layer.extend keys values).truncate n n = layer.truncate n n :=
  LayerKv.ext (take_append_of_le_length h.1) (take_append_of_le_length h.2)

theorem LayerKv.truncate_truncate {m n : ℕ} (h : m ≤ n) :
    (layer.truncate n n).truncate m m = layer.truncate m m := by
  unfold truncate
  rw [take_take, take_take, Nat.min_eq_left h]

/-- **What is appended is cut off again.** -/
theorem map_truncate_extendLayers (keys values : List (List F)) {n : ℕ}
    (h : ∀ layer ∈ layers, n ≤ layer.keys.length ∧ n ≤ layer.values.length) :
    (extendLayers layers keys values).map (fun layer => layer.truncate n n)
      = layers.map fun layer => layer.truncate n n := by
  induction layers generalizing keys values with
  | nil => rfl
  | cons layer layers ih =>
    have hres := ih (h := fun l hl => h l (mem_cons_of_mem _ hl))
    match keys, values with
    | [], _ => rfl
    | _ :: _, [] => rfl
    | k :: keys, v :: values =>
      show (layer.extend k v).truncate n n :: _ = _ :: _
      rw [LayerKv.truncate_extend (h layer mem_cons_self)]
      exact congrArg _ (hres keys values)

/-- **Layers of one length** are cut to another one, if they are not shorter. -/
theorem truncateLayers_replicate {m : ℕ} (n : ℕ)
    (h : ∀ layer ∈ layers, layer.keys.length = m ∧ layer.values.length = m) :
    truncateLayers layers (List.replicate layers.length (n, n))
      = if n ≤ m ∨ layers = [] then (.ok (), layers.map fun layer => layer.truncate n n)
        else (.error .invalidShape, layers) := by
  induction layers with
  | nil => exact (if_pos (Or.inr rfl)).symm
  | cons layer layers ih =>
    obtain ⟨hk, hv⟩ := h layer mem_cons_self
    have hres := ih fun l hl => h l (mem_cons_of_mem _ hl)
    rw [length_cons, replicate_succ, truncateLayers, hk, hv, hres]
    by_cases hle : n ≤ m
    · rw [if_neg (not_or.mpr ⟨not_lt.mpr hle, not_lt.mpr hle⟩), if_pos (Or.inl hle),
        if_pos (Or.inl hle)]
      rfl
    · rw [if_pos (Or.inl (not_le.mp hle)), if_neg (not_or.mpr ⟨hle, cons_ne_nil _ _⟩)]

namespace KvCache

/-- The rows of the first tokens. -/
def upTo (cache : KvCache F) (tokens : ℕ) : List (LayerKv F) :=
  cache.layers.map fun layer =>
    layer.truncate (tokens * cache.keyWidth) (tokens * cache.keyWidth)

/-- The cache that has gone back to a checkpoint. -/
def rewound (cache : KvCache F) (checkpoint : KvCheckpoint) : KvCache F where
  layers := cache.upTo checkpoint.processedTokens
  keyWidth := cache.keyWidth
  generation := checkpoint.generation
  processedTokens := checkpoint.processedTokens
  history := cache.history.filter fun s => s.checkpoint.generation ≤ checkpoint.generation

/-! ## The shape of a cache -/

/-- **Rows and tokens agree**: each layer has one row for each token. -/
def RowsMatch (cache : KvCache F) (numLayers kvWidth : ℕ) : Prop :=
  cache.layers.length = numLayers ∧ ∀ layer ∈ cache.layers,
    layer.keys.length = cache.processedTokens * kvWidth ∧
      layer.values.length = cache.processedTokens * kvWidth

/-- **A cache of the right shape**, in the present and in its history. -/
structure Shaped (numLayers kvWidth : ℕ) (cache : KvCache F) : Prop where
  width : cache.keyWidth = kvWidth
  rows : cache.RowsMatch numLayers kvWidth
  history : ∀ s ∈ cache.history, s.layerLengths = List.replicate numLayers
    (s.checkpoint.processedTokens * kvWidth, s.checkpoint.processedTokens * kvWidth)

/-! ## What the calls do -/

/-- **A commit is accepted** if its arguments have the right shape, and the tokens can be
counted. -/
def Accepts (cache : KvCache F) (keys values : List (List F)) (rows : ℕ) : Prop :=
  cache.Fits keys values rows ∧ cache.processedTokens + rows ≤ usizeMax

/-- **What a call does that does not panic**: its answer, and the cache after it. -/
inductive Moves (cache : KvCache F) :
    KvCall F → Except (Fault KvError) (Option KvCheckpoint) → KvCache F → Prop
  | refused (call : KvCall F) (e : KvError) : Moves cache call (.error (.failed e)) cache
  | committed {keys values : List (List F)} {rows : ℕ} (h : cache.Accepts keys values rows) :
      Moves cache (.commit keys values rows)
        (.ok (some (cache.committed keys values rows).checkpoint))
        (cache.committed keys values rows)
  | stayed (call : KvCall F) : Moves cache call (.ok none) cache
  | rewound (call : KvCall F) {s : Snapshot} (h : s ∈ cache.history)
      (hrows : cache.layers = [] ∨ s.checkpoint.processedTokens * cache.keyWidth
          ≤ cache.processedTokens * cache.keyWidth) :
      Moves cache call (.ok none) (cache.rewound s.checkpoint)
  | cleared : Moves cache .clear (.ok none) cache.clear

variable {cache next : KvCache F} {numLayers kvWidth : ℕ}

theorem commit_of_accepts {keys values : List (List F)} {rows : ℕ}
    (h : cache.Accepts keys values rows) : cache.commit keys values rows
      = (.ok (cache.committed keys values rows).checkpoint, cache.committed keys values rows) := by
  obtain ⟨⟨hkey, hval, hrow, hwid, hk, hv⟩, hcount⟩ := h
  have hlens : ¬ ((∃ x ∈ keys, x.length ≠ rows * cache.keyWidth) ∨
      ∃ x ∈ values, x.length ≠ rows * cache.keyWidth) := by
    rintro (⟨x, hx, hne⟩ | ⟨x, hx, hne⟩)
    · exact hne (hk x hx)
    · exact hne (hv x hx)
  unfold commit
  rw [if_neg (not_or.mpr ⟨not_not.mpr hkey, not_or.mpr ⟨not_not.mpr hval, hrow⟩⟩),
    checkedProduct_of_le hwid]
  dsimp only
  rw [if_neg hlens, checkedSum_of_le hcount]
  rfl

/-- **A commit** is refused for its shape, or it panics, or it is accepted. -/
theorem commit_cases (cache : KvCache F) (keys values : List (List F)) (rows : ℕ) :
    cache.commit keys values rows = (.error (.failed .invalidShape), cache) ∨
      (cache.commit keys values rows).1 = .error .panicked ∨ cache.Accepts keys values rows := by
  unfold commit
  split_ifs with hcnts
  · exact Or.inl rfl
  · obtain ⟨hkey, hcnts⟩ := not_or.mp hcnts
    obtain ⟨hval, hrow⟩ := not_or.mp hcnts
    by_cases hwid : rows * cache.keyWidth ≤ usizeMax
    · rw [checkedProduct_of_le hwid]
      dsimp only
      split_ifs with hlens
      · exact Or.inl rfl
      · obtain ⟨hk, hv⟩ := not_or.mp hlens
        by_cases hcount : cache.processedTokens + rows ≤ usizeMax
        · refine Or.inr (Or.inr ⟨⟨not_not.mp hkey, not_not.mp hval, hrow, hwid,
            fun x hx => ?_, fun x hx => ?_⟩, hcount⟩)
          · exact not_not.mp fun hne => hk ⟨x, hx, hne⟩
          · exact not_not.mp fun hne => hv ⟨x, hx, hne⟩
        · rw [checkedSum, if_neg hcount]
          exact Or.inr (Or.inl rfl)
    · rw [checkedProduct, if_neg hwid]
      exact Or.inl rfl

theorem find_eq_some {checkpoint : KvCheckpoint} {s : Snapshot}
    (h : cache.find checkpoint = some s) : s ∈ cache.history ∧ s.checkpoint = checkpoint := by
  refine ⟨mem_reverse.mp (List.mem_of_find?_eq_some h), ?_⟩
  have hfnd := List.find?_some h
  exact of_decide_eq_true hfnd

section

variable (h : cache.Shaped numLayers kvWidth)

include h

/-- **Going back to a checkpoint** fails and changes nothing, or it is the present one, or the
cache goes back to a state of its history. -/
theorem Shaped.restore_cases (checkpoint : KvCheckpoint) :
    (∃ e, cache.restore checkpoint = (.error e, cache)) ∨
      checkpoint = cache.checkpoint ∧ cache.restore checkpoint = (.ok (), cache) ∨
      ∃ s ∈ cache.history, s.checkpoint = checkpoint ∧ (cache.layers = [] ∨
          checkpoint.processedTokens * cache.keyWidth ≤ cache.processedTokens * cache.keyWidth) ∧
        cache.restore checkpoint = (.ok (), cache.rewound checkpoint) := by
  unfold restore
  split_ifs with hcur
  · exact Or.inr (Or.inl ⟨hcur, rfl⟩)
  · cases hfin : cache.find checkpoint with
    | none => exact Or.inl ⟨_, rfl⟩
    | some s =>
      obtain ⟨hs, rfl⟩ := find_eq_some hfin
      have hlens := h.history s hs
      rw [← h.rows.1, ← h.width] at hlens
      have hlay : ∀ layer ∈ cache.layers,
          layer.keys.length = cache.processedTokens * cache.keyWidth ∧
            layer.values.length = cache.processedTokens * cache.keyWidth := by
        rw [h.width]
        exact h.rows.2
      dsimp only
      rw [hlens, length_replicate, if_neg (not_not.mpr rfl), truncateLayers_replicate _ hlay]
      split_ifs with hrow
      · exact Or.inr (Or.inr ⟨s, hs, rfl, hrow.symm, rfl⟩)
      · exact Or.inl ⟨_, rfl⟩

theorem Shaped.restore_moves (call : KvCall F) (checkpoint : KvCheckpoint) :
    Moves cache call (lift ((cache.restore checkpoint).1.map fun _ => none))
      (cache.restore checkpoint).2 := by
  rcases h.restore_cases checkpoint with ⟨e, heq⟩ | ⟨-, heq⟩ | ⟨s, hs, rfl, hrow, heq⟩
  · rw [heq]
    exact Moves.refused call e
  · rw [heq]
    exact Moves.stayed call
  · rw [heq]
    exact Moves.rewound call hs hrow

/-- **A call that does not panic makes a move.** -/
theorem Shaped.moves (call : KvCall F) (hpan : (cache.call call).1 ≠ .error .panicked) :
    Moves cache call (cache.call call).1 (cache.call call).2 := by
  cases call with
  | commit keys values rows =>
    rcases cache.commit_cases keys values rows with href | hpnc | hacc
    · rw [call, href]
      exact Moves.refused _ _
    · refine absurd ?_ hpan
      rw [call, hpnc]
      rfl
    · rw [call, commit_of_accepts hacc]
      exact Moves.committed hacc
  | restore checkpoint => exact h.restore_moves _ checkpoint
  | retainVerified checkpoint =>
    rw [call, retainVerified]
    split_ifs
    · exact Moves.refused _ _
    · exact h.restore_moves _ checkpoint
  | clear => exact Moves.cleared

end

/-! ## The shape is kept -/

theorem shaped_new (numLayers kvWidth : ℕ) :
    (new numLayers kvWidth : KvCache F).Shaped numLayers kvWidth where
  width := rfl
  rows := by
    refine ⟨length_replicate, fun layer hlay => ?_⟩
    rw [eq_of_mem_replicate hlay]
    exact ⟨(Nat.zero_mul _).symm, (Nat.zero_mul _).symm⟩
  history s hs := absurd hs not_mem_nil

section

variable (h : cache.Shaped numLayers kvWidth)

include h

theorem Shaped.layerLengths_snapshot : cache.snapshot.layerLengths = List.replicate numLayers
      (cache.processedTokens * kvWidth, cache.processedTokens * kvWidth) := by
  refine eq_replicate_iff.mpr ⟨by rw [snapshot, length_map, h.rows.1], ?_⟩
  intro lengths hmem
  obtain ⟨layer, hlay, rfl⟩ := mem_map.mp hmem
  rw [(h.rows.2 layer hlay).1, (h.rows.2 layer hlay).2]

theorem Shaped.committed {keys values : List (List F)}
    {rows : ℕ} (hfit : cache.Fits keys values rows) :
    (cache.committed keys values rows).Shaped numLayers kvWidth := by
  obtain ⟨hkey, hval, -, -, hk, hv⟩ := hfit
  refine ⟨h.width, ⟨(length_extendLayers hkey hval).trans h.rows.1, ?_⟩, ?_⟩
  · intro layer hlay
    obtain ⟨l, hl, k, hkm, v, hvm, rfl⟩ := mem_extendLayers hkey hval hlay
    have hwid : ∀ n, n = rows * cache.keyWidth →
        cache.processedTokens * kvWidth + n = (cache.processedTokens + rows) * kvWidth := by
      rintro n rfl
      rw [Nat.add_mul, h.width]
    refine ⟨?_, ?_⟩
    · rw [LayerKv.extend, length_append, (h.rows.2 l hl).1]
      exact hwid _ (hk k hkm)
    · rw [LayerKv.extend, length_append, (h.rows.2 l hl).2]
      exact hwid _ (hv v hvm)
  · intro s hs
    rcases mem_append.mp hs with hs | hs
    · exact h.history s hs
    · rw [mem_singleton.mp hs]
      exact h.layerLengths_snapshot

theorem Shaped.rewound {checkpoint : KvCheckpoint} (hrow : cache.layers = [] ∨
      checkpoint.processedTokens * cache.keyWidth ≤ cache.processedTokens * cache.keyWidth) :
    (cache.rewound checkpoint).Shaped numLayers kvWidth := by
  refine ⟨h.width, ⟨by rw [KvCache.rewound, upTo, length_map, h.rows.1], ?_⟩, ?_⟩
  · intro layer hlay
    obtain ⟨l, hl, rfl⟩ := mem_map.mp hlay
    rcases hrow with hnon | hle
    · rw [hnon] at hl
      exact absurd hl not_mem_nil
    · rw [h.width] at hle
      obtain ⟨hk, hv⟩ := h.rows.2 l hl
      rw [LayerKv.truncate, length_take, length_take, hk, hv, h.width, Nat.min_eq_left hle]
      exact ⟨rfl, rfl⟩
  · exact fun s hs => h.history s (mem_of_mem_filter hs)

theorem Shaped.clear : cache.clear.Shaped numLayers kvWidth := by
  refine ⟨h.width, ⟨by rw [KvCache.clear, length_map, h.rows.1], ?_⟩, ?_⟩
  · intro layer hlay
    obtain ⟨l, -, rfl⟩ := mem_map.mp hlay
    exact ⟨(Nat.zero_mul _).symm, (Nat.zero_mul _).symm⟩
  · exact fun s hs => absurd hs not_mem_nil

/-- **Moves keep the shape.** -/
theorem Shaped.move {call : KvCall F}
    {answer : Except (Fault KvError) (Option KvCheckpoint)} (hmov : Moves cache call answer next) :
    next.Shaped numLayers kvWidth := by
  cases hmov with
  | refused | stayed => exact h
  | committed hacc => exact h.committed hacc.1
  | rewound _ _ hrow => exact h.rewound hrow
  | cleared => exact h.clear

end

/-! ## Runs -/

/-- The next state of the machine, if the call does not panic. -/
theorem next_eq_some {call : KvCall F} : machine.next (some cache) call = some next ↔
      (cache.call call).1 ≠ .error .panicked ∧ (cache.call call).2 = next := by
  show (match cache.call call with
      | (.error .panicked, _) => (.error .panicked, none)
      | (answer, next) => (answer, some next) : _ × Option (KvCache F)).2 = some next ↔ _
  rcases cache.call call with ⟨(- | -) | answer, after⟩
  · exact ⟨fun h => ⟨nofun, Option.some.inj h⟩, fun h => congrArg some h.2⟩
  · exact ⟨fun h => (by cases h), fun h => absurd rfl h.1⟩
  · exact ⟨fun h => ⟨nofun, Option.some.inj h⟩, fun h => congrArg some h.2⟩

variable {calls : List (KvCall F)}

theorem after_concat {call : KvCall F} :
    after numLayers kvWidth (calls ++ [call]) = some next ↔
      ∃ cache, after numLayers kvWidth calls = some cache ∧
        (cache.call call).1 ≠ .error .panicked ∧ (cache.call call).2 = next := by
  unfold after
  rw [Machine.run_append]
  cases machine.run (some (new numLayers kvWidth : KvCache F)) calls with
  | none => exact ⟨fun h => (by cases h), fun ⟨_, h, _⟩ => (by cases h)⟩
  | some cache =>
    constructor
    · exact fun h => ⟨cache, rfl, next_eq_some.mp h⟩
    · rintro ⟨cache', hcac, h⟩
      cases hcac
      exact next_eq_some.mpr h

/-- A commit that is accepted, at the end of a run. -/
theorem after_commit {keys values : List (List F)} {rows : ℕ}
    (h : after numLayers kvWidth calls = some cache) (hacc : cache.Accepts keys values rows) :
    after numLayers kvWidth (calls ++ [.commit keys values rows])
      = some (cache.committed keys values rows) := by
  have hcal : cache.call (.commit keys values rows)
      = (.ok (some (cache.committed keys values rows).checkpoint),
        cache.committed keys values rows) := by
    rw [call, commit_of_accepts hacc]
    rfl
  exact after_concat.mpr ⟨cache, h, by rw [hcal]; rintro ⟨⟩, by rw [hcal]⟩

/-- **Every cache of a run has the right shape.** -/
theorem shaped_after (h : after numLayers kvWidth calls = some cache) :
    cache.Shaped numLayers kvWidth := by
  induction calls using List.reverseRecOn generalizing cache with
  | nil =>
    obtain rfl := Option.some.inj h
    exact shaped_new numLayers kvWidth
  | append_singleton calls call ih =>
    obtain ⟨before, hbef, hpan, rfl⟩ := after_concat.mp h
    have hsh := ih hbef
    exact hsh.move (hsh.moves call hpan)

end KvCache

end Llama

end Logan
