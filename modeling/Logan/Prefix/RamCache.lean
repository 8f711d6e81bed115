import Logan.Prefix.PrefixAccounts

/-!
# Every run of the cache in memory

`RamPrefixCache` goes through insertions, lookups, removals and `clear`. As
long as the total of the sizes cannot overflow, every operation returns, the
structures of the cache keep belonging together (`PrefixTable.Accounts`), and
the operation does what it is for (`RamPrefixCache.Behaves`). The total can
overflow under the largest budget only: the test that makes room saturates
there, so that nothing is ever dropped, while the sum that follows does not.
-/

namespace Logan

open PrefixTable

/-- An operation of the cache. -/
inductive RamOp (V : Type) where
  | insert (key : PrefixKey) (value : V) (size : ℕ)
  | lookup (query : PrefixKey)
  | remove (fingerprint : PrefixFingerprint)
  | clear

/-- `CacheHit` -/
structure CacheHit (V : Type) where
  fingerprint : PrefixFingerprint
  prefixLen : ℕ
  value : V
deriving DecidableEq

/-- What the cache answers. -/
inductive RamAnswer (V : Type) where
  | inserted
  | refused (message : String)
  | found (hit : Option (CacheHit V))
  | removed (present : Bool)
  | cleared

namespace RamPrefixCache

variable {V : Type} {t u : RamPrefixCache V}

/-- The answer to an insertion. One that is refused returns before anything has
changed. -/
def answerInsert (t : RamPrefixCache V) : Except (Failure String) (RamPrefixCache V) →
    Except (Failure Empty) (RamAnswer V × RamPrefixCache V)
  | .ok t => .ok (.inserted, t)
  | .error (.error message) => .ok (.refused message, t)
  | .error .panic => .error .panic
  | .error .endless => .error .endless

/-- The answer to a lookup. -/
def answerLookup (found : Option (PrefixFingerprint × PrefixEntry V)) : RamAnswer V :=
  .found (found.map fun e => ⟨e.1, e.2.key.prefixLen.toNat, e.2.value⟩)

/-- **One operation.** -/
def step (t : RamPrefixCache V) :
    RamOp V → Except (Failure Empty) (RamAnswer V × RamPrefixCache V)
  | .insert key value size => answerInsert t (ramInsert t key value size)
  | .lookup query => .ok (answerLookup (t.lookup query).1, (t.lookup query).2)
  | .remove f => .ok (.removed (t.remove f).1, (t.remove f).2)
  | .clear => .ok (.cleared, t.clear)

/-- The cache after a list of operations. -/
def run (t : RamPrefixCache V) : List (RamOp V) → Except (Failure Empty) (RamPrefixCache V)
  | [] => .ok t
  | op :: ops => do
    let p ← step t op
    run p.2 ops

/-- **What an operation is for.** -/
def Behaves (t : RamPrefixCache V) : RamOp V → RamAnswer V → RamPrefixCache V → Prop
  | .insert key value size, answer, u =>
    if size ≤ t.maxBytes then
      answer = .inserted ∧ ∃ evicted, t.Admits key value size evicted u
    else (∃ message, answer = .refused message) ∧ u = t
  | .lookup query, answer, u =>
    (∃ f e, answer = .found (some ⟨f, e.key.prefixTokens.toList.length, e.value⟩)
        ∧ u = t.touch f ∧ t.entries.lookup f = some e ∧ e.key.isPrefixOf query = true
        ∧ ∀ g e', t.entries.lookup g = some e' → e'.key.isPrefixOf query = true →
          e'.key.prefixTokens.toList.length ≤ e.key.prefixTokens.toList.length)
      ∨ (answer = .found none ∧ u = t
        ∧ ∀ g e', t.entries.lookup g = some e' → e'.key.isPrefixOf query = false)
  | .remove f, answer, u =>
    answer = .removed (t.entries.lookup f).isSome
      ∧ ∀ g, u.entries.lookup g = if g = f then none else t.entries.lookup g
  | .clear, answer, u => answer = .cleared ∧ ∀ g, u.entries.lookup g = none

/-- Whether the total cannot overflow in an operation. -/
def Fits (t : RamPrefixCache V) : RamOp V → Prop
  | .insert key _ size => t.maxBytes < size ∨ PrefixTable.Fits t key size
  | _ => True

/-- **A step** returns if the total cannot overflow, keeps the structures
together and does what it is for. -/
theorem step_behaves (h : t.Accounts) {op : RamOp V} (hfit : Fits t op) :
    ∃ answer u, step t op = .ok (answer, u) ∧ u.Accounts ∧ Behaves t op answer u := by
  cases op with
  | insert key value size =>
    rcases Nat.lt_or_ge t.maxBytes size with hlrg | hsiz
    · obtain ⟨message, hins⟩ := ramInsert_of_large (t := t) key value hlrg
      refine ⟨.refused message, t, ?_, h, ?_⟩
      · show answerInsert t (ramInsert t key value size) = _
        rw [hins]
        rfl
      · show if size ≤ t.maxBytes then _ else _
        rw [if_neg (not_le.mpr hlrg)]
        exact ⟨⟨message, rfl⟩, rfl⟩
    · obtain ⟨evicted, u, hins, hu, hadm⟩ :=
        h.ramInsert_eq value hsiz (hfit.resolve_left (not_lt.mpr hsiz))
      refine ⟨.inserted, u, ?_, hu, ?_⟩
      · show answerInsert t (ramInsert t key value size) = _
        rw [hins]
        rfl
      · show if size ≤ t.maxBytes then _ else _
        rw [if_pos hsiz]
        exact ⟨rfl, evicted, hadm⟩
  | lookup query =>
    have hsnd := lookup_snd t query
    refine ⟨_, _, rfl, h.lookup query, ?_⟩
    cases hfnd : (t.lookup query).1 with
    | none =>
      rw [hfnd] at hsnd
      exact Or.inr ⟨rfl, hsnd, lookup_eq_none_iff.mp hfnd⟩
    | some e =>
      rw [hfnd] at hsnd
      obtain ⟨hent, hst⟩ := (lookup_spec t query).2 e.1 e.2 hfnd
      refine Or.inl ⟨e.1, e.2, ?_, hsnd, hent, hst, fun g e' he' => le_of_lookup hfnd he'⟩
      rw [answerLookup, Option.map_some, e.2.key.toNat_prefixLen]
  | remove f =>
    refine ⟨_, _, rfl, h.remove f, ?_, fun g => ?_⟩
    · rw [h.remove_fst]
      refine congrArg RamAnswer.removed (Bool.eq_iff_iff.mpr ?_)
      rw [decide_eq_true_iff, h.mem_lru_iff, Option.isSome_iff_exists]
    · rw [h.remove_eq]
      exact Table.lookup_erase _ _ g
  | clear => exact ⟨_, _, rfl, h.clear, rfl, fun g => AList.lookup_empty g⟩

theorem step_panics (h : t.Accounts) {op : RamOp V} (hfit : ¬ Fits t op) :
    step t op = .error .panic := by
  cases op with
  | insert key value size =>
    obtain ⟨hsiz, hfit⟩ := not_or.mp hfit
    show answerInsert t (ramInsert t key value size) = _
    rw [h.ramInsert_panics value (not_lt.mp hsiz) hfit]
    rfl
  | _ => exact absurd trivial hfit

theorem run_append (t : RamPrefixCache V) (ops ops' : List (RamOp V)) :
    run t (ops ++ ops') = (run t ops >>= fun u => run u ops') := by
  induction ops generalizing t with
  | nil => rfl
  | cons op ops ih =>
    rw [List.cons_append, run, run]
    cases step t op with
    | error => rfl
    | ok p => exact ih p.2

/-- **A run** whose steps all fit returns, and the structures belong together
in the end. -/
theorem run_accounts (h : t.Accounts) {ops : List (RamOp V)}
    (hfit : ∀ before op, before ++ [op] <+: ops → ∀ u, run t before = .ok u → Fits u op) :
    ∃ u, run t ops = .ok u ∧ u.Accounts := by
  induction ops using List.reverseRecOn with
  | nil => exact ⟨t, rfl, h⟩
  | append_singleton ops op ih =>
    obtain ⟨u, hu, hacc⟩ := ih fun before op' hbef =>
      hfit before op' (hbef.trans (List.prefix_append _ _))
    obtain ⟨answer, v, hst, hv, -⟩ :=
      step_behaves hacc (hfit ops op (List.prefix_refl _) u hu)
    refine ⟨v, ?_, hv⟩
    rw [run_append, hu, Result.ok_bind, run, hst]
    rfl

/-- **Every operation of a run behaves**, and keeps the structures of the cache
together, exactly if its total does not overflow in any of them. -/
theorem behaves_iff {max : ℕ} (hmax : max ≤ usizeMax) (ops : List (RamOp V)) :
    (∀ before op, before ++ [op] <+: ops → ∃ t, run (new max) before = .ok t
        ∧ t.Accounts ∧ ∃ answer u, step t op = .ok (answer, u) ∧ u.Accounts
        ∧ Behaves t op answer u) ↔ ∀ before op, before ++ [op] <+: ops →
        ∀ t, run (new max) before = .ok t → Fits t op := by
  constructor
  · intro h before op hbef t ht
    obtain ⟨t', ht', hacc, answer, u, hst, -⟩ := h before op hbef
    obtain rfl := Except.ok.inj (ht.symm.trans ht')
    by_contra hfit
    rw [step_panics hacc hfit] at hst
    cases hst
  · intro h before op hbef
    obtain ⟨t, ht, hacc⟩ := run_accounts (accounts_new hmax) fun before' op' hb =>
      h before' op' (hb.trans ((List.prefix_append before [op]).trans hbef))
    exact ⟨t, ht, hacc, step_behaves hacc (h before op hbef t ht)⟩

/-- A key of nothing but zeros. -/
def zeroKey (tokens : Vec 4 UInt32) : PrefixKey where
  modelFingerprint := ⟨List.replicate 32 0, rfl⟩
  stateSchemaFingerprint := ⟨List.replicate 32 0, rfl⟩
  tokenizerFingerprint := ⟨List.replicate 32 0, rfl⟩
  planFingerprint := ⟨List.replicate 32 0, rfl⟩
  prefixTokens := tokens
  prefixTokenHash := 0

/-- The second entry takes the place of the first one, and is found. -/
def twoOps : List (RamOp ℕ) :=
  [.insert (zeroKey ⟨[], by decide⟩) 1 6, .insert (zeroKey ⟨[0], by decide⟩) 2 6,
    .lookup (zeroKey ⟨[0, 0], by decide⟩)]

theorem behaves_iff_of_two :
    (∀ before op, before ++ [op] <+: twoOps → ∃ t, run (new 10) before = .ok t
        ∧ t.Accounts ∧ ∃ answer u, step t op = .ok (answer, u) ∧ u.Accounts
        ∧ Behaves t op answer u) ↔ ∀ before op, before ++ [op] <+: twoOps →
        ∀ t, run (new 10) before = .ok t → Fits t op :=
  behaves_iff (by decide) twoOps

/-- Under the largest budget, one entry of that size, and then one of a byte. -/
def fullOps : List (RamOp ℕ) :=
  [.insert (zeroKey ⟨[], by decide⟩) 1 usizeMax, .insert (zeroKey ⟨[0], by decide⟩) 2 1]

/-- **Nothing is dropped under the largest budget**, and the total overflows. -/
theorem not_behaves : ¬ ∀ before op, before ++ [op] <+: fullOps →
    ∃ t, run (new usizeMax) before = .ok t ∧ t.Accounts
      ∧ ∃ answer u, step t op = .ok (answer, u) ∧ u.Accounts ∧ Behaves t op answer u := by
  intro h
  obtain ⟨t, ht, -, answer, u, hst, -⟩ :=
    h [.insert (zeroKey ⟨[], by decide⟩) 1 usizeMax] _ (List.prefix_refl _)
  cases ht
  cases hst

end RamPrefixCache

end Logan
