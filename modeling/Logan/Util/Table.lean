import Mathlib.Data.List.AList
import Mathlib.Data.List.MinMax
import Mathlib.Data.List.Sort
import Mathlib.Tactic

/-!
# Finite tables

A **table** is a finite map with at most one value per key: Mathlib's
association lists, at a constant value type. The order of the entries is
the order in which a traversal meets them, and no lookup depends on it.

Two things are added to Mathlib's interface. The updates a program makes
to a record it has just looked up (`Table.modify`) and to many keys at once
(`Table.eraseAll`) come with the one lemma a proof about lookups needs.
And a table can be *weighed*: `Table.sum` adds a weight over all entries,
and `Table.sum_insert_add` and `Table.sum_erase_add` say how the total
moves when one entry does, which is all an accounting invariant over a
table ever asks. A traversal that looks for the least entry finds the same
one in whatever order it meets them, when no two weigh the same
(`Table.argmin_perm`). And of what the members of a list contribute, each
under its own key, the part under one key is what its one member contributes
(`Table.filter_flatMap_of_key`).
-/

namespace Logan

open List

/-- A finite map from keys to values. -/
abbrev Table (K V : Type) : Type := AList (fun _ : K => V)

namespace Table

variable {K V : Type} [DecidableEq K]

/-! ## Lookups after an update -/

/-- Store a value at a key, over whatever was stored there. -/
def insert (t : Table K V) (k : K) (v : V) : Table K V := AList.insert k v t

/-- Remove a key and its value. -/
def erase (t : Table K V) (k : K) : Table K V := AList.erase k t

variable (t : Table K V)

theorem lookup_insert (k j : K) (v : V) :
    (t.insert k v).lookup j = if j = k then some v else t.lookup j := by
  by_cases h : j = k
  · rw [if_pos h, h]
    exact AList.lookup_insert t
  · rw [if_neg h]
    exact AList.lookup_insert_ne h

@[simp] theorem lookup_insert_self (k : K) (v : V) : (t.insert k v).lookup k = some v :=
  AList.lookup_insert t

theorem lookup_insert_ne {k j : K} (v : V) (h : j ≠ k) : (t.insert k v).lookup j = t.lookup j :=
  AList.lookup_insert_ne h

theorem lookup_erase (k j : K) : (t.erase k).lookup j = if j = k then none else t.lookup j := by
  by_cases h : j = k
  · rw [if_pos h, h]
    exact AList.lookup_erase k t
  · rw [if_neg h]
    exact AList.lookup_erase_ne h

@[simp] theorem lookup_erase_self (k : K) : (t.erase k).lookup k = none :=
  AList.lookup_erase k t

theorem lookup_erase_ne {k j : K} (h : j ≠ k) : (t.erase k).lookup j = t.lookup j :=
  AList.lookup_erase_ne h

/-- Rewrite the value stored at a key, if there is one. -/
def modify (t : Table K V) (k : K) (f : V → V) : Table K V :=
  match t.lookup k with
  | none => t
  | some v => t.insert k (f v)

variable {t : Table K V}

theorem modify_of_lookup {k : K} {v : V} (h : t.lookup k = some v)
    (f : V → V) : t.modify k f = t.insert k (f v) := by
  rw [modify, h]

theorem lookup_modify (t : Table K V) (k j : K) (f : V → V) :
    (t.modify k f).lookup j = if j = k then (t.lookup k).map f else t.lookup j := by
  unfold modify
  cases h : t.lookup k with
  | none =>
    by_cases hj : j = k
    · rw [if_pos hj, hj, h, Option.map_none]
    · rw [if_neg hj]
  | some v => exact lookup_insert t k j (f v)

/-- Only the last of two insertions at a key counts. -/
theorem insert_insert (t : Table K V) (k : K) (v w : V) :
    (t.insert k v).insert k w = t.insert k w :=
  AList.insert_insert t

/-- Erase every key of a list. -/
def eraseAll (t : Table K V) (ks : List K) : Table K V :=
  ks.foldl (fun t k => t.erase k) t

theorem lookup_eraseAll (t : Table K V) (ks : List K) (j : K) :
    (t.eraseAll ks).lookup j = if j ∈ ks then none else t.lookup j := by
  induction ks generalizing t with
  | nil => rfl
  | cons k ks ih =>
    show (eraseAll (t.erase k) ks).lookup j = _
    rw [ih, lookup_erase]
    by_cases hj : j = k
    · simp [hj]
    · simp [hj]

theorem mem_keys_iff (t : Table K V) (k : K) : k ∈ t.keys ↔ ∃ v, t.lookup k = some v := by
  rw [← AList.mem_keys, ← AList.lookup_isSome, Option.isSome_iff_exists]

/-- The entries of a table of which all lookups are known. -/
theorem entries_perm {ks : List K} {f : K → V} (hks : ks.Nodup)
    (ht : ∀ k, t.lookup k = if k ∈ ks then some (f k) else none) :
    t.entries.Perm (ks.map fun k => Sigma.mk k (f k)) := by
  have hnd : (ks.map fun k => (Sigma.mk k (f k) : Sigma fun _ : K => V)).Nodup :=
    hks.map fun a b h => (Sigma.mk.inj h).1
  refine (perm_ext_iff_of_nodup t.nodupKeys.nodup hnd).mpr fun e => ?_
  rw [mem_map]
  constructor
  · intro he
    have hlkp : t.lookup e.1 = some e.2 := AList.mem_lookup_iff.mpr he
    rw [ht] at hlkp
    split_ifs at hlkp with hk
    exact ⟨e.1, hk, Sigma.ext rfl (heq_of_eq (Option.some.inj hlkp))⟩
  · rintro ⟨k, hk, rfl⟩
    refine AList.mem_lookup_iff.mp ?_
    rw [ht, if_pos hk]
    rfl

theorem entries_eq_nil_iff (t : Table K V) : t.entries = [] ↔ ∀ k, t.lookup k = none := by
  constructor
  · intro h k
    have ht : t = ∅ := AList.ext h
    rw [ht, AList.lookup_empty]
  · intro h
    refine eq_nil_iff_forall_not_mem.mpr (fun e he => ?_)
    have hl := AList.mem_lookup_iff.mpr (show Sigma.mk e.1 e.2 ∈ t.entries from he)
    rw [h e.1] at hl
    exact absurd hl (by simp)

/-! ## Weighing a table -/

/-- **The total weight of a table**: the sum of a weight over its
entries. -/
def sum (t : Table K V) (f : K → V → ℕ) : ℕ :=
  (t.entries.map (fun e => f e.1 e.2)).sum

/-- The weight found at one key, nothing where there is no entry. -/
def weigh (t : Table K V) (f : K → V → ℕ) (k : K) : ℕ :=
  match t.lookup k with
  | none => 0
  | some v => f k v

theorem weigh_of_lookup {f : K → V → ℕ} {k : K} {v : V}
    (h : t.lookup k = some v) : t.weigh f k = f k v := by
  rw [weigh, h]

theorem weigh_of_absent {f : K → V → ℕ} {k : K} (h : t.lookup k = none) : t.weigh f k = 0 := by
  rw [weigh, h]

/-- **Erasing a key takes its weight off the total.** -/
theorem sum_erase_add (t : Table K V) (f : K → V → ℕ) (k : K) :
    (t.erase k).sum f + t.weigh f k = t.sum f := by
  cases hk : t.lookup k with
  | none =>
    have hmem : k ∉ t.entries.keys := fun h =>
      absurd (AList.lookup_eq_none.mp hk) (fun hn => hn h)
    have hent : (t.erase k).entries = t.entries := kerase_of_notMem_keys hmem
    rw [weigh_of_absent hk, Nat.add_zero, sum, hent]
    rfl
  | some v =>
    have hmem : k ∈ t.entries.keys := AList.lookup_isSome.mp (by rw [hk]; rfl)
    obtain ⟨w, l₁, l₂, -, hl, hker⟩ := exists_of_kerase hmem
    have hw : t.lookup k = some w :=
      AList.mem_lookup_iff.mpr (by rw [hl]; exact mem_append_right _ mem_cons_self)
    have hvw : v = w := Option.some.inj (hk.symm.trans hw)
    have hent : (t.erase k).entries = l₁ ++ l₂ := hker
    rw [weigh_of_lookup hk, hvw, sum, sum, hent, hl]
    simp only [List.map_append, map_cons, sum_append, sum_cons]
    omega

/-- **Inserting at a key replaces its weight in the total.** -/
theorem sum_insert_add (t : Table K V) (f : K → V → ℕ) (k : K) (v : V) :
    (t.insert k v).sum f + t.weigh f k = f k v + t.sum f := by
  have hins : (t.insert k v).sum f = f k v + (t.erase k).sum f := by
    show ((AList.insert k v t).entries.map (fun e => f e.1 e.2)).sum = _
    rw [AList.entries_insert, map_cons, sum_cons]
    rfl
  have her := sum_erase_add t f k
  omega

theorem sum_insert_of_weigh {f : K → V → ℕ} {k : K} {v : V}
    (h : f k v = t.weigh f k) : (t.insert k v).sum f = t.sum f := by
  have hsum := sum_insert_add t f k v
  omega

theorem sum_congr {f g : K → V → ℕ}
    (h : ∀ k v, t.lookup k = some v → f k v = g k v) : t.sum f = t.sum g := by
  refine congrArg List.sum (map_congr_left (fun e he => ?_))
  exact h e.1 e.2 (AList.mem_lookup_iff.mpr he)

omit [DecidableEq K] in
theorem sum_mono {f g : K → V → ℕ} (h : ∀ k v, f k v ≤ g k v) : t.sum f ≤ t.sum g :=
  sum_le_sum fun e _ => h e.1 e.2

theorem sum_eq_zero {f : K → V → ℕ} (h : ∀ k v, t.lookup k = some v → f k v = 0) : t.sum f = 0 := by
  rw [sum_congr (g := fun _ _ => 0) h]
  simp [sum]

theorem weigh_le_sum (t : Table K V) (f : K → V → ℕ) (k : K) : t.weigh f k ≤ t.sum f := by
  have h := sum_erase_add t f k
  omega

/-! ## Searching for the least -/

/-- **The least of a list does not depend on its order**, when no two of its
members compare equal. -/
theorem argmin_perm {A : Type} {f : A → ℕ} {l l' : List A} (h : l.Perm l')
    (hinj : ∀ a ∈ l, ∀ b ∈ l, f a = f b → a = b) : l.argmin f = l'.argmin f := by
  cases hl : l.argmin f with
  | none =>
    have hnil : l = [] := argmin_eq_none.mp hl
    rw [hnil] at h
    rw [nil_perm.mp h]
    rfl
  | some a =>
    cases hl' : l'.argmin f with
    | none =>
      have hnil : l' = [] := argmin_eq_none.mp hl'
      rw [hnil, perm_nil] at h
      rw [h] at hl
      exact absurd hl (by simp)
    | some b =>
      have ha : a ∈ l := argmin_mem hl
      have hb : b ∈ l := h.mem_iff.mpr (argmin_mem hl')
      have hab : f a ≤ f b := le_of_mem_argmin hb hl
      have hba : f b ≤ f a := le_of_mem_argmin (h.mem_iff.mp ha) hl'
      rw [hinj a ha b hb (Nat.le_antisymm hab hba)]

/-! ## Contributions under a key -/

section Keyed

variable {A B : Type} {key : A → K} {f : A → List B} {keyOf : B → K}

variable (keyOf) in
/-- Nothing is contributed under the key of nobody. -/
theorem filter_flatMap_of_absent {l : List A} (hkey : ∀ a ∈ l, ∀ b ∈ f a, keyOf b = key a) {k : K}
    (h : k ∉ l.map key) : (l.flatMap f).filter (fun b => keyOf b = k) = [] := by
  rw [filter_eq_nil_iff]
  intro b hb heq
  obtain ⟨a, ha, hab⟩ := mem_flatMap.mp hb
  exact h (mem_map.mpr ⟨a, ha, (hkey a ha b hab).symm.trans (of_decide_eq_true heq)⟩)

variable (keyOf) in
/-- **What is contributed under a key is what its member contributes**, when
the keys are distinct. -/
theorem filter_flatMap_of_key {l : List A} (hkey : ∀ a ∈ l, ∀ b ∈ f a, keyOf b = key a)
    (hnd : (l.map key).Nodup) {a : A} (ha : a ∈ l) :
    (l.flatMap f).filter (fun b => keyOf b = key a) = f a := by
  have hown : (f a).filter (fun b => keyOf b = key a) = f a :=
    filter_eq_self.mpr (fun b hb => decide_eq_true (hkey a ha b hb))
  obtain ⟨before, after, rfl⟩ := append_of_mem ha
  rw [List.map_append, map_cons, nodup_append, nodup_cons] at hnd
  obtain ⟨-, ⟨haft, -⟩, hbef⟩ := hnd
  have hnon : key a ∉ before.map key := fun h => hbef _ h _ mem_cons_self rfl
  have hkey' : ∀ c ∈ before, ∀ b ∈ f c, keyOf b = key c :=
    fun c hc => hkey c (mem_append_left _ hc)
  have hkey'' : ∀ c ∈ after, ∀ b ∈ f c, keyOf b = key c :=
    fun c hc => hkey c (mem_append_right _ (mem_cons_of_mem _ hc))
  rw [flatMap_append, flatMap_cons, filter_append, filter_append, hown,
    filter_flatMap_of_absent keyOf hkey' hnon, filter_flatMap_of_absent keyOf hkey'' haft,
    nil_append, List.append_nil]

end Keyed

end Table

end Logan
