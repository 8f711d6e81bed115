import Logan.Prefix.PrefixSoundness

/-!
# What a table of prefixes accounts for

The entries, the order of their use and the total of their sizes are kept
apart, and belong together: the fingerprints in the order are those that have
an entry, each once, and the total is the sum of the sizes
(`PrefixTable.Accounts`). Every operation preserves this, and the loop that
makes room ends, since each of its rounds drops an entry. What it drops is
the shortest run of least recently used entries without which the new one
fits (`PrefixTable.Admits`).
-/

namespace Logan

open List AList

namespace PrefixTable

variable {V : Type} {t u : PrefixTable V} {f g : PrefixFingerprint}

/-- The size of an entry, and nothing where there is none. -/
def sizeOf (t : PrefixTable V) (f : PrefixFingerprint) : ℕ :=
  t.entries.weigh (fun _ e => e.size) f

/-- The sizes of some entries together. -/
def bytesOf (t : PrefixTable V) (fs : List PrefixFingerprint) : ℕ := (fs.map t.sizeOf).sum

/-- **What a table accounts for.** -/
structure Accounts (t : PrefixTable V) : Prop where
  /-- The order names every entry once. -/
  lru_perm : t.lru.Perm t.entries.keys
  total_eq : t.totalBytes = t.entries.sum fun _ e => e.size
  total_le : t.totalBytes ≤ t.maxBytes
  /-- An entry is found under the fingerprint of its key. -/
  keyed : ∀ f e, t.entries.lookup f = some e → e.key.fingerprint = f
  /-- The budget is a `usize`. -/
  max_le : t.maxBytes ≤ usizeMax

theorem Accounts.nodup (h : t.Accounts) : t.lru.Nodup :=
  h.lru_perm.nodup_iff.mpr t.entries.keys_nodup

theorem Accounts.mem_lru_iff (h : t.Accounts) : f ∈ t.lru ↔ ∃ e, t.entries.lookup f = some e := by
  rw [h.lru_perm.mem_iff, Table.mem_keys_iff]

theorem Accounts.lookup_none (h : t.Accounts) (hf : f ∉ t.lru) : t.entries.lookup f = none := by
  cases hlkp : t.entries.lookup f with
  | none => rfl
  | some e => exact absurd (h.mem_lru_iff.mpr ⟨e, hlkp⟩) hf

theorem Accounts.bytesOf_lru (h : t.Accounts) : t.bytesOf t.lru = t.totalBytes := by
  rw [h.total_eq, bytesOf, (h.lru_perm.map t.sizeOf).sum_eq]
  show ((t.entries.entries.map Sigma.fst).map t.sizeOf).sum = _
  rw [map_map, Table.sum]
  refine congrArg List.sum (map_congr_left fun e he => ?_)
  exact Table.weigh_of_lookup (f := fun _ e => e.size) (mem_lookup_iff.mpr he)

theorem accounts_new {n : ℕ} (hn : n ≤ usizeMax) :
    (PrefixTable.new n : PrefixTable V).Accounts where
  lru_perm := List.Perm.refl []
  total_eq := rfl
  total_le := Nat.zero_le n
  keyed := fun f e h => absurd ((lookup_empty f).symm.trans h) (by simp)
  max_le := hn

section

variable (h : t.Accounts)

include h

theorem Accounts.clear : t.clear.Accounts where
  lru_perm := List.Perm.refl []
  total_eq := rfl
  total_le := Nat.zero_le t.maxBytes
  keyed := fun f e he => absurd ((lookup_empty f).symm.trans he) (by simp)
  max_le := h.max_le

variable (f : PrefixFingerprint)

theorem Accounts.filter_lru : t.lru.filter (fun g => decide (g ≠ f)) = t.lru.erase f := by
  rw [h.nodup.erase_eq_filter]
  refine filter_congr fun g _ => ?_
  by_cases hg : g = f <;> simp [hg]

/-! ## Removal -/

/-- What is left without a fingerprint: of the order, of the entries and of
the total. -/
theorem Accounts.remove_eq : (t.remove f).2 = { t with
      entries := t.entries.erase f
      totalBytes := t.totalBytes - t.sizeOf f
      lru := t.lru.filter (· ≠ f) } := by
  unfold remove sizeOf Table.weigh
  cases hlkp : t.entries.lookup f with
  | some => rfl
  | none =>
    have hf : f ∉ t.lru := fun hmem => by
      obtain ⟨e, he⟩ := h.mem_lru_iff.mp hmem
      rw [hlkp] at he
      cases he
    have hlru : t.lru.filter (fun g => decide (g ≠ f)) = t.lru :=
      filter_eq_self.mpr fun g hg => decide_eq_true fun heq => hf (heq ▸ hg)
    have hents : t.entries.erase f = t.entries :=
      ext (kerase_of_notMem_keys (lookup_eq_none.mp hlkp))
    rw [hlru, hents]
    rfl

theorem Accounts.remove_fst : (t.remove f).1 = decide (f ∈ t.lru) := by
  unfold remove
  cases hlkp : t.entries.lookup f with
  | some e => exact (decide_eq_true (h.mem_lru_iff.mpr ⟨e, hlkp⟩)).symm
  | none =>
    refine (decide_eq_false fun hmem => ?_).symm
    obtain ⟨e, he⟩ := h.mem_lru_iff.mp hmem
    rw [hlkp] at he
    cases he

theorem Accounts.remove : (t.remove f).2.Accounts := by
  have hsum := Table.sum_erase_add t.entries (fun _ e => e.size) f
  rw [h.remove_eq f]
  refine ⟨?_, ?_, (Nat.sub_le _ _).trans h.total_le, fun g e he => ?_, h.max_le⟩
  · show (t.lru.filter (fun g => decide (g ≠ f))).Perm (t.entries.entries.kerase f).keys
    rw [keys_kerase, h.filter_lru]
    exact h.lru_perm.erase f
  · show t.totalBytes - t.sizeOf f = (t.entries.erase f).sum _
    rw [h.total_eq, ← hsum]
    exact Nat.add_sub_cancel _ _
  · rw [show ({ t with
        entries := t.entries.erase f
        totalBytes := t.totalBytes - t.sizeOf f
        lru := t.lru.filter (· ≠ f) } : PrefixTable V).entries = t.entries.erase f from rfl,
      Table.lookup_erase] at he
    split_ifs at he
    exact h.keyed g e he

end

/-! ## Making room -/

/-- **What the loop that makes room has done**: it has dropped the first
entries of the order, and none without need. -/
structure Evicts (t : PrefixTable V) (incoming : ℕ) (evicted : List PrefixFingerprint)
    (u : PrefixTable V) : Prop where
  accounts : u.Accounts
  maxBytes_eq : u.maxBytes = t.maxBytes
  lru_eq : t.lru = evicted ++ u.lru
  lookup_eq : ∀ f, u.entries.lookup f = if f ∈ evicted then none else t.entries.lookup f
  enough : min (u.totalBytes + incoming) usizeMax ≤ t.maxBytes
  /-- With fewer entries dropped there would not be enough room. -/
  needed : ∀ j < evicted.length, t.maxBytes < min (t.bytesOf (t.lru.drop j) + incoming) usizeMax

theorem bytesOf_congr {fs : List PrefixFingerprint}
    (h : ∀ f ∈ fs, u.entries.lookup f = t.entries.lookup f) : u.bytesOf fs = t.bytesOf fs := by
  refine congrArg List.sum (map_congr_left fun f hf => ?_)
  unfold sizeOf Table.weigh
  rw [h f hf]

/-- **The loop that makes room** ends, and has done so. -/
theorem evictLoop_eq {incoming fuel : ℕ} (h : t.Accounts) (hinc : incoming ≤ t.maxBytes)
    (hfuel : t.lru.length < fuel) :
    ∃ evicted u, evictLoop incoming fuel t = .ok (evicted, u) ∧ Evicts t incoming evicted u := by
  induction fuel generalizing t with
  | zero => exact absurd hfuel (Nat.not_lt_zero _)
  | succ fuel ih =>
    rw [evictLoop]
    by_cases hen : min (t.totalBytes + incoming) usizeMax ≤ t.maxBytes
    · rw [if_pos hen]
      exact ⟨[], t, rfl, h, rfl, rfl, fun f => (if_neg not_mem_nil).symm, hen,
        fun j hj => absurd hj (Nat.not_lt_zero j)⟩
    · rw [if_neg hen]
      have hbytes := h.bytesOf_lru
      cases hlru : t.lru with
      | nil =>
        -- an empty table has room for whatever fits at all
        rw [hlru] at hbytes
        rw [← hbytes] at hen
        refine absurd ?_ hen
        exact (min_le_left _ _).trans ((Nat.zero_add incoming).trans_le hinc)
      | cons oldest later =>
        have hnd := h.nodup
        rw [hlru, nodup_cons] at hnd
        have heq := h.remove_eq oldest
        have hlat : (t.remove oldest).2.lru = later := by
          rw [heq]
          show t.lru.filter (fun g => decide (g ≠ oldest)) = later
          rw [hlru, filter_cons_of_neg (by simp)]
          exact filter_eq_self.mpr fun g hg =>
            decide_eq_true fun hgo => hnd.1 (hgo ▸ hg)
        have hmax : (t.remove oldest).2.maxBytes = t.maxBytes := by rw [heq]
        have hents : (t.remove oldest).2.entries = t.entries.erase oldest := by rw [heq]
        have hfst : (t.remove oldest).1 = true := by
          rw [h.remove_fst, hlru]
          exact decide_eq_true mem_cons_self
        have hfl' : (t.remove oldest).2.lru.length < fuel := by
          rw [hlru, length_cons] at hfuel
          rw [hlat]
          exact Nat.lt_of_succ_lt_succ hfuel
        obtain ⟨evicted, u, hlp, hu⟩ := ih (h.remove oldest) (hinc.trans_eq hmax.symm) hfl'
        refine ⟨oldest :: evicted, u, ?_, hu.accounts, hu.maxBytes_eq.trans hmax, ?_, fun f => ?_,
          hmax ▸ hu.enough, ?_⟩
        · dsimp only
          rw [hlp, Result.ok_bind, if_pos hfst]
          rfl
        · rw [hlru, ← hlat, hu.lru_eq]
          rfl
        · rw [hu.lookup_eq, hents, Table.lookup_erase]
          by_cases hf : f = oldest <;> simp [hf]
        · rintro (_ | j) hj
          · rw [drop_zero, hbytes]
            exact not_le.mp hen
          · have hndd := hu.needed j (Nat.lt_of_succ_lt_succ hj)
            rw [hmax, hlat, bytesOf_congr (t := t) fun f hf => ?_] at hndd
            · rwa [hlru, drop_succ_cons]
            · rw [hents]
              refine Table.lookup_erase_ne _ fun hfo => hnd.1 ?_
              exact hfo ▸ mem_of_mem_drop hf

/-! ## Insertion -/

/-- **What an insertion does**: of the other entries it drops the first ones,
as many as it takes for the new one to fit, and the new one is the last to be
dropped. -/
structure Admits (t : PrefixTable V) (key : PrefixKey) (value : V) (size : ℕ)
    (evicted : List PrefixFingerprint) (u : PrefixTable V) : Prop where
  maxBytes_eq : u.maxBytes = t.maxBytes
  dropped : evicted <+: t.lru.filter (· ≠ key.fingerprint)
  lru_eq : u.lru = (t.lru.filter (· ≠ key.fingerprint)).drop evicted.length ++ [key.fingerprint]
  /-- As few as possible are dropped. -/
  least : IsLeast {n | t.bytesOf ((t.lru.filter (· ≠ key.fingerprint)).drop n) + size ≤ t.maxBytes}
    evicted.length
  lookup_eq : ∀ f, u.entries.lookup f =
    if f = key.fingerprint then some { key := key, value := value, size := size }
    else if f ∈ evicted then none else t.entries.lookup f

/-- Whether the total cannot overflow: the budget is less than the largest
`usize`, or the sizes of the other entries and the new one can be added. -/
def Fits (t : PrefixTable V) (key : PrefixKey) (size : ℕ) : Prop :=
  t.maxBytes < usizeMax ∨ (t.remove key.fingerprint).2.totalBytes + size ≤ usizeMax

instance (t : PrefixTable V) (key : PrefixKey) (size : ℕ) : Decidable (t.Fits key size) :=
  inferInstanceAs (Decidable (_ ∨ _))

variable {key : PrefixKey} {size : ℕ}

/-- **An insertion that fits** makes room and brings in the entry. -/
theorem Accounts.insert_eq (h : t.Accounts) {tooLarge : ℕ → ℕ → String} (value : V)
    (hsiz : size ≤ t.maxBytes) (hfit : t.Fits key size) :
    ∃ evicted u, t.insertWithEvictions tooLarge key value size = .ok (evicted, u)
      ∧ u.Accounts ∧ Admits t key value size evicted u := by
  have hrem := h.remove_eq key.fingerprint
  have hoth := h.remove key.fingerprint
  have hmax : (t.remove key.fingerprint).2.maxBytes = t.maxBytes := by rw [hrem]
  have hlru : (t.remove key.fingerprint).2.lru = t.lru.filter (· ≠ key.fingerprint) := by
    rw [hrem]
  have hlkp : ∀ f, (t.remove key.fingerprint).2.entries.lookup f
      = if f = key.fingerprint then none else t.entries.lookup f := by
    rw [hrem]
    exact Table.lookup_erase _ _
  have hbytes : ∀ n, (t.remove key.fingerprint).2.bytesOf ((t.remove key.fingerprint).2.lru.drop n)
        = t.bytesOf ((t.lru.filter (· ≠ key.fingerprint)).drop n) := by
    intro n
    rw [hlru]
    refine bytesOf_congr fun f hf => ?_
    rw [hlkp, if_neg (of_decide_eq_true (mem_filter.mp (mem_of_mem_drop hf)).2)]
  obtain ⟨evicted, v, hev, hv⟩ :=
    evictLoop_eq hoth (hsiz.trans_eq hmax.symm) (Nat.lt_succ_self _)
  have hres : v.lru = (t.lru.filter (· ≠ key.fingerprint)).drop evicted.length := by
    rw [← hlru, hv.lru_eq, drop_left]
  have htot : t.bytesOf ((t.lru.filter (· ≠ key.fingerprint)).drop evicted.length)
      = v.totalBytes := by
    rw [← hres, ← hv.accounts.bytesOf_lru]
    refine (bytesOf_congr fun f hf => ?_).symm
    have hmem : f ∈ (t.lru.filter (· ≠ key.fingerprint)).drop evicted.length := hres ▸ hf
    have hnd := hoth.nodup
    rw [hv.lru_eq] at hnd
    rw [hv.lookup_eq, if_neg fun hevi => (disjoint_of_nodup_append hnd) hevi hf,
      hlkp, if_neg (of_decide_eq_true (mem_filter.mp (mem_of_mem_drop hmem)).2)]
  have hen := hv.enough
  rw [hmax] at hen
  -- the saturated sum tells what the sum itself is
  have hrm : v.totalBytes + size ≤ t.maxBytes := by
    rcases min_le_iff.mp hen with hsum | hful
    · exact hsum
    · have hnon : evicted = [] := by
        by_contra hne
        have hndd := hv.needed 0 (length_pos_iff.mpr hne)
        rw [hmax] at hndd
        exact absurd ((lt_min_iff.mp hndd).2.trans_le hful) (lt_irrefl _)
      have hall := hv.lru_eq
      rw [hnon, nil_append] at hall
      have hsam : v.totalBytes = (t.remove key.fingerprint).2.totalBytes := by
        rw [← htot, ← hoth.bytesOf_lru, ← hbytes, hnon, length_nil, drop_zero]
      rcases hfit with hles | hfit
      · exact absurd (hles.trans_le hful) (lt_irrefl _)
      · exact (hsam ▸ hfit).trans hful
  have hfr : key.fingerprint ∉ v.lru := by
    rw [hres]
    exact fun hmem => of_decide_eq_true (mem_filter.mp (mem_of_mem_drop hmem)).2 rfl
  have habs : v.entries.lookup key.fingerprint = none := hv.accounts.lookup_none hfr
  refine ⟨evicted, v.push key value size, ?_, ⟨?_, ?_, ?_, ?_, ?_⟩,
    ⟨hv.maxBytes_eq.trans hmax, ?_, ?_, ⟨?_, ?_⟩, ?_⟩⟩
  · rw [insertWithEvictions, if_neg (not_lt.mpr hsiz)]
    show (evictLoop size _ _ >>= _) = _
    rw [hev, Result.ok_bind, if_neg (not_lt.mpr (hrm.trans h.max_le))]
    rfl
  · show (v.lru ++ [key.fingerprint]).Perm (v.entries.insert key.fingerprint _).keys
    have hkey : (v.entries.insert key.fingerprint
        { key := key, value := value, size := size }).keys
          = key.fingerprint :: v.entries.keys.erase key.fingerprint :=
      keys_insert v.entries
    rw [hkey, erase_of_not_mem (hv.accounts.lru_perm.mem_iff.not.mp hfr)]
    exact (perm_append_singleton _ _).trans (hv.accounts.lru_perm.cons _)
  · have hsum := Table.sum_insert_add v.entries (fun _ e => e.size) key.fingerprint
      { key := key, value := value, size := size }
    rw [Table.weigh_of_absent habs, Nat.add_zero] at hsum
    show v.totalBytes + size = (v.entries.insert key.fingerprint _).sum _
    rw [hsum, hv.accounts.total_eq, Nat.add_comm]
  · show v.totalBytes + size ≤ v.maxBytes
    rwa [hv.maxBytes_eq, hmax]
  · intro f e he
    rw [show (v.push key value size).entries = v.entries.insert key.fingerprint
      { key := key, value := value, size := size } from rfl, Table.lookup_insert] at he
    split_ifs at he with hf
    · rw [← Option.some.inj he, hf]
    · exact hv.accounts.keyed f e he
  · exact hv.accounts.max_le
  · rw [← hlru, hv.lru_eq]
    exact prefix_append _ _
  · show v.lru ++ [key.fingerprint] = _
    rw [hres]
  · show t.bytesOf _ + size ≤ t.maxBytes
    rwa [htot]
  · intro n hn
    by_contra hles
    have hndd := hv.needed n (not_le.mp hles)
    rw [hmax, hbytes] at hndd
    exact absurd ((lt_min_iff.mp hndd).1.trans_le hn) (lt_irrefl _)
  · intro f
    show (v.entries.insert key.fingerprint _).lookup f = _
    rw [Table.lookup_insert, hv.lookup_eq, hlkp]
    split_ifs <;> rfl

/-- **The only insertion that does not return**: the total overflows. -/
theorem Accounts.insert_panics (h : t.Accounts) {tooLarge : ℕ → ℕ → String} (value : V)
    (hsiz : size ≤ t.maxBytes) (hfit : ¬ t.Fits key size) :
    t.insertWithEvictions tooLarge key value size = .error .panic := by
  obtain ⟨hmax, htot⟩ := not_or.mp hfit
  have hful : t.maxBytes = usizeMax := le_antisymm h.max_le (not_lt.mp hmax)
  have hkp : (t.remove key.fingerprint).2.maxBytes = usizeMax := by
    rwa [h.remove_eq]
  have hev : (t.remove key.fingerprint).2.evictFor size = .ok ([], (t.remove key.fingerprint).2) :=
    if_pos ((min_le_right _ _).trans_eq hkp.symm)
  rw [insertWithEvictions, if_neg (not_lt.mpr hsiz), hev, Result.ok_bind, if_pos (not_le.mp htot)]

/-- **The insertions of the two tables** are the same but for their messages. -/
theorem Accounts.ramInsert_eq {t : RamPrefixCache V} (h : t.Accounts) (value : V)
    (hsiz : size ≤ t.maxBytes) (hfit : Fits t key size) :
    ∃ evicted u, ramInsert t key value size = .ok u ∧ u.Accounts
      ∧ Admits t key value size evicted u := by
  obtain ⟨evicted, u, hins, hu⟩ := h.insert_eq value hsiz hfit
  refine ⟨evicted, u, ?_, hu⟩
  rw [ramInsert, hins]
  rfl

theorem Accounts.ramInsert_panics {t : RamPrefixCache V} (h : t.Accounts) (value : V)
    (hsiz : size ≤ t.maxBytes) (hfit : ¬ Fits t key size) :
    ramInsert t key value size = .error .panic := by
  rw [ramInsert, h.insert_panics value hsiz hfit]
  rfl

theorem ramInsert_of_large {t : RamPrefixCache V} (key : PrefixKey) (value : V)
    (hlrg : t.maxBytes < size) :
    ∃ message, ramInsert t key value size = .error (.error message) := by
  rw [ramInsert, insertWithEvictions, if_pos hlrg]
  exact ⟨_, rfl⟩

/-! ## Lookup -/

theorem longest_eq_none_iff {es : List (PrefixFingerprint × PrefixEntry V)} :
    longest es = none ↔ es = [] := by
  cases es with
  | nil => exact iff_of_true rfl rfl
  | cons e es =>
    refine iff_of_false (fun h => ?_) (cons_ne_nil _ _)
    rw [longest] at h
    cases hres : longest es with
    | none =>
      rw [hres] at h
      cases h
    | some =>
      rw [hres] at h
      dsimp only at h
      split_ifs at h

/-- What has been found is the longest. -/
theorem le_of_longest {es : List (PrefixFingerprint × PrefixEntry V)}
    {e : PrefixFingerprint × PrefixEntry V} (h : longest es = some e) :
    ∀ a ∈ es, a.2.key.prefixLen ≤ e.2.key.prefixLen := by
  induction es generalizing e with
  | nil => exact fun a ha => absurd ha not_mem_nil
  | cons b es ih =>
    intro a ha
    rw [longest] at h
    cases hres : longest es with
    | none =>
      rw [hres] at h
      rw [longest_eq_none_iff.mp hres, mem_singleton] at ha
      rw [ha, Option.some.inj h]
      exact UInt64.le_refl _
    | some =>
      rw [hres] at h
      dsimp only at h
      split_ifs at h with hle
      · rw [← Option.some.inj h]
        rcases mem_cons.mp ha with rfl | ha
        · exact hle
        · exact ih hres a ha
      · rw [← Option.some.inj h]
        rcases mem_cons.mp ha with rfl | ha
        · exact UInt64.le_refl _
        · exact UInt64.le_trans (ih hres a ha) (UInt64.le_of_lt (UInt64.not_le.mp hle))

/-- The entries that a lookup goes through. -/
theorem mem_sorted_iff {e : PrefixEntry V} : (f, e) ∈ t.sorted ↔ t.entries.lookup f = some e := by
  rw [sorted, mem_mergeSort, mem_map]
  constructor
  · rintro ⟨⟨g, e'⟩, hmem, heq⟩
    cases heq
    exact mem_lookup_iff.mpr hmem
  · exact fun h => ⟨⟨f, e⟩, mem_lookup_iff.mp h, rfl⟩

/-- **A lookup that finds something** finds the longest entry that is a prefix
of the query. -/
theorem le_of_lookup {query : PrefixKey} {e : PrefixEntry V}
    (h : (t.lookup query).1 = some (f, e)) {e' : PrefixEntry V}
    (he' : t.entries.lookup g = some e') (hst : e'.key.isPrefixOf query = true) :
    e'.key.prefixTokens.toList.length ≤ e.key.prefixTokens.toList.length := by
  unfold lookup at h
  cases hbes : longest (t.sorted.filter fun e => e.2.key.isPrefixOf query) with
  | none =>
    rw [hbes] at h
    cases h
  | some =>
    rw [hbes] at h
    cases h
    have hle := le_of_longest hbes (g, e') (mem_filter.mpr ⟨mem_sorted_iff.mpr he', hst⟩)
    rw [← e'.key.toNat_prefixLen, ← e.key.toNat_prefixLen]
    exact UInt64.le_iff_toNat_le.mp hle

/-- **A lookup that finds nothing**: no entry is a prefix of the query. -/
theorem lookup_eq_none_iff {query : PrefixKey} : (t.lookup query).1 = none
      ↔ ∀ f e, t.entries.lookup f = some e → e.key.isPrefixOf query = false := by
  have hlkp : (t.lookup query).1 = longest (t.sorted.filter fun e => e.2.key.isPrefixOf query) := by
    unfold lookup
    cases longest (t.sorted.filter fun e => e.2.key.isPrefixOf query) <;> rfl
  rw [hlkp, longest_eq_none_iff, filter_eq_nil_iff]
  constructor
  · exact fun h f e he => Bool.eq_false_iff.mpr (h (f, e) (mem_sorted_iff.mpr he))
  · exact fun h e he => Bool.eq_false_iff.mp (h e.1 e.2 (mem_sorted_iff.mp he))

theorem Accounts.touch (h : t.Accounts) (hf : f ∈ t.lru) : (t.touch f).Accounts := by
  refine ⟨List.Perm.trans ?_ h.lru_perm, h.total_eq, h.total_le, h.keyed, h.max_le⟩
  show (t.lru.filter (fun g => decide (g ≠ f)) ++ [f]).Perm t.lru
  rw [h.filter_lru]
  exact (perm_append_singleton _ _).trans (perm_cons_erase hf).symm

theorem lookup_snd (t : PrefixTable V) (query : PrefixKey) :
    (t.lookup query).2 = ((t.lookup query).1.elim t fun e => t.touch e.1) := by
  unfold lookup
  cases longest (t.sorted.filter fun e => e.2.key.isPrefixOf query) <;> rfl

theorem Accounts.lookup (h : t.Accounts) (query : PrefixKey) : (t.lookup query).2.Accounts := by
  rw [lookup_snd]
  cases hfnd : (t.lookup query).1 with
  | none => exact h
  | some e => exact h.touch (h.mem_lru_iff.mpr ⟨e.2, ((lookup_spec t query).2 _ _ hfnd).1⟩)

end PrefixTable

end Logan
