import Logan.Util.Machine
import Mathlib.Data.List.Count
import Mathlib.Data.List.Perm.Basic

/-!
# Recency lists

What a least-recently-used cache is for: a list of entries, most recently
used first, of a bounded length. A use moves an entry to the front, and a
new entry that finds the list full takes the place of the last one.

A cache may be **partitioned** in addition. Then every part has a quota, and
a new entry that finds the quota of its part used up takes the place of the
last entry *of that part*, wherever it stands. As long as there is room for
all the quotas, the parts are caches of their own
(`Lru.run_parted`, `Lru.insert_of_quota`).

The values are things that somebody owns. A value that is handed in is in
the list, or has been handed out again, and only once: by the insertion that
evicted it, by the request that took it, or by the insertion that replaced
it (`Lru.run_owned`).
-/

namespace Logan

open List
open Prod (fst snd)

/-- **A request** to a cache. -/
inductive CacheOp (K V : Type) where
  /-- Look an entry up, and use it. -/
  | get (key : K)
  /-- Look an entry up. -/
  | peek (key : K)
  /-- Use an entry. -/
  | promote (key : K)
  /-- Hand an entry out. -/
  | take (key : K)
  | insert (key : K) (value : V)
deriving DecidableEq

/-- **What a cache answers.** -/
inductive CacheAnswer (V : Type) where
  | found (value : Option V)
  | promoted (present : Bool)
  | taken (value : Option V)
  /-- The value that had to go, the value of the same key that was replaced,
  and the value that is there now. -/
  | inserted (evicted replaced : Option V) (value : V)
deriving DecidableEq

/-- The values that a request hands in. -/
def CacheOp.given {K V : Type} : CacheOp K V → List V
  | insert _ value => [value]
  | _ => []

/-- The key that a request is about. -/
def CacheOp.key {K V : Type} : CacheOp K V → K
  | get key => key
  | peek key => key
  | promote key => key
  | take key => key
  | insert key _ => key

namespace CacheAnswer

variable {V : Type}

/-- The value that an insertion evicted. -/
def evictions : CacheAnswer V → List V
  | inserted evicted _ _ => evicted.toList
  | _ => []

/-- The value that was taken. -/
def takings : CacheAnswer V → List V
  | taken value => value.toList
  | _ => []

/-- The value that an insertion replaced. -/
def replacements : CacheAnswer V → List V
  | inserted _ replaced _ => replaced.toList
  | _ => []

/-- The values that are handed out. -/
def handedOut (a : CacheAnswer V) : List V := a.evictions ++ (a.takings ++ a.replacements)

end CacheAnswer

/-- **A recency list.** -/
structure Lru (K V : Type) where
  /-- Most recently used first. -/
  entries : List (K × V)
  capacity : ℕ
  /-- How many entries a part may have, if the cache is partitioned. -/
  quota : Option ℕ
  /-- How often `get` found something, a new entry was inserted, and an old
  one had to go. -/
  hits : ℕ := 0
  misses : ℕ := 0
  evictions : ℕ := 0
deriving DecidableEq

namespace Lru

variable {K V P : Type} [DecidableEq K] [DecidableEq P]

/-- The value under a key. -/
def lookup (entries : List (K × V)) (key : K) : Option V :=
  (entries.find? (fun e => e.1 = key)).map snd

/-- The entries but for that of a key. -/
def without (entries : List (K × V)) (key : K) : List (K × V) :=
  entries.filter (fun e => e.1 ≠ key)

/-- The entry of a key, moved to the front. -/
def touch (entries : List (K × V)) (key : K) : List (K × V) :=
  match lookup entries key with
  | some value => (key, value) :: without entries key
  | none => entries

/-- The last entry of a part. -/
def lastOf (part : K → P) (entries : List (K × V)) (p : P) : Option (K × V) :=
  entries.reverse.find? (fun e => part e.1 = p)

/-- How many entries a part has. -/
def countOf (part : K → P) (entries : List (K × V)) (p : P) : ℕ :=
  entries.countP (fun e => part e.1 = p)

/-- **The entry that has to go** for a new one: the last one of its part if
the quota is used up, and otherwise the last one of all if the list is
full. -/
def victim (part : K → P) (l : Lru K V) (key : K) : Option (K × V) :=
  let own := l.quota.bind (fun quota =>
    if quota ≤ countOf part l.entries (part key) then lastOf part l.entries (part key) else none)
  own.or (if l.capacity ≤ l.entries.length then l.entries.getLast? else none)

/-- **A new value for a key**, in front, in the place of the old one or of
the entry that has to go. -/
def insert (part : K → P) (l : Lru K V) (key : K) (value : V) : CacheAnswer V × Lru K V :=
  match lookup l.entries key with
  | some old =>
    (.inserted none (some old) value, { l with entries := (key, value) :: without l.entries key })
  | none =>
    match l.victim part key with
    | some gone =>
      (.inserted (some gone.2) none value,
        { l with
          entries := (key, value) :: without l.entries gone.1
          misses := l.misses + 1
          evictions := l.evictions + 1 })
    | none =>
      (.inserted none none value,
        { l with entries := (key, value) :: l.entries, misses := l.misses + 1 })

/-- **The answer to a request, and the list after it.** -/
def step (part : K → P) (l : Lru K V) : CacheOp K V → CacheAnswer V × Lru K V
  | .get key =>
    (.found (lookup l.entries key),
      { l with
        entries := touch l.entries key
        hits := l.hits + (lookup l.entries key).toList.length })
  | .peek key => (.found (lookup l.entries key), l)
  | .promote key =>
    (.promoted (lookup l.entries key).isSome, { l with entries := touch l.entries key })
  | .take key =>
    (.taken (lookup l.entries key), { l with entries := without l.entries key })
  | .insert key value => l.insert part key value

/-- The recency list as a machine that reads requests. -/
def machine (part : K → P) : Machine (Lru K V) (CacheOp K V) (CacheAnswer V) :=
  ⟨fun l op => l.step part op⟩

/-- The answers to a list of requests. -/
def answers (part : K → P) (l : Lru K V) (ops : List (CacheOp K V)) : List (CacheAnswer V) :=
  (machine part).gather (fun l op => [(machine part).out l op]) l ops

/-! ## Entries of distinct keys -/

/-- No key has two entries. -/
def Distinct (entries : List (K × V)) : Prop := (entries.map fst).Nodup

variable {entries before after : List (K × V)} {key : K} {value : V} {e : K × V}

theorem split_of_lookup (h : lookup entries key = some value) :
    ∃ before after, entries = before ++ (key, value) :: after := by
  obtain ⟨e, hfin, rfl⟩ := Option.map_eq_some_iff.mp h
  obtain ⟨hkey, before, after, heq, -⟩ := List.find?_eq_some_iff_append.mp hfin
  exact ⟨before, after, by rw [heq, ← of_decide_eq_true hkey]⟩

theorem mem_of_lookup (h : lookup entries key = some value) : (key, value) ∈ entries := by
  obtain ⟨before, after, rfl⟩ := split_of_lookup h
  exact mem_append_right _ mem_cons_self

theorem lookup_eq_none_iff : lookup entries key = none ↔ key ∉ entries.map fst := by
  unfold lookup
  rw [Option.map_eq_none_iff, List.find?_eq_none, mem_map]
  constructor
  · rintro h ⟨e, he, rfl⟩
    exact h e he (decide_eq_true rfl)
  · intro h e he heq
    exact h ⟨e, he, of_decide_eq_true heq⟩

omit [DecidableEq K] in
theorem Distinct.split (h : Distinct (before ++ (key, value) :: after)) :
    key ∉ (before ++ after).map fst ∧ Distinct (before ++ after) := by
  have hper := (@perm_middle _ (key, value) before after).map fst
  exact nodup_cons.mp (hper.nodup_iff.mp h)

/-- **What is found** is the entry, wherever it is. -/
theorem lookup_split (h : Distinct (before ++ (key, value) :: after)) :
    lookup (before ++ (key, value) :: after) key = some value := by
  have hbef : before.find? (fun e => e.1 = key) = none := by
    refine List.find?_eq_none.mpr (fun e he heq => h.split.1 ?_)
    rw [← of_decide_eq_true heq]
    exact mem_map_of_mem (mem_append_left _ he)
  rw [lookup, List.find?_append, hbef, Option.none_or, List.find?_cons_of_pos]
  · rfl
  · exact decide_eq_true rfl

/-- **What is left** without an entry. -/
theorem without_split (h : Distinct (before ++ (key, value) :: after)) :
    without (before ++ (key, value) :: after) key = before ++ after := by
  have hkp : ∀ e ∈ before ++ after, decide (e.1 ≠ key) = true := by
    intro e he
    refine decide_eq_true (fun heq => h.split.1 ?_)
    rw [← heq]
    exact mem_map_of_mem he
  rw [without, filter_append, filter_cons_of_neg (by simp), ← filter_append]
  exact filter_eq_self.mpr hkp

theorem lookup_of_mem (h : Distinct entries) (he : (key, value) ∈ entries) :
    lookup entries key = some value := by
  obtain ⟨before, after, rfl⟩ := append_of_mem he
  exact lookup_split h

/-- **An entry and the others.** -/
theorem perm_of_mem (h : Distinct entries) (he : (key, value) ∈ entries) :
    entries.Perm ((key, value) :: without entries key) := by
  obtain ⟨before, after, rfl⟩ := append_of_mem he
  rw [without_split h]
  exact perm_middle

theorem not_mem_without (entries : List (K × V)) (key : K) :
    key ∉ (without entries key).map fst := by
  intro hmem
  obtain ⟨e, he, heq⟩ := mem_map.mp hmem
  exact of_decide_eq_true (mem_filter.mp he).2 heq

theorem without_of_none (h : lookup entries key = none) : without entries key = entries := by
  refine filter_eq_self.mpr (fun e he => decide_eq_true (fun heq => ?_))
  exact lookup_eq_none_iff.mp h (heq ▸ mem_map_of_mem he)

theorem Distinct.without (h : Distinct entries) (key : K) : Distinct (without entries key) :=
  h.sublist (filter_sublist.map _)

omit [DecidableEq K] in
theorem Distinct.cons (h : Distinct entries) (hkey : key ∉ entries.map fst) (value : V) :
    Distinct ((key, value) :: entries) :=
  nodup_cons.mpr ⟨hkey, h⟩

/-- **A use changes the order** and nothing else. -/
theorem touch_perm (h : Distinct entries) (key : K) : (touch entries key).Perm entries := by
  unfold touch
  cases hlkp : lookup entries key with
  | none => exact List.Perm.refl _
  | some => exact (perm_of_mem h (mem_of_lookup hlkp)).symm

theorem Distinct.touch (h : Distinct entries) (key : K) : Distinct (touch entries key) :=
  ((touch_perm h key).map fst).nodup_iff.mpr h

omit [DecidableEq K] in
theorem victim_mem {part : K → P} {l : Lru K V} (h : l.victim part key = some e) :
    e ∈ l.entries := by
  unfold victim at h
  dsimp only at h
  rcases Option.or_eq_some_iff.mp h with hown | ⟨-, hlas⟩
  · obtain ⟨quota, -, hown⟩ := Option.bind_eq_some_iff.mp hown
    split at hown
    · exact mem_reverse.mp (List.mem_of_find?_eq_some hown)
    · cases hown
  · split at hlas
    · exact mem_of_getLast? hlas
    · cases hlas

/-! ## What every step preserves -/

/-- No key has two entries, and there are no more than the capacity. -/
structure Bounded (l : Lru K V) : Prop where
  distinct : Distinct l.entries
  length_le : l.entries.length ≤ l.capacity
  capacity_pos : 0 < l.capacity

/-- The values in the list. -/
def values (l : Lru K V) : List V := l.entries.map snd

variable (part : K → P) {l : Lru K V}

theorem step_capacity (l : Lru K V) (op : CacheOp K V) :
    (l.step part op).2.capacity = l.capacity ∧ (l.step part op).2.quota = l.quota := by
  cases op with
  | insert key value =>
    show (l.insert part key value).2.capacity = _ ∧ (l.insert part key value).2.quota = _
    unfold insert
    cases lookup l.entries key with
    | some => exact ⟨rfl, rfl⟩
    | none => cases l.victim part key <;> exact ⟨rfl, rfl⟩
  | _ => exact ⟨rfl, rfl⟩

omit [DecidableEq K] in
/-- An entry goes if the list is full. -/
theorem length_lt_of_victim (h : l.Bounded) (hvic : l.victim part key = none) :
    l.entries.length < l.capacity := by
  unfold victim at hvic
  by_contra hful
  rw [if_pos (not_lt.mp hful)] at hvic
  have hemp := List.getLast?_eq_none_iff.mp (Option.or_eq_none_iff.mp hvic).2
  rw [hemp] at hful
  exact hful h.capacity_pos

theorem Bounded.step (h : l.Bounded) (op : CacheOp K V) : (l.step part op).2.Bounded := by
  have htch (key : K) : (touch l.entries key).length ≤ l.capacity :=
    (touch_perm h.distinct key).length_eq.trans_le h.length_le
  -- one entry less makes room for one more
  have hles {key : K} {value : V} (he : (key, value) ∈ l.entries) :
      (without l.entries key).length + 1 ≤ l.capacity :=
    (perm_of_mem h.distinct he).length_eq.symm.trans_le h.length_le
  cases op with
  | get key => exact ⟨h.distinct.touch key, htch key, h.capacity_pos⟩
  | peek => exact h
  | promote key => exact ⟨h.distinct.touch key, htch key, h.capacity_pos⟩
  | take key =>
    exact ⟨h.distinct.without key, (length_filter_le _ _).trans h.length_le, h.capacity_pos⟩
  | insert key value =>
    show (l.insert part key value).2.Bounded
    unfold insert
    cases hlkp : lookup l.entries key with
    | some =>
      exact ⟨(h.distinct.without key).cons (not_mem_without _ _) value,
        hles (mem_of_lookup hlkp), h.capacity_pos⟩
    | none =>
      have hkey := lookup_eq_none_iff.mp hlkp
      cases hvic : l.victim part key with
      | some gone =>
        refine ⟨(h.distinct.without gone.1).cons (fun hmem => hkey ?_) value,
          hles (victim_mem hvic), h.capacity_pos⟩
        exact (filter_sublist.map _).subset hmem
      | none => exact ⟨h.distinct.cons hkey value, length_lt_of_victim part h hvic, h.capacity_pos⟩

/-- **Values are moved**, not copied: what is there and what is handed out
is what was there and what is handed in. -/
theorem step_owned (h : Distinct l.entries) (op : CacheOp K V) : (op.given ++ l.values).Perm
      ((l.step part op).2.values ++ (l.step part op).1.handedOut) := by
  have hsam {entries : List (K × V)} (hper : entries.Perm l.entries) :
      l.values.Perm (entries.map snd ++ []) := by
    rw [List.append_nil]
    exact (hper.map snd).symm
  -- one value leaves the list
  have hout {key : K} {value : V} (he : (key, value) ∈ l.entries) :
      l.values.Perm ((without l.entries key).map snd ++ [value]) :=
    ((perm_of_mem h he).map snd).trans (perm_append_singleton _ _).symm
  cases op with
  | get key => exact hsam (touch_perm h key)
  | peek => exact hsam (List.Perm.refl _)
  | promote key => exact hsam (touch_perm h key)
  | take key =>
    show l.values.Perm ((without l.entries key).map snd ++ _)
    cases hlkp : lookup l.entries key with
    | some value =>
      have hans : (l.step part (.take key)).1.handedOut = [value] := by
        rw [step, hlkp]
        rfl
      rw [hans]
      exact hout (mem_of_lookup hlkp)
    | none =>
      have hans : (l.step part (.take key)).1.handedOut = [] := by
        rw [step, hlkp]
        rfl
      rw [hans, without_of_none hlkp]
      exact hsam (List.Perm.refl _)
  | insert key value =>
    show (value :: l.values).Perm
      ((l.insert part key value).2.values ++ (l.insert part key value).1.handedOut)
    unfold insert
    cases hlkp : lookup l.entries key with
    | some => exact (hout (mem_of_lookup hlkp)).cons value
    | none =>
      cases hvic : l.victim part key with
      | some => exact (hout (victim_mem hvic)).cons value
      | none => exact (hsam (List.Perm.refl _)).cons value

/-- What is there and what was taken is no more than what was there and what is
handed in. -/
theorem length_step_le (h : Distinct l.entries) (op : CacheOp K V) :
    (l.step part op).2.entries.length + (l.step part op).1.takings.length
      ≤ l.entries.length + op.given.length := by
  have hlen := (step_owned part h op).length_eq
  simp only [values, CacheAnswer.handedOut, length_append, length_map] at hlen
  omega

theorem takings_insert (key : K) (value : V) : (l.insert part key value).1.takings = [] := by
  unfold insert
  cases lookup l.entries key with
  | some => rfl
  | none => cases l.victim part key <;> rfl

/-! ## Every run -/

theorem run_capacity (l : Lru K V) (ops : List (CacheOp K V)) :
    ((machine part).run l ops).capacity = l.capacity
      ∧ ((machine part).run l ops).quota = l.quota := by
  induction ops generalizing l with
  | nil => exact ⟨rfl, rfl⟩
  | cons op ops ih =>
    obtain ⟨hcap, hqt⟩ := step_capacity part l op
    exact ⟨(ih _).1.trans hcap, (ih _).2.trans hqt⟩

/-- **Every value is in one place**: what was there and was handed in is in
the list, or has been handed out. -/
theorem run_owned (h : l.Bounded) (ops : List (CacheOp K V)) :
    (ops.flatMap CacheOp.given ++ l.values).Perm
      (((machine part).run l ops).values ++ (l.answers part ops).flatMap
        CacheAnswer.handedOut) := by
  induction ops generalizing l with
  | nil =>
    show l.values.Perm (l.values ++ [])
    rw [List.append_nil]
  | cons op ops ih =>
    have hst := Multiset.coe_eq_coe.mpr (step_owned part h.distinct op)
    have hres := Multiset.coe_eq_coe.mpr (ih (h.step part op))
    refine Multiset.coe_eq_coe.mp ?_
    show (↑((op.given ++ ops.flatMap CacheOp.given) ++ l.values) : Multiset V)
      = ↑(((machine part).run (l.step part op).2 ops).values ++ ((l.step part op).1.handedOut
          ++ ((l.step part op).2.answers part ops).flatMap CacheAnswer.handedOut))
    simp only [← Multiset.coe_add] at hst hres ⊢
    rw [add_right_comm, hst, add_right_comm, add_comm (Multiset.ofList _), hres]
    abel

/-! ## Quotas -/

variable {quota : ℕ}

omit [DecidableEq K] in
theorem countOf_perm {entries' : List (K × V)} (h : entries.Perm entries') (p : P) :
    countOf part entries p = countOf part entries' p :=
  h.countP_eq _

omit [DecidableEq K] in
theorem countOf_cons (e : K × V) (entries : List (K × V)) (p : P) : countOf part (e :: entries) p
      = countOf part entries p + if part e.1 = p then 1 else 0 := by
  rw [countOf, countP_cons]
  simp only [decide_eq_true_eq]
  rfl

theorem countOf_without (h : Distinct entries) (he : (key, value) ∈ entries) (p : P) :
    countOf part (without entries key) p + (if part key = p then 1 else 0)
      = countOf part entries p := by
  rw [countOf_perm part (perm_of_mem h he), countOf_cons]

/-- The other parts do not notice. -/
theorem filter_without {p : P} (h : part key ≠ p) (entries : List (K × V)) :
    (without entries key).filter (fun e => part e.1 = p)
      = entries.filter (fun e => part e.1 = p) := by
  rw [without, filter_filter]
  refine filter_congr (fun e _ => ?_)
  by_cases hp : part e.1 = p
  · have hne : e.1 ≠ key := fun heq => h (heq ▸ hp)
    simp [hp, hne]
  · simp [hp]

omit [DecidableEq K] in
/-- The entries are those of all the parts. -/
theorem length_eq_sum_countOf {parts : Finset P} (hpar : ∀ e ∈ entries, part e.1 ∈ parts) :
    entries.length = ∑ p ∈ parts, countOf part entries p := by
  induction entries with
  | nil => exact (Finset.sum_eq_zero (fun _ _ => rfl)).symm
  | cons e entries ih =>
    have hres := ih (fun e he => hpar e (mem_cons_of_mem _ he))
    have hone : ∑ p ∈ parts, (if part e.1 = p then 1 else 0) = 1 := by
      rw [Finset.sum_ite_eq, if_pos (hpar e mem_cons_self)]
    rw [length_cons, hres, ← hone, ← Finset.sum_add_distrib]
    exact Finset.sum_congr rfl (fun p _ => (countOf_cons part e entries p).symm)

omit [DecidableEq K] in
/-- A part that has entries has a last one. -/
theorem lastOf_of_countOf_pos {p : P} (h : 0 < countOf part entries p) :
    ∃ e ∈ entries, part e.1 = p ∧ lastOf part entries p = some e := by
  obtain ⟨e, he, hp⟩ := countP_pos_iff.mp h
  have hsom : (lastOf part entries p).isSome :=
    List.find?_isSome.mpr ⟨e, mem_reverse.mpr he, hp⟩
  obtain ⟨last, hlas⟩ := Option.isSome_iff_exists.mp hsom
  have hpar := List.find?_some (show entries.reverse.find? _ = some last from hlas)
  exact ⟨last, mem_reverse.mp (List.mem_of_find?_eq_some hlas), of_decide_eq_true hpar, hlas⟩

omit [DecidableEq K] in
/-- **Whose entry has to go**: that of the part whose quota is used up, and
nobody's as long as the list is not full. -/
theorem victim_of_quota (hqt : l.quota = some quota) (hpos : 0 < quota)
    (hrm : countOf part l.entries (part key) < quota → l.entries.length < l.capacity) :
    l.victim part key = if quota ≤ countOf part l.entries (part key)
      then lastOf part l.entries (part key) else none := by
  rw [victim, hqt, Option.bind_some]
  by_cases hful : quota ≤ countOf part l.entries (part key)
  · obtain ⟨e, -, -, hlas⟩ := lastOf_of_countOf_pos part (hpos.trans_le hful)
    rw [if_pos hful, hlas, Option.some_or]
  · rw [if_neg hful, if_neg (not_le.mpr (hrm (not_le.mp hful))), Option.none_or]

/-- Every part keeps to the quota. -/
structure Parted (l : Lru K V) (quota : ℕ) : Prop extends l.Bounded where
  quota_eq : l.quota = some quota
  quota_pos : 0 < quota
  countOf_le : ∀ p, countOf part l.entries p ≤ quota

variable {part}

theorem Parted.step (h : l.Parted part quota) (op : CacheOp K V) :
    (l.step part op).2.Parted part quota := by
  refine ⟨h.toBounded.step part op, (step_capacity part l op).2.trans h.quota_eq, h.quota_pos,
    fun p => ?_⟩
  have htch (key : K) : countOf part (touch l.entries key) p ≤ quota :=
    (countOf_perm part (touch_perm h.distinct key) p).trans_le (h.countOf_le p)
  have hwit (key : K) : countOf part (without l.entries key) p ≤ countOf part l.entries p :=
    filter_sublist.countP_le
  cases op with
  | get key => exact htch key
  | peek => exact h.countOf_le p
  | promote key => exact htch key
  | take key => exact (hwit key).trans (h.countOf_le p)
  | insert key value =>
    show countOf part (l.insert part key value).2.entries p ≤ quota
    unfold insert
    cases hlkp : lookup l.entries key with
    | some =>
      rw [countOf_cons, countOf_without part h.distinct (mem_of_lookup hlkp)]
      exact h.countOf_le p
    | none =>
      -- a part that is full gives up one of its own
      by_cases hful : quota ≤ countOf part l.entries (part key)
      · have hvic := victim_of_quota part h.quota_eq h.quota_pos
          (fun (hlt : countOf part l.entries (part key) < quota) =>
            absurd hful (not_le.mpr hlt))
        obtain ⟨gone, hgon, hpar, hlas⟩ :=
          lastOf_of_countOf_pos part (h.quota_pos.trans_le hful)
        rw [hvic, if_pos hful, hlas]
        rw [countOf_cons, ← hpar, countOf_without part h.distinct hgon]
        exact h.countOf_le p
      · have hles := not_le.mp hful
        have hone : countOf part l.entries p + (if part key = p then 1 else 0) ≤ quota := by
          split
          · next heq => exact heq ▸ hles
          · exact h.countOf_le p
        cases l.victim part key with
        | some gone =>
          rw [countOf_cons]
          exact (Nat.add_le_add_right (hwit gone.1) _).trans hone
        | none =>
          rwa [countOf_cons]

theorem run_parted (h : l.Parted part quota) (ops : List (CacheOp K V)) :
    ((machine part).run l ops).Parted part quota :=
  Machine.run_of_step (M := machine part) (P := fun l : Lru K V => l.Parted part quota)
    (fun _ op h => h.step op) h ops

/-- **A partitioned cache evicts within the part**, and only if it is full. -/
theorem insert_of_quota (h : l.Parted part quota) (value : V)
    (hrm : countOf part l.entries (part key) < quota → l.entries.length < l.capacity)
    (hnon : lookup l.entries key = none) :
    (quota ≤ countOf part l.entries (part key) ∧ ∃ gone ∈ l.entries, part gone.1 = part key
      ∧ lastOf part l.entries (part key) = some gone
      ∧ (l.insert part key value).1 = .inserted (some gone.2) none value
      ∧ (l.insert part key value).2.entries = (key, value) :: without l.entries gone.1)
    ∨ (countOf part l.entries (part key) < quota
      ∧ (l.insert part key value).1 = .inserted none none value
      ∧ (l.insert part key value).2.entries = (key, value) :: l.entries) := by
  have hvic := victim_of_quota part h.quota_eq h.quota_pos hrm
  by_cases hful : quota ≤ countOf part l.entries (part key)
  · obtain ⟨gone, hgon, hpar, hlas⟩ :=
      lastOf_of_countOf_pos part (h.quota_pos.trans_le hful)
    rw [if_pos hful, hlas] at hvic
    refine Or.inl ⟨hful, gone, hgon, hpar, hlas, ?_, ?_⟩
    · rw [insert, hnon, hvic]
    · rw [insert, hnon, hvic]
  · rw [if_neg hful] at hvic
    refine Or.inr ⟨not_le.mp hful, ?_, ?_⟩
    · rw [insert, hnon, hvic]
    · rw [insert, hnon, hvic]

/-- An entry was there, or is that of the request. -/
theorem mem_step (l : Lru K V) (op : CacheOp K V) {e : K × V}
    (he : e ∈ (l.step part op).2.entries) : e ∈ l.entries ∨ e.1 = op.key := by
  have hwit {key : K} (he : e ∈ without l.entries key) : e ∈ l.entries :=
    mem_of_mem_filter he
  have htch {key : K} (he : e ∈ touch l.entries key) : e ∈ l.entries ∨ e.1 = key := by
    unfold touch at he
    cases hlkp : lookup l.entries key with
    | none =>
      rw [hlkp] at he
      exact Or.inl he
    | some =>
      rw [hlkp] at he
      rcases mem_cons.mp he with rfl | he
      · exact Or.inr rfl
      · exact Or.inl (hwit he)
  cases op with
  | get | promote => exact htch he
  | peek => exact Or.inl he
  | take => exact Or.inl (hwit he)
  | insert key value =>
    change e ∈ (l.insert part key value).2.entries at he
    unfold insert at he
    cases hlkp : lookup l.entries key with
    | some =>
      rw [hlkp] at he
      rcases mem_cons.mp he with rfl | he
      · exact Or.inr rfl
      · exact Or.inl (hwit he)
    | none =>
      rw [hlkp] at he
      dsimp only at he
      cases hvic : l.victim part key with
      | some =>
        rw [hvic] at he
        rcases mem_cons.mp he with rfl | he
        · exact Or.inr rfl
        · exact Or.inl (hwit he)
      | none =>
        rw [hvic] at he
        rcases mem_cons.mp he with rfl | he
        · exact Or.inr rfl
        · exact Or.inl he

theorem mem_run (l : Lru K V) (ops : List (CacheOp K V)) {e : K × V}
    (he : e ∈ ((machine part).run l ops).entries) :
    e ∈ l.entries ∨ e.1 ∈ ops.map CacheOp.key := by
  induction ops generalizing l with
  | nil => exact Or.inl he
  | cons op ops ih =>
    rcases ih _ he with he | hkey
    · rcases mem_step l op he with he | hkey
      · exact Or.inl he
      · exact Or.inr (hkey ▸ mem_cons_self)
    · exact Or.inr (mem_cons_of_mem _ hkey)

/-- **Only requested keys have entries**, in a run from an empty list. -/
theorem key_mem_of_run (hemp : l.entries = []) (ops : List (CacheOp K V)) {e : K × V}
    (he : e ∈ ((machine part).run l ops).entries) : e.1 ∈ ops.map CacheOp.key := by
  rcases mem_run l ops he with he | hkey
  · rw [hemp] at he
    exact absurd he not_mem_nil
  · exact hkey

end Lru

end Logan
