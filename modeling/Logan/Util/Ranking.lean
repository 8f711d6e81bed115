import Logan.Util.Search
import Logan.Util.Bytes
import Logan.Util.Memory
import Mathlib.Data.List.MinMax

/-!
# Least keys, and ranks

Of a list, the index of an element with the least key is found; and in order to
weigh several dimensions against each other, every element is given its
**rank** in each: the number of elements that are strictly better, so that equal
ones share a rank. The code sorts the elements and counts on the way; a balanced
element is one whose largest rank is least, and then the sum of its ranks.
-/

namespace Logan

open List
open Prod (fst snd)

/-! ## Keys -/

/-- The key by which texts are ordered: their bytes. -/
def textKey (s : String) : List ℕ := (utf8 s).map UInt8.toNat

theorem head_le_of_le {m n : ℕ} {k l : List ℕ} (h : m :: k ≤ n :: l) : m ≤ n := by
  by_contra hlt
  exact absurd h (not_le.mpr (List.Lex.rel (not_le.mp hlt)))

/-- Of keys in order, beginnings of one length are in order. -/
theorem append_le_append {k l s t : List ℕ} (hlen : k.length = l.length)
    (h : k ++ s ≤ l ++ t) : k ≤ l := by
  by_contra hlt
  refine absurd h (not_le.mpr ?_)
  have hlex : List.Lex (· < ·) l k := not_le.mp hlt
  clear h hlt
  show List.Lex (· < ·) (l ++ t) (k ++ s)
  induction hlex with
  | nil => cases hlen
  | rel h => exact List.Lex.rel h
  | cons _ ih => exact List.Lex.cons (ih (Nat.succ.inj hlen))

section Best

variable {A K : Type} [LinearOrder K]

/-- `min_by_key` over the indices of a list, or zero. -/
def indexOfLeast (key : A × ℕ → K) (l : List A) : ℕ :=
  ((l.zipIdx.argmin key).map snd).getD 0

/-- **`best_index`**: of the elements with the least key, the first. -/
def bestIndex (key : A → K) (l : List A) : ℕ := indexOfLeast (fun p => key p.1) l

/-- What is found has the least key. -/
theorem exists_indexOfLeast {key : A × ℕ → K} (key' : A → K) {l : List A}
    (hl : l ≠ []) (hkey : ∀ p ∈ l.zipIdx, key p = key' p.1) :
    ∃ a, l[indexOfLeast key l]? = some a ∧ ∀ b ∈ l, key' a ≤ key' b := by
  unfold indexOfLeast
  cases harg : l.zipIdx.argmin key with
  | none =>
    have hnil : l.zipIdx = [] := argmin_eq_none.mp harg
    exact absurd (zipIdx_eq_nil_iff.mp hnil) hl
  | some p =>
    have hp : p ∈ l.zipIdx := argmin_mem harg
    refine ⟨p.1, mem_zipIdx_iff_getElem?.mp hp, fun b hb => ?_⟩
    obtain ⟨i, hi⟩ := List.getElem?_of_mem hb
    have hb' : (b, i) ∈ l.zipIdx := mk_mem_zipIdx_iff_getElem?.mpr hi
    rw [← hkey p hp, show key' b = key (b, i) from (hkey (b, i) hb').symm]
    exact le_of_mem_argmin hb' (Option.mem_def.mpr harg)

theorem exists_bestIndex (key : A → K) {l : List A} (hl : l ≠ []) :
    ∃ a, l[bestIndex key l]? = some a ∧ ∀ b ∈ l, key a ≤ key b :=
  exists_indexOfLeast key hl fun _ _ => rfl

end Best

/-! ## Ranks -/

section Ranks

variable {A : Type}

/-- A number, or what is left of it to the largest one, if larger is better. -/
def ordinal (reverse : Bool) (n : ℕ) : ℕ := if reverse then u64Max - n else n

/-- The loop of `ranks`, over the elements in order: whoever has the value of
the one before has its rank, and otherwise the rank is the position. -/
def tiedRanks (value : A → ℕ) : List (A × ℕ) → ℕ → Option ℕ → ℕ → List ℕ → List ℕ
  | [], _, _, _, ranks => ranks
  | p :: order, position, previous, tiedRank, ranks =>
    let tiedRank := if previous.any (· != value p.1) then position else tiedRank
    tiedRanks value order (position + 1) (some (value p.1)) tiedRank (ranks.set p.2 tiedRank)

/-- **`ranks`**: for each index, the rank of the element there. -/
def ranks (id : A → String) (value : A → ℕ) (reverse : Bool) (l : List A) : List ℕ :=
  tiedRanks value
    (sortBy (fun p => ordinal reverse (value p.1) :: textKey (id p.1)) l.zipIdx) 0 none 0
    (List.replicate l.length 0)

/-- **The rank of an element** is the number of those that are strictly better. -/
def rankAmong (m : A → ℕ) (l : List A) (a : A) : ℕ := l.countP fun b => m b < m a

/-- One more element in order: its rank is that of the one before, if there is
one with the same measure, and else its position. -/
theorem rank_of_next {m : A → ℕ} {done rest : List A} {a : A}
    (hsor : (done ++ a :: rest).Pairwise fun b c => m b ≤ m c)
    (hlas : ∀ b, done.getLast? = some b → m b ≠ m a) :
    rankAmong m (done ++ a :: rest) a = done.length := by
  obtain ⟨hdon, hres, hcr⟩ := pairwise_append.mp hsor
  have hbef : done.countP (fun b => m b < m a) = done.length := by
    refine countP_eq_length.mpr fun b hb => decide_eq_true ?_
    -- everything is at most the last one, which is less
    obtain ⟨before, last, rfl⟩ : ∃ before last, done = before ++ [last] :=
      ⟨_, _, (dropLast_append_getLast (ne_nil_of_mem hb)).symm⟩
    have hlt : m last < m a :=
      lt_of_le_of_ne (hcr last (by simp) a mem_cons_self) (hlas last (by simp))
    rcases mem_append.mp hb with hb | hb
    · exact ((pairwise_append.mp hdon).2.2 b hb last (by simp)).trans_lt hlt
    · rwa [mem_singleton.mp hb]
  have hbeh : (a :: rest).countP (fun b => m b < m a) = 0 := by
    refine countP_eq_zero.mpr fun b hb => ?_
    rw [decide_eq_true_eq, Nat.not_lt]
    rcases mem_cons.mp hb with rfl | hb
    · exact le_rfl
    · exact rel_of_pairwise_cons hres hb
  rw [rankAmong, countP_append, hbef, hbeh, Nat.add_zero]

/-- The loop gives every element its rank. -/
theorem tiedRanks_spec {m value : A → ℕ} {done rest : List (A × ℕ)} {previous : Option ℕ}
    {tied : ℕ} {ranks : List ℕ}
    (hsor : (done ++ rest).Pairwise fun p q => m p.1 ≤ m q.1)
    (hsam : ∀ p ∈ done ++ rest, ∀ q ∈ done ++ rest, m p.1 = m q.1 ↔ value p.1 = value q.1)
    (hpl : ((done ++ rest).map snd).Nodup) (hbnd : ∀ p ∈ done ++ rest, p.2 < ranks.length)
    (hpr : previous = done.getLast?.map fun p => value p.1) (hzer : done = [] → tied = 0)
    (htd : ∀ p, done.getLast? = some p → tied = rankAmong m ((done ++ rest).map fst) p.1)
    (hdon : ∀ p ∈ done, ranks[p.2]? = some (rankAmong m ((done ++ rest).map fst) p.1)) :
    ∀ p ∈ done ++ rest, (tiedRanks value rest done.length previous tied ranks)[p.2]?
      = some (rankAmong m ((done ++ rest).map fst) p.1) := by
  induction rest generalizing done previous tied ranks with
  | nil =>
    intro p hp
    rw [tiedRanks, hdon p (by simpa using hp)]
  | cons p rest ih =>
    have hcon : done ++ p :: rest = done ++ [p] ++ rest := by
      rw [append_assoc]
      rfl
    have hmem : p ∈ done ++ p :: rest := by simp
    -- the rank of the next one
    have hran : (if previous.any (· != value p.1) then done.length else tied)
        = rankAmong m ((done ++ p :: rest).map fst) p.1 := by
      have hnex : (∀ q, done.getLast? = some q → m q.1 ≠ m p.1) →
          rankAmong m ((done ++ p :: rest).map fst) p.1 = done.length := by
        intro hlas
        have hlen : (done.map fst).length = done.length := length_map _
        rw [List.map_append, map_cons, ← hlen]
        refine rank_of_next ?_ fun b hb => ?_
        · have hmap := pairwise_map (f := fst) (R := fun b c => m b ≤ m c)
            (l := done ++ p :: rest)
          rw [List.map_append, map_cons] at hmap
          exact hmap.mpr hsor
        · rw [List.getLast?_map] at hb
          obtain ⟨q, hq, rfl⟩ := Option.map_eq_some_iff.mp hb
          exact hlas q hq
      cases hlas : done.getLast? with
      | none =>
        have hnil := List.getLast?_eq_none_iff.mp hlas
        rw [hpr, hlas, hnex (by rw [hlas]; rintro _ ⟨⟩), hzer hnil, hnil]
        rfl
      | some q =>
        have hq : q ∈ done ++ p :: rest := mem_append_left _ (mem_of_getLast? hlas)
        rw [hpr, hlas]
        by_cases heq : value q.1 = value p.1
        · have hm : m q.1 = m p.1 := (hsam q hq p hmem).mpr heq
          rw [if_neg (by simpa using heq), htd q hlas]
          unfold rankAmong
          rw [hm]
        · rw [if_pos (by simpa using heq), hnex]
          rw [hlas]
          rintro _ ⟨⟩ hm
          exact heq ((hsam q hq p hmem).mp hm)
    rw [tiedRanks, hran, show done.length + 1 = (done ++ [p]).length by simp, hcon]
    rw [hcon] at hsor hsam hpl hbnd hdon hran
    refine ih hsor hsam hpl ?_ ?_ ?_ ?_ ?_
    · intro q hq
      rw [length_set]
      exact hbnd q hq
    · rw [List.getLast?_append_of_ne_nil _ (by simp)]
      rfl
    · intro h
      simp at h
    · intro q hq
      rw [List.getLast?_append_of_ne_nil _ (by simp)] at hq
      obtain rfl := Option.some.inj hq
      rfl
    · intro q hq
      rcases mem_append.mp hq with hq | hq
      · -- the places are different
        have hne : p.2 ≠ q.2 := by
          rw [List.map_append, List.map_append] at hpl
          have hnd := (nodup_append.mp hpl).1
          intro heq
          exact (nodup_append.mp hnd).2.2 q.2 (mem_map_of_mem hq) p.2 (by simp) heq.symm
        rw [List.getElem?_set_ne hne]
        exact hdon q hq
      · obtain rfl := mem_singleton.mp hq
        exact List.getElem?_set_self (hbnd q (by simp))

/-- Whether the order of the ordinals tells numbers apart. -/
def Graded (value : A → ℕ) (reverse : Bool) (l : List A) : Prop :=
  reverse = true → ∀ a ∈ l, value a ≤ u64Max

theorem ordinal_inj {value : A → ℕ} {reverse : Bool} {l : List A} (h : Graded value reverse l)
    {a b : A} (ha : a ∈ l) (hb : b ∈ l) :
    ordinal reverse (value a) = ordinal reverse (value b) ↔ value a = value b := by
  unfold ordinal
  cases reverse with
  | false => exact Iff.rfl
  | true =>
    have hale := h rfl a ha
    have hble := h rfl b hb
    rw [if_pos rfl, if_pos rfl]
    omega

/-- **What `ranks` computes**: the number of elements that are strictly
better. -/
theorem ranks_eq {id : A → String} {value : A → ℕ} {reverse : Bool} {l : List A}
    (hgr : Graded value reverse l) {i : ℕ} {a : A} (hi : l[i]? = some a) :
    (ranks id value reverse l)[i]? = some (rankAmong (fun b => ordinal reverse (value b)) l a) := by
  have hper : (sortBy (fun p : A × ℕ => ordinal reverse (value p.1) :: textKey (id p.1))
      l.zipIdx).Perm l.zipIdx := perm_insertionSort _ _
  have hmem : (a, i) ∈ sortBy (fun p : A × ℕ => ordinal reverse (value p.1) :: textKey (id p.1))
      l.zipIdx := mem_sortBy.mpr (mk_mem_zipIdx_iff_getElem?.mpr hi)
  have hsp := @tiedRanks_spec A (fun b => ordinal reverse (value b)) value []
    (sortBy (fun p : A × ℕ => ordinal reverse (value p.1) :: textKey (id p.1)) l.zipIdx) none 0
    (List.replicate l.length 0) ?_ ?_ ?_ ?_ rfl (fun _ => rfl) (by rintro _ ⟨⟩)
    (by rintro _ ⟨⟩) (a, i) hmem
  · rw [nil_append] at hsp
    refine hsp.trans (congrArg some ?_)
    have hfst : ((sortBy (fun p : A × ℕ => ordinal reverse (value p.1) :: textKey (id p.1))
        l.zipIdx).map fst).Perm l := by
      have hmap := hper.map fst
      rwa [zipIdx_map_fst] at hmap
    exact hfst.countP_eq _
  · refine List.Pairwise.imp ?_ pairwise_sortBy
    intro p q hle
    rw [keyLe_iff] at hle
    exact head_le_of_le hle
  · intro p hp q hq
    exact ordinal_inj hgr (fst_mem_of_mem_zipIdx (hper.mem_iff.mp hp))
      (fst_mem_of_mem_zipIdx (hper.mem_iff.mp hq))
  · refine (hper.map snd).nodup_iff.mpr ?_
    rw [zipIdx_map_snd]
    exact nodup_range'
  · intro p hp
    rw [length_replicate]
    exact (List.getElem?_eq_some_iff.mp (mem_zipIdx_iff_getElem?.mp (hper.mem_iff.mp hp))).1

/-- The largest of some ranks, and then their sum. -/
def balance (dimensions : List ℕ) : List ℕ := [dimensions.max?.getD 0, dimensions.sum]

/-- **`balanced_index`**, for some dimensions: each is a number, and whether more
of it is better. -/
def balancedIndex (id : A → String) (dims : List ((A → ℕ) × Bool)) (l : List A) : ℕ :=
  indexOfLeast (fun p =>
    balance ((dims.map fun d => ranks id d.1 d.2 l).map fun r => r.getD p.2 0) ++
      textKey (id p.1)) l

/-- **What balance means**: the largest rank among the plans, and then the sum of
the ranks. -/
def balancedKey (dims : List ((A → ℕ) × Bool)) (l : List A) (a : A) : List ℕ :=
  balance (dims.map fun d => rankAmong (fun b => ordinal d.2 (d.1 b)) l a)

theorem exists_balancedIndex {id : A → String} {dims : List ((A → ℕ) × Bool)} {l : List A}
    (hl : l ≠ []) (hgr : ∀ d ∈ dims, Graded d.1 d.2 l) :
    ∃ a, l[balancedIndex id dims l]? = some a ∧ ∀ b ∈ l,
      balancedKey dims l a ++ textKey (id a) ≤ balancedKey dims l b ++ textKey (id b) := by
  refine exists_indexOfLeast (fun a => balancedKey dims l a ++ textKey (id a)) hl
    fun p hp => ?_
  have hi := mem_zipIdx_iff_getElem?.mp hp
  show _ = balancedKey dims l p.1 ++ textKey (id p.1)
  rw [map_map]
  refine congrArg (fun r => balance r ++ textKey (id p.1)) (map_congr_left fun d hd => ?_)
  show (ranks id d.1 d.2 l).getD p.2 0 = _
  rw [getD_eq_getElem?_getD, ranks_eq (hgr d hd) hi]
  rfl

/-- **Balance depends on what the dimensions see**, and not on the order of the
elements. -/
theorem balancedKey_perm {view : A → A} {dims : List ((A → ℕ) × Bool)}
    (hdim : ∀ d ∈ dims, ∀ a, d.1 (view a) = d.1 a) {l l' : List A}
    (hper : (l'.map view).Perm (l.map view)) : balancedKey dims l' = balancedKey dims l := by
  funext a
  refine congrArg balance (map_congr_left fun d hd => ?_)
  -- the elements are counted by what is seen of them
  have hcount (l : List A) : rankAmong (fun b => ordinal d.2 (d.1 b)) l a
      = rankAmong (fun b => ordinal d.2 (d.1 b)) (l.map view) a := by
    unfold rankAmong
    rw [countP_map]
    refine countP_congr fun b _ => ?_
    show _ ↔ decide (ordinal d.2 (d.1 (view b)) < ordinal d.2 (d.1 a)) = true
    rw [hdim d hd b]
  rw [hcount l', hcount l]
  exact hper.countP_eq _

end Ranks

end Logan
