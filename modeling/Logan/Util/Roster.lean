import Mathlib.Data.List.AList
import Mathlib.Data.List.MinMax
import Mathlib.Data.List.Sort
import Mathlib.Tactic

/-!
# Rosters

People join and leave, any number of times and in any order; a **roster**
lists who is in, without duplicates. Joining while in changes nothing, and
whoever joins goes to the end.

The roster is computed one event at a time. `Attends` says what it is in
terms of the events alone: a member is someone with a join that no leave
follows, and the members stand in the order of their *arrivals*, the first
join since the last leave. `attends_roster` proves that the one is the other.
-/

namespace Logan

open List

/-- **Someone joins or leaves.** -/
inductive Attendance (A : Type) where
  | join (who : A)
  | leave (who : A)
deriving DecidableEq

namespace Attendance

variable {A : Type} [DecidableEq A]

/-- The list of those who are in, after one more event. -/
def attend (l : List A) : Attendance A → List A
  | .join a => if a ∈ l then l else l ++ [a]
  | .leave a => l.filter (fun b => b ≠ a)

theorem attend_join (l : List A) (a : A) : attend l (.join a) = if a ∈ l then l else l ++ [a] := rfl

/-- **Those who are in after a history**, the last to arrive at the end. -/
def roster (events : List (Attendance A)) : List A := events.foldl attend []

theorem roster_append_singleton (events : List (Attendance A)) (e : Attendance A) :
    roster (events ++ [e]) = attend (roster events) e :=
  foldl_concat _ _ _ _

/-! ## What a roster is -/

/-- Someone is in by a join that no leave follows. -/
def InSince (events : List (Attendance A)) (a : A) (n : ℕ) : Prop :=
  events[n]? = some (.join a) ∧ ∀ k, n < k → events[k]? ≠ some (.leave a)

/-- **Someone's arrival**: the first of the joins that no leave follows. -/
def Arrives (events : List (Attendance A)) (a : A) (n : ℕ) : Prop :=
  InSince events a n ∧ ∀ k, k < n → ¬ InSince events a k

/-- **A list of those in attendance**, in the order they arrived. -/
structure Attends (events : List (Attendance A)) (members : List A) : Prop where
  nodup : members.Nodup
  mem_iff : ∀ a, a ∈ members ↔ ∃ n, InSince events a n
  ordered : members.Pairwise (fun a b => ∀ i j, Arrives events a i → Arrives events b j → i < j)

/-! ## One more event -/

section Append

variable {events : List (Attendance A)} {e : Attendance A} {a : A} {n : ℕ}

omit [DecidableEq A] in
theorem InSince.lt_length (h : InSince events a n) : n < events.length :=
  (List.getElem?_eq_some_iff.mp h.1).1

omit [DecidableEq A] in
/-- **The joins that count after one more event**: those that counted, unless
it is a leave, and the event itself, if it is a join. -/
theorem inSince_append : InSince (events ++ [e]) a n
      ↔ (InSince events a n ∧ e ≠ .leave a) ∨ (n = events.length ∧ e = .join a) := by
  have hlas : (events ++ [e])[events.length]? = some e := List.getElem?_concat_length
  have hold : ∀ k, k < events.length → (events ++ [e])[k]? = events[k]? :=
    fun k hk => List.getElem?_append_left hk
  have hnon : ∀ k, events.length < k → (events ++ [e])[k]? = none := by
    intro k hk
    refine List.getElem?_eq_none ?_
    rw [length_append, length_singleton]
    omega
  constructor
  · rintro ⟨hn, hno⟩
    rcases Nat.lt_trichotomy n events.length with hlt | rfl | hgt
    · refine Or.inl ⟨⟨(hold n hlt).symm.trans hn, fun k hk hlv => ?_⟩, fun hlv => ?_⟩
      · obtain ⟨hkl, -⟩ := List.getElem?_eq_some_iff.mp hlv
        exact hno k hk ((hold k hkl).trans hlv)
      · exact hno events.length hlt (hlas.trans (congrArg some hlv))
    · exact Or.inr ⟨rfl, Option.some.inj (hlas.symm.trans hn)⟩
    · exact absurd ((hnon n hgt).symm.trans hn) (by simp)
  · rintro (⟨⟨hn, hno⟩, hne⟩ | ⟨rfl, rfl⟩)
    · obtain ⟨hlt, -⟩ := List.getElem?_eq_some_iff.mp hn
      refine ⟨(hold n hlt).trans hn, fun k hk hlv => ?_⟩
      rcases Nat.lt_trichotomy k events.length with hkl | rfl | hkl
      · exact hno k hk ((hold k hkl).symm.trans hlv)
      · exact hne (Option.some.inj (hlas.symm.trans hlv))
      · exact absurd ((hnon k hkl).symm.trans hlv) (by simp)
    · refine ⟨hlas, fun k hk hlv => ?_⟩
      exact absurd ((hnon k hk).symm.trans hlv) (by simp)

omit [DecidableEq A] in
theorem Arrives.of_append (h : Arrives (events ++ [e]) a n) (hin : ∃ k, InSince events a k) :
    Arrives events a n := by
  rcases inSince_append.mp h.1 with ⟨hn, hne⟩ | ⟨rfl, rfl⟩
  · exact ⟨hn, fun k hk hk' => h.2 k hk (inSince_append.mpr (Or.inl ⟨hk', hne⟩))⟩
  · obtain ⟨k, hk⟩ := hin
    exact absurd (inSince_append.mpr (Or.inl ⟨hk, by simp⟩)) (h.2 k hk.lt_length)

end Append

/-! ## The roster lists those in attendance -/

theorem mem_roster_iff (events : List (Attendance A)) (a : A) :
    a ∈ roster events ↔ ∃ n, InSince events a n := by
  induction events using List.reverseRecOn with
  | nil => simp [roster, InSince]
  | append_singleton events e ih =>
    rw [roster_append_singleton]
    cases e with
    | join b =>
      have hatt : a ∈ attend (roster events) (.join b) ↔ a ∈ roster events ∨ a = b := by
        rw [attend_join]
        by_cases hb : b ∈ roster events
        · rw [if_pos hb]
          exact ⟨Or.inl, fun h => h.elim id (fun hab => hab ▸ hb)⟩
        · rw [if_neg hb, mem_append, mem_singleton]
      rw [hatt, ih]
      constructor
      · rintro (⟨n, hn⟩ | rfl)
        · exact ⟨n, inSince_append.mpr (Or.inl ⟨hn, by simp⟩)⟩
        · exact ⟨events.length, inSince_append.mpr (Or.inr ⟨rfl, rfl⟩)⟩
      · rintro ⟨n, hn⟩
        rcases inSince_append.mp hn with ⟨hn, -⟩ | ⟨-, hab⟩
        · exact Or.inl ⟨n, hn⟩
        · exact Or.inr (Attendance.join.inj hab).symm
    | leave b =>
      show a ∈ (roster events).filter (fun c => c ≠ b) ↔ _
      rw [mem_filter, ih, decide_eq_true_iff]
      constructor
      · rintro ⟨⟨n, hn⟩, hne⟩
        exact ⟨n, inSince_append.mpr (Or.inl ⟨hn, fun h => hne (Attendance.leave.inj h).symm⟩)⟩
      · rintro ⟨n, hn⟩
        rcases inSince_append.mp hn with ⟨hn, hne⟩ | ⟨-, hab⟩
        · exact ⟨⟨n, hn⟩, fun hab => hne (congrArg Attendance.leave hab.symm)⟩
        · cases hab

/-- **The roster lists those in attendance.** -/
theorem attends_roster (events : List (Attendance A)) : Attends events (roster events) := by
  induction events using List.reverseRecOn with
  | nil => exact ⟨nodup_nil, mem_roster_iff [], List.Pairwise.nil⟩
  | append_singleton events e ih =>
    have hmem := mem_roster_iff (events ++ [e])
    rw [roster_append_singleton] at hmem ⊢
    -- whoever was in before is still ordered as before
    have hord : (roster events).Pairwise (fun a b =>
        ∀ i j, Arrives (events ++ [e]) a i → Arrives (events ++ [e]) b j → i < j) := by
      refine ih.ordered.imp_of_mem (fun ha hb hab i j hi hj => ?_)
      exact hab i j (hi.of_append ((ih.mem_iff _).mp ha)) (hj.of_append ((ih.mem_iff _).mp hb))
    refine ⟨?_, hmem, ?_⟩
    · cases e with
      | join b =>
        rw [attend_join]
        by_cases hb : b ∈ roster events
        · rw [if_pos hb]
          exact ih.nodup
        · rw [if_neg hb]
          refine nodup_append.mpr ⟨ih.nodup, nodup_singleton b, ?_⟩
          rintro a ha c hc rfl
          exact hb (mem_singleton.mp hc ▸ ha)
      | leave => exact ih.nodup.filter _
    · cases e with
      | join b =>
        rw [attend_join]
        by_cases hb : b ∈ roster events
        · rwa [if_pos hb]
        · rw [if_neg hb]
          refine pairwise_append.mpr ⟨hord, pairwise_singleton _ _, ?_⟩
          intro a ha c hc i j hi hj
          rw [mem_singleton.mp hc] at hj
          have hlt : i < events.length :=
            (hi.of_append ((ih.mem_iff a).mp ha)).1.lt_length
          rcases inSince_append.mp hj.1 with ⟨hj, -⟩ | ⟨hj, -⟩
          · exact absurd ((ih.mem_iff b).mpr ⟨j, hj⟩) hb
          · omega
      | leave => exact hord.filter _

end Attendance

end Logan
