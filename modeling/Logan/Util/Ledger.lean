import Logan.Util.Machine
import Logan.Util.Table

/-!
# Ledgers of single-use tokens

A **token** is handed out once and used up once: it is issued to an owner,
it is then *live*, and it ends either consumed by whoever presents it or
revoked by whoever issued it. A `Ledger` says where every token stands, and
a `Posting` is one of the three moves. `Ledger.post` refuses the moves that
break the rule – issuing a token again, consuming or revoking one that is
not live – so a list of postings a blank ledger accepts is a history in
which the rule was kept throughout.

`Ledger.explains_about` is what that buys: the postings about one token are
the issue alone, or the issue and one retirement, or nothing, and where the
token stands says which. Counting, `Ledger.retired_at_most_once`.

A system that hands out tokens refines the ledger when each of its steps
posts a list the ledger accepts, the two staying related
(`Machine.gather_replays`). The exactly-once law then holds of every run of
the system, whatever it does besides. The usual way to keep a ledger is a
table of the live tokens and a counter of those issued (`Ledger.Kept`).
-/

namespace Logan

open Function Option

/-- **Where a token stands.** -/
inductive Standing (O : Type) where
  | unissued
  | live (owner : O)
  | consumed
  | revoked

/-- **One move of a token.** -/
inductive Posting (T O : Type) where
  | issue (token : T) (owner : O)
  | consume (token : T)
  | revoke (token : T)
deriving DecidableEq

/-- The token a posting is about. -/
def Posting.token {T O : Type} : Posting T O → T
  | .issue t _ => t
  | .consume t => t
  | .revoke t => t

/-- Where each token stands. -/
abbrev Ledger (T O : Type) : Type := T → Standing O

namespace Ledger

variable {T O : Type} [DecidableEq T]

/-- No token has been issued. -/
def blank : Ledger T O := fun _ => .unissued

/-- **Post one move**, if the token's standing allows it. -/
def post (l : Ledger T O) (p : Posting T O) : Option (Ledger T O) :=
  match p, l p.token with
  | .issue t o, .unissued => some (update l t (.live o))
  | .consume t, .live _ => some (update l t .consumed)
  | .revoke t, .live _ => some (update l t .revoked)
  | _, _ => none

/-- Post a list of moves, all of which have to be allowed. -/
def postAll (l : Ledger T O) : List (Posting T O) → Option (Ledger T O)
  | [] => some l
  | p :: ps => (l.post p).bind (fun l' => postAll l' ps)

theorem postAll_append (l : Ledger T O) (ps qs : List (Posting T O)) :
    l.postAll (ps ++ qs) = (l.postAll ps).bind (fun l' => l'.postAll qs) := by
  induction ps generalizing l with
  | nil => rfl
  | cons p ps ih =>
    show (l.post p).bind (fun l' => l'.postAll (ps ++ qs)) = _
    simp only [ih]
    exact (bind_assoc _ _ _).symm

theorem postAll_singleton (l : Ledger T O) (p : Posting T O) : l.postAll [p] = l.post p := by
  show (l.post p).bind (fun l' => some l') = l.post p
  cases l.post p <;> rfl

theorem post_issue {l : Ledger T O} {t : T} (h : l t = .unissued) (o : O) :
    l.post (.issue t o) = some (update l t (.live o)) := by
  simp only [post, Posting.token, h]

theorem post_consume {l : Ledger T O} {t : T} {o : O} (h : l t = .live o) :
    l.post (.consume t) = some (update l t .consumed) := by
  simp only [post, Posting.token, h]

theorem post_revoke {l : Ledger T O} {t : T} {o : O} (h : l t = .live o) :
    l.post (.revoke t) = some (update l t .revoked) := by
  simp only [post, Posting.token, h]

/-- A posting leaves the other tokens where they stand. -/
theorem post_frame {l l' : Ledger T O} {p : Posting T O} {t : T}
    (h : l.post p = some l') (hp : p.token ≠ t) : l' t = l t := by
  cases p with
  | issue u =>
    cases hs : l u <;> simp only [post, Posting.token, hs, reduceCtorEq] at h
    obtain rfl := some.inj h
    exact update_of_ne (fun he => hp he.symm) _ _
  | consume u =>
    cases hs : l u <;> simp only [post, Posting.token, hs, reduceCtorEq] at h
    obtain rfl := some.inj h
    exact update_of_ne (fun he => hp he.symm) _ _
  | revoke u =>
    cases hs : l u <;> simp only [post, Posting.token, hs, reduceCtorEq] at h
    cases h
    exact update_of_ne (fun he => hp he.symm) _ _

/-- Revoking distinct live tokens, in any order, revokes exactly them. -/
theorem postAll_revoke {l : Ledger T O} {ts : List T} (hnd : ts.Nodup)
    (hliv : ∀ t ∈ ts, ∃ o, l t = .live o) :
    l.postAll (ts.map .revoke) = some (fun t => if t ∈ ts then .revoked else l t) := by
  induction ts generalizing l with
  | nil => simp [postAll]
  | cons t ts ih =>
    obtain ⟨hnot, hnd⟩ := List.nodup_cons.mp hnd
    obtain ⟨o, ho⟩ := hliv t List.mem_cons_self
    have hres : ∀ u ∈ ts, ∃ o, update l t .revoked u = .live o := by
      intro u hu
      obtain ⟨o', ho'⟩ := hliv u (List.mem_cons_of_mem _ hu)
      refine ⟨o', ?_⟩
      rw [update_of_ne (fun he : u = t => hnot (he ▸ hu)), ho']
    show (l.post (.revoke t)).bind (fun l' => l'.postAll (ts.map .revoke)) = _
    rw [post_revoke ho, bind_some, ih hnd hres]
    refine congrArg some (funext (fun u => ?_))
    by_cases hu : u = t
    · subst hu
      simp [hnot]
    · simp [hu]

/-! ## The history of one token -/

/-- The postings about one token. -/
def about (t : T) (ps : List (Posting T O)) : List (Posting T O) :=
  ps.filter (fun p => p.token = t)

theorem about_append (t : T) (ps qs : List (Posting T O)) :
    about t (ps ++ qs) = about t ps ++ about t qs :=
  List.filter_append ..

theorem about_singleton (t : T) (p : Posting T O) :
    about t [p] = if p.token = t then [p] else [] := by
  unfold about
  by_cases h : p.token = t <;> simp [h]

/-- The postings about a token that bring it where it stands. -/
def Explains (t : T) (ps : List (Posting T O)) : Standing O → Prop
  | .unissued => ps = []
  | .live o => ps = [.issue t o]
  | .consumed => ∃ o, ps = [.issue t o, .consume t]
  | .revoked => ∃ o, ps = [.issue t o, .revoke t]

/-- **Where a token stands tells its whole history.** -/
theorem explains_about {ps : List (Posting T O)} {l : Ledger T O}
    (h : blank.postAll ps = some l) (t : T) : Explains t (about t ps) (l t) := by
  induction ps using List.reverseRecOn generalizing l with
  | nil =>
    obtain rfl := some.inj h
    rfl
  | append_singleton ps p ih =>
    rw [postAll_append] at h
    obtain ⟨l₁, h₁, h₂⟩ := bind_eq_some_iff.mp h
    rw [postAll_singleton] at h₂
    have hold := ih h₁
    rw [about_append, about_singleton]
    by_cases hp : p.token = t
    · -- the posting is about `t`: it was allowed, so `t` stood where it says
      rw [if_pos hp]
      cases p with
      | issue u =>
        obtain rfl : u = t := hp
        cases hs : l₁ u <;> simp only [post, Posting.token, hs, reduceCtorEq] at h₂
        obtain rfl := some.inj h₂
        rw [hs] at hold
        rw [show about u ps = [] from hold, update_self]
        rfl
      | consume u =>
        obtain rfl : u = t := hp
        cases hs : l₁ u <;> simp only [post, Posting.token, hs, reduceCtorEq] at h₂
        obtain rfl := some.inj h₂
        rw [hs] at hold
        rw [show about u ps = [.issue u _] from hold, update_self]
        exact ⟨_, rfl⟩
      | revoke u =>
        obtain rfl : u = t := hp
        cases hs : l₁ u <;> simp only [post, Posting.token, hs, reduceCtorEq] at h₂
        obtain rfl := some.inj h₂
        rw [hs] at hold
        rw [show about u ps = [.issue u _] from hold, update_self]
        exact ⟨_, rfl⟩
    · -- the posting is about another token, and leaves `t` where it was
      rw [if_neg hp, List.append_nil]
      rwa [post_frame h₂ hp]

section Counting

variable [DecidableEq O] {ps : List (Posting T O)} {l : Ledger T O}

theorem count_about (ps : List (Posting T O)) (p : Posting T O) :
    (about p.token ps).count p = ps.count p :=
  List.count_filter (by simp)

/-- **A token is retired at most once**: consumed once, or revoked once, or
neither, and never both. -/
theorem retired_at_most_once (h : blank.postAll ps = some l) (t : T) :
    ps.count (.consume t) + ps.count (.revoke t) ≤ 1 := by
  rw [← count_about ps (.consume t), ← count_about ps (.revoke t)]
  show (about t ps).count _ + (about t ps).count _ ≤ 1
  have hexp := explains_about h t
  cases hs : l t with
  | unissued =>
    rw [hs] at hexp
    rw [show about t ps = [] from hexp]
    simp
  | live o =>
    rw [hs] at hexp
    rw [show about t ps = [.issue t o] from hexp]
    simp
  | consumed =>
    rw [hs] at hexp
    obtain ⟨o, ho⟩ := hexp
    rw [ho]
    simp
  | revoked =>
    rw [hs] at hexp
    obtain ⟨o, ho⟩ := hexp
    rw [ho]
    simp

omit [DecidableEq O] in
theorem mem_about (ps : List (Posting T O)) (p : Posting T O) : p ∈ about p.token ps ↔ p ∈ ps := by
  simp [about]

omit [DecidableEq O] in
/-- **A token is live exactly when it was issued and not retired.** -/
theorem live_iff (h : blank.postAll ps = some l) (t : T) (o : O) : l t = .live o
      ↔ .issue t o ∈ ps ∧ .consume t ∉ ps ∧ .revoke t ∉ ps := by
  rw [← mem_about ps (.issue t o), ← mem_about ps (.consume t), ← mem_about ps (.revoke t)]
  show _ ↔ _ ∈ about t ps ∧ _ ∉ about t ps ∧ _ ∉ about t ps
  have hexp := explains_about h t
  cases hs : l t with
  | unissued =>
    rw [hs] at hexp
    rw [show about t ps = [] from hexp]
    simp
  | live o' =>
    rw [hs] at hexp
    rw [show about t ps = [.issue t o'] from hexp]
    simp only [Standing.live.injEq, List.mem_singleton, Posting.issue.injEq, true_and,
      reduceCtorEq, not_false_eq_true, and_true]
    exact eq_comm
  | consumed =>
    rw [hs] at hexp
    obtain ⟨o', ho⟩ := hexp
    rw [ho]
    simp
  | revoked =>
    rw [hs] at hexp
    obtain ⟨o', ho⟩ := hexp
    rw [ho]
    simp

omit [DecidableEq O] in
/-- A token that was retired had been issued. -/
theorem issued_of_retired (h : blank.postAll ps = some l) {t : T}
    (hr : .consume t ∈ ps ∨ .revoke t ∈ ps) : ∃ o, .issue t o ∈ ps := by
  have hr' : .consume t ∈ about t ps ∨ .revoke t ∈ about t ps :=
    hr.imp (mem_about ps (.consume t)).mpr (mem_about ps (.revoke t)).mpr
  have hexp := explains_about h t
  cases hs : l t with
  | unissued =>
    rw [hs] at hexp
    rw [show about t ps = [] from hexp] at hr'
    simp at hr'
  | live o =>
    rw [hs] at hexp
    rw [show about t ps = [.issue t o] from hexp] at hr'
    simp at hr'
  | consumed =>
    rw [hs] at hexp
    obtain ⟨o, ho⟩ := hexp
    exact ⟨o, (mem_about ps (.issue t o)).mp (show _ ∈ about t ps by rw [ho]; simp)⟩
  | revoked =>
    rw [hs] at hexp
    obtain ⟨o, ho⟩ := hexp
    exact ⟨o, (mem_about ps (.issue t o)).mp (show _ ∈ about t ps by rw [ho]; simp)⟩

end Counting

/-! ## Ledgers kept in a table -/

section Kept

variable {stamp : T → ℕ} {l : Ledger T O} {table : Table T O} {next : ℕ}

/-- **The ledger is kept as a table of its live tokens**, with a counter
above the stamps of all tokens issued. -/
structure Kept (stamp : T → ℕ) (l : Ledger T O) (table : Table T O) (next : ℕ) : Prop where
  live : ∀ t o, table.lookup t = some o ↔ l t = .live o
  unissued : ∀ t, next ≤ stamp t → l t = .unissued

theorem kept_blank (stamp : T → ℕ) : Kept stamp (blank : Ledger T O) ∅ 0 where
  live _ _ := by simp [blank]
  unissued _ _ := rfl

section

variable (h : Kept stamp l table next)

include h

theorem Kept.stamp_lt {t : T} {o : O} (ht : table.lookup t = some o) : stamp t < next := by
  by_contra hle
  have hun := h.unissued t (Nat.not_lt.mp hle)
  rw [(h.live t o).mp ht] at hun
  cases hun

/-- **Issuing the next token** is entering it. -/
theorem Kept.issue {t : T} (ht : stamp t = next) (o : O) :
    ∃ l', l.post (.issue t o) = some l' ∧ Kept stamp l' (table.insert t o) (next + 1) := by
  refine ⟨_, post_issue (h.unissued t ht.ge) o, ?_, ?_⟩
  · intro u o'
    rw [Table.lookup_insert]
    by_cases hu : u = t
    · rw [if_pos hu, hu, update_self]
      simp
    · rw [if_neg hu, update_of_ne hu]
      exact h.live u o'
  · intro u hu
    have hne : u ≠ t := fun he => by
      rw [he, ht] at hu
      exact absurd hu (Nat.not_succ_le_self _)
    rw [update_of_ne hne]
    exact h.unissued u (Nat.le_of_succ_le hu)

/-- **Consuming a live token** is striking it out. -/
theorem Kept.consume {t : T} {o : O} (ht : table.lookup t = some o) :
    ∃ l', l.post (.consume t) = some l' ∧ Kept stamp l' (table.erase t) next := by
  refine ⟨_, post_consume ((h.live t o).mp ht), ?_, ?_⟩
  · intro u o'
    rw [Table.lookup_erase]
    by_cases hu : u = t
    · rw [if_pos hu, hu, update_self]
      simp
    · rw [if_neg hu, update_of_ne hu]
      exact h.live u o'
  · intro u hu
    have hne : u ≠ t := fun he => by
      rw [he] at hu
      exact absurd (h.stamp_lt ht) (Nat.not_lt.mpr hu)
    rw [update_of_ne hne]
    exact h.unissued u hu

/-- **The table lists the tokens that were issued and not retired.** -/
theorem Kept.lookup_iff {ps : List (Posting T O)}
    (hps : blank.postAll ps = some l) (t : T) (o : O) :
    table.lookup t = some o ↔ .issue t o ∈ ps ∧ .consume t ∉ ps ∧ .revoke t ∉ ps := by
  rw [h.live, live_iff hps]

/-- Whatever was issued was stamped below the counter. -/
theorem Kept.stamp_lt_of_issue {ps : List (Posting T O)}
    (hps : blank.postAll ps = some l) {t : T} {o : O} (hi : .issue t o ∈ ps) :
    stamp t < next := by
  by_contra hle
  have hexp := explains_about hps t
  rw [h.unissued t (Nat.not_lt.mp hle)] at hexp
  have hnil : about t ps = [] := hexp
  have hmem : .issue t o ∈ about t ps := (mem_about ps (.issue t o)).mpr hi
  rw [hnil] at hmem
  exact absurd hmem List.not_mem_nil

end

end Kept

end Ledger

/-! ## Systems that keep a ledger -/

/-- **A machine whose steps post what the ledger accepts keeps the ledger
through its runs.** `R` relates the ledger to the machine's state. -/
theorem Machine.gather_replays {S I A T O : Type} [DecidableEq T]
    {M : Machine S I A} {C : S → I → Prop} {f : S → I → List (Posting T O)}
    (R : Ledger T O → S → Prop) (hst : ∀ l s i, R l s → C s i →
      ∃ l', l.postAll (f s i) = some l' ∧ R l' (M.next s i))
    {l : Ledger T O} {s : S} (h : R l s) {is : List I} (hC : M.Along C s is) :
    ∃ l', l.postAll (M.gather f s is) = some l' ∧ R l' (M.run s is) := by
  induction is generalizing l s with
  | nil => exact ⟨l, rfl, h⟩
  | cons i is ih =>
    obtain ⟨l₁, h₁, hR₁⟩ := hst l s i h hC.1
    obtain ⟨l₂, h₂, hR₂⟩ := ih hR₁ hC.2
    refine ⟨l₂, ?_, hR₂⟩
    show l.postAll (f s i ++ _) = _
    rwa [Ledger.postAll_append, h₁]

end Logan
