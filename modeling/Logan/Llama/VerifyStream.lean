import Logan.Llama.Verify

/-!
# The stream of verified blocks

Blocks of drafts are verified one after the other, each with the next anchor of
the one before it, and what they emit is put together. It should be the greedy
continuation, without a gap. A block with a wrong draft emits the token that takes
its place, and this is the next anchor. A block that is accepted as a whole has a
next anchor, too, but does not emit it, and neither does the block after it: the
anchor of a block is its input. So the stream has no gap exactly when there is no
block with a draft behind a block that is accepted as a whole.
-/

namespace Logan

open List

namespace Llama

variable {f : List UInt32 → UInt32} {context start : List UInt32} {anchor : UInt32}

/-- The verification of a block by a next-token function, without an end-of-text token or a
cap. -/
def blockResult (f : List UInt32 → UInt32) (context : List UInt32) (anchor : UInt32)
    (drafts : List UInt32) : VerificationResult :=
  verifyGreedyWithOptions (predictionsFrom f (context ++ [anchor]) drafts) drafts .default

/-- The context of the next block: the rows that are retained are consumed. -/
def nextContext (context : List UInt32) (anchor : UInt32) (drafts : List UInt32)
    (result : VerificationResult) : List UInt32 :=
  context ++ (anchor :: drafts).take result.retainedRows

/-- **The results of successive blocks**, each with the next anchor of the one before it. -/
def verifyBlocks (f : List UInt32 → UInt32) :
    List UInt32 → UInt32 → List (Vec 4 UInt32) → List VerificationResult
  | _, _, [] => []
  | context, anchor, drafts :: blocks =>
    let result := blockResult f context anchor drafts.toList
    result :: match result.nextAnchor with
      | some next => verifyBlocks f (nextContext context anchor drafts.toList result) next blocks
      | none => []

/-- **What the blocks emit, with positions.** The first token that a block emits is the one after
its anchor; the anchor of the next block is as much further on as there are retained rows. -/
def streamed : ℕ → List VerificationResult → List (UInt32 × ℕ)
  | _, [] => []
  | position, result :: results =>
    result.emitted.zipIdx position ++ streamed (position + result.retainedRows) results

/-- **No draft behind a block that is accepted as a whole**: if all drafts of a block are right,
then all blocks after it are empty. -/
def AcceptedLast (f : List UInt32 → UInt32) :
    List UInt32 → UInt32 → List (Vec 4 UInt32) → Prop
  | _, _, [] => True
  | context, anchor, drafts :: blocks =>
    (Greedy f (context ++ [anchor]) drafts.toList → ∀ later ∈ blocks, later.toList = []) ∧
      let result := blockResult f context anchor drafts.toList
      match result.nextAnchor with
      | some next => AcceptedLast f (nextContext context anchor drafts.toList result) next blocks
      | none => True

/-- **A list with positions is the greedy continuation**, without a gap. -/
def Streams (f : List UInt32 → UInt32) (start : List UInt32) (l : List (UInt32 × ℕ)) : Prop :=
  l = (continuation f start l.length).zipIdx start.length

theorem le_of_mem_streamed {position : ℕ} {results : List VerificationResult} {p : UInt32 × ℕ}
    (h : p ∈ streamed position results) : position ≤ p.2 := by
  induction results generalizing position with
  | nil => exact absurd h not_mem_nil
  | cons result results ih =>
    rcases mem_append.mp h with h | h
    · exact le_snd_of_mem_zipIdx h
    · exact (Nat.le_add_right _ _).trans (ih h)

/-- **A stream is cut** at a greedy beginning. -/
theorem streams_append {l : List UInt32} (hl : Greedy f start l) {r : List (UInt32 × ℕ)} :
    Streams f start (l.zipIdx start.length ++ r) ↔ Streams f (start ++ l) r := by
  unfold Streams
  rw [length_append, length_zipIdx, continuation_add, ← greedy_iff.mp hl,
    zipIdx_append, append_cancel_left_eq, length_append]

theorem streams_of_late {l : List (UInt32 × ℕ)} (hlat : ∀ p ∈ l, start.length < p.2) :
    Streams f start l ↔ l = [] := by
  constructor
  · intro h
    cases l with
    | nil => rfl
    | cons p =>
      have hhd : p = (f start, start.length) := (List.cons.inj h).1
      have hlt := hlat p mem_cons_self
      rw [hhd] at hlt
      exact absurd hlt (lt_irrefl _)
  · rintro rfl
    rfl

/-- **What a block emits and where it leads**: with `accepted` its right drafts and `rest` the
others, the next anchor is the token after the accepted ones. -/
theorem blockResult_eq {accepted rest : List UInt32} (hgr : Greedy f (context ++ [anchor]) accepted)
    (hres : ∀ draft more, rest = draft :: more → f (context ++ [anchor] ++ accepted) ≠ draft)
    (hrm : (accepted ++ rest).length < usizeMax) :
    (blockResult f context anchor (accepted ++ rest)).nextAnchor
        = some (f (context ++ [anchor] ++ accepted)) ∧
      (blockResult f context anchor (accepted ++ rest)).retainedRows = accepted.length + 1 ∧
      (blockResult f context anchor (accepted ++ rest)).emitted
        = accepted ++ (if rest = [] then [] else [f (context ++ [anchor] ++ accepted)]) ∧
      nextContext context anchor (accepted ++ rest)
        (blockResult f context anchor (accepted ++ rest)) = context ++ [anchor] ++ accepted := by
  have heq : blockResult f context anchor (accepted ++ rest) = _ :=
    verifyGreedy_predictionsFrom hgr hres hrm
  have hret : (blockResult f context anchor (accepted ++ rest)).retainedRows
      = accepted.length + 1 := by rw [heq]
  refine ⟨by rw [heq], hret, by rw [heq], ?_⟩
  rw [nextContext, hret, take_succ_cons, take_left, append_assoc]
  rfl

/-- A block emits nothing only if it is empty. -/
theorem streamed_eq_nil (context : List UInt32) (anchor : UInt32) (blocks : List (Vec 4 UInt32))
    (position : ℕ) : streamed position (verifyBlocks f context anchor blocks) = [] ↔
      ∀ drafts ∈ blocks, drafts.toList = [] := by
  induction blocks generalizing context anchor position with
  | nil => exact iff_of_true rfl fun _ h => absurd h not_mem_nil
  | cons drafts blocks ih =>
    obtain ⟨accepted, rest, hspl, hgr, hres⟩ :=
      exists_accepted f (context ++ [anchor]) drafts.toList
    obtain ⟨hnex, -, hem, -⟩ :=
      blockResult_eq hgr hres (hspl ▸ length_lt_usizeMax drafts)
    rw [← hspl] at hnex hem
    rw [verifyBlocks, hnex, streamed, append_eq_nil_iff, ih, forall_mem_cons, hem,
      zipIdx_eq_nil_iff, hspl, append_eq_nil_iff, append_eq_nil_iff]
    refine and_congr_left' (and_congr_right fun _ => ?_)
    split_ifs with hnon
    · exact iff_of_true rfl hnon
    · exact iff_of_false id hnon

theorem acceptedLast_of_empty (context : List UInt32) (anchor : UInt32)
    {blocks : List (Vec 4 UInt32)} (h : ∀ drafts ∈ blocks, drafts.toList = []) :
    AcceptedLast f context anchor blocks := by
  induction blocks generalizing context anchor with
  | nil => trivial
  | cons drafts blocks ih =>
    have hlat := fun later hl => h later (mem_cons_of_mem _ hl)
    refine ⟨fun _ => hlat, ?_⟩
    dsimp only
    split
    · exact ih _ _ hlat
    · trivial

/-- **The stream of successive blocks is the greedy continuation, without a gap, exactly when no
draft comes behind a block that is accepted as a whole.** -/
theorem streams_iff_acceptedLast (f : List UInt32 → UInt32) (context : List UInt32)
    (anchor : UInt32) (blocks : List (Vec 4 UInt32)) : Streams f (context ++ [anchor])
        (streamed (context.length + 1) (verifyBlocks f context anchor blocks)) ↔
      AcceptedLast f context anchor blocks := by
  induction blocks generalizing context anchor with
  | nil => exact iff_of_true rfl trivial
  | cons drafts blocks ih =>
    obtain ⟨accepted, rest, hspl, hgr, hres⟩ :=
      exists_accepted f (context ++ [anchor]) drafts.toList
    obtain ⟨hnex, hret, hem, hcon⟩ :=
      blockResult_eq hgr hres (hspl ▸ length_lt_usizeMax drafts)
    rw [← hspl] at hnex hret hem hcon
    have hst : (context ++ [anchor]).length = context.length + 1 := length_append
    have hrun : verifyBlocks f context anchor (drafts :: blocks)
        = blockResult f context anchor drafts.toList :: verifyBlocks f
          (context ++ [anchor] ++ accepted) (f (context ++ [anchor] ++ accepted)) blocks := by
      rw [verifyBlocks, hnex, hcon]
    have hlas : AcceptedLast f context anchor (drafts :: blocks) ↔
        (Greedy f (context ++ [anchor]) drafts.toList → ∀ later ∈ blocks, later.toList = []) ∧
          AcceptedLast f (context ++ [anchor] ++ accepted) (f (context ++ [anchor] ++ accepted))
            blocks := by
      rw [AcceptedLast]
      dsimp only
      rw [hnex, hcon]
    rw [hrun, hlas, streamed, hret, hem, ← hst]
    by_cases hnon : rest = []
    · -- the next anchor is not emitted: whatever comes after it comes too late
      subst hnon
      rw [List.append_nil] at hspl
      rw [if_pos rfl, List.append_nil, streams_append hgr, streams_of_late, streamed_eq_nil,
        hspl, imp_iff_right hgr]
      · exact (and_iff_left_of_imp (acceptedLast_of_empty _ _)).symm
      · intro p hp
        rw [length_append]
        exact le_of_mem_streamed hp
    · -- the next anchor is emitted
      have hwr : ¬ Greedy f (context ++ [anchor]) drafts.toList := by
        rw [hspl, greedy_append]
        rintro ⟨-, hrig⟩
        obtain ⟨draft, more, rfl⟩ := exists_cons_of_ne_nil hnon
        exact hres draft more rfl hrig.1.symm
      have hnex' : Greedy f (context ++ [anchor])
          (accepted ++ [f (context ++ [anchor] ++ accepted)]) :=
        greedy_concat.mpr ⟨hgr, rfl⟩
      have hlen : (context ++ [anchor] ++ accepted).length + 1
          = (context ++ [anchor]).length + (accepted.length + 1) := by
        rw [length_append, Nat.add_assoc]
      rw [if_neg hnon, streams_append hnex', ← append_assoc, ← ih, hlen]
      exact (and_iff_right fun hrig => absurd hrig hwr).symm

/-- A next-token function that counts. -/
def counting (l : List UInt32) : UInt32 := UInt32.ofNat l.length

/-- Two blocks of one right draft each. -/
def rightBlocks : List (Vec 4 UInt32) := [⟨[1], by decide⟩, ⟨[3], by decide⟩]

theorem emitted_rightBlocks :
    (verifyBlocks counting [] 0 rightBlocks).flatMap VerificationResult.emitted = [1, 3] ∧
      continuation counting [0] 2 = [1, 2] := by
  decide

/-- **Not every stream of blocks is the beginning of the greedy continuation.** -/
theorem not_forall_emitted_prefix :
    ¬ ∀ (f : List UInt32 → UInt32) (context : List UInt32) (anchor : UInt32)
      (blocks : List (Vec 4 UInt32)), ∃ n,
        (verifyBlocks f context anchor blocks).flatMap VerificationResult.emitted
          <+: continuation f (context ++ [anchor]) n := by
  intro h
  obtain ⟨n, hn⟩ := h counting [] 0 rightBlocks
  rw [emitted_rightBlocks.1] at hn
  obtain ⟨k, rfl⟩ := Nat.exists_eq_add_of_le (hn.length_le.trans_eq (length_continuation _ _ n))
  rw [nil_append, length_cons, length_singleton, continuation_add, emitted_rightBlocks.2] at hn
  exact absurd ((prefix_append_right_inj [1]).mp hn) (by simp)

end Llama

end Logan
