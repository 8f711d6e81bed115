import Logan.Llama.Verify

/-!
# Sessions that speculate

A session has a target, which it runs on blocks of tokens, and a drafter, of which
it keeps the tokens that its attention has seen. The target is taken by what the
session uses of it: it has a list of committed tokens, running it on more tokens
appends them and tells the logits after each of them, and going back to a
checkpoint cuts the list.

A block is verified by running the target on the anchor and the drafts, going
back, and running it on what is retained. So the anchor is the one token that has
been handed out but not been committed – but for the anchor of a prefill, which is
the last token of the prompt, and has been committed with it. The next block
commits it once more (`decode_prefill`), and everything after it is what the target
says to a prompt with its last token doubled.
-/

namespace Logan

open List

namespace Llama

/-! ## The state -/

/-- The tokens that the target has consumed, of which the oldest are forgotten. -/
structure TargetHistory where
  tokens : List UInt32
  capacity : ℕ
deriving DecidableEq

/-- `TargetHistory::commit` -/
def TargetHistory.commit (history : TargetHistory) (tokens : List UInt32) : TargetHistory :=
  let tokens := history.tokens ++ tokens
  if history.capacity ≠ 0 ∧ tokens.length > history.capacity then
    { history with tokens := tokens.drop (tokens.length - history.capacity) }
  else { history with tokens }

/-- What the attention of the drafter has seen. -/
structure DraftAttentionState where
  width : ℕ
  maskToken : UInt32
  committed : List UInt32
  provisional : List UInt32
deriving DecidableEq

/-- `DraftAttentionState::commit_input_rows` -/
def DraftAttentionState.commitInputRows (draft : DraftAttentionState) (rows : List UInt32) :
    DraftAttentionState :=
  let committed := draft.committed ++ rows
  { draft with
    committed := committed.drop (committed.length - draft.width)
    provisional := [] }

/-- `DraftAttentionState::rollback` -/
def DraftAttentionState.rollback (draft : DraftAttentionState) : DraftAttentionState :=
  { draft with provisional := [] }

/-- **A target**: the logits after a list of tokens, and how two logits are compared. -/
structure Target (F : Type) where
  logits : List UInt32 → List F
  greater : F → F → Bool

/-- The next token of a target. -/
def Target.next {F : Type} (target : Target F) (tokens : List UInt32) : UInt32 :=
  UInt32.ofNat (bestIndex target.greater (target.logits tokens))

/-- `DsparkSession` -/
structure DsparkSession where
  /-- The tokens that the target has committed. -/
  target : List UInt32
  targetHistory : TargetHistory
  draft : DraftAttentionState
  anchor : Option UInt32
  cancelled : Bool
  blockWidth : ℕ
deriving DecidableEq

variable {F : Type}

/-- The rows that the target has for more tokens: the logits after each of them. -/
def forwardRows (target : Target F) : List UInt32 → List UInt32 → List (List F)
  | _, [] => []
  | committed, token :: tokens =>
    target.logits (committed ++ [token]) :: forwardRows target (committed ++ [token]) tokens

namespace DsparkSession

/-- `DsparkSession::from_target` -/
def fromTarget (blockWidth : ℕ) (maskTokenId : UInt32) : DsparkSession where
  target := []
  targetHistory := ⟨[], 4096⟩
  draft := ⟨blockWidth + 1, maskTokenId, [], []⟩
  anchor := none
  cancelled := false
  blockWidth

/-- `prefill`: the final token becomes the caller's anchor. -/
def prefill (session : DsparkSession) (tokens : List UInt32) : DsparkSession :=
  if tokens = [] then session
  else
    { session with
      target := session.target ++ tokens
      targetHistory := session.targetHistory.commit tokens
      draft := session.draft.commitInputRows tokens
      anchor := tokens.getLast? }

/-- `verify_block`: the full block of the anchor and the drafts is evaluated first; rejected rows
are then discarded by going back and replaying only what is retained. -/
def verifyBlock (target : Target F) (session : DsparkSession) (anchor : UInt32)
    (drafts : List UInt32) (options : VerificationOptions) :
    Except String VerificationResult × DsparkSession :=
  if drafts.length > session.blockWidth then
    (.error (toString drafts.length ++ " drafts exceed block width "
      ++ toString session.blockWidth), session)
  else if session.cancelled ∨ options.control = .cancel then
    (.ok (verifyGreedyWithOptions [] drafts options),
      { session with draft := session.draft.rollback })
  else
    let checkpoint := session.target.length
    let input := anchor :: drafts
    let evaluated := session.target ++ input
    let result := verifyGreedyLogits target.greater (forwardRows target session.target input)
      drafts options
    let restored := evaluated.take checkpoint
    if result.error.isSome ∨ result.cancelled then
      (.ok result, { session with target := restored, draft := session.draft.rollback })
    else
      let retained := input.take result.retainedRows
      (.ok result,
        { session with
          target := restored ++ retained
          targetHistory := session.targetHistory.commit retained
          draft := session.draft.commitInputRows retained
          anchor := result.nextAnchor
          cancelled := false })

/-- **Blocks are verified one after the other**, each with the anchor of the session, without an
end-of-text token or a cap. What has been verified are the accepted drafts and the next anchor of
each block. -/
def decode (target : Target F) (session : DsparkSession) :
    List (Vec 4 UInt32) → DsparkSession × List UInt32
  | [] => (session, [])
  | drafts :: blocks =>
    match session.anchor with
    | none => (session, [])
    | some anchor =>
      match verifyBlock target session anchor drafts.toList .default with
      | (.error _, session) => decode target session blocks
      | (.ok result, session) =>
        let rest := decode target session blocks
        (rest.1, drafts.toList.take result.acceptedDrafts ++ result.nextAnchor.toList ++ rest.2)

/-- **What is asked of a session**: the tokens of the prompt and of its ordinary greedy continuation
are committed, in order and once each, up to one of them; this is the anchor, which is not committed
yet. -/
def DecodesGreedily (target : Target F) (prompt : List UInt32) (session : DsparkSession) : Prop :=
  ∃ anchor continuation, session.anchor = some anchor ∧ Greedy target.next prompt continuation ∧
    session.target ++ [anchor] <+: prompt ++ continuation

end DsparkSession

/-! ## The rows of a target -/

/-- **A target with a vocabulary**: its rows are not empty, and no longer than there are
tokens. -/
def Target.Speaks (target : Target F) : Prop :=
  ∀ tokens, target.logits tokens ≠ [] ∧ (target.logits tokens).length ≤ 2 ^ 32

/-- The best index is one of the row. -/
theorem bestIndex_lt (greater : F → F → Bool) {row : List F} (h : row ≠ []) :
    bestIndex greater row < row.length := by
  have hfol : ∀ (l : List (F × ℕ)) (best : ℕ), (∀ p ∈ l, p.2 < row.length) → best < row.length →
      l.foldl (fun best p => if row[best]?.any fun b => greater p.1 b then p.2 else best) best
        < row.length := by
    intro l
    induction l with
    | nil => exact fun _ _ hbes => hbes
    | cons p l ih =>
      intro best hl hbes
      refine ih _ (fun q hq => hl q (mem_cons_of_mem _ hq)) ?_
      dsimp only
      split_ifs
      · exact hl p mem_cons_self
      · exact hbes
  refine hfol _ 0 (fun p hp => ?_) (length_pos_of_ne_nil h)
  exact snd_lt_of_mem_zipIdx (mem_of_mem_drop hp)

variable {target : Target F}

/-- A row of the target has a prediction. -/
theorem Target.Speaks.predictRow (h : target.Speaks) (tokens : List UInt32) :
    predictRow target.greater (target.logits tokens) = .ok (target.next tokens) := by
  obtain ⟨hrow, hvoc⟩ := h tokens
  have hbes := (bestIndex_lt target.greater hrow).trans_le hvoc
  rw [Llama.predictRow, if_neg hrow, if_neg (by omega)]
  rfl

/-- **The rows of a block** have the predictions of the next token. -/
theorem Target.Speaks.mapM_predictRow (h : target.Speaks) (committed : List UInt32)
    (anchor : UInt32) (drafts : List UInt32) :
    (forwardRows target committed (anchor :: drafts)).mapM (Llama.predictRow target.greater)
      = .ok (predictionsFrom target.next (committed ++ [anchor]) drafts) := by
  induction drafts generalizing committed anchor with
  | nil =>
    rw [forwardRows, forwardRows, mapM_cons, mapM_nil, h.predictRow]
    rfl
  | cons draft drafts ih =>
    rw [forwardRows, mapM_cons, h.predictRow, ih]
    rfl

namespace DsparkSession

/-! ## Blocks -/

/-- **A block is verified**: the anchor and the right drafts are committed, and the token after
them is the next anchor. -/
theorem verifyBlock_eq (h : target.Speaks) {session : DsparkSession}
    (hrun : session.cancelled = false) {anchor : UInt32} {accepted rest : List UInt32}
    (hwid : (accepted ++ rest).length ≤ session.blockWidth)
    (hrm : (accepted ++ rest).length < usizeMax)
    (hgr : Greedy target.next (session.target ++ [anchor]) accepted)
    (hres : ∀ draft more, rest = draft :: more →
      target.next (session.target ++ [anchor] ++ accepted) ≠ draft) :
    ∃ result next, verifyBlock target session anchor (accepted ++ rest) .default
        = (.ok result, next) ∧ result.acceptedDrafts = accepted.length ∧
      result.nextAnchor = some (target.next (session.target ++ [anchor] ++ accepted)) ∧
      next.target = session.target ++ [anchor] ++ accepted ∧
      next.anchor = result.nextAnchor ∧ next.cancelled = false ∧
      next.blockWidth = session.blockWidth := by
  have hrsl : verifyGreedyLogits target.greater
      (forwardRows target session.target (anchor :: (accepted ++ rest))) (accepted ++ rest) .default
        = verifyGreedy (predictionsFrom target.next (session.target ++ [anchor]) (accepted ++ rest))
          (accepted ++ rest) := by
    rw [verifyGreedyLogits, h.mapM_predictRow]
    rfl
  rw [verifyGreedy_predictionsFrom hgr hres hrm] at hrsl
  unfold verifyBlock
  rw [if_neg (not_lt.mpr hwid), if_neg (by rw [hrun]; rintro (h | h) <;> cases h)]
  dsimp only
  rw [hrsl, if_neg (by rintro (h | h) <;> cases h), take_left]
  refine ⟨_, _, rfl, rfl, rfl, ?_, rfl, rfl, rfl⟩
  show session.target ++ (anchor :: (accepted ++ rest)).take (accepted.length + 1) = _
  rw [take_succ_cons, take_left, append_assoc]
  rfl

/-- **Blocks of a session that is running**: what it has committed, with its anchor, is what it had
committed with the anchor that it had and what has been verified; and this is the greedy
continuation of what there was. -/
theorem decode_eq (h : target.Speaks) {session : DsparkSession}
    (hrun : session.cancelled = false) {anchor : UInt32}
    (hanc : session.anchor = some anchor) {blocks : List (Vec 4 UInt32)}
    (hwid : ∀ drafts ∈ blocks, drafts.toList.length ≤ session.blockWidth) :
    ∃ next, (decode target session blocks).1.anchor = some next ∧
      (decode target session blocks).1.target ++ [next]
        = session.target ++ [anchor] ++ (decode target session blocks).2 ∧
      Greedy target.next (session.target ++ [anchor]) (decode target session blocks).2 := by
  induction blocks generalizing session anchor with
  | nil => exact ⟨anchor, hanc, (List.append_nil _).symm, trivial⟩
  | cons drafts blocks ih =>
    obtain ⟨accepted, rest, hspl, hgr, hres⟩ :=
      exists_accepted target.next (session.target ++ [anchor]) drafts.toList
    obtain ⟨result, session', hver, hacc, hnex, htar, hanc', hrun', hwid'⟩ :=
      verifyBlock_eq h hrun (hspl ▸ hwid drafts mem_cons_self)
        (hspl ▸ length_lt_usizeMax drafts) hgr hres
    rw [← hspl] at hver
    obtain ⟨last, hlas, hcom, hrst⟩ := ih hrun' (hanc'.trans hnex)
      fun later hlat => (hwid later (mem_cons_of_mem _ hlat)).trans_eq hwid'.symm
    rw [htar] at hcom hrst
    have hdec : decode target session (drafts :: blocks) = ((decode target session' blocks).1,
          accepted ++ [target.next (session.target ++ [anchor] ++ accepted)]
            ++ (decode target session' blocks).2) := by
      rw [decode, hanc]
      dsimp only
      rw [hver]
      dsimp only
      rw [hacc, hnex, hspl, take_left]
      rfl
    rw [hdec]
    refine ⟨last, hlas, ?_, ?_⟩
    · rw [hcom]
      simp only [append_assoc]
    · rw [greedy_append, greedy_concat, ← append_assoc]
      exact ⟨⟨hgr, rfl⟩, hrst⟩

/-! ## Blocks after a prefill -/

/-- **What a session does after a prefill**: the last token of the prompt is committed with the
prompt, and once more, and the target goes on from there. -/
theorem decode_prefill (h : target.Speaks) (blockWidth : ℕ) (maskTokenId : UInt32)
    {prompt : List UInt32} {last : UInt32} (hlas : prompt.getLast? = some last)
    {blocks : List (Vec 4 UInt32)}
    (hwid : ∀ drafts ∈ blocks, drafts.toList.length ≤ blockWidth) :
    let decoded := decode target ((fromTarget blockWidth maskTokenId).prefill prompt) blocks
    ∃ anchor, decoded.1.anchor = some anchor ∧
      decoded.1.target ++ [anchor] = prompt ++ [last] ++ decoded.2 ∧
      Greedy target.next (prompt ++ [last]) decoded.2 := by
  have hne : prompt ≠ [] := by
    rintro rfl
    cases hlas
  have hpr : (fromTarget blockWidth maskTokenId).prefill prompt
      = { fromTarget blockWidth maskTokenId with
          target := prompt
          targetHistory := (fromTarget blockWidth maskTokenId).targetHistory.commit prompt
          draft := (fromTarget blockWidth maskTokenId).draft.commitInputRows prompt
          anchor := some last } := by
    rw [prefill, if_neg hne, hlas]
    rfl
  rw [hpr]
  exact decode_eq h rfl rfl hwid

/-- A session that goes on from a prompt with its last token doubled decodes the prompt if this
token is the one that the target says next. -/
theorem decodesGreedily_of_doubled {session : DsparkSession} {prompt verified : List UInt32}
    {anchor last : UInt32} (hanc : session.anchor = some anchor)
    (hcom : session.target ++ [anchor] = prompt ++ [last] ++ verified)
    (hgr : Greedy target.next (prompt ++ [last]) verified) :
    DecodesGreedily target prompt session ↔ target.next prompt = last := by
  constructor
  · rintro ⟨anchor', continuation, hanc', hcon, hpre⟩
    obtain rfl := Option.some.inj (hanc.symm.trans hanc')
    rw [hcom, append_assoc, prefix_append_right_inj, singleton_append] at hpre
    cases continuation with
    | nil => exact absurd (prefix_nil.mp hpre) (cons_ne_nil _ _)
    | cons token rest =>
      obtain ⟨rfl, -⟩ := cons_prefix_cons.mp hpre
      exact hcon.1.symm
  · rintro rfl
    refine ⟨anchor, target.next prompt :: verified, hanc, ⟨rfl, hgr⟩, ?_⟩
    rw [hcom, append_assoc, singleton_append]

/-- **A session decodes greedily exactly if the prompt ends with the token that the target would say
after it**, whatever the blocks are: the prompt with its last token doubled is then the prompt with
its first token of the continuation. -/
theorem decodesGreedily_iff {target : Target F} (h : target.Speaks) (blockWidth : ℕ)
    (maskTokenId : UInt32) {prompt : List UInt32} (hprompt : prompt ≠ [])
    {blocks : List (Vec 4 UInt32)} (hwidth : ∀ drafts ∈ blocks, drafts.toList.length ≤ blockWidth) :
    DecodesGreedily target prompt
        (decode target ((fromTarget blockWidth maskTokenId).prefill prompt) blocks).1 ↔
      prompt.getLast? = some (target.next prompt) := by
  obtain ⟨last, hlas⟩ := Option.isSome_iff_exists.mp (List.getLast?_isSome.mpr hprompt)
  obtain ⟨anchor, hanc, hcom, hgr⟩ := decode_prefill h blockWidth maskTokenId hlas hwidth
  rw [decodesGreedily_of_doubled hanc hcom hgr, hlas, Option.some.injEq]
  exact eq_comm

/-- A target with two tokens, the second of which is always the next. -/
def constantTarget : Target ℕ := ⟨fun _ => [0, 1], fun a b => decide (a > b)⟩

theorem constantTarget_speaks : constantTarget.Speaks := fun _ =>
  ⟨cons_ne_nil _ _, (by decide : 2 ≤ 2 ^ 32)⟩

/-- Two blocks after a prompt that ends with this token, and after one that does not. -/
theorem decodesGreedily_constantTarget :
    let blocks : List (Vec 4 UInt32) := [⟨[1, 1, 0], by decide⟩, ⟨[1], by decide⟩]
    DecodesGreedily constantTarget [0, 1]
        (decode constantTarget ((fromTarget 3 0).prefill [0, 1]) blocks).1 ∧
      ¬ DecodesGreedily constantTarget [0, 5]
        (decode constantTarget ((fromTarget 3 0).prefill [0, 5]) blocks).1 :=
  ⟨(decodesGreedily_iff constantTarget_speaks 3 0 (cons_ne_nil _ _) (by decide)).mpr (by decide),
    (decodesGreedily_iff constantTarget_speaks 3 0 (cons_ne_nil _ _) (by decide)).not.mpr
      (by decide)⟩

/-- **After a prefill, the anchor has been committed.** -/
theorem prefill_commits_anchor :
    ((fromTarget 3 0).prefill [5]).target = [5] ∧ ((fromTarget 3 0).prefill [5]).anchor = some 5 ∧
      ¬ ∀ (target : Target ℕ) (prompt : List UInt32), target.Speaks → prompt ≠ [] →
        ∀ blocks : List (Vec 4 UInt32), (∀ drafts ∈ blocks, drafts.toList.length ≤ 3) →
          DecodesGreedily target prompt
            (decode target ((fromTarget 3 0).prefill prompt) blocks).1 := by
  refine ⟨rfl, rfl, fun h => ?_⟩
  have hdec := h constantTarget [5] constantTarget_speaks (cons_ne_nil _ _) []
    fun _ hno => absurd hno not_mem_nil
  have hnex := (@decodesGreedily_of_doubled _ _ _ [5] [] 5 5 rfl rfl trivial).mp hdec
  exact absurd hnex (by decide)

end DsparkSession

end Llama

end Logan
