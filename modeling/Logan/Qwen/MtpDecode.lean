import Logan.Util.Memory

/-!
# Decoding with a drafter

From the logits of a prompt, tokens are generated one at a time: the best token is
emitted and consumed, and there are new logits (`generateFromLogits`). With a
drafter, the target is run on a whole block of drafts at once, and the drafts are
emitted as far as they are what the target says (`generateFromLogitsMtpBlock`). The
last token that has been emitted is always still to be consumed.

The target is a function: it has logits for a list of consumed tokens, each with
its position. Running it on a block does not change what it has consumed until a
boundary of the block is committed. Of the drafter nothing is known.

Both ways of decoding stop at logits that cannot be compared, with a panic.
-/

namespace Logan

namespace Qwen

open Result

/-- **A target**: the logits after a list of tokens at their positions, and how two logits are
compared. -/
structure Target (F : Type) where
  logits : List (UInt32 × ℕ) → List F
  partialCmp : F → F → Option Ordering

/-- What the drafter has for one token: logits, and the hidden row for its next step. -/
structure MtpDraft (F : Type) where
  logits : List F
  nextHiddenHc : List F

/-- **A drafter**, with a state of its own. -/
structure Drafter (F D : Type) where
  /-- `last_hidden_nextn`: the row that the target has exported. -/
  lastHidden : D → List F
  /-- `mtp_draft` -/
  draft : D → UInt32 → List F → ℕ → Except String (MtpDraft F) × D
  /-- What it has after a block has been verified and its boundary been committed. -/
  observe : D → List (UInt32 × ℕ) → D

/-- `MtpVerifyBatch`: for each input the logits after it, and what is committed with it. -/
structure MtpVerifyBatch (F : Type) where
  logits : List (List F)
  boundaries : List (List (UInt32 × ℕ))

variable {F D : Type} (target : Target F)

/-- `max_by` with `partial_cmp`: of equal logits, it is the last. -/
def Target.better (best candidate : F × ℕ) : Except (Failure String) (F × ℕ) :=
  match target.partialCmp best.1 candidate.1 with
  | none => .error .panic
  | some .gt => .ok best
  | some _ => .ok candidate

/-- `argmax` -/
def Target.argmax (logits : List F) : Except (Failure String) UInt32 :=
  match logits.zipIdx with
  | [] => .ok 0
  | first :: rest => do
    let best ← rest.foldlM target.better first
    pure (UInt32.ofNat best.2)

/-! ## One token at a time -/

/-- The loop of `generate_from_logits`, with the number of tokens that remain and the position of
the next one. The target is not run any more after the last token. -/
def serialFrom : ℕ → ℕ → List (UInt32 × ℕ) → List F → Except (Failure String) (List UInt32)
  | 0, _, _, _ => pure []
  | remaining + 1, position, consumed, logits => do
    let next ← target.argmax logits
    if 0 < remaining then
      let consumed := consumed ++ [(next, position)]
      let rest ← serialFrom remaining (position + 1) consumed (target.logits consumed)
      pure (next :: rest)
    else pure [next]

/-- `generate_from_logits`, on a target that has consumed a prompt. -/
def generateFromLogits (consumed : List (UInt32 × ℕ)) (logits : List F) (promptLen maxNew : ℕ) :
    Except (Failure String) (List UInt32) :=
  serialFrom target maxNew promptLen consumed logits

/-! ## One block at a time -/

/-- `prefill_chunk_logits_all`: the logits after each of the inputs. -/
def prefillChunkLogitsAll (consumed : List (UInt32 × ℕ)) (inputs : List UInt32) (position : ℕ) :
    MtpVerifyBatch F :=
  let rows := (List.range inputs.length).map fun i => (inputs.zipIdx position).take (i + 1)
  { logits := rows.map fun row => target.logits (consumed ++ row)
    boundaries := rows }

/-- The state between two blocks. -/
structure MtpState (D : Type) where
  /-- The tokens that the target has consumed. -/
  consumed : List (UInt32 × ℕ)
  drafter : D
  out : List UInt32
  /-- The last token that has been emitted. -/
  current : UInt32

/-- The loop over the drafts of a block. -/
def draftTokens (drafter : Drafter F D) (position : ℕ) :
    ℕ → ℕ → D → UInt32 → List F → Except (Failure String) (List UInt32 × D)
  | 0, _, d, _, _ => pure ([], d)
  | k + 1, i, d, token, hidden =>
    match drafter.draft d token hidden (position + i) with
    | (.error e, _) => .error (.error e)
    | (.ok draft, d) => do
      refuse (draft.nextHiddenHc = [])
        (.error ("MTP step " ++ toString i ++ " returned no recursive HC state"))
      let next ← target.argmax draft.logits
      let rest ← draftTokens drafter position k (i + 1) d next draft.nextHiddenHc
      pure (next :: rest.1, rest.2)

/-- For how many drafts the target says the same. -/
def acceptedDrafts : List (List F) → List UInt32 → Except (Failure String) ℕ
  | row :: rows, draft :: drafts => do
    let best ← target.argmax row
    if best = draft then (· + 1) <$> acceptedDrafts rows drafts else pure 0
  | _, _ => pure 0

/-- What a block leads to, once it has been drafted and verified. -/
def commitBlock (drafter : Drafter F D) (s : MtpState D) (verify : MtpVerifyBatch F)
    (drafts : List UInt32) (d : D) : Except (Failure String) (MtpState D) := do
  let accepted ← acceptedDrafts target verify.logits drafts
  if accepted = drafts.length then
    let boundary ← okOr verify.boundaries[drafts.length - 1]? .panic
    let last ← okOr drafts.getLast? .panic
    let consumed := s.consumed ++ boundary
    pure ⟨consumed, drafter.observe d consumed, s.out ++ drafts, last⟩
  else
    let row ← okOr verify.logits[accepted]? .panic
    let correction ← target.argmax row
    let boundary ← okOr verify.boundaries[accepted]? .panic
    let consumed := s.consumed ++ boundary
    pure ⟨consumed, drafter.observe d consumed, s.out ++ drafts.take accepted ++ [correction],
      correction⟩

/-- One block of `generate_from_logits_mtp_block`. To verify `k` drafts, the target consumes the
current token and all of them but the last. -/
def mtpBlock (drafter : Drafter F D) (promptLen blockCap maxNew : ℕ) (s : MtpState D) :
    Except (Failure String) (MtpState D) := do
  let position := promptLen + s.out.length - 1
  let k := min blockCap (maxNew - s.out.length)
  let hidden := drafter.lastHidden s.drafter
  refuse (hidden = []) (.error
    ("target did not export MTP hidden row before speculative block at position "
      ++ toString position))
  let (drafts, d) ← draftTokens target drafter position k 0 s.drafter s.current hidden
  let inputs := s.current :: drafts.take (k - 1)
  let verify := prefillChunkLogitsAll target s.consumed inputs position
  refuse (verify.logits.length ≠ k ∨ verify.boundaries.length ≠ k) (.error
    ("MTP verifier returned " ++ toString verify.logits.length ++ " logits / "
      ++ toString verify.boundaries.length ++ " boundaries for " ++ toString k ++ " inputs"))
  commitBlock target drafter s verify drafts d

/-- The loop of `generate_from_logits_mtp_block`, for a number of blocks at most. -/
def mtpLoop (drafter : Drafter F D) (promptLen blockCap maxNew : ℕ) :
    ℕ → MtpState D → Except (Failure String) (MtpState D)
  | 0, s => if s.out.length < maxNew then .error .endless else .ok s
  | fuel + 1, s =>
    if s.out.length < maxNew then do
      let s ← mtpBlock target drafter promptLen blockCap maxNew s
      mtpLoop drafter promptLen blockCap maxNew fuel s
    else .ok s

/-- `generate_from_logits_mtp_block`. Each block emits a token, so there are no more blocks than
tokens. -/
def generateFromLogitsMtpBlock (drafter : Drafter F D) (d : D) (blockCap : ℕ)
    (consumed : List (UInt32 × ℕ)) (logits : List F) (promptLen maxNew : ℕ) :
    Except (Failure String) (List UInt32) :=
  if maxNew = 0 then .ok []
  else do
    let current ← target.argmax logits
    let s ← mtpLoop target drafter promptLen blockCap maxNew maxNew
      ⟨consumed, d, [current], current⟩
    pure (s.out.take maxNew)

end Qwen

end Logan
