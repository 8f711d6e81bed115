import Logan.Qwen.MtpDecode

/-!
# Decoding in blocks is decoding one token at a time

Tokens that the target says one after the other (`Emits`) are emitted by the serial
loop as they are (`serialFrom_emits`). A block emits such tokens, and leaves the
loop where they lead (`commitBlock_spec`): what has been consumed, with the current
token at the next position, is what the serial loop has consumed by then. So the
two loops emit the same tokens, and stop at the same logits if these cannot be
compared.
-/

namespace Logan

open List Result

namespace Qwen

open Result

variable {F D : Type} {target : Target F}

/-! ## The serial loop -/

/-- The serial loop may as well run the target once more. -/
theorem serialFrom_succ (remaining position : ℕ) (consumed : List (UInt32 × ℕ)) (logits : List F) :
    serialFrom target (remaining + 1) position consumed logits = (do
      let next ← target.argmax logits
      let consumed := consumed ++ [(next, position)]
      let rest ← serialFrom target remaining (position + 1) consumed (target.logits consumed)
      pure (next :: rest)) := by
  rw [serialFrom]
  cases remaining with
  | zero => rfl
  | succ => simp only [Nat.zero_lt_succ, if_true]

variable {consumed : List (UInt32 × ℕ)}

theorem length_serialFrom {remaining position : ℕ} {logits : List F}
    {l : List UInt32} (h : serialFrom target remaining position consumed logits = .ok l) :
    l.length = remaining := by
  induction remaining generalizing position consumed logits l with
  | zero =>
    obtain rfl := Except.ok.inj h
    rfl
  | succ remaining ih =>
    rw [serialFrom_succ] at h
    obtain ⟨next, -, h⟩ := bind_eq_ok.mp h
    obtain ⟨rest, hres, h⟩ := bind_eq_ok.mp h
    cases h
    exact congrArg Nat.succ (ih hres)

/-- **The target says these tokens**, one after the other. -/
def Emits (target : Target F) : List (UInt32 × ℕ) → ℕ → List UInt32 → Prop
  | _, _, [] => True
  | consumed, position, token :: tokens =>
    target.argmax (target.logits consumed) = .ok token ∧
      Emits target (consumed ++ [(token, position)]) (position + 1) tokens

variable {position : ℕ} {tokens : List UInt32}

theorem emits_concat
    {token : UInt32} :
    Emits target consumed position (tokens ++ [token]) ↔ Emits target consumed position tokens ∧
      target.argmax (target.logits (consumed ++ tokens.zipIdx position)) = .ok token := by
  induction tokens generalizing consumed position with
  | nil =>
    rw [nil_append, zipIdx_nil, List.append_nil]
    exact and_comm
  | cons t tokens ih =>
    show _ ∧ Emits target _ _ (tokens ++ [token]) ↔ (_ ∧ _) ∧ _
    rw [ih, and_assoc, zipIdx_cons, append_assoc, singleton_append]

/-- **Tokens that the target says** are emitted by the serial loop. -/
theorem serialFrom_emits
    (h : Emits target consumed position tokens) (remaining : ℕ) :
    serialFrom target (tokens.length + remaining) position consumed (target.logits consumed)
      = (tokens ++ ·) <$> serialFrom target remaining (position + tokens.length)
        (consumed ++ tokens.zipIdx position)
        (target.logits (consumed ++ tokens.zipIdx position)) := by
  induction tokens generalizing consumed position with
  | nil =>
    rw [zipIdx_nil, List.append_nil, length_nil, Nat.zero_add, Nat.add_zero]
    exact (id_map' _).symm
  | cons token tokens ih =>
    obtain ⟨htok, hres⟩ := h
    rw [length_cons, Nat.succ_add, serialFrom_succ, htok, ok_bind]
    dsimp only
    rw [ih hres, zipIdx_cons, append_assoc, singleton_append, Nat.add_assoc, Nat.add_comm 1]
    cases serialFrom target remaining (position + (tokens.length + 1))
      (consumed ++ (token, position) :: tokens.zipIdx (position + 1)) _ <;> rfl

/-- The serial loop stops where the target's logits cannot be compared. -/
theorem serialFrom_of_error
    (h : Emits target consumed position tokens) {e : Failure String}
    (he : target.argmax (target.logits (consumed ++ tokens.zipIdx position)) = .error e)
    {remaining : ℕ} (hlt : tokens.length < remaining) :
    serialFrom target remaining position consumed (target.logits consumed) = .error e := by
  obtain ⟨more, rfl⟩ := Nat.exists_eq_add_of_lt hlt
  rw [Nat.add_assoc, serialFrom_emits h, serialFrom_succ, he]
  rfl

/-! ## A block -/

/-- The logits after the drafts of a block, but for the last one. -/
def draftRows (target : Target F) (consumed : List (UInt32 × ℕ)) (position : ℕ)
    (drafts : List UInt32) : List (List F) :=
  (List.range drafts.length).map fun i =>
    target.logits (consumed ++ (drafts.take i).zipIdx position)

theorem draftRows_cons (consumed : List (UInt32 × ℕ)) (position : ℕ) (draft : UInt32)
    (drafts : List UInt32) : draftRows target consumed position (draft :: drafts)
      = target.logits consumed ::
        draftRows target (consumed ++ [(draft, position)]) (position + 1) drafts := by
  unfold draftRows
  rw [length_cons, range_succ_eq_map, map_cons, map_map, take_zero, zipIdx_nil, List.append_nil]
  refine congrArg _ (map_congr_left fun i _ => ?_)
  rw [Function.comp_apply, take_succ_cons, zipIdx_cons, append_assoc, singleton_append]

variable {drafts : List UInt32}

/-- **Drafts are accepted** as long as the target says them; the row after them is compared,
too. -/
theorem acceptedDrafts_eq_ok {m : ℕ}
    (h : acceptedDrafts target (draftRows target consumed position drafts) drafts = .ok m) :
    m ≤ drafts.length ∧ Emits target consumed position (drafts.take m) ∧
      (m < drafts.length → ∃ token,
        target.argmax (target.logits (consumed ++ (drafts.take m).zipIdx position)) =
          .ok token) := by
  induction drafts generalizing consumed position m with
  | nil =>
    obtain rfl := Except.ok.inj h
    exact ⟨le_rfl, trivial, fun hlt => absurd hlt (lt_irrefl 0)⟩
  | cons draft drafts ih =>
    rw [draftRows_cons, acceptedDrafts] at h
    obtain ⟨best, hbes, h⟩ := bind_eq_ok.mp h
    split_ifs at h with heq
    · subst heq
      obtain ⟨n, hn, rfl⟩ := map_eq_ok h
      obtain ⟨hle, hem, hrow⟩ := ih hn
      refine ⟨Nat.succ_le_succ hle, ⟨hbes, hem⟩, fun hlt => ?_⟩
      obtain ⟨token, htok⟩ := hrow (Nat.lt_of_succ_lt_succ hlt)
      rw [append_assoc, singleton_append] at htok
      exact ⟨token, htok⟩
    · cases h
      refine ⟨Nat.zero_le _, trivial, fun _ => ⟨best, ?_⟩⟩
      rwa [take_zero, zipIdx_nil, List.append_nil]

/-- Or a row cannot be compared after drafts that the target says. -/
theorem acceptedDrafts_eq_error {e : Failure String}
    (h : acceptedDrafts target (draftRows target consumed position drafts) drafts = .error e) :
    ∃ m < drafts.length, Emits target consumed position (drafts.take m) ∧
      target.argmax (target.logits (consumed ++ (drafts.take m).zipIdx position)) = .error e := by
  induction drafts generalizing consumed position with
  | nil => cases h
  | cons draft drafts ih =>
    rw [draftRows_cons, acceptedDrafts] at h
    rcases bind_eq_error.mp h with h | ⟨best, hbes, h⟩
    · refine ⟨0, Nat.succ_pos _, trivial, ?_⟩
      rwa [take_zero, zipIdx_nil, List.append_nil]
    · split_ifs at h with heq
      · subst heq
        have hres : acceptedDrafts target
            (draftRows target (consumed ++ [(best, position)]) (position + 1) drafts) drafts
              = .error e := by
          revert h
          cases acceptedDrafts target
            (draftRows target (consumed ++ [(best, position)]) (position + 1) drafts) drafts with
          | ok => exact fun h => (by cases h)
          | error => exact fun h => congrArg _ (Except.error.inj h)
        obtain ⟨m, hm, hem, he⟩ := ih hres
        refine ⟨m + 1, Nat.succ_lt_succ hm, ⟨hbes, hem⟩, ?_⟩
        rwa [append_assoc, singleton_append] at he
      · cases h

theorem take_zipIdx {A : Type} (l : List A) (position n : ℕ) :
    (l.zipIdx position).take n = (l.take n).zipIdx position := by
  induction l generalizing position n with
  | nil => rw [zipIdx_nil, take_nil, take_nil, zipIdx_nil]
  | cons a l ih =>
    cases n with
    | zero => rfl
    | succ => rw [zipIdx_cons, take_succ_cons, take_succ_cons, ih, zipIdx_cons]

/-- **The rows of a block** are the logits after its drafts, but for the last one. -/
theorem prefillChunkLogitsAll_drafts (consumed : List (UInt32 × ℕ)) (current : UInt32)
    (position : ℕ) (h : drafts ≠ []) :
    prefillChunkLogitsAll target consumed (current :: drafts.take (drafts.length - 1)) position
      = ⟨draftRows target (consumed ++ [(current, position)]) (position + 1) drafts,
          (List.range drafts.length).map fun i =>
            (current, position) :: (drafts.take i).zipIdx (position + 1)⟩ := by
  have hpos : 0 < drafts.length := length_pos_of_ne_nil h
  have hlen : (current :: drafts.take (drafts.length - 1)).length = drafts.length := by
    rw [length_cons, length_take, Nat.min_eq_left (Nat.sub_le _ _), Nat.sub_add_cancel hpos]
  have hrow : ∀ i ∈ List.range drafts.length,
      ((current :: drafts.take (drafts.length - 1)).zipIdx position).take (i + 1)
        = (current, position) :: (drafts.take i).zipIdx (position + 1) := by
    intro i hi
    have hle : i ≤ drafts.length - 1 := Nat.le_sub_one_of_lt (mem_range.mp hi)
    rw [zipIdx_cons, take_succ_cons, take_zipIdx, take_take, Nat.min_eq_left hle]
  unfold prefillChunkLogitsAll draftRows
  rw [hlen]
  dsimp only
  rw [map_congr_left hrow, map_map]
  refine congrArg (fun rows => MtpVerifyBatch.mk rows _) (map_congr_left fun i _ => ?_)
  rw [Function.comp_apply, append_assoc, singleton_append]

/-- **What is known between two blocks**: the prompt and what has been emitted, at their positions,
is what has been consumed and the current token. -/
structure Between (prompt : List UInt32) (s : MtpState D) : Prop where
  emitted : s.out ≠ []
  tokens : (prompt ++ s.out).zipIdx = s.consumed ++ [(s.current, prompt.length + s.out.length - 1)]

/-- A block that is committed: tokens that the target says are emitted. -/
structure Commits (target : Target F) (prompt : List UInt32) (s next : MtpState D)
    (tokens : List UInt32) : Prop where
  out : next.out = s.out ++ tokens
  nonempty : tokens ≠ []
  emits : Emits target (s.consumed ++ [(s.current, prompt.length + s.out.length - 1)])
    (prompt.length + s.out.length) tokens
  between : Between prompt next

/-- **What has been consumed is advanced** by the current token and all new tokens but the
last. -/
theorem Between.advance {prompt : List UInt32} {s : MtpState D} (h : Between prompt s)
    (tokens : List UInt32) (last : UInt32) (d : D) : Between prompt
      (⟨s.consumed ++ (s.current, prompt.length + s.out.length - 1) ::
          tokens.zipIdx (prompt.length + s.out.length),
        d, s.out ++ tokens ++ [last], last⟩ : MtpState D) := by
  refine ⟨append_ne_nil_of_right_ne_nil _ (cons_ne_nil _ _), ?_⟩
  have hlen : (prompt ++ s.out).length = prompt.length + s.out.length := length_append
  have hlas : prompt.length + (s.out ++ tokens ++ [last]).length - 1
      = (prompt ++ s.out ++ tokens).length := by
    simp only [length_append, length_singleton]
    omega
  rw [hlas, ← append_assoc, ← append_assoc, zipIdx_append, zipIdx_append,
    h.tokens, Nat.zero_add, Nat.zero_add, hlen, append_assoc s.consumed]
  rfl

/-- **A block that is verified** emits what the target says, up to the first draft that it does
not, or stops where the logits cannot be compared. -/
theorem commitBlock_spec {prompt : List UInt32} {s : MtpState D} (hbet : Between prompt s)
    (drafter : Drafter F D) (hdr : drafts ≠ []) (d : D)
    {result : Except (Failure String) (MtpState D)}
    (hres : commitBlock target drafter s (prefillChunkLogitsAll target s.consumed
      (s.current :: drafts.take (drafts.length - 1)) (prompt.length + s.out.length - 1)) drafts d
        = result) : (∃ next tokens, result = .ok next ∧ tokens.length ≤ drafts.length ∧
        Commits target prompt s next tokens) ∨
      ∃ tokens e, result = .error e ∧ tokens.length < drafts.length ∧
        Emits target (s.consumed ++ [(s.current, prompt.length + s.out.length - 1)])
          (prompt.length + s.out.length) tokens ∧ target.argmax (target.logits (s.consumed ++
          [(s.current, prompt.length + s.out.length - 1)] ++
            tokens.zipIdx (prompt.length + s.out.length))) = .error e := by
  have hout : 0 < s.out.length := length_pos_of_ne_nil hbet.emitted
  have hnex : prompt.length + s.out.length - 1 + 1 = prompt.length + s.out.length :=
    Nat.sub_add_cancel (Nat.le_add_left_of_le hout)
  rw [prefillChunkLogitsAll_drafts _ _ _ hdr, hnex] at hres
  unfold commitBlock at hres
  dsimp only at hres
  cases hacc : acceptedDrafts target
      (draftRows target (s.consumed ++ [(s.current, prompt.length + s.out.length - 1)])
        (prompt.length + s.out.length) drafts) drafts with
  | error e =>
    rw [hacc] at hres
    obtain ⟨m, hm, hem, he⟩ := acceptedDrafts_eq_error hacc
    refine Or.inr ⟨drafts.take m, e, hres.symm, ?_, hem, he⟩
    exact (length_take_le _ _).trans_lt hm
  | ok m =>
    rw [hacc, ok_bind] at hres
    obtain ⟨hle, hem, hrow⟩ := acceptedDrafts_eq_ok hacc
    refine Or.inl ?_
    split_ifs at hres with hall
    · -- all drafts are right: the last of them has not been consumed
      obtain ⟨tokens, last, rfl⟩ : ∃ tokens last, drafts = tokens ++ [last] :=
        ⟨_, _, (dropLast_append_getLast hdr).symm⟩
      rw [hall, take_length] at hem
      have hcut : (tokens ++ [last]).length - 1 = tokens.length := by
        rw [length_append, length_singleton, Nat.add_sub_cancel]
      have hbnd : ((List.range (tokens ++ [last]).length).map fun i =>
          (s.current, prompt.length + s.out.length - 1) ::
            ((tokens ++ [last]).take i).zipIdx (prompt.length + s.out.length))[tokens.length]?
          = some ((s.current, prompt.length + s.out.length - 1) ::
            tokens.zipIdx (prompt.length + s.out.length)) := by
        rw [List.getElem?_map, List.getElem?_range (by simp), Option.map_some, take_left]
      rw [hcut, hbnd, List.getLast?_concat] at hres
      refine ⟨_, tokens ++ [last], hres.symm, le_rfl, ?_⟩
      exact ⟨rfl, append_ne_nil_of_right_ne_nil _ (cons_ne_nil _ _), hem,
        append_assoc s.out tokens [last] ▸ hbet.advance tokens last _⟩
    · -- the target's own token takes the place of the first draft that is wrong
      have hlt : m < drafts.length := lt_of_le_of_ne hle hall
      obtain ⟨token, htok⟩ := hrow hlt
      have hrwt : (draftRows target (s.consumed ++ [(s.current, prompt.length + s.out.length - 1)])
          (prompt.length + s.out.length) drafts)[m]? = some (target.logits (s.consumed ++
            [(s.current, prompt.length + s.out.length - 1)] ++
              (drafts.take m).zipIdx (prompt.length + s.out.length))) := by
        rw [draftRows, List.getElem?_map, List.getElem?_range hlt, Option.map_some]
      rw [hrwt, okOr_some, ok_bind, htok, ok_bind, List.getElem?_map,
        List.getElem?_range hlt, Option.map_some] at hres
      refine ⟨_, drafts.take m ++ [token], hres.symm, ?_, ?_⟩
      · rwa [length_append, length_singleton, length_take, Nat.min_eq_left hle]
      · exact ⟨append_assoc _ _ _, append_ne_nil_of_right_ne_nil _ (cons_ne_nil _ _),
          emits_concat.mpr ⟨hem, htok⟩, hbet.advance _ _ _⟩

end Qwen

end Logan
