import Logan.Qwen.MtpSerial

/-!
# Runs of blocks

The tokens that the serial loop still has to emit from where a block leaves off
(`remaining`) are those that the loop over blocks emits (`mtpLoop_spec`): a block
either emits some of them, or stops where the serial loop does, or is given up by
the drafter. So with a drafter that works, decoding in blocks and decoding one
token at a time have the same result (`generateFromLogitsMtpBlock_eq`).
-/

namespace Logan

open List Result

namespace Qwen

open Result

variable {F D : Type} {target : Target F} {drafter : Drafter F D}

/-- **A drafter works** if there are a row to start from and a draft with a next row whenever it is
asked for one, with logits that can be compared. Which token is drafted does not matter. -/
structure Drafter.Works (drafter : Drafter F D) (target : Target F) : Prop where
  lastHidden : ∀ d, drafter.lastHidden d ≠ []
  draft : ∀ d token hidden position, hidden ≠ [] → ∃ draft d',
    drafter.draft d token hidden position = (.ok draft, d') ∧ draft.nextHiddenHc ≠ [] ∧
      ∃ next, target.argmax draft.logits = .ok next

/-! ## The drafts -/

/-- Logits that cannot be compared are a panic. -/
theorem Target.argmax_eq_error {logits : List F} {e : Failure String}
    (h : target.argmax logits = .error e) : e = .panic := by
  have hfol : ∀ (rest : List (F × ℕ)) (best : F × ℕ),
      rest.foldlM target.better best = .error e → e = .panic := by
    intro rest
    induction rest with
    | nil => exact fun best h => (by cases h)
    | cons candidate rest ih =>
      intro best h
      rw [foldlM_cons] at h
      rcases bind_eq_error.mp h with h | ⟨best', -, h⟩
      · unfold Target.better at h
        split at h
        · exact (Except.error.inj h).symm
        · cases h
        · cases h
      · exact ih best' h
  unfold Target.argmax at h
  split at h
  · cases h
  · rcases bind_eq_error.mp h with h | ⟨best, -, h⟩
    · exact hfol _ _ h
    · cases h

/-- A block has as many drafts as have been asked for. -/
theorem length_draftTokens {position k i : ℕ} {d d' : D} {token : UInt32} {hidden : List F}
    {drafts : List UInt32}
    (h : draftTokens target drafter position k i d token hidden = .ok (drafts, d')) :
    drafts.length = k := by
  induction k generalizing i d token hidden drafts d' with
  | zero =>
    obtain ⟨rfl, -⟩ := Prod.mk.inj (Except.ok.inj h)
    rfl
  | succ k ih =>
    rw [draftTokens] at h
    split at h
    · cases h
    · obtain ⟨⟨⟩, -, h⟩ := bind_eq_ok.mp h
      obtain ⟨next, -, h⟩ := bind_eq_ok.mp h
      obtain ⟨rest, hres, h⟩ := bind_eq_ok.mp h
      cases h
      exact congrArg Nat.succ (ih hres)

/-- Drafting does not go on for ever. -/
theorem draftTokens_ne_endless (position k i : ℕ) (d : D) (token : UInt32) (hidden : List F) :
    draftTokens target drafter position k i d token hidden ≠ .error .endless := by
  induction k generalizing i d token hidden with
  | zero => exact fun h => (by cases h)
  | succ k ih =>
    intro h
    rw [draftTokens] at h
    split at h
    · cases h
    · rcases bind_eq_error.mp h with h | ⟨⟨⟩, -, h⟩
      · unfold refuse at h
        split_ifs at h
        cases h
      · rcases bind_eq_error.mp h with h | ⟨next, -, h⟩
        · cases Target.argmax_eq_error h
        · rcases bind_eq_error.mp h with h | ⟨rest, -, h⟩
          · exact ih _ _ _ _ h
          · cases h

/-- A drafter that works drafts all the tokens of a block. -/
theorem Drafter.Works.draftTokens (h : drafter.Works target) (position k i : ℕ) (d : D)
    (token : UInt32) {hidden : List F} (hhid : hidden ≠ []) :
    ∃ drafts, Qwen.draftTokens target drafter position k i d token hidden = .ok drafts := by
  induction k generalizing i d token hidden with
  | zero => exact ⟨_, rfl⟩
  | succ k ih =>
    obtain ⟨draft, d', hdr, hnex, next, harg⟩ := h.draft d token hidden (position + i) hhid
    obtain ⟨rest, hres⟩ := ih (i + 1) d' next hnex
    refine ⟨(next :: rest.1, rest.2), ?_⟩
    rw [Qwen.draftTokens, hdr]
    dsimp only
    rw [refuse_of_not hnex, ok_bind, harg, ok_bind, hres]
    rfl

/-! ## A block -/

/-- What the serial loop has still to emit, from where a block starts. -/
def remaining (target : Target F) (promptLen maxNew : ℕ) (s : MtpState D) :
    Except (Failure String) (List UInt32) :=
  serialFrom target (maxNew - s.out.length) (promptLen + s.out.length)
    (s.consumed ++ [(s.current, promptLen + s.out.length - 1)])
    (target.logits (s.consumed ++ [(s.current, promptLen + s.out.length - 1)]))

variable {prompt : List UInt32}

/-- **What a block does**: it emits tokens that the target says, or stops where the serial loop
does, or the drafter gives up. -/
theorem mtpBlock_spec {s : MtpState D} (hbet : Between prompt s) {blockCap maxNew : ℕ}
    (hcap : 1 ≤ blockCap) (hlt : s.out.length < maxNew)
    {result : Except (Failure String) (MtpState D)}
    (hres : mtpBlock target drafter prompt.length blockCap maxNew s = result) :
    (∃ next tokens, result = .ok next ∧ tokens.length ≤ maxNew - s.out.length ∧
        Commits target prompt s next tokens) ∨ ∃ e, result = .error e ∧ e ≠ .endless ∧
        (drafter.Works target → remaining target prompt.length maxNew s = .error e) := by
  have hk : 0 < min blockCap (maxNew - s.out.length) := lt_min hcap (Nat.sub_pos_of_lt hlt)
  unfold mtpBlock at hres
  dsimp only at hres
  by_cases hhid : drafter.lastHidden s.drafter = []
  · rw [refuse_of hhid] at hres
    exact Or.inr ⟨_, hres.symm, fun h => (by cases h), fun h => absurd hhid (h.lastHidden _)⟩
  · rw [refuse_of_not hhid, ok_bind] at hres
    cases hdr : draftTokens target drafter (prompt.length + s.out.length - 1)
        (min blockCap (maxNew - s.out.length)) 0 s.drafter s.current
        (drafter.lastHidden s.drafter) with
    | error e =>
      rw [hdr] at hres
      refine Or.inr ⟨e, hres.symm, ?_, fun h => ?_⟩
      · rintro rfl
        exact draftTokens_ne_endless _ _ _ _ _ _ hdr
      · obtain ⟨drafts, hdrf⟩ := h.draftTokens (prompt.length + s.out.length - 1)
          (min blockCap (maxNew - s.out.length)) 0 s.drafter s.current hhid
        rw [hdrf] at hdr
        cases hdr
    | ok drafted =>
      obtain ⟨drafts, d⟩ := drafted
      have hlen : drafts.length = min blockCap (maxNew - s.out.length) :=
        length_draftTokens hdr
      have hdrf : drafts ≠ [] := ne_nil_of_length_pos (hlen ▸ hk)
      have hle : drafts.length ≤ maxNew - s.out.length := hlen ▸ min_le_right _ _
      rw [hdr, ok_bind, ← hlen] at hres
      dsimp only at hres
      rw [refuse_of_not (by
        rw [prefillChunkLogitsAll_drafts _ _ _ hdrf, draftRows, length_map,
          length_map, length_range]
        exact fun h => h.elim (absurd rfl) (absurd rfl)), ok_bind] at hres
      rcases commitBlock_spec hbet drafter hdrf d hres with
        ⟨next, tokens, hok, htok, hcom⟩ | ⟨tokens, e, herr, htok, hem, he⟩
      · exact Or.inl ⟨next, tokens, hok, htok.trans hle, hcom⟩
      · refine Or.inr ⟨e, herr, ?_, fun _ => ?_⟩
        · rw [Target.argmax_eq_error he]
          exact fun h => (by cases h)
        · exact serialFrom_of_error hem he (htok.trans_le hle)

/-- **A block that is committed** leaves the serial loop the tokens after its own. -/
theorem Commits.remaining_eq {s next : MtpState D} {tokens : List UInt32}
    (h : Commits target prompt s next tokens) (hbet : Between prompt s) {maxNew : ℕ}
    (hle : tokens.length ≤ maxNew - s.out.length) : remaining target prompt.length maxNew s
      = (tokens ++ ·) <$> remaining target prompt.length maxNew next := by
  have hspl : maxNew - s.out.length = tokens.length + (maxNew - next.out.length) := by
    rw [h.out, length_append]
    omega
  have hlen : prompt.length + next.out.length = prompt.length + s.out.length + tokens.length := by
    rw [h.out, length_append, Nat.add_assoc]
  have hcon : next.consumed ++ [(next.current, prompt.length + next.out.length - 1)]
      = s.consumed ++ [(s.current, prompt.length + s.out.length - 1)]
        ++ tokens.zipIdx (prompt.length + s.out.length) := by
    rw [← h.between.tokens, ← hbet.tokens, h.out, ← append_assoc, zipIdx_append,
      Nat.zero_add, length_append]
  unfold remaining
  rw [hcon, hlen, hspl]
  exact serialFrom_emits h.emits _

/-! ## All blocks -/

/-- **The loop over blocks** emits what the serial loop has still to emit, unless the drafter gives
up. It is not out of fuel, for each block emits a token. -/
theorem mtpLoop_spec {blockCap maxNew : ℕ} (hcap : 1 ≤ blockCap) {fuel : ℕ} {s : MtpState D}
    (hbet : Between prompt s) (hle : s.out.length ≤ maxNew)
    (hfuel : maxNew - s.out.length ≤ fuel) {result : Except (Failure String) (MtpState D)}
    (hres : mtpLoop target drafter prompt.length blockCap maxNew fuel s = result) :
    (∃ last tokens, result = .ok last ∧ remaining target prompt.length maxNew s = .ok tokens ∧
        last.out = s.out ++ tokens) ∨ ∃ e, result = .error e ∧ e ≠ .endless ∧
        (drafter.Works target → remaining target prompt.length maxNew s = .error e) := by
  induction fuel generalizing s with
  | zero =>
    have hzer : maxNew - s.out.length = 0 := Nat.le_zero.mp hfuel
    rw [mtpLoop, if_neg (Nat.not_lt.mpr (Nat.sub_eq_zero_iff_le.mp hzer))] at hres
    refine Or.inl ⟨s, [], hres.symm, ?_, (List.append_nil _).symm⟩
    unfold remaining
    rw [hzer]
    rfl
  | succ fuel ih =>
    rw [mtpLoop] at hres
    split_ifs at hres with hlt
    · cases hbl : mtpBlock target drafter prompt.length blockCap maxNew s with
      | error e =>
        rw [hbl] at hres
        rcases mtpBlock_spec hbet hcap hlt hbl with ⟨_, _, h, -⟩ | ⟨e', he, hsp⟩
        · cases h
        · obtain rfl := Except.error.inj he
          exact Or.inr ⟨e, hres.symm, hsp⟩
      | ok next =>
        rw [hbl, ok_bind] at hres
        rcases mtpBlock_spec hbet hcap hlt hbl with
          ⟨next', tokens, hnex, htok, hcom⟩ | ⟨_, h, -⟩
        · cases hnex
          have hpos : 0 < tokens.length := length_pos_of_ne_nil hcom.nonempty
          have hout : next.out.length = s.out.length + tokens.length := by
            rw [hcom.out, length_append]
          rw [hcom.remaining_eq hbet htok]
          rcases ih hcom.between (by omega) (by omega) hres with
            ⟨last, rest, hok, hrst, hlas⟩ | ⟨e, he, hend, hwor⟩
          · refine Or.inl ⟨last, tokens ++ rest, hok, ?_, ?_⟩
            · rw [hrst]
              rfl
            · rw [hlas, hcom.out, append_assoc]
          · refine Or.inr ⟨e, he, hend, fun h => ?_⟩
            rw [hwor h]
            rfl
        · cases h
    · refine Or.inl ⟨s, [], hres.symm, ?_, (List.append_nil _).symm⟩
      unfold remaining
      rw [Nat.sub_eq_zero_of_le (Nat.not_lt.mp hlt)]
      rfl

/-- **The states between blocks**, from the first token on. -/
inductive Reached (target : Target F) (drafter : Drafter F D) (d : D) (blockCap : ℕ)
    (consumed : List (UInt32 × ℕ)) (logits : List F) (promptLen maxNew : ℕ) : MtpState D → Prop
  | start {current : UInt32} (hmax : maxNew ≠ 0) (hcurrent : target.argmax logits = .ok current) :
    Reached target drafter d blockCap consumed logits promptLen maxNew
      ⟨consumed, d, [current], current⟩
  | block {s next : MtpState D}
    (hreached : Reached target drafter d blockCap consumed logits promptLen maxNew s)
    (hlt : s.out.length < maxNew)
    (hblock : mtpBlock target drafter promptLen blockCap maxNew s = .ok next) :
    Reached target drafter d blockCap consumed logits promptLen maxNew next

theorem between_start (prompt : List UInt32) (d : D) (current : UInt32) :
    Between prompt ⟨prompt.zipIdx, d, [current], current⟩ := by
  refine ⟨cons_ne_nil _ _, ?_⟩
  rw [zipIdx_append, Nat.zero_add, length_singleton, Nat.add_sub_cancel]
  rfl

/-- **Between all blocks** of a run, the prompt and what has been emitted have been consumed, but
for the current token. -/
theorem Reached.between {d : D} {blockCap : ℕ} {logits : List F} {maxNew : ℕ} {s : MtpState D}
    (hcap : 1 ≤ blockCap)
    (h : Reached target drafter d blockCap prompt.zipIdx logits prompt.length maxNew s) :
    Between prompt s := by
  induction h with
  | start => exact between_start _ _ _
  | block _ hlt hbl ih =>
    rcases mtpBlock_spec ih hcap hlt hbl with ⟨next, tokens, hnex, -, hcom⟩ | ⟨_, h, -⟩
    · cases hnex
      exact hcom.between
    · cases h

/-- What has been consumed is the prompt and all but the last of what has been emitted, which is
the current token. -/
theorem Between.consumed_eq {s : MtpState D} (h : Between prompt s) :
    s.consumed = (prompt ++ s.out.dropLast).zipIdx ∧ s.out.getLast? = some s.current := by
  obtain ⟨tokens, last, hout⟩ : ∃ tokens last, s.out = tokens ++ [last] :=
    ⟨_, _, (dropLast_append_getLast h.emitted).symm⟩
  have htok := h.tokens
  rw [hout, ← append_assoc, zipIdx_append, zipIdx_singleton] at htok
  obtain ⟨hcon, hlas⟩ := append_inj' htok rfl
  obtain ⟨hcur, -⟩ := Prod.mk.inj (singleton_inj.mp hlas)
  rw [hout, dropLast_concat, List.getLast?_concat, ← hcon, hcur]
  exact ⟨rfl, rfl⟩

/-- **Decoding in blocks**, against decoding one token at a time from the same logits: the tokens
that are returned are the same, and so is the result, whatever it is, with a drafter that works.
There is always a result. And between any two blocks, the prompt and all tokens that have been
emitted have been consumed, but for the last one. -/
theorem generateFromLogitsMtpBlock_eq (target : Target F) (drafter : Drafter F D) (d : D)
    {blockCap : ℕ} (hcap : 1 ≤ blockCap) (prompt : List UInt32) (logits : List F) (maxNew : ℕ) :
    (drafter.Works target →
      generateFromLogitsMtpBlock target drafter d blockCap prompt.zipIdx logits prompt.length maxNew
        = generateFromLogits target prompt.zipIdx logits prompt.length maxNew) ∧
      (∀ tokens, generateFromLogitsMtpBlock target drafter d blockCap prompt.zipIdx logits
          prompt.length maxNew = .ok tokens →
        generateFromLogits target prompt.zipIdx logits prompt.length maxNew = .ok tokens) ∧
      generateFromLogitsMtpBlock target drafter d blockCap prompt.zipIdx logits prompt.length maxNew
        ≠ .error .endless ∧
      ∀ s, Reached target drafter d blockCap prompt.zipIdx logits prompt.length maxNew s →
        s.consumed = (prompt ++ s.out.dropLast).zipIdx ∧ s.out.getLast? = some s.current := by
  refine and_assoc.mp (and_assoc.mp ⟨?_, fun s h => (h.between hcap).consumed_eq⟩)
  unfold generateFromLogitsMtpBlock generateFromLogits
  cases maxNew with
  | zero => exact ⟨⟨fun _ => rfl, fun tokens h => h⟩, fun h => (by cases h)⟩
  | succ maxNew =>
    rw [if_neg (Nat.succ_ne_zero maxNew), serialFrom_succ]
    cases hcur : target.argmax logits with
    | error =>
      refine ⟨⟨fun _ => rfl, fun tokens h => (by cases h)⟩, fun h => ?_⟩
      cases h
      cases Target.argmax_eq_error hcur
    | ok current =>
      rw [ok_bind, ok_bind]
      dsimp only
      have hrem : serialFrom target maxNew (prompt.length + 1)
          (prompt.zipIdx ++ [(current, prompt.length)])
          (target.logits (prompt.zipIdx ++ [(current, prompt.length)]))
            = remaining target prompt.length (maxNew + 1)
              (⟨prompt.zipIdx, d, [current], current⟩ : MtpState D) := rfl
      rw [hrem]
      have hbet : Between prompt (⟨prompt.zipIdx, d, [current], current⟩ : MtpState D) :=
        between_start prompt d current
      have hone : [current].length ≤ maxNew + 1 := Nat.succ_le_succ (Nat.zero_le maxNew)
      rcases mtpLoop_spec hcap hbet hone (Nat.sub_le (maxNew + 1) _) rfl with
        ⟨last, tokens, hok, htok, hlas⟩ | ⟨e, he, hend, hwor⟩
      · have hlen : tokens.length = maxNew := length_serialFrom htok
        have htak : last.out.take (maxNew + 1) = current :: tokens := by
          rw [hlas]
          exact take_of_length_le (Nat.succ_le_succ hlen.le)
        rw [hok, htok, ok_bind, htak]
        exact ⟨⟨fun _ => rfl, fun l h => h⟩, fun h => (by cases h)⟩
      · rw [he]
        refine ⟨⟨fun h => ?_, fun tokens h => (by cases h)⟩, fun h => hend (Except.error.inj h)⟩
        rw [hwor h]
        rfl

/-- A target that says zero and one by turns. -/
def alternating : Target ℕ :=
  ⟨fun consumed => if consumed.length % 2 = 0 then [1, 0] else [0, 1],
    fun a b => some (compare a b)⟩

/-- A drafter that always says one. -/
def sayOne : Drafter ℕ Unit :=
  ⟨fun _ => [0], fun d _ hidden _ => (.ok ⟨[0, 1], hidden⟩, d), fun d _ => d⟩

theorem sayOne_works : sayOne.Works alternating :=
  ⟨fun _ => cons_ne_nil _ _, fun d _ hidden _ h =>
    ⟨⟨[0, 1], hidden⟩, d, rfl, h, 1, (by decide : alternating.argmax [0, 1] = .ok 1)⟩⟩

/-- Five tokens after a prompt of two, in blocks of three drafts of which some are wrong. -/
theorem generateFromLogitsMtpBlock_alternating :
    generateFromLogitsMtpBlock alternating sayOne () 3 [7, 8].zipIdx [1, 0] [7, 8].length 5
        = generateFromLogits alternating [7, 8].zipIdx [1, 0] [7, 8].length 5 ∧
      generateFromLogits alternating [7, 8].zipIdx [1, 0] [7, 8].length 5
        = .ok [0, 1, 0, 1, 0] := by
  have h := generateFromLogitsMtpBlock_eq alternating sayOne () (Nat.le_add_left 1 2) [7, 8] [1, 0] 5
  exact ⟨h.1 sayOne_works, by decide⟩

end Qwen

end Logan
