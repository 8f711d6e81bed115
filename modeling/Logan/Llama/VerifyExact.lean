import Logan.Llama.Verify

/-!
# A verified block is what would have been decoded

The loop over the drafts has three ways out: a draft that is not the prediction, an
end of sequence, and the cap. It is shown which drafts have been accepted when it
ends, namely the longest beginning that agrees with the predictions, that holds an
end of sequence nowhere but at its end, and that fits the cap; and what the caller
finds then. An end of sequence and the cap leave no anchor behind, and where there
is one, it is what the last retained row predicts. It may well be a token that the
retained drafts hold too.
-/

namespace Logan

open List

namespace Llama

variable {predictions drafts : List UInt32} {options : VerificationOptions}

/-- Some drafts that may be accepted: they agree with the predictions and fit the cap, and there
is an end of sequence at their end only. -/
def Acceptable (predictions drafts eos : List UInt32) (cap n : ℕ) : Prop :=
  n ≤ drafts.length ∧ n ≤ cap ∧ drafts.take n = predictions.take n ∧
    ∀ d ∈ drafts.take (n - 1), d ∉ eos

/-- An end of sequence or the cap has ended the block. -/
def Ended (drafts eos : List UInt32) (cap n : ℕ) : Prop :=
  n = cap ∨ ∃ d ∈ drafts.take n, d ∈ eos

/-- **What the verification of a block has to find.** -/
structure Verified (predictions drafts eos : List UInt32) (cap : ℕ)
    (result : VerificationResult) : Prop where
  noError : result.error = none
  accepted : IsGreatest {n | Acceptable predictions drafts eos cap n} result.acceptedDrafts
  retained : result.retainedRows = 1 + result.acceptedDrafts
  /-- Whatever is not accepted has been rejected because of a mismatch, or comes after the end. -/
  mismatch : result.allMatch = false ↔
    result.acceptedDrafts < drafts.length ∧ ¬ Ended drafts eos cap result.acceptedDrafts
  emitted : result.emitted = drafts.take result.acceptedDrafts ++
    if result.allMatch = false then predictions[result.acceptedDrafts]?.toList else []
  emitted_le : result.emitted.length ≤ cap
  eos_last : ∀ d ∈ result.emitted.dropLast, d ∉ eos
  ended : Ended drafts eos cap result.acceptedDrafts → result.nextAnchor = none
  anchor : ¬ Ended drafts eos cap result.acceptedDrafts → ∃ token,
    predictions[result.acceptedDrafts]? = some token ∧ result.nextAnchor = some token

/-- **Where the loop ends.** The drafts before are accepted and no end of sequence, and after them
there is no draft, one that is not predicted, or one after which the block ends. -/
theorem exists_end (eos : List UInt32) {cap : ℕ} (hcap : 0 < cap)
    (hlen : drafts.length < predictions.length) :
    ∃ accepted rest prediction more, drafts = accepted ++ rest ∧
      predictions = accepted ++ prediction :: more ∧ (∀ d ∈ accepted, d ∉ eos) ∧
      accepted.length < cap ∧ ∀ draft later, rest = draft :: later →
        prediction ≠ draft ∨ draft ∈ eos ∨ accepted.length + 1 = cap := by
  induction drafts generalizing predictions cap with
  | nil =>
    obtain ⟨prediction, more, rfl⟩ := exists_cons_of_length_pos hlen
    exact ⟨[], [], prediction, more, rfl, rfl, fun _ hd => absurd hd not_mem_nil, hcap,
      fun _ _ h => absurd h (cons_ne_nil _ _).symm⟩
  | cons draft drafts ih =>
    obtain ⟨prediction, more, rfl⟩ := exists_cons_of_length_pos (Nat.zero_lt_of_lt hlen)
    by_cases hend : prediction ≠ draft ∨ draft ∈ eos ∨ 0 + 1 = cap
    · refine ⟨[], draft :: drafts, prediction, more, rfl, rfl,
        fun _ hd => absurd hd not_mem_nil, hcap, ?_⟩
      rintro d later ⟨rfl, rfl⟩
      exact hend
    · rw [not_or, not_or, not_not] at hend
      obtain ⟨rfl, heos, hone⟩ := hend
      obtain ⟨accepted, rest, next, more, rfl, rfl, hnon, hrm, hres⟩ :=
        @ih more (cap - 1) (by omega) (Nat.lt_of_succ_lt_succ hlen)
      refine ⟨prediction :: accepted, rest, next, more, rfl, rfl,
        forall_mem_cons.mpr ⟨heos, hnon⟩, ?_, fun d later h => ?_⟩
      · rw [length_cons]
        omega
      · refine (hres d later h).imp_right (Or.imp_right fun heq => ?_)
        rw [length_cons]
        omega

theorem ended_append {accepted rest eos : List UInt32} {cap : ℕ} :
    Ended (accepted ++ rest) eos cap accepted.length
      ↔ accepted.length = cap ∨ ∃ d ∈ accepted, d ∈ eos := by
  rw [Ended, take_left]

/-- **Nothing more is acceptable** once the block has ended, and before a draft that is not
predicted. -/
theorem isGreatest_accepted {accepted rest more eos : List UInt32} {cap : ℕ}
    (hnon : ∀ d ∈ accepted.dropLast, d ∉ eos) (hrm : accepted.length ≤ cap)
    (hend : Ended (accepted ++ rest) eos cap accepted.length ∨
      ∀ draft later, rest = draft :: later → more.head? ≠ some draft) :
    IsGreatest {n | Acceptable (accepted ++ more) (accepted ++ rest) eos cap n}
      accepted.length := by
  refine ⟨⟨by rw [length_append]; omega, hrm, by rw [take_left, take_left], fun d hd => ?_⟩,
    fun n hn => ?_⟩
  · rw [take_append_of_le_length (Nat.sub_le _ _), ← dropLast_eq_take] at hd
    exact hnon d hd
  · obtain ⟨hle, hcap, htak, hbef⟩ := hn
    by_contra hlt
    rw [not_le] at hlt
    rw [ended_append] at hend
    obtain (heq | ⟨d, hd, heos⟩) | hres := hend
    · exact absurd hcap (not_le.mpr (heq ▸ hlt))
    · have hins : d ∈ (accepted ++ rest).take (n - 1) := by
        rw [take_append, take_of_length_le (Nat.le_sub_one_of_lt hlt)]
        exact mem_append_left _ hd
      exact hbef d hins heos
    · obtain ⟨draft, later, rfl⟩ : ∃ draft later, rest = draft :: later := by
        rw [length_append] at hle
        exact exists_cons_of_length_pos (by omega)
      have hget := congrArg (·[accepted.length]?) htak
      simp only [getElem?_take_of_lt hlt, getElem?_append_right le_rfl, Nat.sub_self,
        getElem?_cons_zero] at hget
      rw [← head?_eq_getElem?] at hget
      exact hres draft later rfl hget.symm

/-- The block has been ended by an end of sequence or by the cap. -/
theorem verified_ended {accepted later more eos : List UInt32} {cap : ℕ} {c : Comparison}
    (hbef : ∀ d ∈ accepted.dropLast, d ∉ eos) (hrm : accepted.length ≤ cap)
    (hend : accepted.length = cap ∨ ∃ d ∈ accepted, d ∈ eos)
    (hacc : c.accepted = accepted.length) (hem : c.emitted = accepted)
    (hanc : c.nextAnchor = none) (hmat : c.allMatch = true)
    (hst : c.stoppedOnEos = true ∨ c.capReached = true) :
    Verified (accepted ++ more) (accepted ++ later) eos cap
      (resultOf (accepted ++ more) (accepted ++ later) c) := by
  have hcpl : (c.allMatch && !c.stoppedOnEos && !c.capReached) = false := by
    obtain h | h := hst
    · rw [h, Bool.not_true, Bool.and_false, Bool.false_and]
    · rw [h, Bool.not_true, Bool.and_false]
  have hend : Ended (accepted ++ later) eos cap accepted.length := ended_append.mpr hend
  unfold resultOf
  rw [hcpl]
  rw [if_neg (by rintro ⟨⟨⟩, -⟩), hmat, hacc, hem, hanc]
  refine ⟨rfl, isGreatest_accepted hbef hrm (.inl hend), rfl,
    iff_of_false Bool.noConfusion fun h => h.2 hend, ?_, hrm, hbef, fun _ => rfl,
    fun h => absurd hend h⟩
  show accepted = take accepted.length _ ++ []
  rw [take_left, append_nil]

/-- **Verifying a block is exact.** -/
theorem verifyGreedyWithOptions_verified (hlength : drafts.length < predictions.length)
    (hcontrol : options.control = .continue) (hcap : options.outputCap ≠ some 0) :
    Verified predictions drafts options.eosTokenIds (options.outputCap.getD usizeMax)
      (verifyGreedyWithOptions predictions drafts options) := by
  have hpos : 0 < options.outputCap.getD usizeMax := by
    cases h : options.outputCap with
    | none => norm_num [usizeMax]
    | some => exact Nat.pos_of_ne_zero fun hzer => hcap (h.trans (congrArg some hzer))
  obtain ⟨accepted, rest, prediction, more, rfl, rfl, hnon, hrm, hres⟩ :=
    exists_end options.eosTokenIds hpos hlength
  unfold verifyGreedyWithOptions
  rw [if_neg (by rw [hcontrol]; exact DecodeControl.noConfusion), if_neg (not_lt.mpr hlength.le)]
  rw [if_neg hpos.ne', compareRows_append _ _ _ hnon (by rwa [length_nil, Nat.zero_add])]
  generalize options.outputCap.getD usizeMax = cap at hpos hrm hres ⊢
  rw [Nat.zero_add, nil_append]
  have hop : ¬ Ended (accepted ++ rest) options.eosTokenIds cap accepted.length := by
    intro hend
    obtain heq | ⟨d, hd, heos⟩ := ended_append.mp hend
    · exact hrm.ne heq
    · exact hnon d hd heos
  have hbef : ∀ d ∈ accepted.dropLast, d ∉ options.eosTokenIds := fun d hd =>
    hnon d (mem_of_mem_dropLast hd)
  have hpr : (accepted ++ prediction :: more)[accepted.length]? = some prediction :=
    by rw [getElem?_append_right le_rfl, Nat.sub_self, getElem?_cons_zero]
  cases rest with
  | nil =>
    have hgr : IsGreatest {n | Acceptable (accepted ++ prediction :: more)
        (accepted ++ []) options.eosTokenIds cap n} accepted.length :=
      isGreatest_accepted hbef hrm.le (.inr fun _ _ h => absurd h (cons_ne_nil _ _).symm)
    rw [append_nil] at hop hgr ⊢
    rw [compareRows]
    · unfold resultOf
      rw [hpr, if_neg (by rintro ⟨-, ⟨⟩⟩)]
      refine ⟨rfl, hgr, Nat.add_comm _ _, iff_of_false Bool.noConfusion fun h => h.1.ne rfl,
        ?_, hrm.le, hbef, fun hend => absurd hend hop,
        fun _ => ⟨prediction, hpr, rfl⟩⟩
      show accepted = take accepted.length accepted ++ []
      rw [take_length, append_nil]
    · rintro _ _ _ _ ⟨⟩
  | cons draft later =>
    by_cases hne : prediction ≠ draft
    · rw [compareRows, if_pos hne]
      rw [if_pos hrm]
      have hgr : IsGreatest {n | Acceptable (accepted ++ prediction :: more)
          (accepted ++ draft :: later) options.eosTokenIds cap n} accepted.length :=
        isGreatest_accepted hbef hrm.le (.inr fun d l h => by
          rw [head?_cons, ← (cons.inj h).1]
          exact fun heq => hne (Option.some.inj heq))
      have hrej : accepted.length < (accepted ++ draft :: later).length := by
        rw [length_append, length_cons]
        omega
      refine ⟨rfl, hgr, rfl, iff_of_true rfl ⟨hrej, hop⟩, ?_, ?_, fun d hd => ?_,
        fun hend => absurd hend hop, fun _ => ⟨prediction, hpr, rfl⟩⟩
      · rw [if_pos (show (resultOf _ _ _).allMatch = false from rfl)]
        show accepted ++ [prediction] = take accepted.length _ ++
          Option.toList (_ : List _)[accepted.length]?
        rw [take_left, hpr]
        rfl
      · show (accepted ++ [prediction]).length ≤ cap
        rwa [length_append]
      · have hd : d ∈ (accepted ++ [prediction]).dropLast := hd
        rw [dropLast_concat] at hd
        exact hnon d hd
    · obtain rfl := not_not.mp hne
      have hlas := hres prediction later rfl
      rw [ne_self_iff_false, false_or] at hlas
      rw [compareRows, if_neg hne]
      rw [if_neg (not_le.mpr hrm), append_cons accepted prediction later,
        append_cons accepted prediction more]
      have hlong : (accepted ++ [prediction]).length = accepted.length + 1 := length_append
      have hbef : ∀ d ∈ (accepted ++ [prediction]).dropLast, d ∉ options.eosTokenIds := by
        rwa [dropLast_concat]
      have hrm : (accepted ++ [prediction]).length ≤ cap := hlong.trans_le hrm
      by_cases heos : prediction ∈ options.eosTokenIds
      · rw [if_pos (contains_iff_mem.mpr heos)]
        exact verified_ended hbef hrm
          (.inr ⟨prediction, mem_append_right _ mem_cons_self, heos⟩) hlong.symm rfl rfl rfl
          (.inl rfl)
      · have hful := hlong.trans (hlas.resolve_left heos)
        rw [if_neg (mt contains_iff_mem.mp heos), if_pos hful]
        exact verified_ended hbef hrm (.inl hful) hlong.symm rfl rfl rfl (.inr rfl)

/-- A draft is right, one is wrong, and what is predicted in its place ends the sequence. -/
theorem verifyGreedyWithOptions_verified_eos : Verified [4, 9, 6] [4, 5] [9] 2
    (verifyGreedyWithOptions [4, 9, 6] [4, 5] ⟨[9], some 2, .continue⟩) :=
  @verifyGreedyWithOptions_verified _ _ ⟨[9], some 2, .continue⟩ (by decide) rfl (by decide)

/-- **There may be no anchor after all drafts have been accepted**, and it may be the token of a
retained draft. -/
theorem verifyGreedyWithOptions_anchor :
    (verifyGreedyWithOptions [9, 6] [9] ⟨[9], none, .continue⟩).acceptedDrafts = 1 ∧
    (verifyGreedyWithOptions [9, 6] [9] ⟨[9], none, .continue⟩).nextAnchor = none ∧
    (verifyGreedyWithOptions [5, 5] [5] ⟨[9], none, .continue⟩).acceptedDrafts = 1 ∧
    (verifyGreedyWithOptions [5, 5] [5] ⟨[9], none, .continue⟩).nextAnchor = some 5 := by
  decide

end Llama

end Logan
