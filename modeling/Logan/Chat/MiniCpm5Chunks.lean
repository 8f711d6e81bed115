import Logan.Chat.MiniCpm5

/-!
# Where the stream is cut does not matter

The bytes of an answer arrive in pieces, which may be cut anywhere: in a character, in an
entity, in a tag. What the parser puts out is the same for all of them, once pieces of text
that follow each other are joined.

The reason is that a round only looks at what has been decided. The words that start some
markup are such that none of them starts another one, so that what starts with one of them
is not the beginning of another; and what does not start with a word, and is not a beginning
of it, will never start with it. A text in which there is no markup yet is put out up to its
last whole character, which only moves the place where two pieces are joined.
-/

namespace Logan

open List

namespace MiniCpm5

open Result Streaming

/-! ## Joined deltas -/

/-- A delta in front of others, joined with the first if both are text of the same kind. -/
def joinDelta : Delta → List Delta → List Delta
  | .text s, .text t :: rest => .text (s ++ t) :: rest
  | .reasoning s, .reasoning t :: rest => .reasoning (s ++ t) :: rest
  | d, rest => d :: rest

/-- **Joined deltas**: no text follows a text, and no reasoning a reasoning. -/
def joined (deltas : List Delta) : List Delta := deltas.foldr joinDelta []

theorem joined_append {o a b : List Delta} (h : joined a = joined b) :
    joined (o ++ a) = joined (o ++ b) := by
  unfold joined at h ⊢
  rw [foldr_append, foldr_append, h]

/-- A text in two parts is joined. -/
theorem joined_pushText (reasoning : Bool) (s t : String) (rest : List Delta) :
    joined (pushText reasoning (s ++ t) ++ rest)
      = joined (pushText reasoning s ++ (pushText reasoning t ++ rest)) := by
  by_cases hs : s = ""
  · rw [hs, String.empty_append]
    rfl
  by_cases ht : t = ""
  · rw [ht, String.append_empty]
    rfl
  have hst : s ++ t ≠ "" := fun h => hs (String.append_eq_empty_iff.mp h).1
  unfold pushText
  rw [if_neg hs, if_neg ht, if_neg hst]
  show joined _ = joined _
  unfold joined
  rw [foldr_append, foldr_append, foldr_append]
  generalize rest.foldr joinDelta [] = ds
  cases reasoning with
  | false =>
    match ds with
    | [] => rfl
    | .text u :: rest => exact congrArg (fun v => Delta.text v :: rest) String.append_assoc
    | .reasoning _ :: _ => rfl
    | .toolCallStarted _ :: _ => rfl
    | .toolArgument _ _ :: _ => rfl
    | .toolCallFinished _ :: _ => rfl
  | true =>
    match ds with
    | [] => rfl
    | .reasoning u :: rest =>
      exact congrArg (fun v => Delta.reasoning v :: rest) String.append_assoc
    | .text _ :: _ => rfl
    | .toolCallStarted _ :: _ => rfl
    | .toolArgument _ _ :: _ => rfl
    | .toolCallFinished _ :: _ => rfl

/-! ## Words at the front -/

namespace Parser

variable {p : Parser} {b : List UInt8} {w w' : String} {n i : ℕ}

@[simp] theorem append_state (p : Parser) (b : List UInt8) : (p.append b).state = p.state := rfl

@[simp] theorem append_functionName (p : Parser) (b : List UInt8) :
    (p.append b).functionName = p.functionName := rfl

@[simp] theorem append_arguments (p : Parser) (b : List UInt8) :
    (p.append b).arguments = p.arguments := rfl

@[simp] theorem append_paramName (p : Parser) (b : List UInt8) :
    (p.append b).paramName = p.paramName := rfl

theorem append_nil (p : Parser) : p.append [] = p := by
  unfold append
  rw [List.append_nil]

theorem append_append (p : Parser) (a b : List UInt8) :
    (p.append a).append b = p.append (a ++ b) := by
  unfold append
  rw [append_assoc]

theorem drain_append (h : n ≤ p.size) : (p.append b).drain n = (p.drain n).append b := by
  unfold append drain
  rw [drop_append_of_le_length h]

theorem take_append (h : n ≤ p.size) : (p.append b).pending.take n = p.pending.take n :=
  take_append_of_le_length h

theorem startsWith_append (h : p.startsWith w = true) : (p.append b).startsWith w = true :=
  isPrefixOf_append h

theorem le_of_startsWith (h : p.startsWith w = true) : (ascii w).length ≤ p.size :=
  (List.isPrefixOf_iff_prefix.mp h).length_le

theorem find_append (hw : ascii w ≠ []) (h : p.find w = some i) : (p.append b).find w = some i :=
  findSub?_append hw h b

theorem le_of_find (hw : ascii w ≠ []) (h : p.find w = some i) :
    i + (ascii w).length ≤ p.size := le_of_findSub? hw h

/-- Words none of which starts the other. -/
def Apart (w w' : String) : Prop :=
  ¬ (ascii w).isPrefixOf (ascii w') = true ∧ ¬ (ascii w').isPrefixOf (ascii w) = true

instance (w w' : String) : Decidable (Apart w w') := inferInstanceAs (Decidable (_ ∧ _))

/-- **What starts with a word** does not start with another one, and does not become it. -/
theorem apart_append (h : p.startsWith w = true) (hw : Apart w w') :
    ¬ (p.append b).startsWith w' = true ∧ ¬ (p.append b).mayBecome w' = true := by
  have hst := List.isPrefixOf_iff_prefix.mp (startsWith_append (b := b) h)
  constructor
  · intro hno
    rcases List.prefix_or_prefix_of_prefix hst (List.isPrefixOf_iff_prefix.mp hno) with hle | hle
    · exact hw.1 (List.isPrefixOf_iff_prefix.mpr hle)
    · exact hw.2 (List.isPrefixOf_iff_prefix.mpr hle)
  · intro hno
    rw [mayBecome, Bool.and_eq_true, List.isPrefixOf_iff_prefix] at hno
    exact hw.1 (List.isPrefixOf_iff_prefix.mpr (hst.trans hno.2))

/-- **What does not start with a word**, and does not become it, never does. -/
theorem decided_append (h : ¬ p.startsWith w = true) (h' : ¬ p.mayBecome w = true) :
    ¬ (p.append b).startsWith w = true ∧ ¬ (p.append b).mayBecome w = true := by
  have hst : ¬ p.pending <+: ascii w := by
    intro hno
    by_cases hlen : p.pending.length < (ascii w).length
    · refine h' ?_
      rw [mayBecome, Bool.and_eq_true, decide_eq_true_iff, List.isPrefixOf_iff_prefix]
      exact ⟨hlen, hno⟩
    · refine h (List.isPrefixOf_iff_prefix.mpr ?_)
      rw [hno.eq_of_length_le (not_lt.mp hlen)]
  refine ⟨not_isPrefixOf_append hst h, fun hno => hst ?_⟩
  rw [mayBecome, Bool.and_eq_true, List.isPrefixOf_iff_prefix] at hno
  exact (prefix_append p.pending b).trans hno.2

end Parser

/-! ## Rounds on a longer rest -/

/-- **A round that goes on alike**: on a longer rest, another one fails if this one does, and does
the same if this one is not the last. -/
def GoesOn (b : List UInt8) (x y : Round Parser Delta ParseError) : Prop :=
  match x with
  | .stop _ _ => True
  | .fail _ => ∃ e, y = .fail e
  | .next out p => y = .next out (p.append b)

variable {p : Parser} {b : List UInt8}

variable {reasoning : Bool}

theorem goesOn_emitText {n : ℕ} (hn : n ≤ p.size) :
    GoesOn b (emitText p reasoning n .next) (emitText (p.append b) reasoning n .next) := by
  unfold emitText
  rw [Parser.take_append hn, Parser.drain_append hn]
  cases fromUtf8 (p.pending.take n) with
  | none => exact ⟨_, rfl⟩
  | some => exact rfl

theorem goesOn_openFunction : GoesOn b (openFunction false p) (openFunction true (p.append b)) := by
  unfold openFunction
  cases hst : p.find ">" with
  | none => exact True.intro
  | some stop =>
    have hle : stop + 1 ≤ p.size := Parser.le_of_find (by decide) hst
    rw [Parser.find_append (by decide) hst]
    dsimp only
    rw [Parser.take_append hle, Parser.drain_append hle]
    cases parseFunctionOpen (p.pending.take (stop + 1)) with
    | error e => exact ⟨e, rfl⟩
    | ok => exact rfl

/-- **A function is opened** where its word is: all other words are apart from it. -/
theorem markRound_of_function (final : Bool) (h : p.startsWith "<function" = true) :
    markRound final p false = openFunction final p := by
  have hap : ∀ w, Parser.Apart "<function" w →
      ¬ p.startsWith w = true ∧ ¬ p.mayBecome w = true := by
    intro w hw
    have happ := Parser.apart_append (b := []) h hw
    rwa [Parser.append_nil] at happ
  unfold markRound
  simp only [Bool.not_false, true_and, Bool.false_eq_true, if_false]
  rw [if_neg (hap "<think>" (by decide)).1, if_neg (hap "<reasoning>" (by decide)).1,
    if_neg (not_or.mpr ⟨(hap "<!DOCTYPE" (by decide)).1,
      not_or.mpr ⟨(hap "<!ENTITY" (by decide)).1, (hap "<?xml" (by decide)).1⟩⟩),
    if_neg (not_or.mpr ⟨(hap "<!DOCTYPE" (by decide)).2,
      not_or.mpr ⟨(hap "<!ENTITY" (by decide)).2, (hap "<?xml" (by decide)).2⟩⟩), if_pos h]

/-- A round at a `<` in a text goes on alike. -/
theorem goesOn_markRound_text (hp : p.pending ≠ []) :
    GoesOn b (markRound false p false) (markRound true (p.append b) false) := by
  by_cases h₅ : p.startsWith "<function" = true
  · rw [markRound_of_function false h₅, markRound_of_function true (Parser.startsWith_append h₅)]
    exact goesOn_openFunction
  unfold markRound
  simp only [Bool.not_false, true_and, Bool.false_eq_true, if_false]
  by_cases h₁ : p.startsWith "<think>" = true
  · rw [if_pos h₁, if_pos (Parser.startsWith_append h₁)]
    exact congrArg (fun q : Parser => Round.next [] { q with state := State.reasoning })
      (Parser.drain_append (Parser.le_of_startsWith h₁))
  rw [if_neg h₁]
  by_cases h₂ : p.startsWith "<reasoning>" = true
  · rw [if_pos h₂, if_neg (Parser.apart_append h₂ (by decide)).1,
      if_pos (Parser.startsWith_append h₂)]
    exact congrArg (fun q : Parser => Round.next [] { q with state := State.reasoning })
      (Parser.drain_append (Parser.le_of_startsWith h₂))
  rw [if_neg h₂]
  by_cases h₃ : p.startsWith "<!DOCTYPE" = true ∨ p.startsWith "<!ENTITY" = true ∨
      p.startsWith "<?xml" = true
  · -- a declaration is refused
    rw [if_pos h₃]
    have h₃' := h₃.imp (Parser.startsWith_append (b := b))
      (Or.imp (Parser.startsWith_append (b := b)) (Parser.startsWith_append (b := b)))
    have hap : ¬ (p.append b).startsWith "<think>" = true ∧
        ¬ (p.append b).startsWith "<reasoning>" = true := by
      rcases h₃ with h | h | h <;>
        exact ⟨(Parser.apart_append h (by decide)).1, (Parser.apart_append h (by decide)).1⟩
    rw [if_neg hap.1, if_neg hap.2, if_pos h₃']
    exact ⟨_, rfl⟩
  rw [if_neg h₃]
  by_cases h₄ : p.mayBecome "<!DOCTYPE" = true ∨ p.mayBecome "<!ENTITY" = true ∨
      p.mayBecome "<?xml" = true
  · rw [if_pos h₄]
    exact True.intro
  rw [if_neg h₄, if_neg h₅]
  by_cases h₆ : p.mayBecome "<think>" = true ∨ p.mayBecome "<reasoning>" = true ∨
      p.mayBecome "<function" = true
  · rw [if_pos h₆]
    exact True.intro
  rw [if_neg h₆]
  -- no word is at the front, or may be
  simp only [not_or] at h₃ h₄ h₆
  have hth := Parser.decided_append (b := b) h₁ h₆.1
  have hrsn := Parser.decided_append (b := b) h₂ h₆.2.1
  have hfun := Parser.decided_append (b := b) h₅ h₆.2.2
  have hdoc := Parser.decided_append (b := b) h₃.1 h₄.1
  have hent := Parser.decided_append (b := b) h₃.2.1 h₄.2.1
  have hxml := Parser.decided_append (b := b) h₃.2.2 h₄.2.2
  rw [if_neg hth.1, if_neg hrsn.1, if_neg (not_or.mpr ⟨hdoc.1, not_or.mpr ⟨hent.1, hxml.1⟩⟩),
    if_neg (not_or.mpr ⟨hdoc.2, not_or.mpr ⟨hent.2, hxml.2⟩⟩), if_neg hfun.1,
    if_neg (not_or.mpr ⟨hth.2, not_or.mpr ⟨hrsn.2, hfun.2⟩⟩)]
  exact goesOn_emitText (length_pos_iff.mpr hp)

/-- A round at a `<` in a reasoning goes on alike. -/
theorem goesOn_markRound_reasoning (hp : p.pending ≠ []) :
    GoesOn b (markRound false p true) (markRound true (p.append b) true) := by
  unfold markRound
  simp only [Bool.not_true, Bool.false_eq_true, false_and, if_true, if_false]
  by_cases h₁ : p.startsWith "</think>" = true
  · rw [if_pos h₁, if_pos (Parser.startsWith_append h₁)]
    exact congrArg (fun q : Parser => Round.next [] { q with state := State.text })
      (Parser.drain_append (Parser.le_of_startsWith h₁))
  rw [if_neg h₁]
  by_cases h₂ : p.startsWith "</reasoning>" = true
  · rw [if_pos h₂, if_neg (Parser.apart_append h₂ (by decide)).1,
      if_pos (Parser.startsWith_append h₂)]
    exact congrArg (fun q : Parser => Round.next [] { q with state := State.text })
      (Parser.drain_append (Parser.le_of_startsWith h₂))
  rw [if_neg h₂]
  by_cases h₃ : p.mayBecome "</think>" = true ∨ p.mayBecome "</reasoning>" = true ∨
      p.mayBecome "<function" = true
  · rw [if_pos h₃]
    exact True.intro
  rw [if_neg h₃]
  simp only [not_or] at h₃
  have hth := Parser.decided_append (b := b) h₁ h₃.1
  have hrsn := Parser.decided_append (b := b) h₂ h₃.2.1
  have hfun : ¬ (p.append b).mayBecome "<function" = true := by
    by_cases h₄ : p.startsWith "<function" = true
    · -- the word itself is no beginning of it
      intro hno
      rw [Parser.mayBecome, Bool.and_eq_true, decide_eq_true_iff] at hno
      exact absurd ((Parser.le_of_startsWith (Parser.startsWith_append (b := b) h₄)).trans_lt hno.1)
        (lt_irrefl _)
    · exact (Parser.decided_append h₄ h₃.2.2).2
  rw [if_neg hth.1, if_neg hrsn.1, if_neg (not_or.mpr ⟨hth.2, not_or.mpr ⟨hrsn.2, hfun⟩⟩)]
  exact goesOn_emitText (length_pos_iff.mpr hp)

theorem findIdx?_append_of_some {mark : ℕ} {l : List UInt8} {q : UInt8 → Bool}
    (h : l.findIdx? q = some mark) : (l ++ b).findIdx? q = some mark := by
  rw [List.findIdx?_append, h]
  rfl

theorem le_of_findIdx? {mark : ℕ} {l : List UInt8} {q : UInt8 → Bool}
    (h : l.findIdx? q = some mark) : mark ≤ l.length := by
  obtain ⟨hlt, -⟩ := List.findIdx?_eq_some_iff_getElem.mp h
  exact hlt.le

/-- A round in a text goes on alike. -/
theorem goesOn_textRound (hp : p.pending ≠ []) :
    GoesOn b (textRound false p reasoning) (textRound true (p.append b) reasoning) := by
  unfold textRound
  cases hmar : p.pending.findIdx? (· = 0x3c) with
  | none =>
    -- the part that is put out is a text, so that this is no failure
    have htex : (fromUtf8 (p.pending.take (safeTextPrefix p.pending))).isSome :=
      Nat.findGreatest_spec (P := fun n => (fromUtf8 (p.pending.take n)).isSome = true)
        (Nat.zero_le _) rfl
    obtain ⟨text, htex⟩ := Option.isSome_iff_exists.mp htex
    rw [if_neg Bool.false_ne_true, emitText, htex]
    exact True.intro
  | some mark =>
    have hmar' : (p.append b).pending.findIdx? (· = 0x3c) = some mark :=
      findIdx?_append_of_some hmar
    rw [hmar']
    dsimp only
    by_cases hpos : mark > 0
    · rw [if_pos hpos, if_pos hpos]
      exact goesOn_emitText (le_of_findIdx? hmar)
    · rw [if_neg hpos, if_neg hpos]
      cases reasoning with
      | false => exact goesOn_markRound_text hp
      | true => exact goesOn_markRound_reasoning hp

theorem trimAsciiPrefix_append (p : Parser) (b : List UInt8) :
    trimAsciiPrefix (p.append b) = trimAsciiPrefix ((trimAsciiPrefix p).append b) := by
  refine congrArg (fun bytes => { p with pending := bytes }) ?_
  show (p.pending ++ b).dropWhile _ = (p.pending.dropWhile _ ++ b).dropWhile _
  rw [dropWhile_append, dropWhile_append, dropWhile_idempotent]

/-- What does not start with white space goes on without. -/
theorem trimAsciiPrefix_append_of_ne_nil (h : (trimAsciiPrefix p).pending ≠ []) :
    trimAsciiPrefix (p.append b) = (trimAsciiPrefix p).append b := by
  refine congrArg (fun bytes => { p with pending := bytes }) ?_
  show (p.pending ++ b).dropWhile _ = p.pending.dropWhile _ ++ b
  rw [dropWhile_append]
  exact if_neg fun hno => h (List.isEmpty_iff.mp hno)

/-- A round in a function goes on alike. -/
theorem goesOn_functionRound : GoesOn b (functionRound p) (functionRound (p.append b)) := by
  by_cases hne : (trimAsciiPrefix p).pending = []
  · -- nothing is pending
    have hnot : ∀ w, ascii w ≠ [] → ¬ (trimAsciiPrefix p).startsWith w = true :=
      fun w hw hno => Parser.pending_ne_nil hw hno hne
    have hmay : (trimAsciiPrefix p).mayBecome "</function>" = true := by
      rw [Parser.mayBecome, hne]
      decide
    unfold functionRound
    rw [if_neg (hnot _ (by decide)), if_neg (hnot _ (by decide)), if_pos (Or.inl hmay)]
    exact True.intro
  · unfold functionRound
    rw [trimAsciiPrefix_append_of_ne_nil hne]
    generalize trimAsciiPrefix p = p at hne ⊢
    by_cases h₁ : p.startsWith "</function>" = true
    · rw [if_pos h₁, if_pos (Parser.startsWith_append h₁)]
      rw [Parser.drain_append (Parser.le_of_startsWith h₁), Parser.append_functionName]
      cases p.functionName with
      | none => exact ⟨_, rfl⟩
      | some => exact rfl
    rw [if_neg h₁]
    by_cases h₂ : p.startsWith "<param" = true
    · rw [if_pos h₂, if_neg (Parser.apart_append h₂ (by decide)).1,
        if_pos (Parser.startsWith_append h₂)]
      cases hst : p.find ">" with
      | none => exact True.intro
      | some stop =>
        have hle : stop + 1 ≤ p.size := Parser.le_of_find (by decide) hst
        rw [Parser.find_append (by decide) hst]
        dsimp only
        rw [Parser.take_append hle, Parser.drain_append hle]
        cases parseParamOpen (p.pending.take (stop + 1)) with
        | error e => exact ⟨e, rfl⟩
        | ok => exact rfl
    rw [if_neg h₂]
    by_cases h₃ : p.mayBecome "</function>" = true ∨ p.mayBecome "<param" = true
    · rw [if_pos h₃]
      exact True.intro
    rw [if_neg h₃]
    simp only [not_or] at h₃
    have hcl := Parser.decided_append (b := b) h₁ h₃.1
    have hpar := Parser.decided_append (b := b) h₂ h₃.2
    rw [if_neg hcl.1, if_neg hpar.1, if_neg (not_or.mpr ⟨hcl.2, hpar.2⟩)]
    exact ⟨_, rfl⟩

/-- A round in an argument goes on alike. -/
theorem goesOn_paramRound : GoesOn b (paramRound false p) (paramRound true (p.append b)) := by
  unfold paramRound
  cases hst : p.find "</param>" with
  | none => exact True.intro
  | some stop =>
    have hle := Parser.le_of_find (by decide) hst
    rw [Parser.find_append (by decide) hst]
    dsimp only
    rw [Parser.take_append ((Nat.le_add_right _ _).trans hle), Parser.drain_append hle]
    cases parseParamValue (p.pending.take stop) with
    | error e => exact ⟨e, rfl⟩
    | ok =>
      rw [Parser.append_paramName, Parser.append_arguments]
      cases p.paramName with
      | none => exact ⟨_, rfl⟩
      | some name =>
        dsimp only
        by_cases hdup : (p.arguments name).isSome = true
        · rw [if_pos hdup, if_pos hdup]
          exact ⟨_, rfl⟩
        · rw [if_neg hdup, if_neg hdup]
          exact rfl

/-- **Every round goes on alike.** -/
theorem goesOn_parseRound (p : Parser) (b : List UInt8) :
    GoesOn b (parseRound false p) (parseRound true (p.append b)) := by
  unfold parseRound
  by_cases hp : p.pending = []
  · rw [if_pos hp]
    exact True.intro
  have hp' : (p.append b).pending ≠ [] := fun h => hp (append_eq_nil_iff.mp h).1
  rw [if_neg hp, if_neg hp', Parser.append_state]
  cases p.state with
  | text | reasoning => exact goesOn_textRound hp
  | function => exact goesOn_functionRound
  | param => exact goesOn_paramRound

/-! ## Last rounds -/

/-- **The parser as a reader of a stream.** -/
def machine : Feeder Parser Delta ParseError UInt8 where
  step := parseRound
  size := Parser.size
  shrinks := shrinks_parseRound
  flush := flush
  append := Parser.append

variable {p' : Parser} {out : List Delta}

theorem finish_of_stop (h : parseRound true p = .stop out p') :
    machine.finish p = (flush p').map (out ++ ·) := Feeder.finish_of_stop (m := machine) h

theorem finish_of_fail {e : ParseError} (h : parseRound true p = .fail e) :
    machine.finish p = .error e := Feeder.finish_of_fail (m := machine) h

theorem finish_of_next (h : parseRound true p = .next out p') :
    machine.finish p = (machine.finish p').map (out ++ ·) := Feeder.finish_of_next (m := machine) h

/-- What has the same first round has the same end. -/
theorem finish_congr {q : Parser} (h : parseRound true p = parseRound true q) :
    machine.finish p = machine.finish q := by
  cases hq : parseRound true q with
  | stop => rw [finish_of_stop hq, finish_of_stop (h.trans hq)]
  | fail => rw [finish_of_fail hq, finish_of_fail (h.trans hq)]
  | next out q' => rw [finish_of_next hq, finish_of_next (h.trans hq)]

theorem agree_self (p : Parser) :
    Feeder.Agree joined (machine.finish p) ((machine.finish p).map ([] ++ ·)) := by
  cases machine.finish p with
  | error => exact True.intro
  | ok => exact rfl

theorem emitText_ne_stop {n : ℕ} : emitText p reasoning n .next ≠ .stop out p' := by
  intro h
  unfold emitText at h
  split at h <;> cases h

/-- What a last round at a `<` leaves. -/
theorem markRound_eq_stop (h : markRound false p reasoning = .stop out p') : out = [] ∧ p' = p := by
  have hop : openFunction false p = .stop out p' → out = [] ∧ p' = p := by
    intro hno
    unfold openFunction at hno
    cases hst : p.find ">" with
    | none =>
      rw [hst] at hno
      obtain ⟨rfl, rfl⟩ := Round.stop.inj hno
      exact ⟨rfl, rfl⟩
    | some =>
      rw [hst] at hno
      dsimp only at hno
      split at hno <;> cases hno
  unfold markRound at h
  dsimp only at h
  split_ifs at h
  all_goals
    first
    | exact hop h
    | exact absurd h emitText_ne_stop
    | exact ⟨(Round.stop.inj h).1.symm, (Round.stop.inj h).2.symm⟩

/-- **A text in front of what is pending** is put out before it. -/
theorem finish_text (hst : p.state = if reasoning then .reasoning else .text) {t : String}
    (ht : (utf8 t).findIdx? (· = 0x3c) = none) :
    Feeder.Agree joined (machine.finish { p with pending := utf8 t ++ p.pending })
      ((machine.finish p).map (pushText reasoning t ++ ·)) := by
  by_cases hemp : t = ""
  · subst hemp
    exact agree_self p
  set q : Parser := { p with pending := utf8 t ++ p.pending } with hq
  have hrnd : ∀ p : Parser, p.state = (if reasoning then .reasoning else .text) →
      p.pending ≠ [] → parseRound true p = textRound true p reasoning := by
    intro p hst hp
    rw [parseRound, if_neg hp, hst]
    cases reasoning <;> rfl
  have hpos : 0 < (utf8 t).length := length_pos_iff.mpr fun h => hemp (utf8_eq_nil.mp h)
  have hqr : parseRound true q = textRound true q reasoning :=
    hrnd q hst fun h => hemp (utf8_eq_nil.mp (append_eq_nil_iff.mp h).1)
  have hmar : q.pending.findIdx? (· = 0x3c)
      = (p.pending.findIdx? (· = 0x3c)).map (· + (utf8 t).length) := by
    rw [hq, List.findIdx?_append, ht]
    rfl
  have hdec : ∀ n, fromUtf8 (q.pending.take ((utf8 t).length + n))
      = (fromUtf8 (p.pending.take n)).map (t ++ ·) := by
    intro n
    rw [hq, take_length_add_append, fromUtf8_append]
  have hdr : ∀ n, q.drain ((utf8 t).length + n) = p.drain n := by
    intro n
    refine congrArg (fun bytes => { p with pending := bytes }) ?_
    exact drop_length_add_append n
  cases hfnd : p.pending.findIdx? (· = 0x3c) with
  | none =>
    -- all that is pending is text
    have hlen : q.pending.length = (utf8 t).length + p.pending.length := length_append
    have hqst : parseRound true q = emitText q reasoning q.pending.length .stop := by
      rw [hqr, textRound, hmar, hfnd]
      rfl
    have hpst : parseRound true p = emitText p reasoning p.pending.length .stop := by
      by_cases hnil : p.pending = []
      · rw [parseRound, if_pos hnil, emitText, hnil]
        refine congrArg (Round.stop []) ?_
        show p = { p with pending := p.pending.drop 0 }
        rw [drop_zero]
      · rw [hrnd p hst hnil, textRound, hfnd]
        rfl
    rw [hlen, emitText, hdec, hdr] at hqst
    rw [emitText] at hpst
    cases htex : fromUtf8 (p.pending.take p.pending.length) with
    | none =>
      rw [htex] at hqst hpst
      rw [finish_of_fail hqst, finish_of_fail hpst]
      exact True.intro
    | some v =>
      rw [htex] at hqst hpst
      rw [finish_of_stop hqst, finish_of_stop hpst]
      cases flush (p.drain p.pending.length) with
      | error => exact True.intro
      | ok rest => exact joined_pushText reasoning t v rest
  | some mark =>
    have hqn : parseRound true q = emitText q reasoning ((utf8 t).length + mark) .next := by
      rw [hqr, textRound, hmar, hfnd]
      show (if mark + (utf8 t).length > 0 then _ else _) = _
      rw [if_pos (by omega), Nat.add_comm]
    rw [emitText, hdec, hdr] at hqn
    rcases Nat.eq_zero_or_pos mark with rfl | hmrk
    · -- the text is followed by a `<`
      have hv : fromUtf8 (p.pending.take 0) = some "" := rfl
      have hp : p.drain 0 = p := rfl
      rw [hv, hp] at hqn
      rw [finish_of_next hqn]
      show Feeder.Agree joined ((machine.finish p).map (pushText reasoning (t ++ "") ++ ·)) _
      rw [String.append_empty]
      exact Feeder.Agree.refl _
    · have hne : p.pending ≠ [] := by
        intro h
        rw [h] at hfnd
        cases hfnd
      have hpn : parseRound true p = emitText p reasoning mark .next := by
        rw [hrnd p hst hne, textRound, hfnd]
        exact if_pos hmrk
      rw [emitText] at hpn
      cases htex : fromUtf8 (p.pending.take mark) with
      | none =>
        rw [htex] at hqn hpn
        rw [finish_of_fail hqn, finish_of_fail hpn]
        exact True.intro
      | some v =>
        rw [htex] at hqn hpn
        rw [finish_of_next hqn, finish_of_next hpn]
        cases machine.finish (p.drain mark) with
        | error => exact True.intro
        | ok rest => exact joined_pushText reasoning t v rest

/-- **To stop in a text loses nothing.** -/
theorem agree_textRound (reasoning : Bool) (hst : p.state = if reasoning then .reasoning else .text)
    (h : textRound false p reasoning = .stop out p') :
    Feeder.Agree joined (machine.finish (p.append b))
      ((machine.finish (p'.append b)).map (out ++ ·)) := by
  unfold textRound at h
  cases hmar : p.pending.findIdx? (· = 0x3c) with
  | none =>
    rw [hmar] at h
    dsimp only at h
    rw [if_neg Bool.false_ne_true] at h
    generalize safeTextPrefix p.pending = n at h
    unfold emitText at h
    cases htex : fromUtf8 (p.pending.take n) with
    | none =>
      rw [htex] at h
      cases h
    | some t =>
      rw [htex] at h
      obtain ⟨rfl, rfl⟩ := Round.stop.inj h
      have htak := fromUtf8_eq_some.mp htex
      have hnon : (utf8 t).findIdx? (· = 0x3c) = none := by
        rw [List.findIdx?_eq_none_iff] at hmar ⊢
        exact fun x hx => hmar x (mem_of_mem_take (htak ▸ hx))
      have heq : p.append b
          = { (p.drain n).append b with pending := utf8 t ++ ((p.drain n).append b).pending } := by
        refine congrArg (fun bytes => { p with pending := bytes }) ?_
        show p.pending ++ b = utf8 t ++ (p.pending.drop n ++ b)
        rw [← htak, ← append_assoc, take_append_drop]
      rw [heq]
      exact finish_text (p := (p.drain n).append b) hst hnon
  | some =>
    rw [hmar] at h
    dsimp only at h
    split_ifs at h
    · exact absurd h emitText_ne_stop
    · obtain ⟨rfl, rfl⟩ := markRound_eq_stop h
      exact agree_self _

/-- What a last round in a function leaves. -/
theorem functionRound_eq_stop
    (h : functionRound p = .stop out p') : out = [] ∧ p' = trimAsciiPrefix p := by
  unfold functionRound at h
  dsimp only at h
  split_ifs at h
  · split at h <;> cases h
  · cases hst : (trimAsciiPrefix p).find ">" with
    | none =>
      rw [hst] at h
      exact ⟨(Round.stop.inj h).1.symm, (Round.stop.inj h).2.symm⟩
    | some =>
      rw [hst] at h
      dsimp only at h
      split at h <;> cases h
  · exact ⟨(Round.stop.inj h).1.symm, (Round.stop.inj h).2.symm⟩

/-- What a last round in an argument leaves. -/
theorem paramRound_eq_stop (h : paramRound false p = .stop out p') : out = [] ∧ p' = p := by
  unfold paramRound at h
  cases hst : p.find "</param>" with
  | none =>
    rw [hst] at h
    exact ⟨(Round.stop.inj h).1.symm, (Round.stop.inj h).2.symm⟩
  | some =>
    rw [hst] at h
    dsimp only at h
    split at h
    · cases h
    · split at h
      · cases h
      · split_ifs at h

/-- **White space before the next element is nothing.** -/
theorem agree_trimAsciiPrefix (hst : p.state = .function) (hp : p.pending ≠ []) :
    Feeder.Agree joined (machine.finish (p.append b))
      ((machine.finish ((trimAsciiPrefix p).append b)).map ([] ++ ·)) := by
  have hrnd : ∀ q : Parser, q.state = .function → q.pending ≠ [] →
      parseRound true q = functionRound q := by
    intro q hq hne
    rw [parseRound, if_neg hne, hq]
  have hlef : (p.append b).pending ≠ [] := fun h => hp (append_eq_nil_iff.mp h).1
  have hsam : functionRound (p.append b) = functionRound ((trimAsciiPrefix p).append b) := by
    unfold functionRound
    rw [trimAsciiPrefix_append]
  by_cases hrig : ((trimAsciiPrefix p).append b).pending = []
  · -- there is only white space: both readers fail at the end
    have hfl : ∀ q : Parser, q.state = .function → trimAsciiPrefix q = { q with pending := [] } →
        ∃ e, machine.finish q = .error e := by
      intro q hq htr
      have hfls : ∀ bytes, flush { q with pending := bytes }
          = .error (.truncated "function call is not closed") := by
        intro bytes
        unfold flush
        rw [hq]
      by_cases hne : q.pending = []
      · refine ⟨.truncated "function call is not closed", ?_⟩
        rw [finish_of_stop (show parseRound true q = .stop [] q from if_pos hne)]
        exact congrArg (Except.map _) (hfls q.pending)
      · have hstp : parseRound true q = .stop [] { q with pending := [] } := by
          rw [hrnd q hq hne, functionRound, htr]
          rfl
        refine ⟨.truncated "function call is not closed", ?_⟩
        rw [finish_of_stop hstp]
        exact congrArg (Except.map _) (hfls [])
    obtain ⟨htr, hb⟩ := append_eq_nil_iff.mp hrig
    have htr' : trimAsciiPrefix ((trimAsciiPrefix p).append b)
        = { (trimAsciiPrefix p).append b with pending := [] } := by
      refine congrArg (fun bytes => { p with pending := bytes }) ?_
      rw [hrig]
      rfl
    obtain ⟨e, he⟩ := hfl ((trimAsciiPrefix p).append b) hst htr'
    obtain ⟨e', he'⟩ := hfl (p.append b) hst (by
      rw [trimAsciiPrefix_append, htr']
      rfl)
    rw [he, he']
    exact True.intro
  · rw [finish_congr ((hrnd (p.append b) hst hlef).trans
      (hsam.trans (hrnd ((trimAsciiPrefix p).append b) hst hrig).symm))]
    exact agree_self _

/-- **The parser does not see cuts.** -/
theorem seamless : machine.Seamless joined where
  view_append _ _ _ := joined_append
  append_nil := Parser.append_nil
  append_append := Parser.append_append
  next p out p' h b := by
    have hgs := goesOn_parseRound p b
    rwa [show parseRound false p = .next out p' from h] at hgs
  fail p e h b := by
    have hgs := goesOn_parseRound p b
    rwa [show parseRound false p = .fail e from h] at hgs
  stop p out p' h b := by
    have h : parseRound false p = .stop out p' := h
    show Feeder.Agree joined (machine.finish (p.append b))
      ((machine.finish (p'.append b)).map (out ++ ·))
    unfold parseRound at h
    split_ifs at h with hp
    · obtain ⟨rfl, rfl⟩ := Round.stop.inj h
      exact agree_self _
    cases hst : p.state with
    | text =>
      rw [hst] at h
      exact agree_textRound false hst h
    | reasoning =>
      rw [hst] at h
      exact agree_textRound true hst h
    | function =>
      rw [hst] at h
      obtain ⟨rfl, rfl⟩ := functionRound_eq_stop h
      exact agree_trimAsciiPrefix hst hp
    | param =>
      rw [hst] at h
      obtain ⟨rfl, rfl⟩ := paramRound_eq_stop h
      exact agree_self _

/-! ## Streams in pieces -/

theorem parsePieces_eq_read (p : Parser) (pieces : List (List UInt8)) :
    StreamParser.parsePieces ⟨p, false⟩ pieces = machine.read p pieces := by
  induction pieces generalizing p with
  | nil =>
    show (StreamParser.finish ⟨p, false⟩ >>= _) = (parse true p).bind _
    unfold StreamParser.finish
    rw [if_neg Bool.false_ne_true]
    cases parse true p with
    | error => rfl
    | ok r =>
      show ((flush r.2 >>= _) >>= _) = (flush r.2).map _
      cases flush r.2 <;> rfl
  | cons piece pieces ih =>
    show (StreamParser.feed ⟨p, false⟩ piece >>= _) = (parse false (p.append piece)).bind _
    unfold StreamParser.feed
    rw [refuse_of_not Bool.false_ne_true, ok_bind]
    cases parse false (p.append piece) with
    | error => rfl
    | ok r =>
      show (StreamParser.parsePieces ⟨r.2, false⟩ pieces >>= _) = (machine.read r.2 pieces).map _
      rw [ih]
      cases machine.read r.2 pieces <;> rfl

theorem agree_finish (pieces : List (List UInt8)) :
    Feeder.Agree joined (StreamParser.new.parsePieces pieces)
      (machine.finish (StreamParser.new.parser.append pieces.flatten)) := by
  rw [StreamParser.new, parsePieces_eq_read]
  exact seamless.read _ pieces

/-- **Where the stream is cut does not matter.** Pieces of the same bytes are both refused, or
their deltas are the same when they are joined; and the loop ends, whatever is pending. -/
theorem parsePieces_agree (pieces pieces' : List (List UInt8))
    (h : pieces.flatten = pieces'.flatten) :
    Feeder.Agree joined (StreamParser.new.parsePieces pieces)
        (StreamParser.new.parsePieces pieces') ∧
      ∀ final p, (rounds (parseRound final) (p.size + 1) p).isSome :=
  ⟨(agree_finish pieces).trans (h ▸ (agree_finish pieces').symm),
    fun final p => isSome_rounds (shrinks_parseRound final) (Nat.lt_succ_self p.size)⟩

/-- A thought, a text and a call are accepted, also if the tags are cut. -/
theorem parsePieces_agree_call :
    (StreamParser.new.parsePieces [ascii "<think>a</think>b<function name='f'></function>"]
      ).toOption.isSome = true ∧
    Feeder.Agree joined
      (StreamParser.new.parsePieces [ascii "<thi", ascii "nk>a</thin", ascii "k>b<func",
        ascii "tion name='f'></function>"])
      (StreamParser.new.parsePieces [ascii "<think>a</think>b<function name='f'></function>"]) :=
  ⟨by decide +kernel, (parsePieces_agree [ascii "<thi", ascii "nk>a</thin", ascii "k>b<func",
    ascii "tion name='f'></function>"]
    [ascii "<think>a</think>b<function name='f'></function>"] (by decide +kernel)).1⟩

end MiniCpm5

end Logan
