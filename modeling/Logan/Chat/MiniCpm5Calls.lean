import Logan.Chat.MiniCpm5Chunks

/-!
# Calls are read back

A call is written as an element with its name, and with an element for each of its arguments
inside. Names and values are escaped with the five entities, or a value is put into a
section of character data. The parser gives back the name and the values
(`readsBack_of_allowed`), however the bytes are cut.

The ends of tags and of arguments are searched before entities and sections are interpreted.
An escaped text has no `<`, `>` or quote, so that no end is found in it. A section may have
anything in it but its own end, with two exceptions: a declaration is refused wherever it
appears, and the end of an argument is its end.
-/

namespace Logan

open List Option Function

namespace MiniCpm5

open Result Streaming

/-! ## Escaped texts -/

/-- The name of the entity for a character. -/
def entityName (c : Char) : Option (List Char) :=
  if c = '&' then some "amp".toList
  else if c = '<' then some "lt".toList
  else if c = '>' then some "gt".toList
  else if c = '"' then some "quot".toList
  else if c = '\'' then some "apos".toList
  else none

/-- A character, or its entity. -/
def escapeChar (c : Char) : List Char :=
  match entityName c with
  | none => [c]
  | some entity => '&' :: (entity ++ [';'])

/-- **A text with the five entities** in place of their characters. -/
def escape (text : List Char) : List Char := text.flatMap escapeChar

@[simp] theorem escape_cons (c : Char) (text : List Char) :
    escape (c :: text) = escapeChar c ++ escape text := rfl

theorem escapeChar_of_none {c : Char} (h : entityName c = none) : escapeChar c = [c] := by
  unfold escapeChar
  rw [h]

theorem escapeChar_of_some {c : Char} {entity : List Char} (h : entityName c = some entity) :
    escapeChar c = '&' :: (entity ++ [';']) := by
  unfold escapeChar
  rw [h]

/-- **The entity of a character**: its value is the character, and it is a word of letters. -/
theorem entityName_eq_some {c : Char} {entity : List Char} (h : entityName c = some entity) :
    entityValue entity = some c ∧ entity.all Char.isAlpha = true := by
  unfold entityName at h
  split_ifs at h with h₁ h₂ h₃ h₄ h₅
  all_goals
    cases some.inj h
    subst c
    decide

/-- A character that has an entity is not in an escaped text, if it is not that of entities. -/
theorem notMem_escape {d : Char} (hnam : (entityName d).isSome = true) (hamp : d ≠ '&')
    (text : List Char) : d ∉ escape text := by
  have hsem : d ≠ ';' := by
    rintro rfl
    cases hnam
  have halp : ¬ d.isAlpha = true := by
    intro halp
    obtain ⟨entity, hent⟩ := isSome_iff_exists.mp hnam
    unfold entityName at hent
    split_ifs at hent
    all_goals
      subst d
      cases halp
  unfold escape
  rw [mem_flatMap]
  rintro ⟨c, -, hd⟩
  cases hc : entityName c with
  | none =>
    rw [escapeChar_of_none hc, mem_singleton] at hd
    rw [hd, hc] at hnam
    cases hnam
  | some =>
    rw [escapeChar_of_some hc, mem_cons, mem_append, mem_singleton] at hd
    rcases hd with hd | hd | hd
    · exact hamp hd
    · exact halp (all_eq_true.mp (entityName_eq_some hc).2 d hd)
    · exact hsem hd

/-! ## Entities are decoded -/

section Decode

variable {text before rest entity rest' : List Char} {value : Char}

theorem decodeEntities_of_none (h : splitAtFirst (· = '&') text = none) :
    decodeEntities text = .ok text := by
  rw [decodeEntities]
  split
  · rfl
  · next heq => cases h.symm.trans heq

theorem decodeEntities_of_unterminated (h : splitAtFirst (· = '&') text = some (before, rest))
    (hend : splitAtFirst (· = ';') rest = none) :
    decodeEntities text = .error (.malformed "unterminated entity") := by
  rw [decodeEntities]
  split
  · next heq => cases h.symm.trans heq
  · next heq =>
    obtain ⟨rfl, rfl⟩ := Prod.mk.inj (some.inj (h.symm.trans heq))
    split
    · rfl
    · next heq' => cases hend.symm.trans heq'

theorem decodeEntities_of_some (h : splitAtFirst (· = '&') text = some (before, rest))
    (hend : splitAtFirst (· = ';') rest = some (entity, rest')) :
    decodeEntities text = (entityValue entity).elim (.error .externalEntity) fun value =>
      (decodeEntities rest').map fun decoded => before ++ value :: decoded := by
  rw [decodeEntities]
  split
  · next heq => cases h.symm.trans heq
  · next heq =>
    obtain ⟨rfl, rfl⟩ := Prod.mk.inj (some.inj (h.symm.trans heq))
    split
    · next heq' => cases hend.symm.trans heq'
    · next heq' =>
      obtain ⟨rfl, rfl⟩ := Prod.mk.inj (some.inj (hend.symm.trans heq'))
      cases entityValue entity <;> rfl

/-- Another character is taken over. -/
theorem decodeEntities_cons {c : Char} (hc : c ≠ '&') (text : List Char) :
    decodeEntities (c :: text) = (decodeEntities text).map (c :: ·) := by
  have hspl : splitAtFirst (· = '&') (c :: text)
      = (splitAtFirst (· = '&') text).map fun q => (c :: q.1, q.2) := by
    rw [splitAtFirst, decide_eq_false hc, if_neg Bool.false_ne_true]
  cases h : splitAtFirst (· = '&') text with
  | none =>
    rw [h] at hspl
    rw [decodeEntities_of_none h, decodeEntities_of_none hspl]
    rfl
  | some q =>
    rw [h] at hspl
    cases hend : splitAtFirst (· = ';') q.2 with
    | none =>
      rw [decodeEntities_of_unterminated h hend, decodeEntities_of_unterminated hspl hend]
      rfl
    | some q' =>
      rw [decodeEntities_of_some h hend, decodeEntities_of_some hspl hend]
      cases entityValue q'.1 with
      | none => rfl
      | some =>
        show Except.map _ _ = Except.map _ (Except.map _ _)
        cases decodeEntities q'.2 <;> rfl

theorem decodeEntities_entity (h : entityValue entity = some value) (hend : ';' ∉ entity)
    (text : List Char) :
    decodeEntities ('&' :: (entity ++ ';' :: text)) = (decodeEntities text).map (value :: ·) := by
  have hst : splitAtFirst (· = '&') ('&' :: (entity ++ ';' :: text))
      = some ([], entity ++ ';' :: text) := rfl
  have hstp : splitAtFirst (· = ';') (entity ++ ';' :: text) = some (entity, text) :=
    splitAtFirst_append (fun d hd => decide_eq_false fun hno => hend (hno ▸ hd)) rfl
  rw [decodeEntities_of_some hst hstp, h]
  rfl

end Decode

/-- **What is escaped is decoded.** -/
theorem decodeEntities_escape (text : List Char) : decodeEntities (escape text) = .ok text := by
  induction text with
  | nil => exact decodeEntities_of_none rfl
  | cons c text ih =>
    rw [escape_cons]
    cases hc : entityName c with
    | none =>
      have hamp : c ≠ '&' := by
        rintro rfl
        cases hc
      rw [escapeChar_of_none hc, singleton_append, decodeEntities_cons hamp, ih]
      rfl
    | some =>
      obtain ⟨hval, halp⟩ := entityName_eq_some hc
      rw [escapeChar_of_some hc, cons_append, append_assoc, singleton_append,
        decodeEntities_entity hval fun hno => Bool.false_ne_true (all_eq_true.mp halp ';' hno),
        ih]
      rfl

/-! ## White space around a text -/

/-- **A text without white space around it**: neither its first character nor its last is one. -/
theorem trim_eq_self {text : List Char} :
    trim text = text ↔ (∀ c rest, text = c :: rest → isWhitespace c = false) ∧
      ∀ rest c, text = rest ++ [c] → isWhitespace c = false := by
  have hst : text.dropWhile isWhitespace = text
      ↔ ∀ c rest, text = c :: rest → isWhitespace c = false := by
    rw [dropWhile_eq_self_iff]
    constructor
    · rintro h c rest rfl
      exact Bool.eq_false_iff.mpr (h (Nat.succ_pos _))
    · intro h hlen
      cases text with
      | nil => cases hlen
      | cons c rest => exact Bool.eq_false_iff.mp (h c rest rfl)
  have hend : text.rdropWhile isWhitespace = text
      ↔ ∀ rest c, text = rest ++ [c] → isWhitespace c = false := by
    rw [rdropWhile_eq_self_iff]
    constructor
    · rintro h rest c rfl
      have hlas := h (append_ne_nil_of_right_ne_nil rest (cons_ne_nil c []))
      rw [getLast_concat] at hlas
      exact Bool.eq_false_iff.mpr hlas
    · intro h hne
      exact Bool.eq_false_iff.mp (h _ _ (dropLast_append_getLast hne).symm)
  rw [← hst, ← hend]
  constructor
  · intro h
    have hsuf := dropWhile_suffix isWhitespace (l := text)
    have hprefix_le := (List.rdropWhile_prefix isWhitespace (text.dropWhile isWhitespace)).length_le
    have hdr : text.dropWhile isWhitespace = text := by
      refine hsuf.eq_of_length_le ?_
      rwa [← congrArg List.length h]
    refine ⟨hdr, ?_⟩
    rwa [trim, trimStart, hdr] at h
  · rintro ⟨hdr, hrdr⟩
    rw [trim, trimStart, hdr, hrdr]

/-- Escaping puts no white space around a text. -/
theorem trim_escape {text : List Char} (h : trim text = text) :
    trim (escape text) = escape text := by
  obtain ⟨hfst, hlas⟩ := trim_eq_self.mp h
  refine trim_eq_self.mpr ⟨fun c rest heq => ?_, fun rest c heq => ?_⟩
  · cases text with
    | nil => cases heq
    | cons d text =>
      rw [escape_cons] at heq
      cases hd : entityName d with
      | none =>
        rw [escapeChar_of_none hd] at heq
        exact (List.cons.inj heq).1 ▸ hfst d text rfl
      | some =>
        rw [escapeChar_of_some hd] at heq
        exact (List.cons.inj heq).1 ▸ rfl
  · rcases eq_nil_or_concat text with rfl | ⟨text, d, rfl⟩
    · exact absurd heq.symm (append_ne_nil_of_right_ne_nil rest (cons_ne_nil c []))
    · have hesc : escape (text ++ [d]) = escape text ++ escapeChar d := by
        unfold escape
        rw [flatMap_append, flatMap_singleton]
      rw [concat_eq_append, hesc] at heq
      cases hd : entityName d with
      | none =>
        rw [escapeChar_of_none hd] at heq
        have hc := singleton_inj.mp (append_inj_right' heq rfl)
        exact hc ▸ hlas text d concat_eq_append
      | some =>
        rw [escapeChar_of_some hd, ← cons_append, ← append_assoc] at heq
        have hc := singleton_inj.mp (append_inj_right' heq rfl)
        exact hc ▸ rfl

/-! ## Words that are not in a text -/

theorem contains_eq_false {text : List Char} {pattern : String} (hne : pattern.toList ≠ []) :
    contains text pattern = false ↔ ¬ pattern.toList <:+: text := by
  unfold contains
  rw [isSome_eq_false_iff, isNone_iff_eq_none, findSub?_eq_none hne]

/-- A declaration starts with a `<`. -/
theorem hasDeclaration_of_notMem {text : List Char} (h : '<' ∉ text) :
    hasDeclaration text = false := by
  have hword : ∀ pattern : String, '<' ∈ pattern.toList → contains text pattern = false :=
    fun pattern hmem => (contains_eq_false (ne_nil_of_mem hmem)).mpr
      fun hno => h (hno.subset hmem)
  unfold hasDeclaration
  rw [hword _ (by decide), hword _ (by decide), hword _ (by decide)]
  rfl

/-- A `<` only starts a declaration if a `!` or `?` comes after it. -/
theorem hasDeclaration_cons {c : Char} {text : List Char} (hban : c ≠ '!') (hqst : c ≠ '?')
    (h : '<' ∉ c :: text) : hasDeclaration ('<' :: c :: text) = false := by
  have hword : ∀ (pattern : String) (d : Char) (rest : List Char),
      pattern.toList = '<' :: d :: rest → d ≠ c → contains ('<' :: c :: text) pattern = false := by
    intro pattern d rest hpat hd
    rw [contains_eq_false (hpat ▸ cons_ne_nil '<' (d :: rest)), hpat,
      infix_cons_iff, cons_prefix_cons, cons_prefix_cons]
    rintro (⟨-, heq, -⟩ | hno)
    · exact hd heq
    · exact h (hno.subset mem_cons_self)
  unfold hasDeclaration
  rw [hword _ _ _ rfl hban.symm, hword _ _ _ rfl hban.symm, hword _ _ _ rfl hqst.symm]
  rfl

/-! ## Tags -/

/-- `word name="…"` -/
def tagText (word name : String) : List Char :=
  word.toList ++ ' ' :: ("name=\"".toList ++ (escape name.toList ++ ['"']))

/-- `<word name="…">` -/
def openTag (word name : String) : List Char := '<' :: (tagText word name ++ ['>'])

/-- A word without markup or white space. -/
def PlainWord (word : String) : Prop :=
  word.toList ≠ [] ∧ ∀ c ∈ word.toList, c ∉ ['<', '>', '!', '?'] ∧ isWhitespace c = false

instance (word : String) : Decidable (PlainWord word) :=
  haveI := List.decidableBAll (fun c => c ∉ ['<', '>', '!', '?'] ∧ isWhitespace c = false)
    word.toList
  inferInstanceAs (Decidable (_ ∧ _))

/-- The attribute of a tag is read. -/
theorem parseAttributes_name (name : List Char) :
    parseAttributes ("name=\"".toList ++ (escape name ++ ['"'])).length
        ("name=\"".toList ++ (escape name ++ ['"'])) (fun _ => none)
      = .ok (update (fun _ => none) "name" (some (String.ofList name))) := by
  have hquote : '"' ∉ escape name := notMem_escape rfl (by decide) name
  have hattribute : parseAttribute ("name=\"".toList ++ (escape name ++ ['"']))
      = .ok (("name", String.ofList name), []) := by
    have hkey : ("name=\"".toList ++ (escape name ++ ['"'])).takeWhile
        (fun c => !(isAsciiWhitespace c || c = '=')) = "name".toList := rfl
    have hvalue : okOr (stripPrefix? ['=']
          (trimStart (("name=\"".toList ++ (escape name ++ ['"'])).drop "name".toList.length)))
        (.malformed "attribute must use =")
          = Except.ok (ε := ParseError) ('"' :: (escape name ++ ['"'])) := rfl
    have htrim : trimStart ('"' :: (escape name ++ ['"'])) = '"' :: (escape name ++ ['"']) := rfl
    have hsplit : splitAtFirst (· = '"') (escape name ++ ['"']) = some (escape name, []) :=
      splitAtFirst_append (fun d hd => decide_eq_false fun hno => hquote (hno ▸ hd)) rfl
    unfold parseAttribute
    rw [hkey]
    dsimp only
    rw [refuse_of_not (by decide), ok_bind, hvalue, ok_bind, htrim]
    dsimp only
    rw [refuse_of_not (by decide), ok_bind, hsplit, okOr_some, ok_bind]
    rw [decodeEntities_escape, ok_bind]
    rfl
  have hlength : ("name=\"".toList ++ (escape name ++ ['"'])).length
      = (escape name ++ ['"']).length + 5 + 1 := by
    rw [length_append, Nat.add_comm]
    rfl
  rw [hlength, parseAttributes, if_neg nofun, hattribute, ok_bind]
  dsimp only
  rw [refuse_of_not (by decide), ok_bind]
  rfl

section Tag

variable {word : String} (hword : PlainWord word) (name : String)
include hword

theorem lt_notMem_tagText : '<' ∉ tagText word name := by
  unfold tagText
  simp only [mem_append, mem_cons, not_or]
  exact ⟨fun hno => (hword.2 '<' hno).1 (by decide), by decide, by decide,
    notMem_escape rfl (by decide) _, by decide, by decide⟩

theorem gt_notMem_tagText : '>' ∉ tagText word name := by
  unfold tagText
  simp only [mem_append, mem_cons, not_or]
  exact ⟨fun hno => (hword.2 '>' hno).1 (by decide), by decide, by decide,
    notMem_escape rfl (by decide) _, by decide, by decide⟩

omit hword in
variable (word) in
theorem tagText_eq_concat : ∃ text, tagText word name = text ++ ['"'] :=
  ⟨word.toList ++ ' ' :: ("name=\"".toList ++ escape name.toList), by
    rw [tagText, append_assoc, cons_append, append_assoc]⟩

theorem hasDeclaration_openTag : hasDeclaration (openTag word name) = false := by
  have hlt : '<' ∉ tagText word name ++ ['>'] := by
    rw [mem_append, not_or]
    exact ⟨lt_notMem_tagText hword name, by decide⟩
  obtain ⟨c, rest, hcon⟩ := exists_cons_of_ne_nil hword.1
  have hc := (hword.2 c (hcon ▸ mem_cons_self)).1
  unfold openTag
  unfold tagText at hlt ⊢
  rw [hcon] at hlt ⊢
  refine hasDeclaration_cons ?_ ?_ hlt
  · rintro rfl
    exact hc (by decide)
  · rintro rfl
    exact hc (by decide)

/-- **A tag is read.** -/
theorem parseTag_openTag : parseTag (openTag word name) word
    = .ok (update (fun _ => none) "name" (some name)) := by
  obtain ⟨text, hconcat⟩ := tagText_eq_concat word name
  have hstrip : stripPrefix? ['<'] (openTag word name) >>= stripSuffix? ['>']
      = some (tagText word name) := by
    have hfront : stripPrefix? ['<'] (openTag word name) = some (tagText word name ++ ['>']) :=
      stripPrefix?_append ['<'] _
    rw [hfront]
    exact stripSuffix?_append ['>'] _
  have hslash : stripSuffix? ['/'] (tagText word name) = none := by
    refine if_neg fun hno => ?_
    obtain ⟨rest, hrest⟩ := isSuffixOf_iff_suffix.mp hno
    rw [hconcat] at hrest
    cases append_inj_right' hrest rfl
  have htrim : trim (tagText word name) = tagText word name := by
    refine trim_eq_self.mpr ⟨fun c rest heq => ?_, fun rest c heq => ?_⟩
    · obtain ⟨d, w, hcons⟩ := exists_cons_of_ne_nil hword.1
      rw [tagText, hcons] at heq
      exact (List.cons.inj heq).1 ▸ (hword.2 d (hcons ▸ mem_cons_self)).2
    · rw [hconcat] at heq
      exact singleton_inj.mp (append_inj_right' heq rfl) ▸ rfl
  have hsplit : splitAtFirst isWhitespace (tagText word name)
      = some (word.toList, "name=\"".toList ++ (escape name.toList ++ ['"'])) :=
    splitAtFirst_append (fun c hc => (hword.2 c hc).2) rfl
  have hrest : trim ("name=\"".toList ++ (escape name.toList ++ ['"']))
      = "name=\"".toList ++ (escape name.toList ++ ['"']) := by
    refine trim_eq_self.mpr ⟨fun c rest heq => ?_, fun rest c heq => ?_⟩
    · exact (List.cons.inj heq).1 ▸ rfl
    · rw [← append_assoc] at heq
      exact singleton_inj.mp (append_inj_right' heq rfl) ▸ rfl
  unfold parseTag
  rw [hasDeclaration_openTag hword, refuse_of_not Bool.false_ne_true, ok_bind, hstrip, okOr_some,
    ok_bind, hslash]
  dsimp only [getD_none]
  rw [htrim, hsplit]
  dsimp only [getD_some]
  rw [refuse_of_not (not_not_intro rfl), ok_bind, hrest, parseAttributes_name, String.ofList_toList]

theorem parseName_openTag (missing : String) (hnam : name ≠ "") :
    parseName (encode (openTag word name)) word missing = .ok name := by
  unfold parseName
  rw [fromUtf8_encode, okOr_some, ok_bind, String.toList_ofList, parseTag_openTag hword, ok_bind,
    update_self, filter_some, if_pos (decide_eq_true hnam)]
  rfl

end Tag

/-! ## Values -/

/-- **How a value is written**: escaped, or in a section of character data. -/
inductive Body where
  | escaped (value : String)
  | cdata (value : String)

namespace Body

/-- The value. -/
def value : Body → String
  | escaped value => value
  | cdata value => value

/-- What stands between the tags. -/
def text : Body → List Char
  | escaped value => escape value.toList
  | cdata value => "<![CDATA[".toList ++ (value.toList ++ "]]>".toList)

/-- **What can be written**: a value without white space around it, if it is escaped; and in a
section anything but the end of a section, the end of an argument, and a declaration. -/
def Allowed : Body → Prop
  | escaped value => trim value.toList = value.toList
  | cdata value => contains value.toList "]]>" = false ∧ contains value.toList "</param>" = false ∧
      hasDeclaration value.toList = false

/-- **A word of markup** occurs in a section if it occurs in the value: it is not at the beginning
of the section, and goes not into its end. -/
theorem infix_of_infix_cdata {value : String} {c d : Char} {rest : List Char}
    (hst : c ≠ '!' ∨ d ≠ '[') (hend : ']' ∉ c :: d :: rest)
    (h : '<' :: c :: d :: rest <:+: (cdata value).text) :
    '<' :: c :: d :: rest <:+: value.toList := by
  have hspl : (cdata value).text
      = '<' :: '!' :: '[' :: ("CDATA[".toList ++ (value.toList ++ ']' :: "]>".toList)) := rfl
  rw [hspl, infix_cons_iff] at h
  rcases h with hat | h
  · rw [cons_prefix_cons, cons_prefix_cons, cons_prefix_cons] at hat
    obtain ⟨-, rfl, rfl, -⟩ := hat
    rcases hst with h | h <;> exact absurd rfl h
  · refine infix_of_infix_append (a := '<') (b := ']') (r := "]>".toList) ?_ (by decide) ?_
    · rw [mem_cons, not_or]
      exact ⟨by decide, hend⟩
    · have hsk : ∀ (front : List Char) {text : List Char}, '<' ∉ front →
          '<' :: c :: d :: rest <:+: front ++ text → '<' :: c :: d :: rest <:+: text := by
        intro front text hfr hinf
        induction front with
        | nil => exact hinf
        | cons e front ih =>
          rw [cons_append, infix_cons_iff, cons_prefix_cons] at hinf
          rcases hinf with ⟨heq, -⟩ | hinf
          · exact absurd (heq ▸ mem_cons_self) hfr
          · exact ih (fun hno => hfr (mem_cons_of_mem e hno)) hinf
      exact hsk "![CDATA[".toList (by decide) h

variable {body : Body}

theorem Allowed.closes (h : body.Allowed) :
    ∀ value, body = .cdata value → contains value.toList "</param>" = false := by
  rintro value rfl
  exact h.2.1

/-- What is written has no declaration in it. -/
theorem hasDeclaration_text (h : body.Allowed) : hasDeclaration body.text = false := by
  cases body with
  | escaped value => exact hasDeclaration_of_notMem (notMem_escape rfl (by decide) value.toList)
  | cdata =>
    obtain ⟨-, -, h⟩ := h
    unfold hasDeclaration at h ⊢
    rw [Bool.or_eq_false_iff, Bool.or_eq_false_iff] at h ⊢
    obtain ⟨⟨hdoc, hent⟩, hxml⟩ := h
    rw [contains_eq_false (by decide)] at hdoc hent hxml
    rw [contains_eq_false (by decide), contains_eq_false (by decide), contains_eq_false (by decide)]
    exact ⟨⟨fun hno => hdoc (infix_of_infix_cdata (Or.inr (by decide)) (by decide) hno),
      fun hno => hent (infix_of_infix_cdata (Or.inr (by decide)) (by decide) hno)⟩,
      fun hno => hxml (infix_of_infix_cdata (Or.inl (by decide)) (by decide) hno)⟩

/-- A section has the declarations of its value. -/
theorem hasDeclaration_cdata {value : String} (h : hasDeclaration value.toList = true) :
    hasDeclaration (cdata value).text = true := by
  have hword : ∀ pattern : String, pattern.toList ≠ [] → contains value.toList pattern = true →
      contains (cdata value).text pattern = true := by
    intro pattern hne hval
    by_contra hno
    rw [Bool.not_eq_true, contains_eq_false hne] at hno
    rw [← Bool.not_eq_false, contains_eq_false hne, not_not] at hval
    exact hno (hval.trans ⟨"<![CDATA[".toList, "]]>".toList, append_assoc _ _ _⟩)
  unfold hasDeclaration at h ⊢
  rw [Bool.or_eq_true, Bool.or_eq_true] at h ⊢
  exact h.imp (Or.imp (hword _ (by decide)) (hword _ (by decide))) (hword _ (by decide))

/-- **A value is read.** -/
theorem parseParamValue_text (h : body.Allowed) :
    parseParamValue (encode body.text) = .ok body.value := by
  unfold parseParamValue
  rw [fromUtf8_encode, okOr_some, ok_bind, String.toList_ofList, hasDeclaration_text h,
    refuse_of_not Bool.false_ne_true, ok_bind]
  cases body with
  | escaped value =>
    have hlt : '<' ∉ escape value.toList := notMem_escape rfl (by decide) value.toList
    have hcd : stripPrefix? "<![CDATA[".toList (escape value.toList) = none :=
      if_neg fun hno => hlt ((List.isPrefixOf_iff_prefix.mp hno).subset (by decide))
    have hcon : contains (escape value.toList) "<![CDATA[" = false :=
      (contains_eq_false (by decide)).mpr fun hno => hlt (hno.subset (by decide))
    dsimp only [text]
    rw [trim_escape h, hcd]
    rw [hcon, refuse_of_not (not_or.mpr ⟨Bool.false_ne_true, hlt⟩), ok_bind, decodeEntities_escape]
    show Except.ok (String.ofList value.toList) = .ok value
    rw [String.ofList_toList]
  | cdata value =>
    have htr : trim (cdata value).text = (cdata value).text := by
      refine trim_eq_self.mpr ⟨fun c rest heq => ?_, fun rest c heq => ?_⟩
      · exact (List.cons.inj heq).1 ▸ rfl
      · have hcnc : (cdata value).text
            = ("<![CDATA[".toList ++ (value.toList ++ "]]".toList)) ++ ['>'] := by
          rw [append_assoc, append_assoc]
          rfl
        rw [hcnc] at heq
        exact singleton_inj.mp (append_inj_right' heq rfl) ▸ rfl
    have hfr : stripPrefix? "<![CDATA[".toList (cdata value).text
        = some (value.toList ++ "]]>".toList) := stripPrefix?_append _ _
    dsimp only
    rw [htr, hfr]
    dsimp only
    rw [stripSuffix?_append, okOr_some, ok_bind, h.1, refuse_of_not Bool.false_ne_true, ok_bind]
    show Except.ok (String.ofList value.toList) = .ok value
    rw [String.ofList_toList]

/-- **The end of an argument** is found where it is. -/
theorem find_paramEnd (h : ∀ value, body = .cdata value → contains value.toList "</param>" = false)
    (bytes : List UInt8) : findSub? (ascii "</param>")
      (encode body.text ++ (ascii "</param>" ++ bytes))
      = some (encode body.text).length := by
  cases body with
  | escaped value =>
    have hlt : '<' ∉ escape value.toList := notMem_escape rfl (by decide) value.toList
    exact findSub?_of_notMem fun hno => hlt ((mem_encode_iff (c := '<') (by decide)).mp hno)
  | cdata value =>
    have hend := h value rfl
    rw [contains_eq_false (by decide)] at hend
    have hcon : encode (cdata value).text
        = encode ("<![CDATA[".toList ++ (value.toList ++ "]]".toList)) ++ [0x3e] := by
      have htex : (cdata value).text
          = ("<![CDATA[".toList ++ (value.toList ++ "]]".toList)) ++ ['>'] := by
        rw [append_assoc, append_assoc]
        rfl
      rw [htex, encode_append]
      rfl
    have hword : ascii "</param>" = encode "</param>".toList := ascii_eq_encode (by decide)
    rw [hcon]
    refine findSub?_of_not_infix (by decide) ?_ (by decide)
    rw [← hcon, hword]
    exact fun hno => hend (infix_of_infix_cdata (Or.inl (by decide)) (by decide)
      (infix_of_encode (by decide) (by decide) hno))

end Body

/-! ## Calls -/

/-- `<param name="…">…</param>` -/
def renderArgument (argument : String × Body) : List Char :=
  openTag "param" argument.1 ++ (argument.2.text ++ "</param>".toList)

/-- **A call**: an element with an element for each of its arguments. -/
def renderCall (name : String) (arguments : List (String × Body)) : List Char :=
  openTag "function" name ++ (arguments.flatMap renderArgument ++ "</function>".toList)

/-- The arguments of a call, as a map. -/
def argumentsOf (arguments : List (String × Body)) : String → Option String :=
  fun key => (arguments.lookup key).map Body.value

/-- The calls that are completed. -/
def completedCalls (deltas : List Delta) : List ToolCall :=
  deltas.filterMap fun
    | .toolCallFinished call => some call
    | _ => none

/-- **A call is read back**, in whatever pieces its bytes arrive: it is the only one that is
completed. -/
def ReadsBack (name : String) (arguments : List (String × Body)) : Prop :=
  ∀ pieces : List (List UInt8), pieces.flatten = encode (renderCall name arguments) →
    ∃ deltas, StreamParser.new.parsePieces pieces = .ok deltas ∧
      completedCalls deltas = [⟨name, argumentsOf arguments⟩]

/-! ## The rounds of a call -/

/-- **A tag is found** where it is, with what is behind it. -/
theorem find_openTag {word : String} (hword : PlainWord word) {name : String} {bytes : List UInt8}
    {p : Parser} (hp : p.pending = encode (openTag word name) ++ bytes) :
    ∃ stop, p.find ">" = some stop ∧ p.pending.take (stop + 1) = encode (openTag word name) ∧
      p.pending.drop (stop + 1) = bytes := by
  have hcon : encode (openTag word name) = encode ('<' :: tagText word name) ++ ascii ">" := by
    rw [openTag, ← cons_append, encode_append]
    rfl
  have hgt : (0x3e : UInt8) ∉ encode ('<' :: tagText word name) := by
    intro hno
    rcases mem_cons.mp ((mem_encode_iff (c := '>') (by decide)).mp hno) with h | h
    · cases h
    · exact gt_notMem_tagText hword name h
  have hlen : (encode ('<' :: tagText word name)).length + 1
      = (encode (openTag word name)).length := by
    rw [hcon, length_append]
    rfl
  refine ⟨(encode ('<' :: tagText word name)).length, ?_, ?_⟩
  · rw [Parser.find, hp, hcon, append_assoc]
    exact findSub?_of_notMem hgt
  · rw [hlen, hp]
    exact ⟨take_left, drop_left⟩

theorem startsWith_openTag {word start : String} (hst : start.toList = '<' :: word.toList)
    (hasc : IsAscii start.toList) {name : String} {bytes : List UInt8} {p : Parser}
    (hp : p.pending = encode (openTag word name) ++ bytes) : p.startsWith start = true := by
  refine List.isPrefixOf_iff_prefix.mpr ?_
  rw [hp, ascii_eq_encode hasc, hst, openTag, tagText, append_assoc, ← cons_append,
    encode_append, append_assoc]
  exact prefix_append _ _

section Rounds

variable {name : String} {bytes : List UInt8} {functionName paramName : Option String}
  {arguments : String → Option String}

/-- **A function is opened.** -/
theorem finish_function (hnam : name ≠ "") :
    machine.finish ⟨encode (openTag "function" name) ++ bytes, .text, functionName, arguments,
        paramName⟩ = (machine.finish ⟨bytes, .function, some name, fun _ => none, paramName⟩).map
          ([.toolCallStarted name] ++ ·) := by
  refine finish_of_next ?_
  set p : Parser := ⟨encode (openTag "function" name) ++ bytes, .text, functionName, arguments,
    paramName⟩
  have hfr : p.startsWith "<function" = true := startsWith_openTag rfl (by decide) rfl
  have hne : p.pending ≠ [] := Parser.pending_ne_nil (by decide) hfr
  obtain ⟨stop, hfin, htak, hdr⟩ := find_openTag (by decide : PlainWord "function") (p := p) rfl
  have hpar : parseFunctionOpen (encode (openTag "function" name)) = .ok name :=
    parseName_openTag (by decide) name _ hnam
  have hrnd : parseRound true p = markRound true p false := by
    rw [parseRound, if_neg hne]
    rfl
  rw [hrnd, markRound_of_function true hfr, openFunction, hfin]
  dsimp only
  rw [htak, hpar]
  rw [Parser.drain, hdr]

/-- **The name of an argument** is read. -/
theorem finish_paramOpen (hnam : name ≠ "") :
    machine.finish ⟨encode (openTag "param" name) ++ bytes, .function, functionName, arguments,
        paramName⟩ = machine.finish ⟨bytes, .param, functionName, arguments, some name⟩ := by
  set p : Parser := ⟨encode (openTag "param" name) ++ bytes, .function, functionName, arguments,
    paramName⟩
  have hfr : p.startsWith "<param" = true := startsWith_openTag rfl (by decide) rfl
  have hne : p.pending ≠ [] := Parser.pending_ne_nil (by decide) hfr
  obtain ⟨stop, hfin, htak, hdr⟩ := find_openTag (by decide : PlainWord "param") (p := p) rfl
  have hpar : parseParamOpen (encode (openTag "param" name)) = .ok name :=
    parseName_openTag (by decide) name _ hnam
  have htr : trimAsciiPrefix p = p := rfl
  have hcl : ¬ p.startsWith "</function>" = true := by
    have hap := Parser.apart_append (b := []) hfr (by decide : Parser.Apart "<param" "</function>")
    rw [Parser.append_nil] at hap
    exact hap.1
  have hrnd : parseRound true p = .next [] ⟨bytes, .param, functionName, arguments, some name⟩ := by
    rw [parseRound, if_neg hne]
    show functionRound p = _
    unfold functionRound
    rw [htr]
    rw [if_neg hcl, if_pos hfr, hfin]
    dsimp only
    rw [htak, hpar]
    rw [Parser.drain, hdr]
  rw [finish_of_next hrnd]
  cases machine.finish ⟨bytes, .param, functionName, arguments, some name⟩ <;> rfl

/-- **The value of an argument** is what comes before its end. -/
theorem find_argument (body : Body)
    (hcl : ∀ value, body = .cdata value → contains value.toList "</param>" = false) {p : Parser}
    (hp : p.pending = encode (body.text ++ "</param>".toList) ++ bytes) :
    p.pending ≠ [] ∧ p.find "</param>" = some (encode body.text).length ∧
      p.pending.take (encode body.text).length = encode body.text ∧
      p.pending.drop ((encode body.text).length + (ascii "</param>").length) = bytes := by
  have hpen : p.pending = encode body.text ++ (ascii "</param>" ++ bytes) := by
    rw [hp, encode_append, append_assoc]
    rfl
  refine ⟨?_, ?_, ?_, ?_⟩
  · rw [hpen]
    exact append_ne_nil_of_right_ne_nil _ nofun
  · rw [Parser.find, hpen]
    exact Body.find_paramEnd hcl bytes
  · rw [hpen, take_left]
  · rw [hpen, ← append_assoc, ← length_append, drop_left]

/-- **An argument is read.** -/
theorem finish_param {body : Body} (hbod : body.Allowed) (hfr : arguments name = none) :
    machine.finish ⟨encode (body.text ++ "</param>".toList) ++ bytes, .param, functionName,
        arguments, some name⟩ = (machine.finish ⟨bytes, .function, functionName,
          update arguments name (some body.value), none⟩).map
            ([.toolArgument name body.value] ++ ·) := by
  refine finish_of_next ?_
  set p : Parser := ⟨encode (body.text ++ "</param>".toList) ++ bytes, .param, functionName,
    arguments, some name⟩
  obtain ⟨hne, hfin, htak, hdr⟩ := find_argument body hbod.closes (p := p) rfl
  have hnam : p.paramName = some name := rfl
  have hnon : p.arguments name = none := hfr
  rw [parseRound, if_neg hne]
  show paramRound true p = _
  unfold paramRound
  rw [hfin]
  dsimp only
  rw [htak, Body.parseParamValue_text hbod]
  rw [hnam]
  dsimp only
  rw [hnon, isSome_none, if_neg Bool.false_ne_true, Parser.drain, hdr]

/-- **A declaration is refused**, in a section as well. -/
theorem finish_param_of_declaration {value : String}
    (hcl : contains value.toList "</param>" = false) (hdec : hasDeclaration value.toList = true) :
    machine.finish ⟨encode ((Body.cdata value).text ++ "</param>".toList) ++ bytes, .param,
        functionName, arguments, some name⟩ = .error .externalEntity := by
  refine finish_of_fail ?_
  set p : Parser := ⟨encode ((Body.cdata value).text ++ "</param>".toList) ++ bytes, .param,
    functionName, arguments, some name⟩
  obtain ⟨hne, hfin, htak, -⟩ := find_argument (.cdata value)
    (fun value' heq => Body.cdata.inj heq ▸ hcl) (p := p) rfl
  have href : parseParamValue (encode (Body.cdata value).text) = .error .externalEntity := by
    unfold parseParamValue
    rw [fromUtf8_encode, okOr_some, ok_bind, String.toList_ofList,
      refuse_of (Body.hasDeclaration_cdata hdec)]
    rfl
  rw [parseRound, if_neg hne]
  show paramRound true p = _
  unfold paramRound
  rw [hfin]
  dsimp only
  rw [htak, href]

/-- **The end of a call**, and of the stream. -/
theorem finish_functionEnd :
    machine.finish ⟨encode "</function>".toList, .function, some name, arguments, paramName⟩
      = .ok [.toolCallFinished ⟨name, arguments⟩] := by
  have hrnd : parseRound true
      ⟨encode "</function>".toList, .function, some name, arguments, paramName⟩
        = .next [.toolCallFinished ⟨name, arguments⟩]
            ⟨[], .text, none, fun _ => none, paramName⟩ := rfl
  have hlas : parseRound true ⟨[], .text, none, fun _ => none, paramName⟩
      = .stop [] ⟨[], .text, none, fun _ => none, paramName⟩ := rfl
  rw [finish_of_next hrnd, finish_of_stop hlas]
  rfl

/-- **All arguments are read**, and the end of the call. -/
theorem finish_arguments {params : List (String × Body)} (hkys : ∀ e ∈ params, e.1 ≠ "")
    (hdis : (params.map Prod.fst).Nodup) (hall : ∀ e ∈ params, e.2.Allowed)
    (hfr : ∀ e ∈ params, arguments e.1 = none) :
    machine.finish ⟨encode (params.flatMap renderArgument ++ "</function>".toList), .function,
        some name, arguments, paramName⟩
      = .ok ((params.map fun e => .toolArgument e.1 e.2.value) ++
          [.toolCallFinished ⟨name, fun key => (argumentsOf params key).or (arguments key)⟩]) := by
  induction params generalizing arguments paramName with
  | nil => exact finish_functionEnd
  | cons e params ih =>
    have hbytes : encode ((e :: params).flatMap renderArgument ++ "</function>".toList)
        = encode (openTag "param" e.1) ++ (encode (e.2.text ++ "</param>".toList) ++
            encode (params.flatMap renderArgument ++ "</function>".toList)) := by
      rw [flatMap_cons, renderArgument, ← encode_append, ← encode_append, append_assoc,
        append_assoc]
    obtain ⟨hnot, hres⟩ := nodup_cons.mp hdis
    have hne : ∀ e' ∈ params, e'.1 ≠ e.1 := fun e' he' heq =>
      hnot (heq ▸ mem_map_of_mem he')
    rw [hbytes, finish_paramOpen (hkys e mem_cons_self),
      finish_param (hall e mem_cons_self) (hfr e mem_cons_self),
      ih (fun e' he' => hkys e' (mem_cons_of_mem e he')) hres
        (fun e' he' => hall e' (mem_cons_of_mem e he')) fun e' he' => by
          rw [update_of_ne (hne e' he')]
          exact hfr e' (mem_cons_of_mem e he')]
    have harg : (fun key => (argumentsOf params key).or
          (update arguments e.1 (some e.2.value) key))
        = fun key => (argumentsOf (e :: params) key).or (arguments key) := by
      funext key
      unfold argumentsOf
      rw [lookup_cons]
      by_cases hkey : key = e.1
      · have hlkp : params.lookup e.1 = none := by
          rw [List.lookup_eq_none_iff]
          exact fun e' he' => bne_iff_ne.mpr (hne e' he').symm
        rw [hkey, hlkp, update_self, beq_self_eq_true]
        rfl
      · rw [update_of_ne hkey, beq_false_of_ne hkey]
    rw [harg]
    rfl

end Rounds

/-! ## Whole calls -/

/-- A call is read at the end of a stream. -/
theorem finish_renderCall {name : String} {params : List (String × Body)} (hnam : name ≠ "")
    (hkey : ∀ e ∈ params, e.1 ≠ "") (hdis : (params.map Prod.fst).Nodup)
    (hall : ∀ e ∈ params, e.2.Allowed) :
    machine.finish (StreamParser.new.parser.append (encode (renderCall name params)))
      = .ok (.toolCallStarted name :: ((params.map fun e => .toolArgument e.1 e.2.value) ++
          [.toolCallFinished ⟨name, argumentsOf params⟩])) := by
  have hpar : StreamParser.new.parser.append (encode (renderCall name params))
      = ⟨encode (openTag "function" name) ++
          encode (params.flatMap renderArgument ++ "</function>".toList),
        .text, none, fun _ => none, none⟩ := by
    rw [← encode_append]
    rfl
  rw [hpar, finish_function hnam, finish_arguments hkey hdis hall fun _ _ => rfl]
  have harg : (fun key => (argumentsOf params key).or none) = argumentsOf params :=
    funext fun key => or_none
  rw [harg]
  rfl

/-- Joining texts leaves the completed calls as they are. -/
theorem completedCalls_joined (deltas : List Delta) :
    completedCalls (joined deltas) = completedCalls deltas := by
  have hjn : ∀ (d : Delta) (rest : List Delta),
      completedCalls (joinDelta d rest) = completedCalls (d :: rest) := by
    intro d rest
    cases d <;> cases rest with
    | nil => rfl
    | cons d' => cases d' <;> rfl
  induction deltas with
  | nil => rfl
  | cons d deltas ih =>
    show completedCalls (joinDelta d (joined deltas)) = _
    rw [hjn]
    unfold completedCalls at ih ⊢
    rw [filterMap_cons, filterMap_cons, ih]

/-- **Calls are read back**, in whatever pieces they arrive: with a name, distinct names of the
arguments, none of them empty, and values that can be written. -/
theorem readsBack_of_allowed (name : String) (params : List (String × Body)) (hname : name ≠ "")
    (hkeys : ∀ e ∈ params, e.1 ≠ "") (hdistinct : (params.map Prod.fst).Nodup)
    (hallowed : ∀ e ∈ params, e.2.Allowed) : ReadsBack name params := by
  intro pieces hpcs
  have hagr := agree_finish pieces
  rw [hpcs, finish_renderCall hname hkeys hdistinct hallowed] at hagr
  cases hpar : StreamParser.new.parsePieces pieces with
  | error =>
    rw [hpar] at hagr
    exact hagr.elim
  | ok deltas =>
    rw [hpar] at hagr
    refine ⟨deltas, rfl, ?_⟩
    have hcal := congrArg completedCalls (show joined deltas = joined _ from hagr)
    rw [completedCalls_joined, completedCalls_joined] at hcal
    rw [hcal]
    have hnon : completedCalls (params.map fun e => .toolArgument e.1 e.2.value) = [] := by
      unfold completedCalls
      rw [filterMap_map]
      exact filterMap_eq_nil_iff.mpr fun _ _ => rfl
    show completedCalls (_ ++ _) = _
    unfold completedCalls at hnon ⊢
    rw [filterMap_append, hnon]
    rfl

/-- An escaped value, and one with markup in a section. -/
theorem readsBack_of_allowed_echo :
    ReadsBack "echo" [("a<b", .escaped "1 < 2"), ("text", .cdata "</function> & <b>")] :=
  readsBack_of_allowed "echo" [("a<b", .escaped "1 < 2"), ("text", .cdata "</function> & <b>")]
    (by decide) (by decide) (by decide) (by
      intro e he
      rcases mem_cons.mp he with rfl | he
      · exact (by decide : trim "1 < 2".toList = "1 < 2".toList)
      · obtain rfl := mem_singleton.mp he
        exact ⟨by decide, by decide, by decide⟩)

/-- **A declaration in a section is refused**: the call is not read back. -/
theorem not_readsBack_of_declaration {name key value : String} (hnam : name ≠ "")
    (hkey : key ≠ "") (hcl : contains value.toList "</param>" = false)
    (hdec : hasDeclaration value.toList = true) : ¬ ReadsBack name [(key, .cdata value)] := by
  intro h
  obtain ⟨deltas, hpar, -⟩ := h [encode (renderCall name [(key, .cdata value)])] flatten_singleton
  have hprs : StreamParser.new.parser.append (encode (renderCall name [(key, .cdata value)]))
      = ⟨encode (openTag "function" name) ++ (encode (openTag "param" key) ++
          (encode ((Body.cdata value).text ++ "</param>".toList) ++ encode "</function>".toList)),
        .text, none, fun _ => none, none⟩ := by
    rw [← encode_append, ← encode_append, ← encode_append]
    show StreamParser.new.parser.append (encode (_ ++ ((_ ++ []) ++ _))) = _
    rw [List.append_nil, renderArgument, append_assoc]
    rfl
  have hagr := agree_finish [encode (renderCall name [(key, .cdata value)])]
  rw [hpar, flatten_singleton, hprs, finish_function hnam, finish_paramOpen hkey,
    finish_param_of_declaration hcl hdec] at hagr
  exact hagr

/-- **The declaration of a version** is a value without the end of a section, and is refused. -/
theorem version_not_readsBack : contains "<?xml version='1.0'?>".toList "]]>" = false ∧
      ¬ ReadsBack "f" [("k", .cdata "<?xml version='1.0'?>")] :=
  ⟨by decide, not_readsBack_of_declaration (by decide) (by decide) (by decide) (by decide)⟩

end MiniCpm5

end Logan
