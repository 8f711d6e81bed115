import Logan.Util.Pattern
import Logan.Util.Result
import Logan.Util.Streaming
import Logan.Util.Utf8
import Mathlib.Data.List.DropRight

/-!
# Tool calls in a stream of text

A model answers with text, in which it may think aloud and call functions: the calls are
elements of a markup language, with the arguments as elements inside them. The bytes of the
answer arrive in pieces. The parser keeps what could be the beginning of some markup, and
puts out the rest: pieces of text, and the calls with their arguments.

Values may contain markup, with entities in place of its characters or in a section of
character data. Declarations of a document type or of entities are refused wherever they
appear.
-/

namespace Logan

namespace MiniCpm5

open Result Streaming

/-! ## What is put out -/

/-- `ToolCall`. The arguments are a map. -/
structure ToolCall where
  name : String
  arguments : String → Option String

/-- `MiniCpm5Delta` -/
inductive Delta where
  | text (text : String)
  | reasoning (text : String)
  | toolCallStarted (name : String)
  | toolArgument (name value : String)
  | toolCallFinished (call : ToolCall)

/-- `MiniCpm5ParseError` -/
inductive ParseError where
  | malformed (message : String)
  | truncated (message : String)
  | invalidUtf8
  | externalEntity
deriving DecidableEq

/-! ## Texts -/

/-- `char::is_whitespace` -/
def isWhitespace (c : Char) : Bool :=
  let n := c.toNat
  9 ≤ n ∧ n ≤ 13 ∨ n ∈ [0x20, 0x85, 0xa0, 0x1680, 0x2028, 0x2029, 0x202f, 0x205f, 0x3000] ∨
    0x2000 ≤ n ∧ n ≤ 0x200a

/-- `char::is_ascii_whitespace` -/
def isAsciiWhitespace (c : Char) : Bool := c.toNat ∈ [0x20, 0x09, 0x0a, 0x0c, 0x0d]

variable (text : List Char)

/-- `trim_start` -/
def trimStart : List Char := text.dropWhile isWhitespace

/-- `trim` -/
def trim : List Char := (trimStart text).rdropWhile isWhitespace

/-- `contains` -/
def contains (pattern : String) : Bool :=
  (findSub? pattern.toList text).isSome

/-- Whether a text has a declaration in it. -/
def hasDeclaration : Bool :=
  contains text "<!DOCTYPE" || contains text "<!ENTITY" || contains text "<?xml"

/-- The characters for which there are entities. -/
def entityValue (entity : List Char) : Option Char :=
  if entity = "amp".toList then some '&'
  else if entity = "lt".toList then some '<'
  else if entity = "gt".toList then some '>'
  else if entity = "quot".toList then some '"'
  else if entity = "apos".toList then some '\''
  else none

/-- `decode_entities` -/
def decodeEntities (text : List Char) : Except ParseError (List Char) :=
  match _hstart : splitAtFirst (· = '&') text with
  | none => .ok text
  | some (before, rest) =>
    match _hend : splitAtFirst (· = ';') rest with
    | none => .error (.malformed "unterminated entity")
    | some (entity, rest') =>
      match entityValue entity with
      | none => .error .externalEntity
      | some value => (decodeEntities rest').map fun decoded => before ++ value :: decoded
termination_by text.length
decreasing_by exact (length_of_splitAtFirst _hend).trans (length_of_splitAtFirst _hstart)

/-! ## Tags -/

/-- The attribute at the front of a text, and what comes after it. -/
def parseAttribute (rest : List Char) : Except ParseError ((String × String) × List Char) := do
  let key := rest.takeWhile fun c => !(isAsciiWhitespace c || c = '=')
  refuse (key = []) (.malformed "attribute name missing")
  let rest ← okOr (stripPrefix? ['='] (trimStart (rest.drop key.length)))
    (.malformed "attribute must use =")
  match trimStart rest with
  | [] => .error (.malformed "attribute value missing")
  | quote :: rest => do
    refuse (quote ≠ '"' ∧ quote ≠ '\'') (.malformed "attribute values must be quoted")
    let (value, rest) ← okOr (splitAtFirst (· = quote) rest)
      (.malformed "unterminated attribute")
    let value ← decodeEntities value
    pure ((String.ofList key, String.ofList value), trimStart rest)

/-- The loop of `parse_tag`, in at most some rounds: there are no more attributes than
characters. -/
def parseAttributes : ℕ → List Char → (String → Option String) →
    Except ParseError (String → Option String)
  | 0, _, attrs => .ok attrs
  | n + 1, rest, attrs =>
    if rest = [] then .ok attrs
    else do
      let ((key, value), rest) ← parseAttribute rest
      refuse ((attrs key).isSome) (.malformed "duplicate attribute")
      parseAttributes n rest (Function.update attrs key (some value))

/-- `parse_tag` -/
def parseTag (expected : String) :
    Except ParseError (String → Option String) := do
  refuse (hasDeclaration text) .externalEntity
  let inner ← okOr (stripPrefix? ['<'] text >>= stripSuffix? ['>'])
    (.malformed "unterminated tag")
  let inner := trim ((stripSuffix? ['/'] inner).getD inner)
  let (name, rest) := (splitAtFirst isWhitespace inner).getD (inner, [])
  refuse (name ≠ expected.toList) (.malformed ("expected <" ++ expected ++ ">"))
  let rest := trim rest
  parseAttributes rest.length rest fun _ => none

variable (raw : List UInt8)

/-- The name in a tag, which is not empty. -/
def parseName (expected missing : String) : Except ParseError String := do
  let text ← okOr (fromUtf8 raw) .invalidUtf8
  let attrs ← parseTag text.toList expected
  okOr ((attrs "name").filter fun name => name ≠ "") (.malformed missing)

/-- `parse_function_open` -/
def parseFunctionOpen : Except ParseError String :=
  parseName raw "function" "function name is missing"

/-- `parse_param_open` -/
def parseParamOpen : Except ParseError String :=
  parseName raw "param" "parameter name is missing"

/-- `parse_param_value` -/
def parseParamValue : Except ParseError String := do
  let text ← okOr (fromUtf8 raw) .invalidUtf8
  refuse (hasDeclaration text.toList) .externalEntity
  let text := trim text.toList
  match stripPrefix? "<![CDATA[".toList text with
  | some cdata => do
    let cdata ← okOr (stripSuffix? "]]>".toList cdata) (.malformed "unterminated CDATA")
    refuse (contains cdata "]]>") (.malformed "nested CDATA terminator")
    pure (String.ofList cdata)
  | none => do
    refuse (contains text "<![CDATA[" ∨ '<' ∈ text)
      (.malformed "parameter contains unsupported markup")
    String.ofList <$> decodeEntities text

/-! ## The parser -/

/-- `State` -/
inductive State where
  | text
  | reasoning
  | function
  | param
deriving DecidableEq

/-- What `MiniCpm5StreamParser` has for the loop of `parse`: the bytes that have not been
consumed, and where in the markup they are. -/
structure Parser where
  pending : List UInt8
  state : State
  functionName : Option String
  arguments : String → Option String
  paramName : Option String

namespace Parser

/-- `pending.extend_from_slice` -/
def append (p : Parser) (bytes : List UInt8) : Parser := { p with pending := p.pending ++ bytes }

/-- `drain(..n)` -/
def drain (p : Parser) (n : ℕ) : Parser := { p with pending := p.pending.drop n }

/-- `starts_with` -/
def startsWith (p : Parser) (word : String) : Bool := (ascii word).isPrefixOf p.pending

/-- `is_prefix_of`: what is pending may become the word. -/
def mayBecome (p : Parser) (word : String) : Bool :=
  p.pending.length < (ascii word).length && p.pending.isPrefixOf (ascii word)

/-- `find_bytes` -/
def find (p : Parser) (word : String) : Option ℕ := findSub? (ascii word) p.pending

end Parser

/-- `safe_text_prefix`: the length of the longest part at the front that is a text. -/
def safeTextPrefix (bytes : List UInt8) : ℕ :=
  Nat.findGreatest (fun n => (fromUtf8 (bytes.take n)).isSome) bytes.length

/-- `push_text` -/
def pushText (reasoning : Bool) (text : String) : List Delta :=
  if text = "" then [] else if reasoning then [.reasoning text] else [.text text]

/-- A round that puts out the first bytes as text. -/
def emitText (p : Parser) (reasoning : Bool) (n : ℕ)
    (go : List Delta → Parser → Round Parser Delta ParseError) : Round Parser Delta ParseError :=
  match fromUtf8 (p.pending.take n) with
  | none => .fail .invalidUtf8
  | some text => go (pushText reasoning text) (p.drain n)

/-- The opening tag of a function, whose end is searched. -/
def openFunction (final : Bool) (p : Parser) : Round Parser Delta ParseError :=
  match p.find ">" with
  | none =>
    if final then .fail (.truncated "function opening tag is not closed") else .stop [] p
  | some stop =>
    match parseFunctionOpen (p.pending.take (stop + 1)) with
    | .error e => .fail e
    | .ok name => .next [.toolCallStarted name]
        { p.drain (stop + 1) with
          functionName := some name, arguments := fun _ => none, state := .function }

/-- A round at a `<`. -/
def markRound (final : Bool) (p : Parser) (reasoning : Bool) : Round Parser Delta ParseError :=
  let tag := if reasoning then "</think>" else "<think>"
  let alt := if reasoning then "</reasoning>" else "<reasoning>"
  let other := if reasoning then State.text else State.reasoning
  if p.startsWith tag then .next [] { p.drain (ascii tag).length with state := other }
  else if p.startsWith alt then .next [] { p.drain (ascii alt).length with state := other }
  else if !reasoning ∧ (p.startsWith "<!DOCTYPE" ∨ p.startsWith "<!ENTITY" ∨ p.startsWith "<?xml")
    then .fail .externalEntity
  else if !reasoning ∧ (p.mayBecome "<!DOCTYPE" ∨ p.mayBecome "<!ENTITY" ∨ p.mayBecome "<?xml")
    then .stop [] p
  else if !reasoning ∧ p.startsWith "<function" then openFunction final p
  else if p.mayBecome tag ∨ p.mayBecome alt ∨ p.mayBecome "<function" then .stop [] p
  else emitText p reasoning 1 .next

/-- A round in a text. -/
def textRound (final : Bool) (p : Parser) (reasoning : Bool) : Round Parser Delta ParseError :=
  match p.pending.findIdx? (· = 0x3c) with
  | none =>
    emitText p reasoning (if final then p.pending.length else safeTextPrefix p.pending) .stop
  | some mark =>
    if mark > 0 then emitText p reasoning mark .next else markRound final p reasoning

/-- `trim_ascii_prefix` -/
def trimAsciiPrefix (p : Parser) : Parser :=
  { p with pending := p.pending.dropWhile fun b => b.toNat ∈ [0x20, 0x09, 0x0a, 0x0c, 0x0d] }

/-- A round in a function. -/
def functionRound (p : Parser) : Round Parser Delta ParseError :=
  let p := trimAsciiPrefix p
  if p.startsWith "</function>" then
    match p.functionName with
    | none => .fail (.malformed "function name missing")
    | some name => .next [.toolCallFinished ⟨name, p.arguments⟩]
        { p.drain (ascii "</function>").length with
          functionName := none, arguments := fun _ => none, state := .text }
  else if p.startsWith "<param" then
    match p.find ">" with
    | none => .stop [] p
    | some stop =>
      match parseParamOpen (p.pending.take (stop + 1)) with
      | .error e => .fail e
      | .ok name => .next [] { p.drain (stop + 1) with paramName := some name, state := .param }
  else if p.mayBecome "</function>" ∨ p.mayBecome "<param" then .stop [] p
  else .fail (.malformed "expected <param> or </function>")

/-- A round in an argument. -/
def paramRound (final : Bool) (p : Parser) : Round Parser Delta ParseError :=
  match p.find "</param>" with
  | none => if final then .fail (.truncated "parameter is not closed") else .stop [] p
  | some stop =>
    match parseParamValue (p.pending.take stop) with
    | .error e => .fail e
    | .ok value =>
      match p.paramName with
      | none => .fail (.malformed "parameter name missing")
      | some name =>
        if (p.arguments name).isSome then
          .fail (.malformed ("duplicate parameter " ++ name.quote))
        else .next [.toolArgument name value]
          { p.drain (stop + (ascii "</param>").length) with
            paramName := none, arguments := Function.update p.arguments name (some value)
            state := .function }

/-- One round of the loop of `parse`. -/
def parseRound (final : Bool) (p : Parser) : Round Parser Delta ParseError :=
  if p.pending = [] then .stop [] p
  else
    match p.state with
    | .text => textRound final p false
    | .reasoning => textRound final p true
    | .function => functionRound p
    | .param => paramRound final p

/-! ## Every round consumes something -/

/-- What is not consumed. -/
def Parser.size (p : Parser) : ℕ := p.pending.length

theorem Parser.size_drain {p : Parser} {n : ℕ} (hp : p.pending ≠ []) (hn : 0 < n) :
    (p.drain n).size < p.size := by
  have hpos := List.length_pos_iff.mpr hp
  show (p.pending.drop n).length < p.pending.length
  rw [List.length_drop]
  omega

theorem Parser.pending_ne_nil {p : Parser} {word : String} (hword : ascii word ≠ [])
    (h : p.startsWith word = true) : p.pending ≠ [] := by
  intro hnil
  rw [startsWith, hnil, List.isPrefixOf_iff_prefix, List.prefix_nil] at h
  exact hword h

theorem size_trimAsciiPrefix (p : Parser) : (trimAsciiPrefix p).size ≤ p.size :=
  (List.dropWhile_suffix _).length_le

section Shrinks

variable {final : Bool} {p p' : Parser} {out : List Delta}

theorem emitText_eq_next {reasoning : Bool} {n : ℕ}
    (h : emitText p reasoning n .next = .next out p') :
    ∃ text, fromUtf8 (p.pending.take n) = some text ∧ out = pushText reasoning text ∧
      p' = p.drain n := by
  unfold emitText at h
  cases htex : fromUtf8 (p.pending.take n) with
  | none =>
    rw [htex] at h
    cases h
  | some text =>
    rw [htex] at h
    obtain ⟨rfl, rfl⟩ := Round.next.inj h
    exact ⟨text, rfl, rfl, rfl⟩

theorem openFunction_eq_next (h : openFunction final p = .next out p') :
    ∃ stop name, p.find ">" = some stop ∧
      parseFunctionOpen (p.pending.take (stop + 1)) = .ok name ∧ out = [.toolCallStarted name] ∧
      p' = { p.drain (stop + 1) with
        functionName := some name, arguments := fun _ => none, state := .function } := by
  unfold openFunction at h
  cases hst : p.find ">" with
  | none =>
    rw [hst] at h
    cases final <;> cases h
  | some stop =>
    rw [hst] at h
    dsimp only at h
    cases hnam : parseFunctionOpen (p.pending.take (stop + 1)) with
    | error =>
      rw [hnam] at h
      cases h
    | ok name =>
      rw [hnam] at h
      obtain ⟨rfl, rfl⟩ := Round.next.inj h
      exact ⟨stop, name, rfl, hnam, rfl, rfl⟩

theorem size_of_markRound {reasoning : Bool} (hp : p.pending ≠ [])
    (h : markRound final p reasoning = .next out p') : p'.size < p.size := by
  unfold markRound at h
  dsimp only at h
  split_ifs at h
  all_goals
    first
    | obtain ⟨stop, name, -, -, -, rfl⟩ := openFunction_eq_next h
      exact Parser.size_drain hp (Nat.succ_pos stop)
    | obtain ⟨text, -, -, rfl⟩ := emitText_eq_next h
      exact Parser.size_drain hp Nat.one_pos
    | obtain ⟨-, rfl⟩ := Round.next.inj h
      exact Parser.size_drain hp (by decide)

theorem size_of_textRound {reasoning : Bool} (hp : p.pending ≠ [])
    (h : textRound final p reasoning = .next out p') : p'.size < p.size := by
  unfold textRound at h
  cases hmar : p.pending.findIdx? (· = 0x3c) with
  | none =>
    rw [hmar] at h
    unfold emitText at h
    dsimp only at h
    split at h <;> cases h
  | some mark =>
    rw [hmar] at h
    dsimp only at h
    split_ifs at h with hpos
    · obtain ⟨text, -, -, rfl⟩ := emitText_eq_next h
      exact Parser.size_drain hp hpos
    · exact size_of_markRound hp h

theorem size_of_functionRound (h : functionRound p = .next out p') : p'.size < p.size := by
  refine lt_of_lt_of_le ?_ (size_trimAsciiPrefix p)
  unfold functionRound at h
  dsimp only at h
  split_ifs at h with hcl hpar
  · have hne := Parser.pending_ne_nil (by decide) hcl
    cases hnam : (trimAsciiPrefix p).functionName with
    | none =>
      rw [hnam] at h
      cases h
    | some =>
      rw [hnam] at h
      obtain ⟨-, rfl⟩ := Round.next.inj h
      exact Parser.size_drain hne (by decide)
  · have hne := Parser.pending_ne_nil (by decide) hpar
    cases hst : (trimAsciiPrefix p).find ">" with
    | none =>
      rw [hst] at h
      cases h
    | some stop =>
      rw [hst] at h
      dsimp only at h
      split at h
      · cases h
      · obtain ⟨-, rfl⟩ := Round.next.inj h
        exact Parser.size_drain hne (Nat.succ_pos stop)

theorem size_of_paramRound (hp : p.pending ≠ []) (h : paramRound final p = .next out p') :
    p'.size < p.size := by
  unfold paramRound at h
  cases hst : p.find "</param>" with
  | none =>
    rw [hst] at h
    cases final <;> cases h
  | some stop =>
    rw [hst] at h
    dsimp only at h
    split at h
    · cases h
    · split at h
      · cases h
      · split_ifs at h
        obtain ⟨-, rfl⟩ := Round.next.inj h
        exact Parser.size_drain hp (Nat.add_pos_right stop (by decide))

end Shrinks

/-- **Every round consumes something**, if it is not the last. -/
theorem shrinks_parseRound (final : Bool) : Shrinks (parseRound final) Parser.size := by
  intro p out p' h
  unfold parseRound at h
  split_ifs at h with hp
  cases hst : p.state with
  | text =>
    rw [hst] at h
    exact size_of_textRound hp h
  | reasoning =>
    rw [hst] at h
    exact size_of_textRound hp h
  | function =>
    rw [hst] at h
    exact size_of_functionRound h
  | param =>
    rw [hst] at h
    exact size_of_paramRound hp h

/-! ## Feeding and finishing -/

/-- `parse` -/
def parse (final : Bool) (p : Parser) : Except ParseError (List Delta × Parser) :=
  loop (parseRound final) Parser.size (shrinks_parseRound final) p

/-- The last part of `finish`: all markup has to be closed, and what is left is text. -/
def flush (p : Parser) : Except ParseError (List Delta) :=
  match p.state with
  | .reasoning => .error (.truncated "reasoning block is not closed")
  | .function => .error (.truncated "function call is not closed")
  | .param => .error (.truncated "parameter is not closed")
  | .text => do
    let text ← okOr (fromUtf8 p.pending) .invalidUtf8
    pure (pushText false text)

/-- `MiniCpm5StreamParser` -/
structure StreamParser where
  parser : Parser
  finished : Bool

namespace StreamParser

/-- `new` -/
def new : StreamParser := ⟨⟨[], .text, none, fun _ => none, none⟩, false⟩

/-- `feed` -/
def feed (p : StreamParser) (bytes : List UInt8) :
    Except ParseError (List Delta × StreamParser) := do
  refuse p.finished (.malformed "input after finish")
  let (deltas, parser) ← parse false (p.parser.append bytes)
  pure (deltas, { p with parser })

/-- `finish` -/
def finish (p : StreamParser) : Except ParseError (List Delta × StreamParser) :=
  if p.finished then .ok ([], p)
  else do
    let (deltas, parser) ← parse true p.parser
    let rest ← flush parser
    pure (deltas ++ rest, ⟨{ parser with pending := [] }, true⟩)

/-- **A stream is parsed**: its pieces are fed one after the other, and then it is finished. -/
def parsePieces (p : StreamParser) : List (List UInt8) → Except ParseError (List Delta)
  | [] => do
    let (deltas, _) ← p.finish
    pure deltas
  | piece :: pieces => do
    let (deltas, p) ← p.feed piece
    let rest ← parsePieces p pieces
    pure (deltas ++ rest)

end StreamParser

end MiniCpm5

end Logan
