import PuppetDocs.Manifest.Definition
import PuppetDocs.Manifest.Scan
import PuppetDocs.Source.Stream

/-
  PuppetDocs.Manifest.Parse — the definitions of a manifest.

  Outside definitions every token is passed over; only its brackets are matched. A keyword
  opens a definition if no bracket is open between it and the body it stands in and a name
  follows it (for a type alias a type name and `=`). The body of a definition is read like
  the manifest itself up to its closing brace.

  `Rule` names the parts of the grammar that contain each other, and `Rule.step` says how each
  is read when the parts inside it can be read; `Rule.run` closes the recursion with a bound.
-/

namespace PuppetDocs.Manifest

open ParseM

abbrev P := ParseM TokenKind

inductive Rule : Type → Type where
  /-- Definitions up to the end of the text, or to the brace that closes `opener`; `open_` are the
  brackets open at this point, the latest first. -/
  | items (opener : Option (Token TokenKind)) (open_ : List (Token TokenKind)) : Rule (List Definition)
  | definition : Rule Definition
  /-- Parameters after the opening parenthesis. -/
  | params : Rule (List Parameter)
  /-- The text of a default value that starts at offset `start`. -/
  | defaultValue (start : Nat) : Rule String

abbrev Reader := ∀ {α : Type}, Rule α → P α

/-! ## Brackets -/

def isOpening : TokenKind → Bool
  | .lbrace | .lparen | .lbracket => true
  | _ => false

def isClosing : TokenKind → Bool
  | .rbrace | .rparen | .rbracket => true
  | _ => false

def closes : TokenKind → TokenKind → Bool
  | .lbrace, .rbrace | .lparen, .rparen | .lbracket, .rbracket => true
  | _, _ => false

/-- How reading a bracketed group ends: the tokens behind it and the end of its last token, or
the token at which it goes wrong. -/
inductive Group where
  | closed (rest : List (Token TokenKind)) (stop : Nat)
  | unclosed (opener : Token TokenKind)
  | mismatched (closer : Token TokenKind)

/-- Reads on until the brackets `last :: outer` are closed. -/
def group (last : Token TokenKind) (outer : List (Token TokenKind)) : List (Token TokenKind) → Group
  | [] => .unclosed last
  | t :: rest =>
    if isOpening t.kind then group t (last :: outer) rest
    else if isClosing t.kind then
      if closes last.kind t.kind then
        match outer with
        | [] => .closed rest t.span.stop
        | last :: outer => group last outer rest
      else .mismatched t
    else group last outer rest

/-- Passes over the group that the next token opens. -/
def skipGroup : P Unit := do
  let opener ← bump
  let s ← get
  match group opener [] s.rest with
  | .closed rest stop => set { s with rest, prevEnd := stop }
  | .unclosed last => fail (.unexpectedEnd "closing bracket") last.span.start
  | .mismatched closer => fail (.unbalanced closer.text) closer.span.start

/-! ## Types and defaults -/

/-- The text from `start` to `stop`. -/
def written (start stop : Nat) : P (List Char) := do
  match (Span.mk start stop).slice? (← read).text with
  | some cs => return cs
  | none => throw (.outOfText ⟨start, stop⟩)

/-- A type name with its bracketed parameters, as written. -/
def readType : P String := do
  let start := (← bump).span.start
  if ← at_ .lbracket then skipGroup
  return String.ofList (← written start (← prevEnd))

/-! ## Grammar -/

def need (kind : TokenKind) (expected : String) : P (Token TokenKind) := expect .eof kind expected

/-- A keyword opens a definition here. -/
def definitionFollows (kind : TokenKind) : P Bool := do
  match kind with
  | .classKw | .defineKw | .functionKw | .planKw => return (← peekAt 1).kind = .name
  | .typeKw => return (← peekAt 1).kind = .typeName ∧ (← peekAt 2).kind = .assign
  | _ => return false

def readItems (self : Reader) (opener : Option (Token TokenKind)) (open_ : List (Token TokenKind)) :
    P (List Definition) := do
  let t ← peek
  if t.kind = .eof then
    match open_.head?.or opener with
    | some unclosed =>
      fail (.unexpectedEnd ("closing bracket for '" ++ unclosed.text ++ "'")) unclosed.span.start
    | none => return []
  else if isOpening t.kind then
    let t ← bump
    self (.items opener (t :: open_))
  else if isClosing t.kind then
    match open_ with
    | last :: outer =>
      if closes last.kind t.kind then
        let _ ← bump
        self (.items opener outer)
      else fail (.unbalanced t.text) t.span.start
    | [] =>
      if opener.isSome && t.kind = .rbrace then return []
      else fail (.unbalanced t.text) t.span.start
  else if open_.isEmpty && (← definitionFollows t.kind) then
    let d ← self .definition
    let ds ← self (.items opener open_)
    return d :: ds
  else
    let _ ← bump
    self (.items opener open_)

def kindOf : TokenKind → DefinitionKind
  | .classKw => .class_
  | .defineKw => .definedType
  | .functionKw => .function
  | .planKw => .plan
  | _ => .typeAlias

def optional {α : Type} (kind : TokenKind) (p : P α) : P (Option α) := do
  if ← eat kind then return some (← p) else return none

def readAlias (start line : Nat) : P Definition := do
  let name ← need .typeName "type name"
  let _ ← need .assign "'='"
  let aliased ← readType
  return {
    kind := .typeAlias, name := name.text, aliasedType := some aliased
    span := ⟨start, ← prevEnd⟩, line }

/-- A name without the `::` in front of it. -/
def unrooted (name : String) : String := String.ofList ((Text.after? [':', ':'] name.toList).getD name.toList)

def readDefinition (self : Reader) : P Definition := do
  let keyword ← bump
  let start := keyword.span.start
  let line ← lineOf start
  let kind := kindOf keyword.kind
  if kind = .typeAlias then readAlias start line
  else
    let name ← need .name "name"
    let params ← if ← at_ .lparen then (do let _ ← bump; self .params) else pure []
    let parent ← optional .inheritsKw (do return (← bump).text)
    let returnType ← optional .returnArrow readType
    let brace ← need .lbrace "'\x7b'"
    let nested ← self (.items (some brace) [])
    let _ ← need .rbrace "'\x7d'"
    return { kind, name := unrooted name.text, params, parent, returnType, span := ⟨start, ← prevEnd⟩, line, nested }

/-- The text of a default value that starts at `start`, from here up to a comma or parenthesis
outside all brackets. -/
def readDefault (self : Reader) (start : Nat) : P String := do
  let kind ← peekKind
  if kind = .comma ∨ kind = .rparen then
    let stop := max (← prevEnd) start
    return String.ofList (Text.trim (← written start stop))
  else if isOpening kind then
    skipGroup
    self (.defaultValue start)
  else if kind = .eof then fail (.unexpectedEnd "')'") start
  else
    let _ ← bump
    self (.defaultValue start)

def readParam (self : Reader) : P Parameter := do
  let line ← lineOf (← here)
  let type? ← if ← at_ .typeName then some <$> readType else pure none
  let capturesRest ← eat .star
  let variable_ ← need .variable "parameter name"
  let name := String.ofList (variable_.text.toList.drop 1)
  let default? ← optional .assign (do self (.defaultValue (← here)))
  return { name, type?, default?, capturesRest, line }

def readParams (self : Reader) : P (List Parameter) := do
  if ← eat .rparen then return []
  else
    let p ← readParam self
    if !(← eat .comma) && !(← at_ .rparen) then
      let t ← peek
      fail (.unexpected t.text "',' or ')'") t.span.start
    let ps ← self .params
    return p :: ps

def Rule.step (self : Reader) : {α : Type} → Rule α → P α
  | _, .items opener open_ => readItems self opener open_
  | _, .definition => readDefinition self
  | _, .params => readParams self
  | _, .defaultValue start => readDefault self start

def Rule.run : Nat → Reader
  | 0, _, _ => throw .exhausted
  | n + 1, _, rule => Rule.step (Rule.run n) rule

/-- A bound on the depth of the recursion over `n` tokens. -/
def depthBound (n : Nat) : Nat := 2 * n + 2

def parseTokens (text : List Char) (lines : LineIndex) (tokens : List (Token TokenKind)) (stop : Token TokenKind) :
    Except ParseFailure (List Definition) :=
  ((Rule.run (depthBound tokens.length) (.items none [])).run { text, lines }).run' { rest := tokens, stop }

end PuppetDocs.Manifest
