import PuppetDocs.Ruby.Node
import PuppetDocs.Source.Stream

/-
  PuppetDocs.Ruby.Grammar.Rule — the parts of the Ruby grammar that contain each other.

  Each rule is a part that can be read where the stream stands. The modules beside this one
  say how each is read, given a `Reader` for the rules inside it; `PuppetDocs.Ruby.Parse`
  closes the recursion. A loop is a rule too: what it has read so far is its argument, or it
  answers with the list of what is left to read.

  Every node starts where its first token starts and ends where the last token read for it
  ends; a node for which nothing was read is empty.
-/

namespace PuppetDocs.Ruby

open ParseM

abbrev P := ParseM TokenKind

inductive Rule : Type → Type where
  /-- Statements up to one of `stops` or the end. -/
  | statements (stops : List TokenKind) : Rule Node
  | items (stops : List TokenKind) : Rule (List Node)
  /-- The body of a definition or block, with its `rescue`, `else` and `ensure` clauses. -/
  | body : Rule Node
  | rescues : Rule (List Node)
  | rescueTypes : Rule (List Node)
  /-- A sentence with any number of modifiers. -/
  | statement : Rule Node
  | modifiers (start : Nat) (n : Node) : Rule Node
  /-- Expressions joined by `and` and `or`. -/
  | sentence : Rule Node
  | joined (start : Nat) (lhs : Node) : Rule Node
  | negation : Rule Node
  /-- An assignment or what may stand on either side of one. -/
  | expr : Rule Node
  | ternary : Rule Node
  /-- Operators that bind at least as strongly as `min`. -/
  | binary (min : Nat) : Rule Node
  | operators (min start : Nat) (lhs : Node) : Rule Node
  | unary : Rule Node
  | primary : Rule Node
  /-- Method calls, indices and blocks that follow `n`. -/
  | trailers (start : Nat) (n : Node) : Rule Node
  | arg : Rule Node
  /-- Arguments in brackets, up to `closer`. -/
  | args (closer : TokenKind) : Rule (List Node)
  /-- Further arguments, each after a comma. -/
  | moreArgs : Rule (List Node)
  | params (closers : List TokenKind) : Rule (List (Param Node))
  | forTargets : Rule (List Node)
  | elsifs : Rule (List Node)
  | whens : Rule (List Node)
  | undefNames : Rule (List Node)

abbrev Reader := ∀ {α : Type}, Rule α → P α

/-! ## Tools -/

def need (kind : TokenKind) (expected : String) : P (Token TokenKind) := expect .eof kind expected

def isNewline : TokenKind → Bool
  | .newline => true
  | _ => false

def isTerminator : TokenKind → Bool
  | .newline | .semicolon => true
  | _ => false

def skipNewlines : P Unit := skipWhile isNewline

def skipTerminators : P Unit := skipWhile isTerminator

/-- The next token is one of `kinds`. -/
def atAny (kinds : List TokenKind) : P Bool := return kinds.contains (← peekKind)

def atKeyword (k : Keyword) : P Bool := at_ (.keyword k)

def eatKeyword (k : Keyword) : P Bool := eat (.keyword k)

def needEnd : P Unit := do
  let _ ← need (.keyword .endKw) "'end'"

/-- A node from `start` to the end of what has been read. -/
def mkNode (kind : NodeKind Node) (start : Nat) : P Node :=
  return { kind, span := ⟨start, max (← prevEnd) start⟩, line := ← lineOf start }

/-- A node over the next token alone. -/
def leaf (kind : NodeKind Node) : P Node := do
  let t ← bump
  return { kind, span := t.span, line := ← lineOf t.span.start }

/-- Inside brackets a `do` belongs to the nearest call again. -/
def nested {α : Type} (p : P α) : P α := withReader (fun env => { env with holdDo := false }) p

/-- A `do` in what `p` reads belongs to what is around it. -/
def withoutDo {α : Type} (p : P α) : P α := withReader (fun env => { env with holdDo := true }) p

/-- The text of a key without its colon. -/
def keyName (label : String) : String := String.ofList (Text.dropEndWhile (· == ':') label.toList)

/-- The text of a symbol without its colon, or of a variable without its sigil. -/
def withoutFirst (text : String) : String := String.ofList (text.toList.drop 1)

/-- An opening parenthesis stands `n` tokens ahead with no blank in front of it. -/
def parenAt (n : Nat) : P Bool := do
  let t ← peekAt n
  return t.kind = .lparen ∧ !t.spaced

/-- A colon stands `n` tokens ahead with no blank in front of it. -/
def colonAt (n : Nat) : P Bool := do
  let t ← peekAt n
  return t.kind = .colon ∧ !t.spaced

end PuppetDocs.Ruby
