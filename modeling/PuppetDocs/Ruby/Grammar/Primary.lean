import PuppetDocs.Ruby.Grammar.Control
import PuppetDocs.Ruby.Grammar.Definitions

/-
  PuppetDocs.Ruby.Grammar.Primary — names, literals, and whatever starts with a keyword.

  A closing bracket or `end` here has no partner, and the end of the text is reported; any
  other token that starts nothing becomes a node of its own and reading goes on.
-/

namespace PuppetDocs.Ruby

open ParseM

/-! ## Names and literals -/

/-- A name, with the arguments of the call that it may be. -/
def named (self : Reader) : P Node := do
  let t ← bump
  let start := t.span.start
  if ← parenAt 0 then
    let args ← parenArgs self
    mkCall none t.text args true start
  else if ← commandArgStarts then
    let args ← commandArgs self
    mkCall none t.text args false start
  else mkNode (.ident t.text) start

def constant (self : Reader) : P Node := do
  let t ← bump
  let start := t.span.start
  if ← parenAt 0 then
    let args ← parenArgs self
    mkCall none t.text args true start
  else mkNode (.const none t.text) start

def rootConstant : P Node := do
  let start := (← bump).span.start
  let name ← need .constant "constant"
  mkNode (.const none name.text) start

def StrLit.append (a b : StrLit) : StrLit :=
  { value := a.value ++ b.value, interpolated := a.interpolated || b.interpolated }

def isTightColon : List (Token TokenKind) → Bool
  | t :: _ => t.kind = .colon && !t.spaced
  | [] => false

/-- `acc` and the strings right behind it, up to one that is a key. -/
def joinStrings (acc : StrLit) (prevEnd : Nat) : List (Token TokenKind) → StrLit × List (Token TokenKind) × Nat
  | [] => (acc, [], prevEnd)
  | t :: rest =>
    match t.kind with
    | .string v =>
      if isTightColon rest then (acc, t :: rest, prevEnd) else joinStrings (acc.append v) t.span.stop rest
    | _ => (acc, t :: rest, prevEnd)

def stringLiteral (value : StrLit) : P Node := do
  let start := (← bump).span.start
  let s ← get
  let (value, rest, stop) := joinStrings value s.prevEnd s.rest
  set { s with rest, prevEnd := stop }
  mkNode (.str value) start

/-- A word list; all its entries stand where the list stands. -/
def wordList (entries : List (NodeKind Node)) : P Node := do
  let t ← bump
  let line ← lineOf t.span.start
  mkNode (.array (entries.map fun kind => { kind, span := t.span, line })) t.span.start

/-! ## Brackets -/

/-- A single statement in parentheses is that statement. -/
def parenthesised (self : Reader) : P Node := do
  let start := (← bump).span.start
  let inner ← nested (self (.statements [.rparen]))
  let _ ← need .rparen "')'"
  match inner.kind with
  | .statements [n] => return n
  | kind => mkNode kind start

def arrayLiteral (self : Reader) : P Node := do
  let start := (← bump).span.start
  let items ← nested (self (.args .rbracket))
  let _ ← need .rbracket "']'"
  mkNode (.array items) start

def hashLiteral (self : Reader) : P Node := do
  let start := (← bump).span.start
  let entries ← nested (self (.args .rbrace))
  let _ ← need .rbrace "'\x7d'"
  mkNode (.hash entries) start

/-! ## Keywords -/

/-- A value follows `return`, `break`, `next`, `redo` or `retry`. -/
def jumpHasValue : P Bool := do
  return !(← atAny [.newline, .semicolon, .keyword .endKw, .rbrace, .rparen, .keyword .ifKw, .keyword .unlessKw,
    .keyword .whileKw, .keyword .untilKw, .eof])

def jump (self : Reader) : P Node := do
  let t ← bump
  let args ← if ← jumpHasValue then commandArgs self else pure []
  mkNode (.jump t.text args) t.span.start

def yieldOrSuper (self : Reader) : P Node := do
  let t ← bump
  let (args, _) ← callArgs self
  mkNode (.jump t.text args) t.span.start

def definedCall (self : Reader) : P Node := do
  let start := (← bump).span.start
  let args ← if ← at_ .lparen then parenArgs self else (do return [← self .unary])
  mkCall none "defined?" args true start

def aliasName : P Node := do
  let t ← bump
  mkNode (.ident t.text) t.span.start

def aliasStatement : P Node := do
  let start := (← bump).span.start
  let new ← aliasName
  let old ← aliasName
  mkNode (.other [new, old]) start

def readUndefNames (self : Reader) : P (List Node) := do
  if ← eat .comma then
    let n ← self .primary
    return n :: (← self .undefNames)
  else return []

def undefStatement (self : Reader) : P Node := do
  let start := (← bump).span.start
  let n ← self .primary
  let ns ← self .undefNames
  mkNode (.other (n :: ns)) start

def unmodelled : P Node := do
  let start := (← bump).span.start
  mkNode (.other []) start

def unbalanced (t : Token TokenKind) : P Node := fail (.unbalanced t.text) t.span.start

def keywordPrimary (self : Reader) (t : Token TokenKind) : Keyword → P Node
  | .nilKw => leaf .nil
  | .trueKw => leaf .true_
  | .falseKw => leaf .false_
  | .selfKw => leaf .self_
  | .defKw => method self
  | .classKw => classDefinition self
  | .moduleKw => moduleDefinition self
  | .ifKw | .unlessKw => conditional self
  | .whileKw | .untilKw => whileLoop self
  | .forKw => forLoop self
  | .caseKw => caseOf self
  | .beginKw => beginBlock self
  | .returnKw | .breakKw | .nextKw | .redoKw | .retryKw => jump self
  | .yieldKw | .superKw => yieldOrSuper self
  | .definedKw => definedCall self
  | .aliasKw => aliasStatement
  | .undefKw => undefStatement self
  | .notKw => self .negation
  | .endKw => unbalanced t
  | _ => unmodelled

def readPrimary (self : Reader) : P Node := do
  let t ← peek
  match t.kind with
  | .ident => named self
  | .constant => constant self
  | .colonColon => rootConstant
  | .instanceVar => leaf (.instanceVar t.text)
  | .classVar => leaf (.classVar t.text)
  | .globalVar => leaf (.globalVar t.text)
  | .number => leaf (.number t.text)
  | .symbol => leaf (.symbol (withoutFirst t.text))
  | .label => leaf (.symbol (keyName t.text))
  | .quotedSymbol value => leaf (.quotedSymbol value)
  | .command value => leaf (.command value)
  | .regex => leaf (.regex t.text)
  | .string value => stringLiteral value
  | .words ws => wordList (ws.map fun w => .str { value := w, interpolated := false })
  | .symbolWords ws => wordList (ws.map .symbol)
  | .lparen => parenthesised self
  | .lbracket => arrayLiteral self
  | .lbrace => hashLiteral self
  | .arrow => lambda self
  | .keyword k => keywordPrimary self t k
  | .bang | .plus | .minus | .star | .doubleStar => self .unary
  | .rparen | .rbracket | .rbrace => unbalanced t
  | .eof => fail (.unexpectedEnd "expression") t.span.start
  | _ => unmodelled

end PuppetDocs.Ruby
