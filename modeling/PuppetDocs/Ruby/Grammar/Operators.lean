import PuppetDocs.Ruby.Grammar.Args

/-
  PuppetDocs.Ruby.Grammar.Operators — statements and the operators in them.

  From the weakest to the strongest: modifiers, `and` and `or`, `not`, assignment, the
  ternary, the binary operators in twelve levels, signs and splats. Binary operators group to
  the left, `**` to the right.
-/

namespace PuppetDocs.Ruby

open ParseM

/-! ## Statements -/

def readStatements (self : Reader) (stops : List TokenKind) : P Node := do
  let start ← here
  let items ← self (.items stops)
  mkNode (.statements items) start

def readItems (self : Reader) (stops : List TokenKind) : P (List Node) := do
  skipTerminators
  if ← atAny (.eof :: stops) then return []
  else
    let n ← self .statement
    return n :: (← self (.items stops))

def readStatement (self : Reader) : P Node := do
  let start ← here
  let n ← self .sentence
  self (.modifiers start n)

def isModifier (k : Keyword) : Bool :=
  k == .ifKw || k == .unlessKw || k == .whileKw || k == .untilKw || k == .rescueKw

def readModifiers (self : Reader) (start : Nat) (n : Node) : P Node := do
  match ← peekKind with
  | .keyword k =>
    if isModifier k then
      let _ ← bump
      let condition ← self .sentence
      let n ← mkNode (.control k.word [n, condition]) start
      self (.modifiers start n)
    else return n
  | _ => return n

def readSentence (self : Reader) : P Node := do
  let start ← here
  let lhs ← self .negation
  self (.joined start lhs)

def readJoined (self : Reader) (start : Nat) (lhs : Node) : P Node := do
  if ← atAny [.keyword .andKw, .keyword .orKw] then
    let op := (← bump).text
    skipNewlines
    let rhs ← self .negation
    let n ← mkNode (.binary op lhs rhs) start
    self (.joined start n)
  else return lhs

def readNegation (self : Reader) : P Node := do
  if ← atKeyword .notKw then
    let start := (← bump).span.start
    let operand ← self .negation
    mkNode (.unary "not" operand) start
  else self .expr

/-! ## Assignment -/

def isAssignable (n : Node) : Bool :=
  match n.kind with
  | .ident _ | .instanceVar _ | .classVar _ | .globalVar _ | .const _ _ | .splat _ _ => true
  | .call c => c.receiver.isSome && c.block.isNone && (c.args.isEmpty || c.method == "[]")
  | _ => false

/-- The right side of an assignment; several values make an array. -/
def assignedValue (self : Reader) : P Node := do
  let start ← here
  let first ← self .expr
  if ← at_ .comma then
    let more ← self .moreArgs
    mkNode (.array (first :: more)) start
  else return first

def readExpr (self : Reader) : P Node := do
  let start ← here
  let target ← self .ternary
  if isAssignable target then
    match ← peekKind with
    | .assign =>
      let _ ← bump
      skipNewlines
      let value ← assignedValue self
      mkNode (.assign target value) start
    | .opAssign =>
      let op := (← bump).text
      skipNewlines
      let value ← assignedValue self
      mkNode (.opAssign op target value) start
    | _ => return target
  else return target

/-! ## Ternary and binary operators -/

/-- The branch after the colon; where the colon sticks to a name, the two were read as a symbol. -/
def elseBranch (self : Reader) : P (List Node) := do
  if ← eat .colon then
    skipNewlines
    return [← self .ternary]
  else if ← at_ .symbol then
    let t ← bump
    return [← mkNode (.ident (withoutFirst t.text)) (t.span.start + 1)]
  else return []

def readTernary (self : Reader) : P Node := do
  let start ← here
  let condition ← self (.binary 0)
  if ← eat .question then
    skipNewlines
    let then_ ← self .ternary
    skipNewlines
    let else_ ← elseBranch self
    mkNode (.control "?" (condition :: then_ :: else_)) start
  else return condition

/-- The strength of a binary operator, and whether it groups to the right. -/
def precedence? (t : Token TokenKind) : Option (Nat × Bool) :=
  match t.kind with
  | .range => some (1, false)
  | .orOr => some (2, false)
  | .andAnd => some (3, false)
  | .lt => some (5, false)
  | .pipe => some (6, false)
  | .amp => some (7, false)
  | .plus | .minus => some (9, false)
  | .star | .slash => some (10, false)
  | .doubleStar => some (12, true)
  | .operator =>
    match t.text with
    | "==" | "!=" | "=~" | "!~" | "===" | "<=>" => some (4, false)
    | ">" | "<=" | ">=" => some (5, false)
    | "^" => some (6, false)
    | "<<" | ">>" => some (8, false)
    | "%" => some (10, false)
    | _ => none
  | _ => none

def readBinary (self : Reader) (min : Nat) : P Node := do
  let start ← here
  let lhs ← self .unary
  self (.operators min start lhs)

def readOperators (self : Reader) (min start : Nat) (lhs : Node) : P Node := do
  match precedence? (← peek) with
  | none => return lhs
  | some (strength, rightward) =>
    if strength < min then return lhs
    else
      let op := (← bump).text
      skipNewlines
      let rhs ← self (.binary (if rightward then strength else strength + 1))
      let n ← mkNode (.binary op lhs rhs) start
      self (.operators min start n)

/-! ## Signs and splats -/

def signed (self : Reader) (op : String) (start : Nat) : P Node := do
  let operand ← self .unary
  mkNode (.unary op operand) start

def readUnary (self : Reader) : P Node := do
  let t ← peek
  let start := t.span.start
  match t.kind with
  | .bang | .plus =>
    let _ ← bump
    signed self t.text start
  | .minus =>
    let _ ← bump
    let next ← peek
    if next.kind = .number ∧ !next.spaced then
      let _ ← bump
      let n ← mkNode (.number ("-" ++ next.text)) start
      self (.trailers start n)
    else signed self "-" start
  | .star | .doubleStar =>
    let _ ← bump
    let value ← self .unary
    mkNode (.splat (t.kind == .doubleStar) (some value)) start
  | kind =>
    if kind = .operator ∧ t.text = "~" then
      let _ ← bump
      signed self "~" start
    else
      let n ← self .primary
      self (.trailers n.span.start n)

end PuppetDocs.Ruby
