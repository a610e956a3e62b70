import PuppetDocs.Ruby.Grammar.Args

/-
  PuppetDocs.Ruby.Grammar.Calls — calls and what may follow a value.

  After a value may come `.method`, `::Name`, an index with no blank in front of its bracket,
  and a block. A line that starts with a dot goes on with the value above it. Braces belong to
  a call whose arguments are in parentheses or missing, `do` to any call that has no block,
  unless it is held back for a call further out. A block makes a lone name a call.
-/

namespace PuppetDocs.Ruby

open ParseM

def mkCall (receiver : Option Node) (method : String) (args : List Node) (parens : Bool) (start : Nat) : P Node :=
  mkNode (.call { receiver, method, args, parens, block := none }) start

/-! ## Blocks -/

def bodyStops : List TokenKind := [.keyword .rescueKw, .keyword .elseKw, .keyword .ensureKw, .keyword .endKw]

def readBody (self : Reader) : P Node := do
  let start ← here
  let main ← self (.statements bodyStops)
  if ← atAny [.keyword .rescueKw, .keyword .elseKw, .keyword .ensureKw] then
    let rescues ← self .rescues
    let else_ ← if ← eatKeyword .elseKw then
        (do return [← self (.statements [.keyword .ensureKw, .keyword .endKw])]) else pure []
    let ensure_ ← if ← eatKeyword .ensureKw then
        (do return [← self (.statements [.keyword .endKw])]) else pure []
    mkNode (.control "begin" (main :: rescues ++ else_ ++ ensure_)) start
  else return main

def readRescueTypes (self : Reader) : P (List Node) := do
  if ← atAny [.newline, .semicolon, .keyword .thenKw, .fatArrow, .eof] then return []
  else
    let n ← self .ternary
    if ← eat .comma then
      skipNewlines
      return n :: (← self .rescueTypes)
    else return [n]

def readRescues (self : Reader) : P (List Node) := do
  if ← eatKeyword .rescueKw then
    let start ← prevEnd
    let types ← self .rescueTypes
    let binding ← if ← eat .fatArrow then (do return [← self .primary]) else pure []
    let _ ← eatKeyword .thenKw
    let body ← self (.statements bodyStops)
    let clause ← mkNode (.other (types ++ binding ++ [body])) start
    return clause :: (← self .rescues)
  else return []

def blockParams (self : Reader) : P (List (Param Node)) := do
  if ← eat .pipe then
    let params ← self (.params [.pipe])
    let _ ← need .pipe "'|'"
    return params
  else
    let _ ← eat .orOr
    return []

def block (self : Reader) : P (Block Node) := do
  let opener ← bump
  let keyword : Bool := opener.kind = .keyword .doKw
  let (params, body) ← nested (do
    let params ← blockParams self
    let body ← if keyword then self .body else self (.statements [.rbrace])
    return (params, body))
  if keyword then needEnd
  else
    let _ ← need .rbrace "'\x7d'"
  return { params, body, span := ⟨opener.span.start, ← prevEnd⟩, line := ← lineOf opener.span.start }

def takesBraces (n : Node) : Bool :=
  match n.kind with
  | .ident _ => true
  | .call c => c.block.isNone && (c.parens || c.args.isEmpty)
  | _ => false

def takesDo (n : Node) : Bool :=
  match n.kind with
  | .ident _ => true
  | .call c => c.block.isNone
  | _ => false

/-- The call `n`, or the call of the method named `n`, with `b` as its block. -/
def withBlock (n : Node) (b : Block Node) : NodeKind Node :=
  match n.kind with
  | .ident method => .call { receiver := none, method, args := [], parens := false, block := some b }
  | .call c => .call { c with block := some b }
  | kind => kind

def attachBlock (self : Reader) (n : Node) : P Node := do
  let b ← block self
  return { kind := withBlock n b, span := ⟨n.span.start, ← prevEnd⟩, line := n.line }

/-! ## What follows a value -/

/-- The name of a method after a dot, if the token can be one. -/
def methodName? (t : Token TokenKind) : Option String :=
  match t.kind with
  | .ident | .constant | .keyword _ | .operator | .plus | .minus | .star | .slash | .lt | .bang => some t.text
  | .label => some (keyName t.text)
  | _ => none

/-- Arguments after a method name, and whether they stand in parentheses. -/
def callArgs (self : Reader) : P (List Node × Bool) := do
  if ← parenAt 0 then return (← parenArgs self, true)
  else if ← commandArgStarts then return (← commandArgs self, false)
  else return ([], false)

/-- The method and its arguments after a dot; without a name the method is `call`. -/
def methodCall (self : Reader) (receiver : Node) (start : Nat) : P Node := do
  let t ← peek
  if t.kind = .lparen then
    let args ← parenArgs self
    mkCall (some receiver) "call" args true start
  else
    match methodName? t with
    | none => fail (.unexpected t.text "method name") t.span.start
    | some method =>
      let _ ← bump
      let (args, parens) ← callArgs self
      mkCall (some receiver) method args parens start

/-- After line feeds a dot follows. -/
def lineGoesOn : P Bool := do
  let s ← get
  let t := (s.skipWhile isNewline).peek
  return t.kind = .dot ∨ t.kind = .safeNav

def scopedName (self : Reader) (n : Node) (start : Nat) : P Node := do
  let _ ← bump
  if (← at_ .constant) && !(← parenAt 1) then
    let name := (← bump).text
    mkNode (.const (some n) name) start
  else methodCall self n start

def index (self : Reader) (n : Node) (start : Nat) : P Node := do
  let _ ← bump
  let args ← nested (self (.args .rbracket))
  let _ ← need .rbracket "']'"
  mkCall (some n) "[]" args true start

def readTrailers (self : Reader) (start : Nat) (n : Node) : P Node := do
  let t ← peek
  match t.kind with
  | .dot | .safeNav =>
    let _ ← bump
    skipNewlines
    let n ← methodCall self n start
    self (.trailers start n)
  | .newline =>
    if ← lineGoesOn then
      skipNewlines
      self (.trailers start n)
    else return n
  | .colonColon =>
    let n ← scopedName self n start
    self (.trailers start n)
  | .lbracket =>
    if t.spaced then return n
    else
      let n ← index self n start
      self (.trailers start n)
  | .lbrace =>
    if takesBraces n then
      let n ← attachBlock self n
      self (.trailers start n)
    else return n
  | .keyword .doKw =>
    if !(← read).holdDo && takesDo n then
      let n ← attachBlock self n
      self (.trailers start n)
    else return n
  | _ => return n

end PuppetDocs.Ruby
