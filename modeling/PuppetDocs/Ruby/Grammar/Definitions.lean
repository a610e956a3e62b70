import PuppetDocs.Ruby.Grammar.Calls

/-
  PuppetDocs.Ruby.Grammar.Definitions — methods, lambdas, classes and modules.
-/

namespace PuppetDocs.Ruby

open ParseM

/-- Parameters in parentheses, the next token being the opening one. -/
def parenParams (self : Reader) : P (List (Param Node)) := do
  let _ ← bump
  let params ← self (.params [.rparen])
  let _ ← need .rparen "')'"
  return params

def lambda (self : Reader) : P Node := do
  let start := (← bump).span.start
  let params ← if ← at_ .lparen then parenParams self else self (.params [.lbrace, .keyword .doKw])
  if ← eatKeyword .doKw then
    let body ← nested (self .body)
    needEnd
    mkNode (.lambda params body) start
  else
    let _ ← need .lbrace "'\x7b'"
    let body ← nested (self (.statements [.rbrace]))
    let _ ← need .rbrace "'\x7d'"
    mkNode (.lambda params body) start

/-! ## Methods -/

/-- Passes over the object in front of the name of a singleton method. -/
def singletonOwner : P Bool := do
  if (← atAny [.keyword .selfKw, .constant, .ident]) && (← peekAt 1).kind = .dot then
    let _ ← bump
    let _ ← bump
    return true
  else return false

def definedName (start : Nat) : P String := do
  let t ← bump
  let name ← match t.kind with
    | .lbracket => do
      let _ ← need .rbracket "']'"
      pure "[]"
    | .eof => fail (.unexpectedEnd "method name") start
    | _ => pure (keyName t.text)
  let next ← peek
  if next.kind = .assign ∧ !next.spaced then
    if ← parenAt 1 then
      let _ ← bump
      return name ++ "="
    else return name
  else return name

def methodParams (self : Reader) : P (List (Param Node)) := do
  if ← at_ .lparen then parenParams self
  else if ← atAny [.newline, .semicolon, .assign] then return []
  else self (.params [.newline, .semicolon])

def method (self : Reader) : P Node := do
  let start := (← bump).span.start
  let singleton ← singletonOwner
  let name ← definedName start
  let params ← methodParams self
  if ← eat .assign then
    skipNewlines
    let body ← self .statement
    mkNode (.method name singleton params body) start
  else
    let body ← nested (self .body)
    needEnd
    mkNode (.method name singleton params body) start

/-! ## Classes and modules -/

def classDefinition (self : Reader) : P Node := do
  let start := (← bump).span.start
  let t ← peek
  if t.kind = .operator ∧ t.text = "<<" then
    let _ ← bump
    let target ← self .expr
    let body ← nested (self .body)
    needEnd
    mkNode (.namespace_ .singletonClass (some target) none body) start
  else
    let name ← self .unary
    let superclass ← if ← eat .lt then some <$> self .expr else pure none
    let body ← nested (self .body)
    needEnd
    mkNode (.namespace_ .class_ (some name) superclass body) start

def moduleDefinition (self : Reader) : P Node := do
  let start := (← bump).span.start
  let name ← self .unary
  let body ← self .body
  needEnd
  mkNode (.namespace_ .module_ (some name) none body) start

end PuppetDocs.Ruby
