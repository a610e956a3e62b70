import PuppetDocs.Ruby.Grammar.Calls

/-
  PuppetDocs.Ruby.Grammar.Control — conditionals, loops, `case` and `begin`.
-/

namespace PuppetDocs.Ruby

open ParseM

/-- The branch after `else`, if there is one. -/
def elseClause (self : Reader) : P (List Node) := do
  if ← eatKeyword .elseKw then return [← self (.statements [.keyword .endKw])] else return []

def branchStops : List TokenKind := [.keyword .elsifKw, .keyword .elseKw, .keyword .endKw]

def conditional (self : Reader) : P Node := do
  let t ← bump
  let condition ← self .sentence
  let _ ← eatKeyword .thenKw
  skipTerminators
  let _ ← eatKeyword .thenKw
  let body ← self (.statements branchStops)
  let elsifs ← self .elsifs
  let else_ ← elseClause self
  needEnd
  mkNode (.control t.text (condition :: body :: elsifs ++ else_)) t.span.start

def readElsifs (self : Reader) : P (List Node) := do
  if ← eatKeyword .elsifKw then
    let condition ← self .sentence
    let _ ← eatKeyword .thenKw
    let body ← self (.statements branchStops)
    return condition :: body :: (← self .elsifs)
  else return []

def whileLoop (self : Reader) : P Node := do
  let t ← bump
  let condition ← withoutDo (self .sentence)
  let _ ← eatKeyword .doKw
  let body ← self (.statements [.keyword .endKw])
  needEnd
  mkNode (.control t.text [condition, body]) t.span.start

def readForTargets (self : Reader) : P (List Node) := do
  if ← atAny [.keyword .inKw, .eof] then return []
  else
    let n ← self .primary
    let _ ← eat .comma
    return n :: (← self .forTargets)

def forLoop (self : Reader) : P Node := do
  let start := (← bump).span.start
  let targets ← self .forTargets
  let _ ← need (.keyword .inKw) "'in'"
  let range ← withoutDo (self .sentence)
  let _ ← eatKeyword .doKw
  let body ← self (.statements [.keyword .endKw])
  needEnd
  mkNode (.control "for" (targets ++ [range, body])) start

def readWhens (self : Reader) : P (List Node) := do
  if ← atAny [.keyword .whenKw, .keyword .inKw] then
    let _ ← bump
    let value ← self .arg
    let values ← self .moreArgs
    let _ ← eatKeyword .thenKw
    let body ← self (.statements [.keyword .whenKw, .keyword .inKw, .keyword .elseKw, .keyword .endKw])
    let rest ← self .whens
    return value :: values ++ body :: rest
  else return []

def caseOf (self : Reader) : P Node := do
  let start := (← bump).span.start
  let subject ← if ← atAny [.newline, .semicolon] then pure [] else (do return [← self .sentence])
  skipTerminators
  let whens ← self .whens
  let else_ ← elseClause self
  needEnd
  mkNode (.control "case" (subject ++ whens ++ else_)) start

def beginBlock (self : Reader) : P Node := do
  let start := (← bump).span.start
  let body ← self .body
  needEnd
  mkNode (.control "begin" [body]) start

end PuppetDocs.Ruby
