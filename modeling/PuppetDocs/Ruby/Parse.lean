import PuppetDocs.Ruby.Grammar.Operators
import PuppetDocs.Ruby.Grammar.Primary
import PuppetDocs.Ruby.Scan

/-
  PuppetDocs.Ruby.Parse — from the tokens of a Ruby file to its tree.

  `Rule.step` reads one rule when the rules inside it can be read, `Rule.run` closes the
  recursion with a bound on its depth. Between two tokens that are used up, rules follow each
  other only in the order of their strength, so a bound linear in the number of tokens is
  never reached.
-/

namespace PuppetDocs.Ruby

open ParseM

def Rule.step (self : Reader) : {α : Type} → Rule α → P α
  | _, .statements stops => readStatements self stops
  | _, .items stops => readItems self stops
  | _, .body => readBody self
  | _, .rescues => readRescues self
  | _, .rescueTypes => readRescueTypes self
  | _, .statement => readStatement self
  | _, .modifiers start n => readModifiers self start n
  | _, .sentence => readSentence self
  | _, .joined start lhs => readJoined self start lhs
  | _, .negation => readNegation self
  | _, .expr => readExpr self
  | _, .ternary => readTernary self
  | _, .binary min => readBinary self min
  | _, .operators min start lhs => readOperators self min start lhs
  | _, .unary => readUnary self
  | _, .primary => readPrimary self
  | _, .trailers start n => readTrailers self start n
  | _, .arg => readArg self
  | _, .args closer => readArgs self closer
  | _, .moreArgs => readMoreArgs self
  | _, .params closers => readParams self closers
  | _, .forTargets => readForTargets self
  | _, .elsifs => readElsifs self
  | _, .whens => readWhens self
  | _, .undefNames => readUndefNames self

def Rule.run : Nat → Reader
  | 0, _, _ => throw .exhausted
  | n + 1, _, rule => Rule.step (Rule.run n) rule

/-- A bound on the depth of the recursion over `n` tokens. -/
def depthBound (n : Nat) : Nat := 16 * (n + 1)

/-- A whole file; a token that no statement takes has no partner. -/
def program (self : Reader) : P Node := do
  let n ← self (.statements [])
  let t ← peek
  if t.kind = .eof then return n else fail (.unbalanced t.text) t.span.start

def parseTokens (text : List Char) (lines : LineIndex) (tokens : List (Token TokenKind)) (stop : Token TokenKind) :
    Except ParseFailure Node :=
  ((program (Rule.run (depthBound tokens.length))).run { text, lines }).run' { rest := tokens, stop }

end PuppetDocs.Ruby
