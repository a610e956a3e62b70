import PuppetDocs.Source.Token

/-
  PuppetDocs.Ruby.Token — the kinds of Ruby tokens.

  A kind carries what the token means beyond its text: the keyword it is, the value of a
  string-like literal, the entries of a word list. `endsValue` holds of the kinds after
  which an expression has just ended; a `/`, `%` or `<<` that follows one is an operator,
  not the opening of a literal.
-/

namespace PuppetDocs.Ruby

/-- The value of a string-like literal and whether it has interpolated parts. -/
structure StrLit where
  value : String
  interpolated : Bool
  deriving DecidableEq, Repr, Inhabited

inductive Keyword where
  | defKw | classKw | moduleKw | endKw | doKw | ifKw | unlessKw | elsifKw | elseKw | thenKw | whileKw | untilKw
  | forKw | inKw | caseKw | whenKw | beginKw | rescueKw | ensureKw | returnKw | breakKw | nextKw | redoKw | retryKw
  | yieldKw | superKw | selfKw | nilKw | trueKw | falseKw | andKw | orKw | notKw | definedKw | aliasKw | undefKw
  deriving DecidableEq, Repr

namespace Keyword

def all : List Keyword :=
  [.defKw, .classKw, .moduleKw, .endKw, .doKw, .ifKw, .unlessKw, .elsifKw, .elseKw, .thenKw, .whileKw, .untilKw,
   .forKw, .inKw, .caseKw, .whenKw, .beginKw, .rescueKw, .ensureKw, .returnKw, .breakKw, .nextKw, .redoKw, .retryKw,
   .yieldKw, .superKw, .selfKw, .nilKw, .trueKw, .falseKw, .andKw, .orKw, .notKw, .definedKw, .aliasKw, .undefKw]

def word : Keyword → String
  | .defKw => "def" | .classKw => "class" | .moduleKw => "module" | .endKw => "end" | .doKw => "do"
  | .ifKw => "if" | .unlessKw => "unless" | .elsifKw => "elsif" | .elseKw => "else" | .thenKw => "then"
  | .whileKw => "while" | .untilKw => "until" | .forKw => "for" | .inKw => "in" | .caseKw => "case"
  | .whenKw => "when" | .beginKw => "begin" | .rescueKw => "rescue" | .ensureKw => "ensure"
  | .returnKw => "return" | .breakKw => "break" | .nextKw => "next" | .redoKw => "redo" | .retryKw => "retry"
  | .yieldKw => "yield" | .superKw => "super" | .selfKw => "self" | .nilKw => "nil" | .trueKw => "true"
  | .falseKw => "false" | .andKw => "and" | .orKw => "or" | .notKw => "not" | .definedKw => "defined?"
  | .aliasKw => "alias" | .undefKw => "undef"

def ofWord? (w : List Char) : Option Keyword := all.find? fun k => k.word.toList == w

end Keyword

inductive TokenKind where
  | newline
  | keyword (k : Keyword)
  | ident | constant | instanceVar | classVar | globalVar
  /-- A name with the colon that makes it a key. -/
  | label
  | number | symbol
  | string (value : StrLit)
  | quotedSymbol (value : StrLit)
  | command (value : StrLit)
  | regex
  | words (entries : List String)
  | symbolWords (entries : List String)
  | colonColon | dot | safeNav | comma | semicolon
  | lparen | rparen | lbracket | rbracket | lbrace | rbrace
  | fatArrow | arrow | assign | opAssign | question | colon
  | bang | star | doubleStar | amp | minus | plus | slash | pipe | lt | range | orOr | andAnd
  /-- Any other operator; its text tells which. -/
  | operator
  /-- A character that begins no token. -/
  | unknown
  | eof
  deriving DecidableEq, Repr

namespace TokenKind

/-- A value may end with such a token, so an operator may follow it. -/
def endsValue : TokenKind → Bool
  | .ident | .constant | .instanceVar | .classVar | .globalVar | .number | .symbol | .string _ | .quotedSymbol _
  | .command _ | .regex | .words _ | .symbolWords _ | .rparen | .rbracket | .rbrace => true
  | .keyword k => k == .endKw || k == .selfKw || k == .nilKw || k == .trueKw || k == .falseKw
  | _ => false

end TokenKind

end PuppetDocs.Ruby
