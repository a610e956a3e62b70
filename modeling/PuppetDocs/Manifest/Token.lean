import PuppetDocs.Source.Token

/-
  PuppetDocs.Manifest.Token — the kinds of tokens in Puppet manifests, and the longest lexeme.

  Only what declarations are made of, and what has to be known to keep brackets balanced, has
  a kind of its own. Names and type names may be qualified with `::`; a lower-case word that
  is one of six keywords is that keyword, but only unqualified, whole, and not directly in
  front of a colon: `class:` and `type::A` start with a name.

  The opening of a heredoc without a closing parenthesis on its line is an unknown character,
  not an operator.
-/

namespace PuppetDocs.Manifest

open Text (run isNameChar)

inductive TokenKind where
  | classKw | defineKw | functionKw | typeKw | planKw | inheritsKw
  | variable | name | typeName | number | string | regex
  | lbrace | rbrace | lparen | rparen | lbracket | rbracket
  | comma | assign | fatArrow | returnArrow | star | slash
  | operator | unknown | eof
  deriving DecidableEq, Repr

/-- After these an expression has just ended, so that a slash divides. -/
def TokenKind.endsValue : TokenKind → Bool
  | .variable | .name | .typeName | .number | .string | .regex | .rparen | .rbracket | .rbrace => true
  | _ => false

inductive Lexeme where
  | comment | blockComment | heredoc
  | quote (c : Char)
  | plain (kind : TokenKind)
  deriving DecidableEq, Repr

def isGap (c : Char) : Bool := c == ' ' || c == '\t' || c == '\r' || c == '\n' || c == '\x0c'

def isLowerStart (c : Char) : Bool := c.isLower || c == '_'

/-- The rest of a qualified name of which the first character has been read; every part starts
with a character that satisfies `first`. -/
def qualifiedTail (first : Char → Bool) : List Char → Nat
  | ':' :: ':' :: c :: r => if first c then 3 + qualifiedTail first r else 0
  | c :: r => if isNameChar c then 1 + qualifiedTail first r else 0
  | [] => 0

/-- The width of a qualified name, zero if none starts here. -/
def qualified (first : Char → Bool) : List Char → Nat
  | ':' :: ':' :: c :: r => if first c then 3 + qualifiedTail first r else 0
  | c :: r => if first c then 1 + qualifiedTail first r else 0
  | [] => 0

def keyword? (w : List Char) : Option TokenKind :=
  match String.ofList w with
  | "class" => some .classKw
  | "define" => some .defineKw
  | "function" => some .functionKw
  | "type" => some .typeKw
  | "plan" => some .planKw
  | "inherits" => some .inheritsKw
  | _ => none

/-- The kind of the lower-case word `w` in front of `rest`. -/
def wordKind (w rest : List Char) : TokenKind :=
  match rest with
  | ':' :: _ => .name
  | _ => (keyword? w).getD .name

def bracket? : Char → Option TokenKind
  | '\x7b' => some .lbrace
  | '\x7d' => some .rbrace
  | '(' => some .lparen
  | ')' => some .rparen
  | '[' => some .lbracket
  | ']' => some .rbracket
  | _ => none

def isOperatorChar (c : Char) : Bool := "-+%<>!|&.?@^~:;".toList.contains c

/-- The width of a heredoc header after its `@(`, zero if the line has no closing parenthesis. -/
def headerTail (cs : List Char) : Nat :=
  let inside := run (fun c => c != ')' && c != '\n') cs
  match cs.drop inside with
  | ')' :: _ => inside + 1
  | _ => 0

def lexeme? : List Char → Option (Lexeme × Nat)
  | [] => none
  | c :: r =>
    let cs := c :: r
    if c == '#' then some (.comment, 1 + run (· != '\n') r)
    else if qualified isLowerStart cs ≠ 0 then
      let width := qualified isLowerStart cs
      some (.plain (wordKind (cs.take width) (cs.drop width)), width)
    else if qualified Char.isUpper cs ≠ 0 then some (.plain .typeName, qualified Char.isUpper cs)
    else if c.isDigit then some (.plain .number, 1 + run (fun c => isNameChar c || c == '.') r)
    else if c == '$' then
      if qualified isLowerStart r ≠ 0 then some (.plain .variable, 1 + qualified isLowerStart r) else none
    else if c == '\'' || c == '"' then some (.quote c, 1)
    else match c, r with
      | '/', '*' :: _ => some (.blockComment, 2)
      | '/', _ => some (.plain .slash, 1)
      | '@', '(' :: s => if headerTail s ≠ 0 then some (.heredoc, 2 + headerTail s) else none
      | '=', '>' :: _ => some (.plain .fatArrow, 2)
      | '=', _ => some (.plain .assign, 1)
      | '>', '>' :: _ => some (.plain .returnArrow, 2)
      | '*', _ => some (.plain .star, 1)
      | ',', _ => some (.plain .comma, 1)
      | _, _ =>
        match bracket? c with
        | some kind => some (.plain kind, 1)
        | none => if isOperatorChar c then some (.plain .operator, 1) else none

end PuppetDocs.Manifest
