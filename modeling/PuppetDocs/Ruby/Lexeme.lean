import PuppetDocs.Ruby.Token

/-
  PuppetDocs.Ruby.Lexeme — the longest lexeme that a Ruby text starts with.

  `blanks` is the number of characters that separate tokens at the front of a text: spaces,
  tabs, carriage returns, form feeds, and backslashes that end their line. `lexeme?` is the
  longest of the plain lexemes that starts right there, with its length. A quote, a percent
  literal, a heredoc marker and a slash are only the opening of what follows; the scanner
  reads on from them.

  A name may end in one `?` or `!`. A number may have a fraction and an exponent, each only
  if a digit follows. A symbol is a name, an instance variable or an operator after a colon;
  of the operators the longest wins, as in `punctuation`, where each entry stands in front of
  those that are shorter.

  What starts like a heredoc marker and is none is not read as a shift. If a quoted tag has
  begun but is not closed on its line, there is no lexeme at all; any other `<<` in front of
  `-`, `~` or a quote is a comparison sign two characters wide.
-/

namespace PuppetDocs.Ruby

open Text (run isNameChar)

/-- What opens a literal whose end the scanner has to look for. -/
inductive Opening where
  | singleQuote | doubleQuote | backtick
  | symbolQuote (quote : Char)
  | percent
  | heredoc
  deriving DecidableEq, Repr

inductive Lexeme where
  | comment
  | word
  | opening (o : Opening)
  | plain (kind : TokenKind)
  deriving DecidableEq, Repr

def isNameStart (c : Char) : Bool := c.isLower || c == '_'

def isVarStart (c : Char) : Bool := c.isAlpha || c == '_'

def blanks : List Char → Nat
  | '\\' :: '\n' :: r => 2 + blanks r
  | '\\' :: '\r' :: '\n' :: r => 3 + blanks r
  | c :: r => if c == ' ' || c == '\t' || c == '\r' || c == '\x0c' then 1 + blanks r else 0
  | [] => 0

/-! ## Classes of lexemes -/

/-- The tail of a name: name characters and at most one mark. -/
def nameTail (cs : List Char) : Nat :=
  let n := run isNameChar cs
  match cs.drop n with
  | '?' :: _ | '!' :: _ => n + 1
  | _ => n

/-- The width of `[0-9]+` after a sign that may be missing, zero if there is no digit. -/
def exponent : List Char → Nat
  | e :: r =>
    if e == 'e' || e == 'E' then
      let sign := match r with
        | '+' :: _ | '-' :: _ => 1
        | _ => 0
      let digits := run Char.isDigit (r.drop sign)
      if digits = 0 then 0 else 1 + sign + digits
    else 0
  | [] => 0

def isHexDigit (c : Char) : Bool := c.isDigit || ('a' ≤ c && c ≤ 'f') || ('A' ≤ c && c ≤ 'F')

def isDigitOrBar (c : Char) : Bool := c.isDigit || c == '_'

/-- The width of a number; the text starts with a digit. -/
def number (cs : List Char) : Nat :=
  let whole := run isDigitOrBar cs
  let fraction := match cs.drop whole with
    | '.' :: d :: r => if d.isDigit then 2 + run isDigitOrBar r else 0
    | _ => 0
  let decimal := whole + fraction + exponent (cs.drop (whole + fraction))
  let based := match cs with
    | '0' :: b :: r =>
      let digits :=
        if b == 'x' || b == 'X' then run (fun c => isHexDigit c || c == '_') r
        else if b == 'b' || b == 'B' then run (fun c => c == '0' || c == '1' || c == '_') r
        else 0
      if digits = 0 then 0 else 2 + digits
    | _ => 0
  max decimal based

/-- Operators that may be named by a symbol, longer ones in front of those they begin with. -/
def symbolOperators : List (List Char) :=
  ["[]=", "[]", "<=>", "===", "==", "=~", "!=", "!~", "<<", ">>", "<=", ">=", "**", "+@", "-@", "!@", "~@",
   "+", "-", "!", "~", "*", "/", "%", "&", "|", "^", "<", ">"].map String.toList

/-- The width of a symbol after its colon, zero if none follows. -/
def symbolBody (cs : List Char) : Nat :=
  match cs with
  | [] => 0
  | c :: r =>
    if isVarStart c then 1 + nameTail r
    else if c == '@' then
      match r with
      | d :: s => if isVarStart d then 2 + run isNameChar s else 0
      | [] => 0
    else match symbolOperators.find? (·.isPrefixOf cs) with
      | some op => op.length
      | none => 0

/-- The width of the sign after `<<` that allows an indented terminator, and what follows it. -/
def markerSign : List Char → Nat × List Char
  | '-' :: r | '~' :: r => (1, r)
  | r => (0, r)

/-- The width of a heredoc marker after its `<<`, zero if there is none. -/
def heredocMarker (cs : List Char) : Nat :=
  let (dash, r) := markerSign cs
  match r with
  | [] => 0
  | q :: s =>
    if isVarStart q then dash + 1 + run isNameChar s
    else if q == '\'' || q == '"' then
      let inside := run (fun c => c != q && c != '\n') s
      match s.drop inside with
      | c :: _ => if c == q && inside != 0 then dash + 2 + inside else 0
      | [] => 0
    else 0

/-- Whether a quoted tag of at least one character begins after `<<`, closed or not. -/
def opensQuotedTag (cs : List Char) : Bool :=
  match (markerSign cs).2 with
  | q :: c :: _ => (q == '\'' || q == '"') && c != q && c != '\n'
  | _ => false

def isPercentDelimiter (c : Char) : Bool :=
  c == '(' || c == '[' || c == '{' || c == '<' || c == '|' || c == '!' || c == '/' || c == '^'

def isPercentFlavour (c : Char) : Bool :=
  c == 'q' || c == 'Q' || c == 'w' || c == 'W' || c == 'i' || c == 'I' || c == 'r'

/-- The width of the opening of a percent literal after its `%`, zero if there is none. -/
def percentOpening : List Char → Nat
  | c :: r =>
    if isPercentDelimiter c then 1
    else if isPercentFlavour c then
      match r with
      | d :: _ => if isPercentDelimiter d then 2 else 0
      | [] => 0
    else 0
  | [] => 0

def isSpecialGlobal (c : Char) : Bool := c.isDigit || "!@&\x60'+~=/\\,;.<>_*$?:".toList.contains c

/-- The width of a variable name after its sigil, zero if none follows. -/
def variableName : List Char → Nat
  | c :: r => if isVarStart c then 1 + run isNameChar r else 0
  | [] => 0

/-- Punctuation and operators, longer ones in front of those they begin with. -/
def punctuation : List (List Char × TokenKind) :=
  ([("===", .operator), ("<=>", .operator), ("...", .range), ("**=", .opAssign), ("||=", .opAssign),
    ("&&=", .opAssign), ("<<=", .opAssign), (">>=", .opAssign),
    ("::", .colonColon), ("&.", .safeNav), ("=>", .fatArrow), ("->", .arrow), ("+=", .opAssign), ("-=", .opAssign),
    ("*=", .opAssign), ("/=", .opAssign), ("%=", .opAssign), ("|=", .opAssign), ("&=", .opAssign),
    ("^=", .opAssign), ("**", .doubleStar), ("..", .range), ("||", .orOr), ("&&", .andAnd), ("==", .operator),
    ("!=", .operator), ("=~", .operator), ("!~", .operator), ("<=", .operator), (">=", .operator),
    ("<<", .operator), (">>", .operator),
    (".", .dot), (",", .comma), (";", .semicolon), ("(", .lparen), (")", .rparen), ("[", .lbracket),
    ("]", .rbracket), ("\x7b", .lbrace), ("\x7d", .rbrace), ("=", .assign), ("?", .question), (":", .colon),
    ("!", .bang), ("*", .star), ("&", .amp), ("-", .minus), ("+", .plus), ("/", .slash), ("|", .pipe),
    ("<", .lt), (">", .operator), ("%", .operator), ("^", .operator), ("~", .operator)] :
      List (String × TokenKind)).map fun (s, k) => (s.toList, k)

def punctuation? (cs : List Char) : Option (Lexeme × Nat) :=
  (punctuation.find? fun (s, _) => s.isPrefixOf cs).map fun (s, k) => (.plain k, s.length)

/-! ## The longest lexeme -/

def lexeme? : List Char → Option (Lexeme × Nat)
  | [] => none
  | c :: r =>
    if c == '\n' then some (.plain .newline, 1)
    else if c == '#' then some (.comment, 1 + run (· != '\n') r)
    else if isNameStart c then some (.word, 1 + nameTail r)
    else if c.isUpper then some (.plain .constant, 1 + run isNameChar r)
    else if c.isDigit then some (.plain .number, number (c :: r))
    else if c == '\'' then some (.opening .singleQuote, 1)
    else if c == '"' then some (.opening .doubleQuote, 1)
    else if c == '\x60' then some (.opening .backtick, 1)
    else if c == '@' then
      match r with
      | '@' :: s => if variableName s = 0 then none else some (.plain .classVar, 2 + variableName s)
      | _ => if variableName r = 0 then none else some (.plain .instanceVar, 1 + variableName r)
    else if c == '$' then
      if variableName r ≠ 0 then some (.plain .globalVar, 1 + variableName r)
      else match r with
        | d :: _ => if isSpecialGlobal d then some (.plain .globalVar, 2) else none
        | [] => none
    else if c == ':' then
      match r with
      | '\'' :: _ => some (.opening (.symbolQuote '\''), 2)
      | '"' :: _ => some (.opening (.symbolQuote '"'), 2)
      | _ => if symbolBody r = 0 then punctuation? (c :: r) else some (.plain .symbol, 1 + symbolBody r)
    else if c == '%' then
      if percentOpening r = 0 then punctuation? (c :: r) else some (.opening .percent, 1 + percentOpening r)
    else if c == '<' then
      match r with
      | '<' :: s =>
        if heredocMarker s ≠ 0 then some (.opening .heredoc, 2 + heredocMarker s)
        else if opensQuotedTag s then none
        else match s with
          | '-' :: _ | '~' :: _ | '\'' :: _ | '"' :: _ => some (.plain .lt, 2)
          | _ => punctuation? (c :: r)
      | _ => punctuation? (c :: r)
    else punctuation? (c :: r)

end PuppetDocs.Ruby
