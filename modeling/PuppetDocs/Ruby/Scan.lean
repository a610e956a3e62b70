import PuppetDocs.Ruby.Heredoc
import PuppetDocs.Ruby.Lexeme

/-
  PuppetDocs.Ruby.Scan — from the text of a Ruby file to its tokens and comments.

  A step of the scanner looks at what comes next and answers with what it found and with the
  number of characters that takes; `walk` makes those characters part of the past one by one
  and then takes the next step, so the walk is a recursion on the text itself.

  What a step sees depends on the past in four ways: an embedded document or the data marker
  counts only at the start of a line; `/`, `%` and `<<` open a literal only where a value may
  start; a name in front of a colon is a key unless it follows `?`, `.` or `&.`; and a line
  feed is followed by the bodies of the heredocs that its line opened, in their order.

  The scan ends at the end of the text or at the data marker, whatever comes first, and no
  heredoc may then be left without a body.
-/

namespace PuppetDocs.Ruby

open Text (run isNameChar)

/-- A heredoc whose body has not been reached yet, and the offset of its marker. -/
structure Pending where
  heredoc : Heredoc
  start : Nat
  deriving DecidableEq, Repr

structure Scanner where
  reading : Reading TokenKind := {}
  pending : List Pending := []

namespace Scanner

def next (s : Scanner) (c : Char) : Scanner := { s with reading := s.reading.next c }

def add (s : Scanner) (t : Token TokenKind) : Scanner :=
  { s with reading.tokens := t :: s.reading.tokens }

def addComment (s : Scanner) (c : Comment) : Scanner :=
  { s with reading.comments := c :: s.reading.comments }

end Scanner

/-! ## Places -/

/-- A literal may begin here. After a complete value only a method name may be followed by one,
as an argument set off by a blank; `next` is the text after the character in question. -/
def valueMayStart (r : Reading TokenKind) (next : List Char) : Bool :=
  match r.lastKind? with
  | none => true
  | some k =>
    if k.endsValue then
      k == .ident && r.afterSpace && !(next.head? == some ' ' || next.head? == some '=')
    else true

def isDataMarker (cs : List Char) : Bool :=
  match Text.after? "__END__".toList cs with
  | some [] => true
  | some ('\n' :: _) => true
  | some ('\r' :: '\n' :: _) => true
  | _ => false

/-- The width of an embedded document, up to the end of the line that starts with `=end`. -/
def embeddedDoc? : List Char → Option Nat
  | [] => none
  | c :: r =>
    if c == '\n' && "=end".toList.isPrefixOf r then some (1 + Text.lineWidth r)
    else (embeddedDoc? r).map (· + 1)

/-- A name directly in front of a single colon is a key. -/
def isKey (r : Reading TokenKind) (rest : List Char) : Bool :=
  let colon := match rest with
    | ':' :: ':' :: _ => false
    | ':' :: _ => true
    | _ => false
  colon && !(r.lastKind? == some .question || r.lastKind? == some .dot || r.lastKind? == some .safeNav)

/-- A symbol takes in the `=` of a setter name, but not that of `=>`, `==` or `=~`. -/
def isSetter (symbol rest : List Char) : Bool :=
  (symbol.getLast?.map isNameChar).getD false && symbol[1]? != some '@' &&
    match rest with
    | '=' :: c :: _ => !(c == '>' || c == '=' || c == '~')
    | ['='] => true
    | _ => false

def refuse {α : Type} (fault : Fault) (lines : LineIndex) (offset : Nat) : Except ParseFailure α :=
  .error (.rejected (fault.at lines offset))

/-! ## Heredoc bodies -/

/-- Gives the string token at offset `start` its value. -/
def fill (tokens : List (Token TokenKind)) (start : Nat) (value : StrLit) : List (Token TokenKind) :=
  tokens.map fun t => if t.span.start == start then { t with kind := .string value } else t

def readBodies (lines : LineIndex) (tokens : List (Token TokenKind)) :
    List Pending → List (List Char) → Except ParseFailure (List (Token TokenKind) × List (List Char))
  | [], rest => .ok (tokens, rest)
  | p :: ps, rest =>
    match p.heredoc.takeBody? rest with
    | none => refuse (.unterminatedHeredoc (String.ofList p.heredoc.tag)) lines p.start
    | some (body, after) =>
      match p.heredoc.value body with
      | .error e => .error e
      | .ok value => readBodies lines (fill tokens p.start value) ps after

/-! ## Steps -/

abbrev Step := Except ParseFailure (Option (Scanner × Nat))

/-- A token of `width` characters, found after `gap` blanks. -/
def found (s : Scanner) (r : Reading TokenKind) (gap : Nat) (cs : List Char) (kind : TokenKind) (width : Nat) : Step :=
  .ok (some (s.add (r.token kind (cs.take width)), gap + width))

/-- A literal whose opening takes `width` characters; `kind` makes its token from its value, and
`flags` says whether letters after it belong to it. -/
def literal (lines : LineIndex) (s : Scanner) (r : Reading TokenKind) (gap : Nat) (cs : List Char) (width : Nat)
    (d : Delimiters) (flags : Bool) (kind : StrLit → TokenKind) : Step :=
  let inside := cs.drop width
  match d.body? inside with
  | none => refuse .unterminatedString lines r.offset
  | some n =>
    let closed := width + n + 1
    let letters := if flags then run Char.isAlpha (cs.drop closed) else 0
    found s r gap cs (kind (decode d (inside.take n))) (closed + letters)

def wordsOf (value : StrLit) : List String := (Text.words value.value.toList).map String.ofList

def percentLiteral (lines : LineIndex) (s : Scanner) (r : Reading TokenKind) (gap : Nat) (cs : List Char)
    (width : Nat) : Step :=
  let opener := ((cs.take width).getLast?).getD '('
  let flavour := if width = 2 then 'Q' else (cs[1]?).getD 'Q'
  let raw := percentDelimiters opener none
  let interpolating := percentDelimiters opener (some '#')
  match flavour with
  | 'w' | 'W' => literal lines s r gap cs width raw false fun v => .words (wordsOf v)
  | 'i' | 'I' => literal lines s r gap cs width raw false fun v => .symbolWords (wordsOf v)
  | 'r' => literal lines s r gap cs width interpolating true fun _ => .regex
  | 'q' => literal lines s r gap cs width raw false .string
  | _ => literal lines s r gap cs width interpolating false .string

/-- A line feed, and the bodies of the heredocs that its line opened, if it did open some. -/
def newline (lines : LineIndex) (s : Scanner) (r : Reading TokenKind) (gap : Nat) (cs : List Char) : Step :=
  if s.pending.isEmpty then found s r gap cs .newline 1
  else
    let s := s.add (r.token .newline (cs.take 1))
    let below := cs.drop 1
    match readBodies lines s.reading.tokens s.pending (Text.physicalLines below) with
    | .error e => .error e
    | .ok (tokens, rest) =>
      let consumed := below.length - rest.flatten.length
      .ok (some ({ s with reading.tokens := tokens, pending := [] }, gap + 1 + consumed))

/-- The lexeme of `width` characters that `cs` starts with, as a token or comment. -/
def accept (lines : LineIndex) (s : Scanner) (r : Reading TokenKind) (gap : Nat) (cs : List Char) (width : Nat) :
    Lexeme → Step
  | .comment => .ok (some (s.addComment (r.comment lines (cs.take width)), gap + width))
  | .word =>
    if isKey r (cs.drop width) then found s r gap cs .label (width + 1)
    else match Keyword.ofWord? (cs.take width) with
      | some k => found s r gap cs (.keyword k) width
      | none => found s r gap cs .ident width
  | .opening .singleQuote => literal lines s r gap cs width (.quote '\'' none) false .string
  | .opening .doubleQuote => literal lines s r gap cs width (.quote '"' (some '#')) false .string
  | .opening .backtick => literal lines s r gap cs width (.quote '\x60' (some '#')) false .command
  | .opening (.symbolQuote q) =>
    literal lines s r gap cs width (.quote q (if q == '\'' then none else some '#')) false .quotedSymbol
  | .opening .percent =>
    if valueMayStart r (cs.drop 1) then percentLiteral lines s r gap cs width
    else found s r gap cs .operator 1
  | .opening .heredoc =>
    if valueMayStart r (cs.drop 1) then
      let heredoc := Heredoc.ofMarker ((cs.take width).drop 2)
      let s := { s with pending := s.pending ++ [{ heredoc, start := r.offset }] }
      found s r gap cs (.string { value := "", interpolated := false }) width
    else found s r gap cs .operator 2
  | .plain .newline => newline lines s r gap cs
  | .plain .constant =>
    if isKey r (cs.drop width) then found s r gap cs .label (width + 1) else found s r gap cs .constant width
  | .plain .symbol =>
    if isSetter (cs.take width) (cs.drop width) then found s r gap cs .symbol (width + 1)
    else found s r gap cs .symbol width
  | .plain .slash =>
    if valueMayStart r (cs.drop 1) then
      match regexBody? false (cs.drop 1) with
      | none => refuse .unterminatedRegex lines r.offset
      | some n => found s r gap cs .regex (n + 2 + run Char.isAlpha (cs.drop (n + 2)))
    else found s r gap cs .slash width
  | .plain kind => found s r gap cs kind width

/-- What comes next in `rest`; nothing if only blanks or data are left. -/
def step (lines : LineIndex) (s : Scanner) (rest : List Char) : Step :=
  if s.reading.atLineStart && "=begin".toList.isPrefixOf rest then
    match embeddedDoc? rest with
    | some width => .ok (some (s, width))
    | none => refuse .unterminatedComment lines s.reading.offset
  else if s.reading.atLineStart && isDataMarker rest then .ok none
  else
    let gap := blanks rest
    let cs := rest.drop gap
    let r := s.reading.skip (rest.take gap)
    if cs.isEmpty then .ok none
    else match lexeme? cs with
      | none => found s r gap cs .unknown 1
      | some (lexeme, width) => accept lines s r gap cs width lexeme

/-- Reads on in a text of which `taken` more characters belong to what was found last. -/
def walk (lines : LineIndex) : List Char → Nat → Scanner → Except ParseFailure Scanner
  | [], _, s => .ok s
  | c :: rest, taken + 1, s => walk lines rest taken (s.next c)
  | c :: rest, 0, s =>
    match step lines s (c :: rest) with
    | .error e => .error e
    | .ok none => .ok s
    | .ok (some (s, width)) => walk lines rest (width - 1) (s.next c)

def scan (text : List Char) : Except ParseFailure (Scanned TokenKind) :=
  let lines := LineIndex.ofText text
  match walk lines text 0 {} with
  | .error e => .error e
  | .ok s =>
    match s.pending with
    | p :: _ => refuse (.unterminatedHeredoc (String.ofList p.heredoc.tag)) lines p.start
    | [] =>
      let stop := Text.byteLength text
      .ok {
        tokens := s.reading.tokens.reverse
        stop := { kind := .eof, text := "", span := ⟨stop, stop⟩, spaced := true }
        comments := s.reading.comments.reverse }

end PuppetDocs.Ruby
