import PuppetDocs.Manifest.Token
import PuppetDocs.Source.Delimited

/-
  PuppetDocs.Manifest.Scan — from the text of a manifest to its tokens and comments.

  The scanner walks the text as the Ruby scanner does. The bodies of heredocs are found when
  their header is read: a body starts below the header's line, or behind the bodies of the
  heredocs opened in that line before it, and ends with the line that holds nothing but the
  tag (a bar and dashes may stand in front of it). What starts inside a body is passed over
  together with the rest of that body.
-/

namespace PuppetDocs.Manifest

open Text (run)

structure Scanner where
  reading : Reading TokenKind := {}
  /-- The heredoc bodies found so far. -/
  bodies : List Span := []

namespace Scanner

def next (s : Scanner) (c : Char) : Scanner := { s with reading := s.reading.next c }

def add (s : Scanner) (t : Token TokenKind) : Scanner :=
  { s with reading.tokens := t :: s.reading.tokens }

def addComment (s : Scanner) (c : Comment) : Scanner :=
  { s with reading.comments := c :: s.reading.comments }

end Scanner

abbrev Step := Except ParseFailure (Option (Scanner × Nat))

/-- The next `n` bytes of what is left at `offset`, and the rest. -/
def cutAt (offset n : Nat) (cs : List Char) : Except ParseFailure (List Char × List Char) :=
  match Text.cut? n cs with
  | some parts => .ok parts
  | none => .error (.outOfText ⟨offset, offset + n⟩)

/-! ## Heredoc bodies -/

/-- The tag in a header, up to a colon or slash and without quotes. -/
def tagOf (header : List Char) : List Char :=
  Text.trimMatches (· == '"') (Text.trim (header.takeWhile fun c => c != ':' && c != '/'))

/-- A closing line without its bar and dashes. -/
def marker (line : List Char) : List Char :=
  let line := Text.trimStart ((Text.trim line).dropWhile (· == '|'))
  Text.trimStart (line.dropWhile (· == '-'))

/-- The width of the lines up to and with the one that closes `tag`. -/
def bodyWidth? (tag : List Char) : List (List Char) → Option Nat
  | [] => none
  | line :: rest =>
    if marker line == tag then some (Text.byteLength line)
    else (bodyWidth? tag rest).map (Text.byteLength line + ·)

/-- Where a body starts that would start at `start` if no other body stood there. -/
def behindBodies (bodies : List Span) (start : Nat) : Nat :=
  bodies.foldl (fun at_ b => if b.start == at_ then b.stop else at_) start

/-- The body of a heredoc whose header ends at offset `stop`, in front of `rest`; nothing if no line closes it. -/
def heredocBody (bodies : List Span) (tag : List Char) (stop : Nat) (rest : List Char) :
    Except ParseFailure (Option Span) := do
  let start := behindBodies bodies (stop + Text.byteLength (rest.take (Text.lineWidth rest)))
  let (_, below) ← cutAt stop (start - stop) rest
  return (bodyWidth? tag (Text.physicalLines below)).map fun width => ⟨start, start + width⟩

/-! ## Steps -/

def found (s : Scanner) (r : Reading TokenKind) (gap : Nat) (cs : List Char) (kind : TokenKind) (width : Nat) : Step :=
  .ok (some (s.add (r.token kind (cs.take width)), gap + width))

def refuse (fault : Fault) (lines : LineIndex) (offset : Nat) : Step := .error (.rejected (fault.at lines offset))

/-- The width of a block comment after its opening. -/
def blockComment? : List Char → Option Nat
  | [] => none
  | c :: r => if c == '*' && r.head? == some '/' then some 2 else (blockComment? r).map (· + 1)

/-- The width of a regular expression after its opening slash; it may not span lines. -/
def regexTail? : List Char → Option Nat
  | [] => none
  | '\\' :: r =>
    match r with
    | [] => none
    | _ :: s => (regexTail? s).map (· + 2)
  | c :: r => if c == '\n' then none else if c == '/' then some 1 else (regexTail? r).map (· + 1)

def regexAllowed (r : Reading TokenKind) : Bool :=
  match r.lastKind? with
  | none => true
  | some k => !k.endsValue

def accept (lines : LineIndex) (s : Scanner) (r : Reading TokenKind) (gap : Nat) (cs : List Char) (width : Nat) :
    Lexeme → Step
  | .comment => .ok (some (s.addComment (r.comment lines (cs.take width)), gap + width))
  | .blockComment =>
    match blockComment? (cs.drop width) with
    | none => refuse .unterminatedComment lines r.offset
    | some n => .ok (some (s, gap + width + n))
  | .quote q =>
    match (Delimiters.quote q (if q == '"' then some '$' else none)).body? (cs.drop width) with
    | none => refuse .unterminatedString lines r.offset
    | some n => found s r gap cs .string (width + n + 1)
  | .heredoc =>
    let header := cs.take width
    let tag := tagOf ((header.drop 2).dropLast)
    match heredocBody s.bodies tag (r.offset + Text.byteLength header) (cs.drop width) with
    | .error e => .error e
    | .ok none => refuse (.unterminatedHeredoc (String.ofList tag)) lines r.offset
    | .ok (some body) => found { s with bodies := s.bodies ++ [body] } r gap cs .string width
  | .plain .slash =>
    if regexAllowed r then
      match regexTail? (cs.drop 1) with
      | none => refuse .unterminatedRegex lines r.offset
      | some n => found s r gap cs .regex (n + 1)
    else found s r gap cs .slash width
  | .plain kind => found s r gap cs kind width

/-- What comes next in `rest`; nothing if only blanks are left. -/
def step (lines : LineIndex) (s : Scanner) (rest : List Char) : Step :=
  let gap := run isGap rest
  let cs := rest.drop gap
  let r := s.reading.skip (rest.take gap)
  if cs.isEmpty then .ok none
  else match s.bodies.find? fun b => b.start ≤ r.offset && r.offset < b.stop with
    | some body =>
      match cutAt r.offset (body.stop - r.offset) cs with
      | .error e => .error e
      | .ok (inside, _) => .ok (some (s, gap + inside.length))
    | none =>
      match lexeme? cs with
      | none => found s r gap cs .unknown 1
      | some (lexeme, width) => accept lines s r gap cs width lexeme

/-- Reads on in a text of which `taken` more characters belong to what was found last. -/
def walk (lines : LineIndex) : List Char → Nat → Scanner → Except ParseFailure Scanner
  | [], _, s => .ok s
  | c :: rest, taken + 1, s => walk lines rest taken (s.next c)
  | c :: rest, 0, s =>
    match step lines s (c :: rest) with
    | .error e => .error e
    | .ok none => .ok s
    | .ok (some (s, width)) => walk lines rest (width - 1) (s.next c)

def scan (text : List Char) : Except ParseFailure (Scanned TokenKind) :=
  match walk (.ofText text) text 0 {} with
  | .error e => .error e
  | .ok s =>
    let stop := Text.byteLength text
    .ok {
      tokens := s.reading.tokens.reverse
      stop := { kind := .eof, text := "", span := ⟨stop, stop⟩, spaced := true }
      comments := s.reading.comments.reverse }

end PuppetDocs.Manifest
