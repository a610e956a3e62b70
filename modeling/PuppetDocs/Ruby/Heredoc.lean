import PuppetDocs.Ruby.Literal

/-
  PuppetDocs.Ruby.Heredoc — heredocs: their markers, and the bodies below the line they open on.

  A marker is `<<`, then `-` or `~` or nothing, then the tag, bare or in quotes. The body is
  made of the lines up to the first one that is the tag, with blanks around it allowed after
  `-` and `~`. A `~` body loses the indentation that its lines with content have in common,
  counted in bytes; where these end inside a character of a line, the body has no value. The
  value is each line followed by a line feed, taken as it stands if the tag is in single quotes,
  otherwise read like the body of a double-quoted string.
-/

namespace PuppetDocs.Ruby

structure Heredoc where
  tag : List Char
  /-- The closing tag may have blanks around it. -/
  indented : Bool
  /-- The body loses its common indentation. -/
  squiggly : Bool
  /-- The body is taken as it stands. -/
  raw : Bool
  deriving DecidableEq, Repr

namespace Heredoc

/-- Reads what follows the `<<` of a marker. -/
def ofMarker (marker : List Char) : Heredoc :=
  let squiggly := marker.head? == some '~'
  let indented := squiggly || marker.head? == some '-'
  let name := if indented then marker.drop 1 else marker
  match name with
  | '\'' :: inside => { tag := Text.dropEndWhile (· == '\'') inside, indented, squiggly, raw := true }
  | '"' :: inside => { tag := Text.dropEndWhile (· == '"') inside, indented, squiggly, raw := false }
  | _ => { tag := name, indented, squiggly, raw := false }

/-- A line without its ending. -/
def content (line : List Char) : List Char :=
  let line := if line.getLast? == some '\n' then line.dropLast else line
  Text.dropEndWhile (· == '\r') line

def closes (h : Heredoc) (line : List Char) : Bool :=
  if h.indented then Text.trim line == h.tag else line == h.tag

/-- The body and the lines after the closing tag, if there is a closing tag. -/
def takeBody? (h : Heredoc) : List (List Char) → Option (List (List Char) × List (List Char))
  | [] => none
  | line :: rest =>
    if h.closes (content line) then some ([], rest)
    else (h.takeBody? rest).map fun (body, after) => (content line :: body, after)

def indentation (line : List Char) : Nat :=
  Text.byteLength line - Text.byteLength (Text.trimStart line)

/-- The least indentation of the lines with content, zero if there are none. -/
def commonIndent (body : List (List Char)) : Nat :=
  ((body.filter (!Text.allBlank ·)).map indentation).min?.getD 0

/-- The line behind its first `n` bytes; shorter lines become empty. -/
def unindent (n : Nat) (line : List Char) : Except ParseFailure (List Char) :=
  if Text.byteLength line < n then .ok []
  else match Text.cut? n line with
    | some (_, rest) => .ok rest
    | none => .error (.outOfText ⟨n, Text.byteLength line⟩)

def dedent (body : List (List Char)) : Except ParseFailure (List (List Char)) :=
  body.mapM (unindent (commonIndent body))

/-- What the lines say as they are. -/
def valueOf (h : Heredoc) (lines : List (List Char)) : StrLit :=
  let text := lines.flatMap (· ++ ['\n'])
  if h.raw then { value := String.ofList text, interpolated := false } else decodeInterpolating text

def value (h : Heredoc) (body : List (List Char)) : Except ParseFailure StrLit :=
  if h.squiggly then (dedent body).map h.valueOf else .ok (h.valueOf body)

end Heredoc

end PuppetDocs.Ruby
