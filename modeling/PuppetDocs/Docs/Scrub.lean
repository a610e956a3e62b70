import PuppetDocs.Text.Lines

/-
  PuppetDocs.Docs.Scrub — documentation text without the indentation of the code around it.

  Text on one line is trimmed. Text on several lines loses, on every line, at most the
  indentation (spaces and tabs) that its lines with content share, the blanks at the end of
  each line, and the blank lines at both ends. A first line at the margin, as after an opening
  quote, does not count towards the shared indentation.
-/

namespace PuppetDocs.Docs

open Text

def isIndent (c : Char) : Bool := c == ' ' || c == '\t'

/-- The number of spaces and tabs in front of a line. -/
def indent (line : List Char) : Nat := (line.takeWhile isIndent).length

/-- The least indentation of the lines with content, zero if there are none. -/
def leastIndent (ls : List (List Char)) : Nat := ((ls.filter (!allBlank ·)).map indent).min?.getD 0

def sharedIndent : List (List Char) → Nat
  | [] => 0
  | first :: rest => leastIndent (if indent first = 0 then rest else first :: rest)

/-- A line without its first `n` blanks, or all if it has fewer, and without those at its end. -/
def outdent (n : Nat) (line : List Char) : List Char :=
  if allBlank line then [] else trimEnd (line.drop (min (indent line) n))

def dropBlankEnds (ls : List (List Char)) : List (List Char) :=
  dropEndWhile List.isEmpty (ls.dropWhile List.isEmpty)

def scrub (text : List Char) : List Char :=
  let trimmed := trim text
  if trimmed.contains '\n' then
    let ls := lines text
    joinLines (dropBlankEnds (ls.map (outdent (sharedIndent ls))))
  else trimmed

def scrubString (text : String) : String := String.ofList (scrub text.toList)

end PuppetDocs.Docs
