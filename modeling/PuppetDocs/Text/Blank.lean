/-
  PuppetDocs.Text.Blank — white space and the cuts that depend on it.

  Texts are lists of characters here. A character is blank when it has the Unicode
  property White_Space (25 characters). `trimStart`, `trimEnd` and `trim` drop blanks at
  the ends, `words` splits at runs of blanks and keeps no empty word.
-/

namespace PuppetDocs.Text

def isBlank (c : Char) : Bool :=
  let n := c.toNat
  (9 ≤ n && n ≤ 13) || n == 32 || n == 133 || n == 160 || n == 5760 || (8192 ≤ n && n ≤ 8202) ||
    n == 8232 || n == 8233 || n == 8239 || n == 8287 || n == 12288

def allBlank (cs : List Char) : Bool := cs.all isBlank

def dropEndWhile {α : Type} (p : α → Bool) (xs : List α) : List α :=
  (xs.reverse.dropWhile p).reverse

def trimStart (cs : List Char) : List Char := cs.dropWhile isBlank

def trimEnd (cs : List Char) : List Char := dropEndWhile isBlank cs

def trim (cs : List Char) : List Char := trimEnd (trimStart cs)

/-- Drops the characters that satisfy `p` at both ends. -/
def trimMatches (p : Char → Bool) (cs : List Char) : List Char := dropEndWhile p (cs.dropWhile p)

/-- Cuts at every character that satisfies `p`; there is always one piece more than cuts. -/
def splitBy (p : Char → Bool) : List Char → List (List Char)
  | [] => [[]]
  | c :: r =>
    if p c then [] :: splitBy p r
    else match splitBy p r with
      | [] => [[c]]
      | piece :: pieces => (c :: piece) :: pieces

def words (cs : List Char) : List (List Char) := (splitBy isBlank cs).filter (!·.isEmpty)

/-- The first word, and the text behind it without the blanks around it. -/
def firstWord (cs : List Char) : List Char × List Char :=
  let cs := trimStart cs
  (cs.takeWhile (!isBlank ·), trim (cs.dropWhile (!isBlank ·)))

/-- The rest of `cs` after `p`, if `cs` starts with `p`. -/
def after? (p cs : List Char) : Option (List Char) :=
  if p.isPrefixOf cs then some (cs.drop p.length) else none

/-- The text in front of `s`, if `cs` ends with `s`. -/
def before? (s cs : List Char) : Option (List Char) :=
  if s.isSuffixOf cs then some (cs.take (cs.length - s.length)) else none

def trimString (s : String) : String := String.ofList (trim s.toList)

end PuppetDocs.Text
