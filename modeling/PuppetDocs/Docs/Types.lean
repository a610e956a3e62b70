import PuppetDocs.Text.Blank

/-
  PuppetDocs.Docs.Types — lists of types in square brackets, as tags have them.

  A list ends with the bracket that matches the one it starts with; only square brackets
  count for that. Its types are the texts between the commas outside brackets of any kind,
  trimmed. An empty last type is no type, an empty one further in front is.
-/

namespace PuppetDocs.Docs

open Text

/-- What stands in front of the square bracket that closes `depth` open ones, and behind it. -/
def closeBracket : Nat → List Char → Option (List Char × List Char)
  | _, [] => none
  | depth, c :: r =>
    if c == ']' && depth ≤ 1 then some ([], r)
    else
      let depth := if c == '[' then depth + 1 else if c == ']' then depth - 1 else depth
      (closeBracket depth r).map fun (inside, after) => (c :: inside, after)

def opensGroup (c : Char) : Bool := c == '[' || c == '(' || c == '\x7b'

def closesGroup (c : Char) : Bool := c == ']' || c == ')' || c == '\x7d'

/-- The pieces between the commas outside all brackets, of which `depth` are open. -/
def splitOutside : Nat → List Char → List (List Char)
  | _, [] => [[]]
  | depth, c :: r =>
    if c == ',' && depth = 0 then [] :: splitOutside 0 r
    else
      let depth := if opensGroup c then depth + 1 else if closesGroup c then depth - 1 else depth
      match splitOutside depth r with
      | [] => [[c]]
      | piece :: pieces => (c :: piece) :: pieces

def splitTypes (list : List Char) : List (List Char) :=
  let pieces := (splitOutside 0 list).map trim
  if pieces.getLast? = some [] then pieces.dropLast else pieces

/-- The list of types that a text starts with, and the text behind it. -/
def extractTypes : List Char → Option (List (List Char)) × List Char
  | '[' :: r =>
    match closeBracket 1 r with
    | some (inside, after) => (some (splitTypes inside), trimStart after)
    | none => (none, '[' :: r)
  | text => (none, text)

end PuppetDocs.Docs
