import PuppetDocs.Docs.Docstring
import PuppetDocs.Docs.Scrub
import PuppetDocs.Docs.Types
import PuppetDocs.Text.Word

/-
  PuppetDocs.Docs.Parse — from documentation text to a description and tags.

  The text is scrubbed first. A line that starts, after its indentation, with `@name` opens a
  tag. Lines indented deeper than that line continue the tag, across blank lines; the first
  line with content that is not ends it and belongs to the description, and so do the blank
  lines in front of it.

  What a tag says is its first line and its continuation lines, trimmed and joined. Of this
  text, `param` and `option` take a list of types and a subject from the front, in either
  order, and `return`, `raise` and `yieldreturn` a list of types. An `example` is titled by
  its first line; its other lines are scrubbed and keep their shape.
-/

namespace PuppetDocs.Docs

open Text

/-! ## Single tags -/

def nonBlank (cs : List Char) : Option String :=
  let t := trim cs
  if t.isEmpty then none else some (String.ofList t)

def typeNames (types : Option (List (List Char))) : Option (List String) := types.map (·.map String.ofList)

/-- `[Types] subject text` or `subject [Types] text`. -/
def subjectTag (name : String) (text : List Char) : Tag :=
  let (types, rest) := extractTypes text
  let (subject, rest) := firstWord rest
  let (types, rest) := if types.isNone then extractTypes rest else (types, rest)
  { name
    text? := nonBlank rest
    subject := if subject.isEmpty then none else some (String.ofList subject)
    types := typeNames types }

/-- `[Types] text`. -/
def typedTag (name : String) (text : List Char) : Tag :=
  let (types, rest) := extractTypes text
  { name, text? := nonBlank rest, types := typeNames types }

def exampleTag (content : List Char) (rest : List (List Char)) : Tag :=
  let title := trim content
  { name := "example"
    text? := nonBlank (scrub (joinLines rest))
    subject := if title.isEmpty then none else some (String.ofList title) }

/-- The first line and the continuation lines of a tag, trimmed, without the empty ones. -/
def tagText (content : List Char) (rest : List (List Char)) : List Char :=
  joinLines (((content :: rest).map trim).filter (!·.isEmpty))

def makeTag (name : String) (content : List Char) (rest : List (List Char)) : Tag :=
  if name = "example" then exampleTag content rest
  else if name = "param" ∨ name = "option" then subjectTag name (tagText content rest)
  else if name = "return" ∨ name = "raise" ∨ name = "yieldreturn" then typedTag name (tagText content rest)
  else { name, text? := nonBlank (tagText content rest) }

/-! ## Lines -/

def isTagStart (c : Char) : Bool := c.isAlpha || c == '_'

/-- The name and the content of a line that opens a tag; the line has no indentation. -/
def tagHeader? : List Char → Option (List Char × List Char)
  | '@' :: r =>
    let (mark, r) := match r with
      | '!' :: r => (['!'], r)
      | _ => ([], r)
    match r with
    | [] => none
    | c :: r =>
      if isTagStart c then
        let isNamePart := fun c => isWordChar c || c == '.'
        let name := mark ++ c :: r.takeWhile isNamePart
        match r.dropWhile isNamePart with
        | [] => some (name, [])
        | b :: rest => if isIndent b then some (name, rest.dropWhile isIndent) else none
      else none
  | _ => none

/-- A tag whose lines are being collected. -/
structure OpenTag where
  name : List Char
  content : List Char
  rest : List (List Char) := []
  indent : Nat
  /-- Blank lines since the last line that belongs to the tag. -/
  blanks : Nat := 0
  deriving DecidableEq, Repr

def OpenTag.close (t : OpenTag) : Tag := makeTag (String.ofList t.name) t.content t.rest

def blankLines (n : Nat) : List (List Char) := List.replicate n []

/-- Takes the blank lines that have been waiting and one more line into the tag. -/
def OpenTag.extend (t : OpenTag) (line : List Char) : OpenTag :=
  { t with rest := t.rest ++ blankLines t.blanks ++ [line], blanks := 0 }

/-- The lines of the description and the tags, when `open_` is the tag open so far. -/
def sortLines : Option OpenTag → List (List Char) → List (List Char) × List Tag
  | open_, [] => ([], (open_.map OpenTag.close).toList)
  | open_, line :: rest =>
    if allBlank line then
      match open_ with
      | some t => sortLines (some { t with blanks := t.blanks + 1 }) rest
      | none =>
        let (description, tags) := sortLines none rest
        ([] :: description, tags)
    else
      let margin := indent line
      match tagHeader? (line.drop margin), open_ with
      | some (name, content), _ =>
        let (description, tags) := sortLines (some { name, content, indent := margin }) rest
        (description, (open_.map OpenTag.close).toList ++ tags)
      | none, some t =>
        if t.indent < margin then sortLines (some (t.extend line)) rest
        else
          let (description, tags) := sortLines none rest
          (blankLines t.blanks ++ line :: description, t.close :: tags)
      | none, none =>
        let (description, tags) := sortLines none rest
        (line :: description, tags)

def parseChars (raw : List Char) : Docstring :=
  let (description, tags) := sortLines none (lines (scrub raw))
  { text := String.ofList (trim (joinLines description)), tags }

end PuppetDocs.Docs

def PuppetDocs.Docstring.parse (raw : String) : PuppetDocs.Docstring := PuppetDocs.Docs.parseChars raw.toList
