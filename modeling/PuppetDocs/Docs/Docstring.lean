import PuppetDocs.Text.Blank

/-
  PuppetDocs.Docs.Docstring — the documentation of an object: a description and tags.

  A tag has a name and may have a text, a subject (the parameter or example it is about) and
  types. The `api` tag states who an object is for; without one it is for everybody, and
  `markPublic` makes that explicit. The summary is the text of the summary tag, or else the
  first sentence of the description: up to the first `.`, `!` or `?` in front of a blank or
  the end, with its lines joined.
-/

namespace PuppetDocs

structure Tag where
  name : String
  text? : Option String := none
  subject : Option String := none
  types : Option (List String) := none
  deriving DecidableEq, Repr

def Tag.text (t : Tag) : String := t.text?.getD ""

structure Docstring where
  text : String := ""
  tags : List Tag := []
  deriving DecidableEq, Repr

inductive Visibility where
  | everyone
  | module_
  deriving DecidableEq, Repr

def Visibility.name : Visibility → String
  | .everyone => "public"
  | .module_ => "private"

namespace Docstring

def isEmpty (d : Docstring) : Bool := d.text.isEmpty && d.tags.isEmpty

def tag? (d : Docstring) (name : String) : Option Tag := d.tags.find? (·.name == name)

def tagsNamed (d : Docstring) (name : String) : List Tag := d.tags.filter (·.name == name)

def hasTag (d : Docstring) (name : String) : Bool := (d.tag? name).isSome

def addTag (d : Docstring) (t : Tag) : Docstring := { d with tags := d.tags ++ [t] }

def params (d : Docstring) : List Tag := d.tagsNamed "param"

/-- The tag that documents the parameter `name`. -/
def param? (d : Docstring) (name : String) : Option Tag := d.params.find? (·.subject == some name)

def examples (d : Docstring) : List Tag := d.tagsNamed "example"

def api (d : Docstring) : Option String := (d.tag? "api").map Tag.text

def visibility (d : Docstring) : Visibility := if d.api = some "private" then .module_ else .everyone

def isPublic (d : Docstring) : Bool := d.visibility = .everyone

def markPublic (d : Docstring) : Docstring :=
  if d.hasTag "api" then d else d.addTag { name := "api", text? := some Visibility.everyone.name }

end Docstring

def endsSentence (c : Char) : Bool := c == '.' || c == '!' || c == '?'

/-- The text up to the end of its first sentence, if a sentence ends in it. -/
def firstSentence : List Char → Option (List Char)
  | [] => none
  | c :: r =>
    if endsSentence c && (r.head?.map Text.isBlank).getD true then some [c]
    else (firstSentence r).map (c :: ·)

def Docstring.summary (d : Docstring) : Option String :=
  match d.tag? "summary" with
  | some t => some t.text
  | none =>
    if d.text.isEmpty then none
    else
      let text := d.text.toList
      let sentence := (firstSentence text).getD text
      some (String.ofList (sentence.map fun c => if c = '\n' then ' ' else c))

end PuppetDocs
