import PuppetDocs.Text.Blank

/-
  PuppetDocs.Text.Path — the parts of a file path.

  Components stand between slashes; empty ones and `.` add nothing to a path. The file name is
  the last component, unless that is `..`. Its extension stands behind its last dot; a name
  whose only dot is in front has none.
-/

namespace PuppetDocs.Text

def pathComponents (path : List Char) : List (List Char) :=
  (splitBy (· = '/') path).filter fun c => c ≠ [] && c ≠ ['.']

def fileName? (path : List Char) : Option (List Char) :=
  (pathComponents path).getLast?.filter (· ≠ ['.', '.'])

def nameExtension? (name : List Char) : Option (List Char) :=
  match splitBy (· = '.') name with
  | [_] | [[], _] => none
  | pieces => pieces.getLast?

def extension? (path : List Char) : Option (List Char) := (fileName? path).bind nameExtension?

end PuppetDocs.Text
