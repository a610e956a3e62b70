import PuppetDocs.Report.Problem
import PuppetDocs.Text.Path

/-
  PuppetDocs.Run.Disk — files by their paths, relative to one directory.

  A path is followed component by component. A directory is there if an entry says so or lies
  below it; nothing is known outside the directory that paths start from. Nothing lies below
  a file, not even what an empty component at the end of a path asks for.
-/

namespace PuppetDocs

inductive FileContent where
  | text (text : String)
  | bytes (bytes : List UInt8)
  | directory
  deriving DecidableEq, Repr

def FileContent.read : FileContent → Except ReadError String
  | text t => .ok t
  | bytes bs =>
    match String.fromUTF8? (ByteArray.mk bs.toArray) with
    | some t => .ok t
    | none => .error .invalidText
  | directory => .error .isDirectory

/-- The entries by the components of their paths; a later one replaces an earlier one. -/
structure Disk where
  entries : List (List (List Char) × FileContent) := []

namespace Disk

def ofList (files : List (String × FileContent)) : Disk where
  entries := files.map fun (path, content) => (Text.pathComponents path.toList, content)

def at? (d : Disk) (components : List (List Char)) : Option FileContent :=
  match d.entries.reverse.find? (·.1 == components) with
  | some entry => some entry.2
  | none => if components.isEmpty || d.entries.any (components.isPrefixOf ·.1) then some .directory else none

/-- What is found by following components from a place that is there. -/
def follow (d : Disk) : List (List Char) → FileContent → List (List Char) → Except ReadError FileContent
  | _, content, [] => .ok content
  | place, .directory, c :: cs =>
    if c = [] ∨ c = ['.'] then follow d place .directory cs
    else if c = ['.', '.'] then if place = [] then .error .notFound else follow d place.dropLast .directory cs
    else match d.at? (place ++ [c]) with
      | some content => follow d (place ++ [c]) content cs
      | none => .error .notFound
  | _, _, _ :: _ => .error .notDirectory

def read (d : Disk) (path : String) : Except ReadError String := do
  if path.isEmpty ∨ path.startsWith "/" then .error .notFound
  else (← d.follow [] .directory (Text.splitBy (· = '/') path.toList)).read

end Disk

end PuppetDocs
