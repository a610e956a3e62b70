import PuppetDocs.Manifest.Parse
import PuppetDocs.Ruby.Parse

/-
  PuppetDocs.Source.Tree — a parsed file.

  A Puppet module holds Ruby files and manifests. A syntax tree is the text of one file with
  its line starts, what it says in its grammar, and its comments. A file whose reader fails
  without a syntax error counts as cut off.
-/

namespace PuppetDocs

inductive Grammar where
  | ruby
  | puppet
  deriving DecidableEq, Repr

def Grammar.name : Grammar → String
  | .ruby => "ruby"
  | .puppet => "puppet"

inductive Root where
  | ruby (program : Ruby.Node)
  | puppet (definitions : List Manifest.Definition)

structure SyntaxTree where
  path : String
  text : List Char
  root : Root
  comments : List Comment

namespace SyntaxTree

def grammar (t : SyntaxTree) : Grammar :=
  match t.root with
  | .ruby _ => .ruby
  | .puppet _ => .puppet

/-- The text under a span, empty if the span does not fit the text. -/
def slice (t : SyntaxTree) (s : Span) : String := String.ofList (s.slice t.text)

def blockBefore (t : SyntaxTree) (line : Nat) : Option CommentBlock := Comment.blockBefore t.comments line

end SyntaxTree

def ParseFailure.toSyntaxError : ParseFailure → SyntaxError
  | .rejected e => e
  | .exhausted | .outOfText _ => { fault := .unexpectedEnd "expression", line := 1, column := 0 }

def settle {α : Type} : Except ParseFailure α → Except SyntaxError α
  | .ok a => .ok a
  | .error e => .error e.toSyntaxError

def Ruby.read (text : List Char) : Except ParseFailure (Node × List Comment) := do
  let s ← scan text
  let n ← parseTokens text (.ofText text) s.tokens s.stop
  return (n, s.comments)

def Ruby.parse (text : List Char) : Except SyntaxError (Node × List Comment) := settle (read text)

def Manifest.read (text : List Char) : Except ParseFailure (List Definition × List Comment) := do
  let s ← scan text
  let ds ← parseTokens text (.ofText text) s.tokens s.stop
  return (ds, s.comments)

def Manifest.parse (text : List Char) : Except SyntaxError (List Definition × List Comment) := settle (read text)

def SyntaxTree.parse (path text : String) (grammar : Grammar) : Except SyntaxError SyntaxTree := do
  let text := text.toList
  match grammar with
  | .ruby =>
    let (n, comments) ← Ruby.parse text
    return { path, text, root := .ruby n, comments }
  | .puppet =>
    let (ds, comments) ← Manifest.parse text
    return { path, text, root := .puppet ds, comments }

end PuppetDocs
