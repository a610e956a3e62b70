import PuppetDocs.Source.Comment
import PuppetDocs.Source.Fault
import PuppetDocs.Text.Lines
import PuppetDocs.Text.Name
import PuppetDocs.Text.Span

/-
  PuppetDocs.Source.Token — what the two scanners have in common.

  A token has a kind, the text it covers, the bytes that text stands at, and a mark that
  says whether a blank stands directly in front of it. A scanned text is its tokens, the
  token that marks its end, and its comments.

  A scanner walks a text from left to right. `Reading` is its place: the characters behind
  it (nearest first), the bytes they take, and what it has found so far (latest first).
-/

namespace PuppetDocs

structure Token (κ : Type) where
  kind : κ
  text : String
  span : Span
  spaced : Bool
  deriving DecidableEq, Repr

structure Scanned (κ : Type) where
  tokens : List (Token κ)
  stop : Token κ
  comments : List Comment

structure Reading (κ : Type) where
  behind : List Char := []
  offset : Nat := 0
  tokens : List (Token κ) := []
  comments : List Comment := []

namespace Reading

variable {κ : Type}

def next (r : Reading κ) (c : Char) : Reading κ :=
  { r with behind := c :: r.behind, offset := r.offset + c.utf8Size }

/-- The place after the characters `cs`. -/
def skip (r : Reading κ) (cs : List Char) : Reading κ := cs.foldl next r

/-- The next character stands first in its line. -/
def atLineStart (r : Reading κ) : Bool :=
  match r.behind with
  | [] => true
  | c :: _ => c == '\n'

/-- The next character follows a blank (a backslash counts, as it joins two lines) or nothing. -/
def afterSpace (r : Reading κ) : Bool :=
  match r.behind with
  | [] => true
  | c :: _ => c == ' ' || c == '\t' || c == '\n' || c == '\r' || c == '\\'

/-- Only blanks stand between the start of the line and the next character. -/
def aloneOnLine (r : Reading κ) : Bool := Text.allBlank (r.behind.takeWhile (· ≠ '\n'))

def lastKind? (r : Reading κ) : Option κ := r.tokens.head?.map Token.kind

/-- The token of kind `kind` over the characters `cs` that come next. -/
def token (r : Reading κ) (kind : κ) (cs : List Char) : Token κ :=
  { kind, text := String.ofList cs, span := ⟨r.offset, r.offset + Text.byteLength cs⟩, spaced := r.afterSpace }

def comment (r : Reading κ) (lines : LineIndex) (cs : List Char) : Comment :=
  .ofSource cs (lines.line r.offset) r.aloneOnLine

end Reading

/-- A fault reported at a byte of the text. -/
def Fault.at (f : Fault) (lines : LineIndex) (offset : Nat) : SyntaxError :=
  let (line, column) := lines.lineColumn offset
  { fault := f, line, column }

end PuppetDocs
