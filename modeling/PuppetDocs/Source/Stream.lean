import PuppetDocs.Source.Token

/-
  PuppetDocs.Source.Stream — parsing a list of tokens.

  A `Stream` is the tokens not read yet, the token at the end of the text, and the end of the
  token read last (0 before the first). Looking past the last token shows the end token; it is
  never used up, so reading on at the end changes nothing.

  A parser reads the text it parses and its line starts from its surroundings. It ends with a
  value and the stream behind it, or it fails: with a syntax error, with `exhausted` if the bound
  on its recursion was too small, or with `outOfText` if what it asked for is no part of the text.
-/

namespace PuppetDocs

structure Stream (κ : Type) where
  rest : List (Token κ)
  stop : Token κ
  prevEnd : Nat := 0

namespace Stream

variable {κ : Type}

def peek (s : Stream κ) : Token κ := s.rest.headD s.stop

def peekAt (s : Stream κ) (n : Nat) : Token κ := (s.rest[n]?).getD s.stop

def advance (s : Stream κ) : Stream κ :=
  match s.rest with
  | [] => s
  | t :: rest => { s with rest, prevEnd := t.span.stop }

/-- The stream behind the leading tokens that satisfy `p`. -/
def skipWhile (p : κ → Bool) (s : Stream κ) : Stream κ := go s.rest s.prevEnd
where
  go : List (Token κ) → Nat → Stream κ
    | [], prevEnd => { s with rest := [], prevEnd }
    | t :: rest, prevEnd => if p t.kind then go rest t.span.stop else { s with rest := t :: rest, prevEnd }

end Stream

structure ParseEnv where
  text : List Char
  lines : LineIndex
  /-- A `do` here belongs to a construct further out. -/
  holdDo : Bool := false

abbrev ParseM (κ : Type) := ReaderT ParseEnv (StateT (Stream κ) (Except ParseFailure))

namespace ParseM

variable {κ : Type}

def fail {α : Type} (fault : Fault) (offset : Nat) : ParseM κ α := do
  throw (.rejected (fault.at (← read).lines offset))

def peek : ParseM κ (Token κ) := return (← get).peek

def peekAt (n : Nat) : ParseM κ (Token κ) := return (← get).peekAt n

def peekKind : ParseM κ κ := return (← peek).kind

/-- The offset of the next token. -/
def here : ParseM κ Nat := return (← peek).span.start

/-- The end of the token read last. -/
def prevEnd : ParseM κ Nat := return (← get).prevEnd

def lineOf (offset : Nat) : ParseM κ Nat := return (← read).lines.line offset

def bump : ParseM κ (Token κ) := do
  let t ← peek
  modify Stream.advance
  return t

def skipWhile (p : κ → Bool) : ParseM κ Unit := modify (Stream.skipWhile p)

variable [DecidableEq κ]

def at_ (kind : κ) : ParseM κ Bool := return (← peekKind) = kind

/-- Reads the next token if it is of this kind. -/
def eat (kind : κ) : ParseM κ Bool := do
  if (← peekKind) = kind then
    let _ ← bump
    return true
  else return false

/-- The fault of finding `t` where something else is expected. -/
def misplaced (eof : κ) (t : Token κ) (expected : String) : Fault :=
  if t.kind = eof then .unexpectedEnd expected else .unexpected t.text expected

def expect (eof kind : κ) (expected : String) : ParseM κ (Token κ) := do
  let t ← peek
  if t.kind = kind then bump else fail (misplaced eof t expected) t.span.start

end ParseM

end PuppetDocs
