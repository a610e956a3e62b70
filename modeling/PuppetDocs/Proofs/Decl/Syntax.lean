import PuppetDocs.Ruby.Lexeme
import PuppetDocs.Ruby.Node

/-
  PuppetDocs.Proofs.Decl.Syntax — declarations, how they are written, and the trees that say them.

  A program of declarations is a list of statements; each is a call, and may have a block that
  is a program again. A call has a receiver or none, a method name, and arguments: symbols,
  strings, numerals, `nil`, `true`, `false`, constant paths, arrays, hashes, and calls. Names
  and numerals carry the proof that they are ones.

  A program is written as a list of words. A word is the token it shall be read as, with the
  blanks in front of it; `print` is the text. A part of the grammar is written as a `Piece`,
  which leaves open what stands in front of it. `Shows` says that a node of a syntax tree is
  the given part of a program; spans and lines do not matter to it.
-/

namespace PuppetDocs.Ruby.Decl

open Text (isNameChar)

/-! ## Names and numerals -/

/-- A character that satisfies `start`, name characters, and at most one mark. -/
def IsName (start : Char → Bool) (cs : List Char) : Prop :=
  ∃ c body mark, cs = c :: (body ++ mark) ∧ start c = true ∧ (∀ d ∈ body, isNameChar d = true) ∧
    (mark = [] ∨ mark = ['?'] ∨ mark = ['!'])

structure MethodName where
  chars : List Char
  isName : IsName isNameStart chars
  notKeyword : Keyword.ofWord? chars = none

structure SymbolName where
  chars : List Char
  isName : IsName isVarStart chars

structure ConstName where
  chars : List Char
  isName : ∃ c body, chars = c :: body ∧ c.isUpper = true ∧ ∀ d ∈ body, isNameChar d = true

structure Numeral where
  digits : List Char
  isNumeral : digits ≠ [] ∧ ∀ d ∈ digits, d.isDigit = true

/-! ## Programs -/

inductive Path where
  | name (c : ConstName)
  | member (p : Path) (c : ConstName)

mutual

inductive Arg where
  | symbol (name : SymbolName)
  | str (content : List Char)
  | int (n : Numeral)
  | nil | true_ | false_
  | path (p : Path)
  | array (items : List Arg)
  /-- At the end of the arguments of a call `braces` may be false; anywhere else it does not matter. -/
  | hash (braces : Bool) (entries : List Entry)
  | call (c : Call)

inductive Entry where
  | mk (key value : Arg)

inductive Receiver where
  | none
  | path (p : Path)
  | call (c : Call)

inductive Call where
  | mk (receiver : Receiver) (method : MethodName) (args : List Arg)

end

inductive Statement where
  | call (c : Call)
  | block (c : Call) (body : List Statement)

/-! ## Words -/

/-- A token as it is written: the blanks in front of it, its kind and its characters. -/
structure Word where
  gap : List Char
  kind : TokenKind
  text : List Char

def Word.chars (w : Word) : List Char := w.gap ++ w.text

def print (ws : List Word) : List Char := ws.flatMap Word.chars

/-- A word that follows the one in front of it directly. -/
abbrev sign (kind : TokenKind) (text : String) : Word := ⟨[], kind, text.toList⟩

abbrev newline : Word := sign .newline "\n"

abbrev assignSign : Word := ⟨[' '], .assign, "=".toList⟩

/-- How a part of a program is written behind given blanks. -/
abbrev Piece := List Char → List Word

/-- Pieces with commas between them. -/
def separated : List Char → List Piece → List Word
  | _, [] => []
  | gap, [p] => p gap
  | gap, p :: q :: ps => p gap ++ sign .comma "," :: separated [' '] (q :: ps)

/-- A backslash in front of every backslash and quote. -/
def escape : List Char → List Char
  | [] => []
  | c :: r => if c = '\\' ∨ c = '\'' then '\\' :: c :: escape r else c :: escape r

def plainString (content : List Char) : StrLit := { value := String.ofList content, interpolated := false }

/-- What stands in front of the method name of a call: nothing if a dot does. -/
def Receiver.gapBehind : Receiver → List Char → List Char
  | .none, gap => gap
  | _, _ => []

def Path.words : Path → Piece
  | .name c, gap => [⟨gap, .constant, c.chars⟩]
  | .member p c, gap => p.words gap ++ [sign .colonColon "::", ⟨[], .constant, c.chars⟩]

mutual

def Arg.words : Arg → Piece
  | .symbol name, gap => [⟨gap, .symbol, ':' :: name.chars⟩]
  | .str content, gap => [⟨gap, .string (plainString content), '\'' :: (escape content ++ ['\''])⟩]
  | .int n, gap => [⟨gap, .number, n.digits⟩]
  | .nil, gap => [⟨gap, .keyword .nilKw, "nil".toList⟩]
  | .true_, gap => [⟨gap, .keyword .trueKw, "true".toList⟩]
  | .false_, gap => [⟨gap, .keyword .falseKw, "false".toList⟩]
  | .path p, gap => p.words gap
  | .array items, gap => ⟨gap, .lbracket, ['[']⟩ :: (separated [] (itemPieces items) ++ [sign .rbracket "]"])
  | .hash _ entries, gap => ⟨gap, .lbrace, ['\x7b']⟩ :: (separated [] (entryPieces entries) ++ [sign .rbrace "\x7d"])
  | .call c, gap => c.words gap

def itemPieces : List Arg → List Piece
  | [] => []
  | a :: items => a.words :: itemPieces items

def Entry.words : Entry → Piece
  | .mk key value, gap => key.words gap ++ ⟨[' '], .fatArrow, "=>".toList⟩ :: value.words [' ']

def entryPieces : List Entry → List Piece
  | [] => []
  | e :: entries => e.words :: entryPieces entries

/-- The pieces of the arguments of a call; each entry of a last hash without braces is a piece of its own. -/
def argPieces : List Arg → List Piece
  | [] => []
  | [.hash false (e :: entries)] => entryPieces (e :: entries)
  | a :: args => a.words :: argPieces args

def Receiver.words : Receiver → Piece
  | .none, _ => []
  | .path p, gap => p.words gap ++ [sign .dot "."]
  | .call c, gap => c.words gap ++ [sign .dot "."]

def Call.words : Call → Piece
  | .mk receiver m args, gap =>
    receiver.words gap ++ ⟨receiver.gapBehind gap, .ident, m.chars⟩ :: sign .lparen "(" ::
      (separated [] (argPieces args) ++ [sign .rparen ")"])

end

mutual

/-- The lines of a statement; `indent` is the blanks at the start of each. -/
def Statement.words (indent : List Char) : Statement → List Word
  | .call c => c.words indent ++ [newline]
  | .block c body =>
    c.words indent ++ ⟨[' '], .keyword .doKw, "do".toList⟩ :: newline ::
      (lines (indent ++ [' ', ' ']) body ++ [⟨indent, .keyword .endKw, "end".toList⟩, newline])

def lines (indent : List Char) : List Statement → List Word
  | [] => []
  | st :: program => st.words indent ++ lines indent program

end

/-- The text of a program: one statement a line, blocks two blanks further in. -/
def write (program : List Statement) : List Char := print (lines [] program)

/-- A block goes on lines of its own, and the entries of a last hash need no braces. -/
example :
    let pick : MethodName := ⟨['a'], ⟨'a', [], [], rfl, rfl, nofun, .inl rfl⟩, rfl⟩
    let inner : Call := .mk .none pick [.str ['\''], .hash false [.mk .nil .true_]]
    write [.block (.mk .none pick []) [.call inner]] = "a() do\n  a('\\'', nil => true)\nend\n".toList := by
  decide

/-! ## The trees of programs -/

def Path.Shows : Path → Node → Prop
  | .name c, n => n.kind = .const none (String.ofList c.chars)
  | .member p c, n => ∃ scope, n.kind = .const (some scope) (String.ofList c.chars) ∧ p.Shows scope

mutual

def Arg.Shows : Arg → Node → Prop
  | .symbol name, n => n.kind = .symbol (String.ofList name.chars)
  | .str content, n => n.kind = .str (plainString content)
  | .int i, n => n.kind = .number (String.ofList i.digits)
  | .nil, n => n.kind = .nil
  | .true_, n => n.kind = .true_
  | .false_, n => n.kind = .false_
  | .path p, n => p.Shows n
  | .array items, n => ∃ ns, n.kind = .array ns ∧ ArgsShow items ns
  | .hash _ entries, n => ∃ ns, n.kind = .hash ns ∧ EntriesShow entries ns
  | .call c, n => c.Shows none n

def ArgsShow : List Arg → List Node → Prop
  | [], ns => ns = []
  | a :: args, ns => ∃ m ms, ns = m :: ms ∧ a.Shows m ∧ ArgsShow args ms

def Entry.Shows : Entry → Node → Prop
  | .mk key value, n => ∃ k v, n.kind = .pair k v ∧ key.Shows k ∧ value.Shows v

def EntriesShow : List Entry → List Node → Prop
  | [], ns => ns = []
  | e :: entries, ns => ∃ m ms, ns = m :: ms ∧ e.Shows m ∧ EntriesShow entries ms

def Receiver.Shows : Receiver → Option Node → Prop
  | .none, o => o = none
  | .path p, o => ∃ n, o = some n ∧ p.Shows n
  | .call c, o => ∃ n, o = some n ∧ c.Shows none n

/-- The node is the call with this block. -/
def Call.Shows : Call → Option (Block Node) → Node → Prop
  | .mk receiver m args, block, n => ∃ r ns,
    n.kind = .call { receiver := r, method := String.ofList m.chars, args := ns, parens := true, block } ∧
      receiver.Shows r ∧ ArgsShow args ns

end

mutual

def Statement.Shows : Statement → Node → Prop
  | .call c, n => c.Shows none n
  | .block c body, n => ∃ b ns, c.Shows (some b) n ∧ b.params = [] ∧ b.body.kind = .statements ns ∧ Shows body ns

/-- The nodes are the statements of the program, in their order. -/
def Shows : List Statement → List Node → Prop
  | [], ns => ns = []
  | st :: program, ns => ∃ m ms, ns = m :: ms ∧ st.Shows m ∧ Shows program ms

end

end PuppetDocs.Ruby.Decl
