import Mathlib.Data.List.Forall2
import PuppetDocs.Manifest.Definition
import PuppetDocs.Manifest.Token
import PuppetDocs.Proofs.Decl.Quotes

/-
  PuppetDocs.Proofs.Manifest.Outline.Syntax — trees of definitions and how they are written.

  A manifest is a list of declarations: classes, defined types, plans and functions with their
  parameters and with a body of further declarations, and type aliases. Types and default
  values are terms: strings of any content, numbers, type names, type names with terms in
  brackets, arrays and hashes. Names and numerals carry the proof that they are ones.

  A manifest is written as a list of words, each the token it shall be read as with the blanks
  in front of it; `print` is their text. `Shows` says that a list of definitions is what a list
  of declarations says. Spans and lines do not matter to it, and types and default values are
  the characters they are written in.
-/

namespace PuppetDocs.Manifest.Outline

open Ruby.Decl (Quote)
open Text (isNameChar)

/-! ## Names and numerals -/

/-- Parts with `::` between them, each a character that satisfies `start` and name characters. -/
inductive IsQualified (start : Char → Bool) : List Char → Prop
  | part {c : Char} {body : List Char} : start c = true → (∀ d ∈ body, isNameChar d = true) →
      IsQualified start (c :: body)
  | member {c : Char} {body path : List Char} : start c = true → (∀ d ∈ body, isNameChar d = true) →
      IsQualified start path → IsQualified start (c :: (body ++ ':' :: ':' :: path))

/-- A qualified name, with or without `::` in front of it. -/
def IsReference (start : Char → Bool) (cs : List Char) : Prop :=
  IsQualified start cs ∨ ∃ path, cs = ':' :: ':' :: path ∧ IsQualified start path

/-- A digit, and behind it name characters and points. -/
def IsNumeral (cs : List Char) : Prop :=
  ∃ c body, cs = c :: body ∧ c.isDigit = true ∧ ∀ d ∈ body, (isNameChar d || d == '.') = true

structure Name where
  chars : List Char
  isName : IsQualified isLowerStart chars
  notKeyword : keyword? chars = none

structure ParentName where
  chars : List Char
  isName : IsReference isLowerStart chars
  notKeyword : keyword? chars = none

structure VariableName where
  chars : List Char
  isName : IsQualified isLowerStart chars

structure TypeName where
  chars : List Char
  isName : IsReference Char.isUpper chars

structure Numeral where
  chars : List Char
  isNumeral : IsNumeral chars

structure Number where
  negative : Bool
  digits : Numeral
  /-- The digits of an exponent below zero; any other exponent belongs to the digits of the number. -/
  exponent : Option Numeral

/-! ## Trees -/

mutual

inductive Term where
  | str (content : List Char)
  | number (n : Number)
  | type (t : TypeExpr)
  | array (items : List Term)
  | hash (entries : List Entry)

inductive Entry where
  | mk (key value : Term)

inductive TypeExpr where
  | name (n : TypeName)
  | applied (n : TypeName) (args : List Term)

end

structure Param where
  type? : Option TypeExpr
  capturesRest : Bool
  name : VariableName
  default? : Option Term

/-- What a declaration with a body declares. -/
inductive Head where
  | class_ (parent : Option ParentName)
  | define
  | plan
  | function (result : Option TypeExpr)

inductive Decl where
  | block (head : Head) (name : Name) (params : List Param) (body : List Decl)
  | alias_ (name : TypeName) (aliased : TypeExpr)

/-! ## Words -/

/-- A token as it is written: the blanks in front of it, its kind and its characters. -/
structure Word where
  gap : List Char
  kind : TokenKind
  text : List Char

def Word.chars (w : Word) : List Char := w.gap ++ w.text

def chars (ws : List Word) : List Char := ws.flatMap Word.chars

/-- The text of the words, with a line feed at its end. -/
def print (ws : List Word) : List Char := chars ws ++ ['\n']

/-- A word that follows the one in front of it directly. -/
abbrev sign (kind : TokenKind) (text : String) : Word := ⟨[], kind, text.toList⟩

/-- How a part of a manifest is written behind given blanks. -/
abbrev Piece := List Char → List Word

/-- Pieces with commas between them. -/
def separated : List Char → List Piece → List Word
  | _, [] => []
  | gap, [p] => p gap
  | gap, p :: q :: ps => p gap ++ sign .comma "," :: separated [' '] (q :: ps)

def Number.magnitude : Number → Piece
  | ⟨_, digits, none⟩, gap => [⟨gap, .number, digits.chars⟩]
  | ⟨_, digits, some exponent⟩, gap =>
    [⟨gap, .number, digits.chars ++ ['e']⟩, sign .operator "-", ⟨[], .number, exponent.chars⟩]

def Number.words (n : Number) (gap : List Char) : List Word :=
  if n.negative then ⟨gap, .operator, ['-']⟩ :: n.magnitude [] else n.magnitude gap

mutual

def Term.words : Term → Piece
  | .str content, gap => [⟨gap, .string, Quote.single.enclose content⟩]
  | .number n, gap => n.words gap
  | .type t, gap => t.words gap
  | .array items, gap => ⟨gap, .lbracket, ['[']⟩ :: (separated [] (termPieces items) ++ [sign .rbracket "]"])
  | .hash entries, gap => ⟨gap, .lbrace, ['\x7b']⟩ :: (separated [] (entryPieces entries) ++ [sign .rbrace "\x7d"])

def termPieces : List Term → List Piece
  | [] => []
  | t :: terms => t.words :: termPieces terms

def Entry.words : Entry → Piece
  | .mk key value, gap => key.words gap ++ ⟨[' '], .fatArrow, "=>".toList⟩ :: value.words [' ']

def entryPieces : List Entry → List Piece
  | [] => []
  | e :: entries => e.words :: entryPieces entries

def TypeExpr.words : TypeExpr → Piece
  | .name n, gap => [⟨gap, .typeName, n.chars⟩]
  | .applied n args, gap =>
    ⟨gap, .typeName, n.chars⟩ :: sign .lbracket "[" :: (separated [] (termPieces args) ++ [sign .rbracket "]"])

end

def Term.written (t : Term) : String := String.ofList (chars (t.words []))

def TypeExpr.written (t : TypeExpr) : String := String.ofList (chars (t.words []))

def Param.target (p : Param) (gap : List Char) : List Word :=
  if p.capturesRest then [⟨gap, .star, ['*']⟩, ⟨[], .variable, '$' :: p.name.chars⟩]
  else [⟨gap, .variable, '$' :: p.name.chars⟩]

def Param.defaultWords (p : Param) : List Word :=
  match p.default? with
  | none => []
  | some value => ⟨[' '], .assign, ['=']⟩ :: value.words [' ']

def Param.words (p : Param) (gap : List Char) : List Word :=
  match p.type? with
  | none => p.target gap ++ p.defaultWords
  | some t => t.words gap ++ (p.target [' '] ++ p.defaultWords)

/-- The keyword in front of a definition of this kind. -/
def keywordOf : DefinitionKind → TokenKind
  | .class_ => .classKw
  | .definedType => .defineKw
  | .function => .functionKw
  | .typeAlias => .typeKw
  | .plan => .planKw

def keywordWord (gap : List Char) (kind : DefinitionKind) : Word := ⟨gap, keywordOf kind, kind.keyword.toList⟩

namespace Head

def kind : Head → DefinitionKind
  | class_ _ => .class_
  | define => .definedType
  | plan => .plan
  | function _ => .function

def parent : Head → Option ParentName
  | class_ parent => parent
  | _ => none

def result : Head → Option TypeExpr
  | function result => result
  | _ => none

/-- What stands between the parameters and the body. -/
def clause : Head → List Word
  | class_ (some parent) => [⟨[' '], .inheritsKw, "inherits".toList⟩, ⟨[' '], .name, parent.chars⟩]
  | function (some result) => ⟨[' '], .returnArrow, ">>".toList⟩ :: result.words [' ']
  | _ => []

end Head

mutual

/-- The words of a declaration; `indent` is the blanks in front of its last line. -/
def Decl.words (indent : List Char) : Decl → Piece
  | .block head name params body, gap =>
    keywordWord gap head.kind :: ⟨[' '], .name, name.chars⟩ :: sign .lparen "(" ::
      (separated [] (params.map Param.words) ++ sign .rparen ")" ::
        (head.clause ++ ⟨[' '], .lbrace, ['\x7b']⟩ ::
          (lines (indent ++ [' ', ' ']) ('\n' :: indent ++ [' ', ' ']) body ++ [⟨'\n' :: indent, .rbrace, ['\x7d']⟩])))
  | .alias_ name aliased, gap =>
    keywordWord gap .typeAlias :: ⟨[' '], .typeName, name.chars⟩ :: ⟨[' '], .assign, ['=']⟩ :: aliased.words [' ']

/-- Each declaration on lines of its own; `gap` is what stands in front of the first. -/
def lines (indent gap : List Char) : List Decl → List Word
  | [] => []
  | d :: ds => d.words indent gap ++ lines indent ('\n' :: indent) ds

end

/-- The text of a manifest: bodies are two blanks further in. -/
def write (ds : List Decl) : List Char := print (lines [] [] ds)

example :
    let a : Name := ⟨['a'], .part rfl nofun, rfl⟩
    let int : TypeName := ⟨['I'], .inl (.part rfl nofun)⟩
    let one : Number := ⟨true, ⟨['1'], '1', [], rfl, rfl, nofun⟩, none⟩
    let x : Param := ⟨some (.applied int [.number one]), true, ⟨['x'], .part rfl nofun⟩, some (.array [.str ['\'']])⟩
    write [.block .define a [x] [.alias_ int (.name int)]] =
      "define a(I[-1] *$x = ['\\'']) \x7b\n  type I = I\n\x7d\n".toList := by
  decide

/-! ## The definitions of manifests -/

def Param.Shows (p : Param) (q : Parameter) : Prop :=
  q.name = String.ofList p.name.chars ∧ q.type? = p.type?.map TypeExpr.written ∧
    q.default? = p.default?.map Term.written ∧ q.capturesRest = p.capturesRest

mutual

def Decl.Shows : Decl → Definition → Prop
  | .block head name params body, d =>
    d.kind = head.kind ∧ d.name = String.ofList name.chars ∧ List.Forall₂ Param.Shows params d.params ∧
      d.parent = head.parent.map (String.ofList ·.chars) ∧ d.returnType = head.result.map TypeExpr.written ∧
      d.aliasedType = none ∧ Shows body d.nested
  | .alias_ name aliased, d =>
    d.kind = .typeAlias ∧ d.name = String.ofList name.chars ∧ d.params = [] ∧ d.parent = none ∧
      d.returnType = none ∧ d.aliasedType = some aliased.written ∧ d.nested = []

/-- The definitions are the declarations, in their order. -/
def Shows : List Decl → List Definition → Prop
  | [], found => found = []
  | d :: ds, found => ∃ e es, found = e :: es ∧ d.Shows e ∧ Shows ds es

end

end PuppetDocs.Manifest.Outline
