import PuppetDocs.Proofs.Decl.Syntax
import PuppetDocs.Ruby.Lexeme

/-
  PuppetDocs.Proofs.Formula.Syntax — formulas, and how they are written with few parentheses.

  A formula is made of names, decimal numbers and binary operators. An operator has a strength;
  all operators of one strength group to the same side, to the left except for `**`. So an
  operand needs parentheses if its operator is weaker, or if it is as strong and the operand
  stands on the side it would not group to: `leftMin` and `rightMin` are the least strengths
  that go without. A formula is written as words, with a blank on either side of an operator.
-/

namespace PuppetDocs.Ruby

open Decl (MethodName Word Piece sign print)

/-! ## Operators -/

inductive Operator where
  | range | openRange
  | or | and
  | equal | unequal | matching | unmatching | covers | compare
  | less | greater | atMost | atLeast
  | bitOr | bitXor | bitAnd
  | shiftLeft | shiftRight
  | plus | minus
  | times | divide | modulo
  | power
  deriving DecidableEq, Repr

namespace Operator

def text : Operator → String
  | range => ".." | openRange => "..."
  | or => "||" | and => "&&"
  | equal => "==" | unequal => "!=" | matching => "=~" | unmatching => "!~" | covers => "===" | compare => "<=>"
  | less => "<" | greater => ">" | atMost => "<=" | atLeast => ">="
  | bitOr => "|" | bitXor => "^" | bitAnd => "&"
  | shiftLeft => "<<" | shiftRight => ">>"
  | plus => "+" | minus => "-"
  | times => "*" | divide => "/" | modulo => "%"
  | power => "**"

def kind : Operator → TokenKind
  | range | openRange => .range
  | or => .orOr
  | and => .andAnd
  | less => .lt
  | bitOr => .pipe
  | bitAnd => .amp
  | plus => .plus
  | minus => .minus
  | times => .star
  | divide => .slash
  | power => .doubleStar
  | _ => .operator

def strength : Operator → Nat
  | range | openRange => 1
  | or => 2
  | and => 3
  | equal | unequal | matching | unmatching | covers | compare => 4
  | less | greater | atMost | atLeast => 5
  | bitOr | bitXor => 6
  | bitAnd => 7
  | shiftLeft | shiftRight => 8
  | plus | minus => 9
  | times | divide | modulo => 10
  | power => 12

/-- The operator groups to the right. -/
def rightward : Operator → Bool
  | power => true
  | _ => false

def leftMin (op : Operator) : Nat := if op.rightward then op.strength + 1 else op.strength

def rightMin (op : Operator) : Nat := if op.rightward then op.strength else op.strength + 1

def word (op : Operator) : Word := ⟨[' '], op.kind, op.text.toList⟩

theorem strength_le_leftMin (op : Operator) : op.strength ≤ op.leftMin := by
  unfold leftMin
  split <;> omega

theorem strength_le_rightMin (op : Operator) : op.strength ≤ op.rightMin := by
  unfold rightMin
  split <;> omega

/-- Nothing is stronger than `**`, which alone groups to the right. -/
theorem strength_le (op : Operator) : if op.rightward then op.strength = 12 else op.strength < 12 := by
  cases op <;> decide

/-- Behind a left operand without parentheses the operator is too weak to go on with the right side of that operand. -/
theorem strength_lt_rightMin {op inner : Operator} (h : op.leftMin ≤ inner.strength) : op.strength < inner.rightMin := by
  have hop := op.strength_le
  have hinner := inner.strength_le
  unfold leftMin at h
  unfold rightMin
  split at hop
  · rw [if_pos ‹_›] at h
    split at hinner
    · omega
    · omega
  · rw [if_neg ‹_›] at h
    split at hinner
    · rw [if_pos ‹_›]
      omega
    · rw [if_neg ‹_›]
      omega

end Operator

/-! ## Formulas -/

/-- Digits, then a fraction or none, then an exponent or none; there may be bars between the digits. -/
structure Decimal where
  whole : List Char
  fraction : List Char
  exponent : List Char
  isWhole : ∃ d ds, whole = d :: ds ∧ d.isDigit = true ∧ ∀ c ∈ ds, isDigitOrBar c = true
  isFraction : fraction = [] ∨ ∃ d ds, fraction = '.' :: d :: ds ∧ d.isDigit = true ∧ ∀ c ∈ ds, isDigitOrBar c = true
  isExponent : exponent = [] ∨ ∃ e mark ds, exponent = e :: (mark ++ ds) ∧ e ∈ ['e', 'E'] ∧ mark ∈ [[], ['+'], ['-']] ∧
    ds ≠ [] ∧ ∀ c ∈ ds, c.isDigit = true

def Decimal.chars (d : Decimal) : List Char := d.whole ++ (d.fraction ++ d.exponent)

inductive Formula where
  | name (m : MethodName)
  | number (d : Decimal)
  | binary (op : Operator) (lhs rhs : Formula)

namespace Formula

/-- The formula as an operand that stands without parentheses if its operator has the strength `min`. -/
def words (min : Nat) : Formula → Piece
  | .name m, gap => [⟨gap, .ident, m.chars⟩]
  | .number d, gap => [⟨gap, .number, d.chars⟩]
  | .binary op lhs rhs, gap =>
    if op.strength < min then
      ⟨gap, .lparen, ['(']⟩ :: (lhs.words op.leftMin [] ++ op.word :: (rhs.words op.rightMin [' '] ++ [sign .rparen ")"]))
    else lhs.words op.leftMin gap ++ op.word :: rhs.words op.rightMin [' ']

/-- The text of a formula. -/
def line (e : Formula) : List Char := print (e.words 0 [])

/-- The node is the formula. -/
def Shows : Formula → Node → Prop
  | .name m, n => n.kind = .ident (String.ofList m.chars)
  | .number d, n => n.kind = .number (String.ofList d.chars)
  | .binary op lhs rhs, n => ∃ x y, n.kind = .binary op.text x y ∧ lhs.Shows x ∧ rhs.Shows y

/-- Only what would group otherwise has parentheses around it. -/
example :
    let a : Formula := .name ⟨['a'], ⟨'a', [], [], rfl, rfl, by simp, .inl rfl⟩, rfl⟩
    let n : Formula := .number ⟨['1'], [], [], ⟨'1', [], rfl, rfl, by simp⟩, .inl rfl, .inl rfl⟩
    let power : Formula := .binary .power (.binary .power a a) n
    line (.binary .minus (.binary .minus a (.binary .times n a)) (.binary .plus power a)) =
      "a - 1 * a - ((a ** a) ** 1 + a)".toList := by
  decide

theorem words_paren {op : Operator} {min : Nat} (h : op.strength < min) (lhs rhs : Formula) (gap : List Char) :
    (binary op lhs rhs).words min gap =
      ⟨gap, .lparen, ['(']⟩ :: ((binary op lhs rhs).words 0 [] ++ [sign .rparen ")"]) := by
  rw [words, if_pos h, words, if_neg (Nat.not_lt_zero _)]
  simp

theorem words_plain {op : Operator} {min : Nat} (h : ¬op.strength < min) (lhs rhs : Formula) (gap : List Char) :
    (binary op lhs rhs).words min gap = lhs.words op.leftMin gap ++ op.word :: rhs.words op.rightMin [' '] := by
  rw [words, if_neg h]

/-- Behind other blanks only the first word differs. -/
theorem words_gap (e : Formula) (min : Nat) :
    ∃ kind text ws, kind ∈ [.ident, .number, .lparen] ∧ ∀ gap, e.words min gap = ⟨gap, kind, text⟩ :: ws := by
  induction e generalizing min with
  | name m => exact ⟨.ident, m.chars, [], by simp, fun _ => rfl⟩
  | number d => exact ⟨.number, d.chars, [], by simp, fun _ => rfl⟩
  | binary op lhs rhs ihl _ =>
    by_cases h : op.strength < min
    · exact ⟨.lparen, ['('], _, by simp, words_paren h lhs rhs⟩
    · obtain ⟨kind, text, ws, hkind, hwords⟩ := ihl op.leftMin
      refine ⟨kind, text, ws ++ op.word :: rhs.words op.rightMin [' '], hkind, fun gap => ?_⟩
      rw [words_plain h, hwords, List.cons_append]

end Formula

end PuppetDocs.Ruby
