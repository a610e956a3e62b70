import PuppetDocs.Proofs.Decl.Syntax
import PuppetDocs.Proofs.Literal.Escape

/-
  PuppetDocs.Proofs.Decl.Quotes — any text between quotes.

  A text is written between single or double quotes with a backslash in front of every
  backslash, of every quote of the same sort and, between double quotes, of every `#`. This is
  how any text is written between delimiters (`escape_eq_delimiters`), so it ends at the closing
  quote and says the text again: no quote ends it early, and nothing in it starts an
  interpolation.
-/

namespace PuppetDocs.Ruby.Decl

inductive Quote where
  | single | double
  deriving DecidableEq, Repr

namespace Quote

def char : Quote → Char
  | single => '\''
  | double => '"'

def delimiters : Quote → Delimiters
  | single => .quote '\'' none
  | double => .quote '"' (some '#')

/-- The character is written with a backslash in front of it. -/
def escapes (q : Quote) (c : Char) : Bool := c == '\\' || c == q.char || some c == q.delimiters.sigil

def escape (q : Quote) : List Char → List Char
  | [] => []
  | c :: r => if q.escapes c then '\\' :: c :: q.escape r else c :: q.escape r

/-- The text between quotes. -/
def enclose (q : Quote) (content : List Char) : List Char := q.char :: (q.escape content ++ [q.char])

/-- Between single quotes a `#` stands for itself. -/
example : single.enclose "a'#".toList = "'a\\'#'".toList ∧ double.enclose "a'#".toList = "\"a'\\#\"".toList := by
  decide

variable (q : Quote)

theorem escape_eq_delimiters (content : List Char) : q.escape content = q.delimiters.escape content := by
  have hescapes : ∀ c, q.escapes c = q.delimiters.escapes c := by
    intro c
    cases q <;> simp [escapes, Delimiters.escapes, char, delimiters, Delimiters.quote]
  induction content with
  | nil => rfl
  | cons c content ih => rw [escape, Delimiters.escape_cons, hescapes, ih]

@[simp] theorem delimiters_close : q.delimiters.close = q.char := by
  cases q <;> rfl

theorem delimiters_closes : q.delimiters.Closes := by
  cases q <;> exact ⟨by decide, by decide, by decide⟩

theorem delimiters_decodes : Decodes q.delimiters := by
  cases q with
  | single =>
    refine ⟨fun c hc => ?_, .inl rfl⟩
    simp only [Delimiters.escapes, delimiters, Delimiters.quote, Bool.or_eq_true, beq_iff_eq, reduceCtorEq,
      or_false] at hc
    rcases hc with rfl | rfl <;> rfl
  | double =>
    refine ⟨fun c hc => ?_, .inr rfl⟩
    simp only [Delimiters.escapes, delimiters, Delimiters.quote, Bool.or_eq_true, beq_iff_eq, reduceCtorEq, or_false,
      Option.some.injEq] at hc
    rcases hc with (rfl | rfl) | rfl <;> rfl

/-- The first quote that no backslash escapes is the one behind the text. -/
theorem body?_escape (content more : List Char) :
    q.delimiters.body? (q.escape content ++ q.char :: more) = some (q.escape content).length := by
  rw [escape_eq_delimiters, ← delimiters_close]
  exact Delimiters.body?_escape q.delimiters_closes content more

end Quote

/-- A string of a declaration is one between single quotes. -/
theorem escape_eq (content : List Char) : escape content = Quote.single.escape content := by
  induction content with
  | nil => rfl
  | cons c content ih => simp [escape, Quote.escape, Quote.escapes, Quote.char, Quote.delimiters, Delimiters.quote, ih]

end PuppetDocs.Ruby.Decl
