import PuppetDocs.Proofs.Brackets.Tidy
import PuppetDocs.Ruby.Parse

/-
  PuppetDocs.Proofs.Brackets.Lax — where the Ruby grammar takes a token without looking for brackets.

  There are three such places (`Lax`): either name behind `alias`, the name of a method behind
  `def`, and a token in a parameter list that can start no parameter; inside the parentheses of
  a parameter only round brackets count. Each place is told by the tokens in front of it.

  For a parameter list these are the tokens that open it (`ListHead`) and the parameters passed
  since (`Passed`). What a token means there depends on the one behind it, as a name in front
  of `=` has a value and any other has none; so these notions refer to the next token as well.
-/

namespace PuppetDocs.Ruby

/-- The side on which a token stands, and the bracket that it is. -/
def TokenKind.side : TokenKind → Side
  | .lparen => .opens .round
  | .rparen => .closes .round
  | .lbracket => .opens .square
  | .rbracket => .closes .square
  | .lbrace => .opens .curly
  | .rbrace => .closes .curly
  | _ => .plain

instance : Bracketed TokenKind := ⟨TokenKind.side⟩

theorem side_of_kind {t : Token TokenKind} {kind : TokenKind} (h : t.kind = kind) : t.side = kind.side := by
  rw [← h]
  rfl

/-! ## Heads of methods -/

def owners : List TokenKind := [.keyword .selfKw, .constant, .ident]

/-- The object in front of the name of a singleton method, with the dot, or nothing. -/
def Owner (ts : List (Token TokenKind)) : Prop :=
  ts = [] ∨ ∃ owner dot, ts = [owner, dot] ∧ owner.kind ∈ owners ∧ dot.kind = .dot

/-- `def` and the name of a method, in front of the second argument. -/
inductive Named : List (Token TokenKind) → Token TokenKind → Prop
  | name {keyword name next : Token TokenKind} {owner : List (Token TokenKind)} : keyword.kind = .keyword .defKw →
      Owner owner → name.kind ≠ .lbracket → (owner = [] → name.kind ∈ owners → next.kind ≠ .dot) →
      Named (keyword :: owner ++ [name]) next
  | index {keyword left right next : Token TokenKind} {owner : List (Token TokenKind)} : keyword.kind = .keyword .defKw →
      Owner owner → left.kind = .lbracket → right.kind = .rbracket → Named (keyword :: owner ++ [left, right]) next
  | setter {named : List (Token TokenKind)} {assign next : Token TokenKind} : Named named assign →
      assign.kind = .assign → assign.spaced = false → next.kind = .lparen → next.spaced = false →
      Named (named ++ [assign]) next

/-! ## Parameter lists -/

/-- What opens a parameter list that ends in front of one of the closers. -/
inductive ListHead : List TokenKind → List (Token TokenKind) → Token TokenKind → Prop
  | method {named : List (Token TokenKind)} {paren next : Token TokenKind} : Named named paren → paren.kind = .lparen →
      ListHead [.rparen] (named ++ [paren]) next
  | bareMethod {named : List (Token TokenKind)} {next : Token TokenKind} : Named named next → next.kind ≠ .lparen →
      next.kind ≠ .assign → ListHead [.newline, .semicolon] named next
  | lambda {arrow paren next : Token TokenKind} : arrow.kind = .arrow → paren.kind = .lparen →
      ListHead [.rparen] [arrow, paren] next
  | bareLambda {arrow next : Token TokenKind} : arrow.kind = .arrow → next.kind ≠ .lparen →
      ListHead [.lbrace, .keyword .doKw] [arrow] next
  | block {opener pipe next : Token TokenKind} : opener.kind = .lbrace ∨ opener.kind = .keyword .doKw →
      pipe.kind = .pipe → ListHead [.pipe] [opener, pipe] next

/-- The tokens of a default value. -/
def IsValue (ts : List (Token TokenKind)) : Prop :=
  ∃ (rule : Rule Node) (depth : Nat) (env : ParseEnv) (s s' : Stream TokenKind) (n : Node),
    (rule = .unary ∨ rule = .ternary) ∧ Rule.run depth rule env s = .ok (n, s') ∧ s.Uses ts s'

def sigils : List TokenKind := [.star, .doubleStar, .amp]

/-- The token neither ends the list nor can it start a parameter. -/
def Skipped (closers : List TokenKind) (t : Token TokenKind) : Prop :=
  t.kind ∉ closers ++ sigils ++ [.label, .ident, .lparen]

/-- What is read as one parameter, its first token apart, in front of the last argument. -/
inductive ParamTokens (closers : List TokenKind) (t : Token TokenKind) : List (Token TokenKind) → Token TokenKind → Prop
  | sigil {next : Token TokenKind} : t.kind ∈ sigils → next.kind ≠ .ident → ParamTokens closers t [] next
  | named {name next : Token TokenKind} : t.kind ∈ sigils → name.kind = .ident → ParamTokens closers t [name] next
  | keyword {next : Token TokenKind} : t.kind = .label → next.kind ∈ .comma :: .newline :: .semicolon :: closers →
      ParamTokens closers t [] next
  | keywordValue {value : List (Token TokenKind)} {next : Token TokenKind} : t.kind = .label → IsValue value →
      ParamTokens closers t value next
  | required {next : Token TokenKind} : t.kind = .ident → next.kind ≠ .assign → ParamTokens closers t [] next
  | optional {assign next : Token TokenKind} {value : List (Token TokenKind)} : t.kind = .ident → assign.kind = .assign →
      IsValue value → ParamTokens closers t (assign :: value) next
  | group {group behind : List (Token TokenKind)} {stop : Nat} {next : Token TokenKind} : t.kind = .lparen →
      parensEnd 1 (group ++ behind) = some (behind, stop) → ParamTokens closers t group next
  | skipped {next : Token TokenKind} : Skipped closers t → ParamTokens closers t [] next

/-- What opens a parameter list, and the parameters passed since; a semicolon behind one never ends the list. -/
inductive Passed (closers : List TokenKind) : List (Token TokenKind) → Token TokenKind → Prop
  | opened {opening : List (Token TokenKind)} {next : Token TokenKind} : ListHead closers opening next →
      Passed closers opening next
  | param {ts more : List (Token TokenKind)} {t next : Token TokenKind} : Passed closers ts t →
      ParamTokens closers t more next → Passed closers (ts ++ t :: more) next
  | semicolon {ts more : List (Token TokenKind)} {t semi next : Token TokenKind} : Passed closers ts t →
      ParamTokens closers t more semi → semi.kind = .semicolon → Passed closers (ts ++ t :: more ++ [semi]) next

/-! ## Places where any token is taken -/

/-- The places where the grammar takes a token without looking for brackets. -/
inductive Lax : List (Token TokenKind) → Token TokenKind → Prop
  | alias_ {front new : List (Token TokenKind)} {keyword t : Token TokenKind} : keyword.kind = .keyword .aliasKw →
      new.length ≤ 1 → Lax (front ++ keyword :: new) t
  | methodName {front owner : List (Token TokenKind)} {keyword t : Token TokenKind} : keyword.kind = .keyword .defKw →
      Owner owner → t.kind ≠ .lbracket → Lax (front ++ keyword :: owner) t
  | param {front ts : List (Token TokenKind)} {closers : List TokenKind} {t : Token TokenKind} : Passed closers ts t →
      Skipped closers t → Lax (front ++ ts) t
  | grouped {front ts inside : List (Token TokenKind)} {closers : List TokenKind} {paren t : Token TokenKind} :
      Passed closers ts paren → paren.kind = .lparen → parensEnd 1 inside = none → t.kind ≠ .lparen → t.kind ≠ .rparen →
      Lax (front ++ ts ++ paren :: inside) t

/-! ## Facts about parameter lists -/

section Lists

variable {closers : List TokenKind} {ts : List (Token TokenKind)} {next : Token TokenKind}

/-- The lists that there are, by what ends them. -/
theorem Passed.closers_mem (h : Passed closers ts next) :
    closers ∈ [[.rparen], [.newline, .semicolon], [.lbrace, .keyword .doKw], [.pipe]] := by
  induction h with
  | opened h => cases h <;> simp
  | param _ _ ih | semicolon _ _ _ ih => exact ih

/-- A comma may follow a parameter in every list. -/
theorem Passed.skipped_comma (h : Passed closers ts next) {t : Token TokenKind} (ht : t.kind = .comma) : Skipped closers t := by
  have hmem := h.closers_mem
  simp only [List.mem_cons, List.not_mem_nil, or_false] at hmem
  rcases hmem with rfl | rfl | rfl | rfl <;> simp [Skipped, ht, sigils]

/-- In parentheses a list goes on over line feeds and semicolons. -/
theorem skipped_terminator {t : Token TokenKind} (ht : t.kind = .newline ∨ t.kind = .semicolon) : Skipped [.rparen] t := by
  rcases ht with ht | ht <;> simp [Skipped, ht, sigils]

theorem Passed.skip {t : Token TokenKind} (h : Passed closers ts t) (ht : Skipped closers t) (next : Token TokenKind) :
    Passed closers (ts ++ [t]) next :=
  .param h (.skipped ht)

theorem Named.behind (h : Named ts next) : ∃ u ∈ ts, u.kind = .keyword .defKw := by
  induction h with
  | name hkeyword | index hkeyword => exact ⟨_, by simp, hkeyword⟩
  | setter _ _ _ _ _ ih =>
    obtain ⟨u, hu, hkind⟩ := ih
    exact ⟨u, List.mem_append_left _ hu, hkind⟩

theorem Passed.behind (h : Passed closers ts next) : ∃ u ∈ ts, u.kind ∈ [.keyword .defKw, .arrow, .pipe] := by
  induction h with
  | opened h =>
    cases h with
    | method hnamed | bareMethod hnamed =>
      obtain ⟨u, hu, hkind⟩ := hnamed.behind
      exact ⟨u, by simp [hu], by simp [hkind]⟩
    | @lambda arrow _ _ harrow | @bareLambda arrow _ harrow => exact ⟨arrow, by simp, by simp [harrow]⟩
    | @block _ pipe _ _ hpipe => exact ⟨pipe, by simp, by simp [hpipe]⟩
  | param _ _ ih | semicolon _ _ _ ih =>
    obtain ⟨u, hu, hkind⟩ := ih
    exact ⟨u, by simp [hu], hkind⟩

/-- Every lax place stands behind one of four kinds of tokens. -/
theorem Lax.behind {before : List (Token TokenKind)} {t : Token TokenKind} (h : Lax before t) :
    ∃ u ∈ before, u.kind ∈ [.keyword .aliasKw, .keyword .defKw, .arrow, .pipe] := by
  cases h with
  | @alias_ _ _ keyword _ hkeyword => exact ⟨keyword, by simp, by simp [hkeyword]⟩
  | @methodName _ _ keyword _ hkeyword => exact ⟨keyword, by simp, by simp [hkeyword]⟩
  | param hpassed | grouped hpassed =>
    obtain ⟨u, hu, hkind⟩ := hpassed.behind
    exact ⟨u, by simp [hu], List.mem_cons_of_mem _ hkind⟩

end Lists

end PuppetDocs.Ruby
