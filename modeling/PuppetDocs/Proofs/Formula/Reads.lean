import PuppetDocs.Proofs.Decl.Commands
import PuppetDocs.Proofs.Decl.RoundTrip
import PuppetDocs.Proofs.Formula.Syntax

/-
  PuppetDocs.Proofs.Formula.Reads — how the words of a formula are read.

  The parser reads an operand and then goes on with every operator that is strong enough, so
  the tree of a left operand is never read on its own: it is what has been read when the
  operator comes. `Formula.reads` therefore says what is read behind the words of a formula if
  the operators that follow are read in a certain way, and its induction hands the operator
  and the right operand on to the left one. What may follow depends on the least strength
  the formula was written for (`Behind`).
-/

namespace PuppetDocs.Ruby

open Decl ParseM

variable {before between after rest ws : List Word} {w : Word} {gap : List Char} {Q R : Node → Prop}
  {min m n start : Nat} {hold : Bool} {x : Node}

/-! ## Operators -/

namespace Operator

variable (op : Operator)

theorem precedence?_word {t : Token TokenKind} (h : op.word.Spells t) :
    precedence? t = some (op.strength, op.rightward) := by
  have hkind : t.kind = op.kind := h.kind
  have htext : t.text = op.text := by simpa [word] using h.text
  unfold precedence?
  rw [hkind, htext]
  cases op <;> rfl

theorem not_trailer : headKind (op.word :: ws) ∉ trailerKinds := by
  show op.kind ∉ trailerKinds
  cases op <;> decide

theorem not_paren : headKind (op.word :: ws) ≠ .lparen := by
  show op.kind ≠ .lparen
  cases op <;> decide

/-- An operator with a blank behind it starts no arguments. -/
theorem takes_no_commandArgs (hgap : w.gap ≠ []) :
    TakesIn hold commandArgStarts (op.word :: w :: ws) (op.word :: w :: ws) fun a => a = false := by
  apply takes_peek.bind
  intro t ht
  apply takes_peekAt_word.bind
  intro u hu
  refine takes_pure ?_
  rw [ht.kind, hu.spaced hgap]
  cases op <;> simp [word, kind]

theorem takes (hm : m ≤ op.strength) (hbefore : headKind before ≠ .newline)
    (hright : TakesIn hold (Rule.run n (.binary op.rightMin)) before between R)
    (hmore : ∀ y z, R y → z.kind = .binary op.text x y →
      TakesIn hold (Rule.run n (.operators m start z)) between after Q) :
    TakesIn hold (Rule.run (n + 1) (.operators m start x)) (op.word :: before) after Q := by
  show TakesIn hold (readOperators (Rule.run n) m start x) _ after Q
  apply takes_peek.bind
  intro t ht
  rw [op.precedence?_word ht]
  dsimp only
  rw [if_neg (Nat.not_lt.mpr hm)]
  apply takes_bump.bind
  intro u hu
  have htext : u.text = op.text := by simpa [word] using hu.text
  apply (takes_skipNewlines hbefore).next
  intro _
  apply hright.bind
  intro y hy
  rw [htext]
  exact (takes_mkNode _ _).bind fun z hz => hmore y z hy hz

/-- What is weaker is left to the operand further out. -/
theorem takes_weaker (hm : op.strength < m) :
    TakesIn hold (Rule.run (n + 1) (.operators m start x)) (op.word :: ws) (op.word :: ws) fun y => y = x := by
  show TakesIn hold (readOperators (Rule.run n) m start x) _ _ _
  apply takes_peek.bind
  intro t ht
  rw [op.precedence?_word ht]
  dsimp only
  rw [if_pos hm]
  exact takes_pure rfl

end Operator

/-! ## What follows an operand -/

/-- What may follow an operand that is written without parentheses from the strength `min` on: the end of the formula, or
an operator that takes nothing of it away. -/
inductive Behind (min : Nat) : List Word → Prop
  | closed {ws : List Word} : Closed ws → Behind min ws
  | operator {op : Operator} {w : Word} {ws : List Word} : w.gap ≠ [] →
      (∀ inner : Operator, min ≤ inner.strength → op.strength < inner.rightMin) → Behind min (op.word :: w :: ws)

namespace Behind

theorem mono {p : Nat} (h : Behind min ws) (hp : min ≤ p) : Behind p ws := by
  cases h with
  | closed h => exact .closed h
  | operator hgap h => exact .operator hgap fun inner hinner => h inner (Nat.le_trans hp hinner)

theorem takes_trailers (h : Behind min ws) (x : Node) :
    TakesIn hold (Rule.run (n + 1) (.trailers start x)) ws ws fun y => y = x := by
  cases h with
  | closed h => exact takes_closed_trailers h x
  | @operator op => exact takes_no_trailers op.not_trailer x

theorem takes_bare (h : Behind min ws) (m : MethodName) :
    TakesIn hold (Rule.run (n + 1) .primary) (⟨gap, .ident, m.chars⟩ :: ws) ws
      fun x => x.kind = .ident (String.ofList m.chars) := by
  cases h with
  | closed h =>
    have hends : headKind ws ∈ operandClosers := List.mem_cons_of_mem _ (List.mem_cons_of_mem _ h.1)
    exact Decl.takes_bare m (ne_of_mem_of_not_mem hends (by decide)) (Decl.takes_no_commandArgs hends)
  | @operator op w ws hgap => exact Decl.takes_bare m op.not_paren (op.takes_no_commandArgs hgap)

/-- The right operand of an operator ends where the whole operand does. -/
theorem takes_none {op : Operator} (h : Behind min ws) (hop : min ≤ op.strength) (x : Node) :
    TakesIn hold (Rule.run (n + 1) (.operators op.rightMin start x)) ws ws fun y => y = x := by
  cases h with
  | closed h => exact takes_operators (List.mem_cons_of_mem _ (List.mem_cons_of_mem _ h.1)) _ x
  | @operator o w ws _ h => exact o.takes_weaker (h op hop)

end Behind

/-! ## Parentheses -/

/-- Parentheses around one expression are that expression. -/
theorem takes_parens (hbefore : (before ++ sign .rparen ")" :: rest).dropWhile (fun w => isTerminator w.kind) =
      before ++ sign .rparen ")" :: rest)
    (hhead : headKind (before ++ sign .rparen ")" :: rest) ∉ [.eof, .rparen, .keyword .notKw])
    (h : Takes (Rule.run n .expr) (before ++ sign .rparen ")" :: rest) (sign .rparen ")" :: rest) Q) :
    TakesIn hold (Rule.run (n + 6) .primary) (⟨gap, .lparen, ['(']⟩ :: (before ++ sign .rparen ")" :: rest)) rest Q := by
  simp only [List.mem_cons, List.not_mem_nil, or_false, not_or] at hhead
  have hstatement : Takes (Rule.run (n + 3) .statement) (before ++ sign .rparen ")" :: rest)
      (sign .rparen ")" :: rest) Q := takes_statement h hhead.2.2 (by simp)
  have hitems : Takes (Rule.run (n + 4) (.items [.rparen])) (before ++ sign .rparen ")" :: rest)
      (sign .rparen ")" :: rest) fun ns => ∃ x, ns = [x] ∧ Q x :=
    takes_single hbefore (by simp [hhead]) hstatement rfl (by simp)
  show TakesIn hold (readPrimary (Rule.run (n + 5))) _ rest Q
  apply takes_peek.bind
  intro t ht
  rw [ht.kind]
  apply takes_bump.bind
  intro u _
  apply (takes_statements hitems).nested.bind
  rintro inner ⟨ns, hkind, x, rfl, hx⟩
  apply (takes_need rfl _).next
  intro _
  rw [hkind]
  exact takes_pure hx

/-! ## Formulas -/

namespace Formula

theorem headKind_words (e : Formula) : headKind (e.words min gap ++ rest) ∈ [.ident, .number, .lparen] := by
  obtain ⟨kind, text, ws, hkind, hwords⟩ := e.words_gap min
  rw [hwords]
  exact hkind

theorem dropWhile_words (e : Formula) :
    (e.words min gap ++ rest).dropWhile (fun w => isTerminator w.kind) = e.words min gap ++ rest := by
  obtain ⟨kind, text, ws, hkind, hwords⟩ := e.words_gap min
  have hopens : ∀ k ∈ [TokenKind.ident, .number, .lparen], isTerminator k = false := by decide
  rw [hwords, List.cons_append]
  exact List.dropWhile_cons_of_neg (by simp [hopens kind hkind])

theorem takes_leaf {w : Word} (hstart : startsValue w.kind = true) (hrest : Behind min rest)
    (hprimary : Takes (Rule.run (n + 1) .primary) (w :: rest) rest R)
    (h : ∀ start x, R x → Takes (Rule.run (n + 2) (.operators m start x)) rest after Q) :
    Takes (Rule.run (n + 3) (.binary m)) (w :: rest) after Q :=
  takes_binary (takes_unary hstart hprimary fun x _ hx => (hrest.takes_trailers x).mono fun _ hy => hy ▸ hx) h

/-- What is read in front of `rest` once the formula has been read is read behind its words. -/
theorem reads (e : Formula) {k : Nat} (hm : m ≤ min) (hrest : Behind min rest)
    (h : ∀ j start x, k ≤ j → e.Shows x → Takes (Rule.run j (.operators m start x)) rest after Q)
    (hn : 16 * (e.words min gap).length + k ≤ n + 12) :
    Takes (Rule.run n (.binary m)) (e.words min gap ++ rest) after Q := by
  induction e generalizing min m k n gap rest after Q with
  | name c =>
    rw [words, List.length_singleton] at hn
    obtain ⟨n, rfl⟩ := Nat.exists_eq_add_of_le' (show 3 ≤ n by omega)
    exact takes_leaf rfl hrest (hrest.takes_bare c) fun start x hx => h _ start x (by omega) hx
  | number d =>
    rw [words, List.length_singleton] at hn
    obtain ⟨n, rfl⟩ := Nat.exists_eq_add_of_le' (show 3 ≤ n by omega)
    exact takes_leaf rfl hrest (takes_number d.chars) fun start x hx => h _ start x (by omega) hx
  | binary op lhs rhs ihl ihr =>
    have hplain : ∀ {min m k n : Nat} {gap : List Char} {rest after : List Word} {Q : Node → Prop},
        min ≤ op.strength → m ≤ min → Behind min rest →
        (∀ j start x, k ≤ j → (binary op lhs rhs).Shows x → Takes (Rule.run j (.operators m start x)) rest after Q) →
        16 * ((lhs.words op.leftMin gap).length + ((rhs.words op.rightMin [' ']).length + 1)) + k ≤ n + 12 →
          Takes (Rule.run n (.binary m)) (lhs.words op.leftMin gap ++ op.word :: (rhs.words op.rightMin [' '] ++ rest))
            after Q := by
      intro min m k n gap rest after Q hmin hm hrest h hn
      have hbehind : Behind op.leftMin (op.word :: (rhs.words op.rightMin [' '] ++ rest)) := by
        obtain ⟨kind, text, vs, -, hright⟩ := rhs.words_gap op.rightMin
        rw [hright]
        exact .operator (by simp) fun inner hinner => Operator.strength_lt_rightMin hinner
      have hnewline : headKind (rhs.words op.rightMin [' '] ++ rest) ≠ .newline :=
        ne_of_mem_of_not_mem rhs.headKind_words (by decide)
      refine ihl (k := 16 * (rhs.words op.rightMin [' ']).length + k + 2)
        (Nat.le_trans hm (Nat.le_trans hmin op.strength_le_leftMin)) hbehind (fun j start x hj hx => ?_) (by omega)
      obtain ⟨j, rfl⟩ := Nat.exists_eq_add_of_le' (show 1 ≤ j by omega)
      have hrhs : Takes (Rule.run j (.binary op.rightMin)) (rhs.words op.rightMin [' '] ++ rest) rest rhs.Shows := by
        refine ihr (k := 1) (Nat.le_refl _) (hrest.mono (Nat.le_trans hmin op.strength_le_rightMin))
          (fun i start y hi hy => ?_) (by omega)
        obtain ⟨i, rfl⟩ := Nat.exists_eq_add_of_le' hi
        exact (hrest.takes_none hmin y).mono fun z hz => hz ▸ hy
      exact op.takes (Nat.le_trans hm hmin) hnewline hrhs fun y z hy hz => h j start z (by omega) ⟨x, y, hz, hx, hy⟩
    by_cases hmin : op.strength < min
    · rw [words_paren hmin, List.length_cons, List.length_append, List.length_singleton] at hn
      rw [words_paren hmin, List.cons_append, List.append_assoc, List.singleton_append]
      obtain ⟨n, rfl⟩ := Nat.exists_eq_add_of_le' (show 10 ≤ n by omega)
      have hinner : Takes (Rule.run n (.binary 0)) ((binary op lhs rhs).words 0 [] ++ sign .rparen ")" :: rest)
          (sign .rparen ")" :: rest) (binary op lhs rhs).Shows := by
        rw [words_plain (Nat.not_lt_zero _), List.length_append, List.length_cons] at hn
        rw [words_plain (Nat.not_lt_zero _), List.append_assoc]
        refine hplain (k := 1) (Nat.zero_le _) (Nat.le_refl _) (.closed (closed_of_kind (by simp [itemClosers])))
          (fun j start x hj hx => ?_) (by omega)
        obtain ⟨j, rfl⟩ := Nat.exists_eq_add_of_le' hj
        exact (takes_operators (by simp [operandClosers, closers, itemClosers]) 0 x).mono fun y hy => hy ▸ hx
      have hexpr : Takes (Rule.run (n + 2) .expr) ((binary op lhs rhs).words 0 [] ++ sign .rparen ")" :: rest)
          (sign .rparen ")" :: rest) (binary op lhs rhs).Shows :=
        takes_ternary_expr (takes_binary_ternary hinner (by simp)) (by simp [closers, itemClosers])
      have hapart : ∀ k ∈ [TokenKind.ident, .number, .lparen], k ∉ [TokenKind.eof, .rparen, .keyword .notKw] := by decide
      have hparen : TokenKind.lparen ∉ signKinds := by decide
      have hunary : Takes (Rule.run (n + 9) .unary)
          (⟨gap, .lparen, ['(']⟩ :: ((binary op lhs rhs).words 0 [] ++ sign .rparen ")" :: rest)) rest
          (binary op lhs rhs).Shows :=
        takes_operand hparen (takes_parens (dropWhile_words _) (hapart _ (headKind_words _)) hexpr) fun x _ hx =>
          (hrest.takes_trailers x).mono fun _ hy => hy ▸ hx
      exact takes_binary hunary fun start x hx => h _ start x (by omega) hx
    · rw [words_plain hmin, List.length_append, List.length_cons] at hn
      rw [words_plain hmin, List.append_assoc]
      exact hplain (Nat.not_lt.mp hmin) hm hrest h hn

end Formula

end PuppetDocs.Ruby
