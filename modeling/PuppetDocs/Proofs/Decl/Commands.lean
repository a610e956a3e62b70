import PuppetDocs.Proofs.Decl.Calls

/-
  PuppetDocs.Proofs.Decl.Commands — names with no parenthesis behind them.

  Behind a blank a name takes a string or a symbol as its argument, and a `do` in the argument
  is held back for the call. In front of `=`, `do` or a line feed it stands alone.
-/

namespace PuppetDocs.Ruby.Decl

open ParseM

variable {before after rest ws : List Word} {w : Word} {Q : Node → Prop} {gap : List Char} {n start : Nat} {hold : Bool}

/-! ## Names alone -/

/-- The kinds of the tokens behind a name that stands alone. -/
def loneClosers : List TokenKind := [.assign, .newline, .keyword .doKw]

/-- What ends an operand starts no arguments. -/
theorem takes_no_commandArgs (h : headKind ws ∈ operandClosers) :
    TakesIn hold commandArgStarts ws ws fun a => a = false := by
  apply (takes_peek_kind rfl).bind
  intro t ht
  apply (takes_peekAt 1).bind
  intro u _
  refine takes_pure ?_
  simp only [operandClosers, closers, itemClosers, List.mem_cons, List.not_mem_nil, or_false] at h
  rw [ht]
  rcases h with h | h | h | h | h | h | h | h | h <;> simp [h]

theorem takes_bare (m : MethodName) (hparen : headKind ws ≠ .lparen)
    (hargs : TakesIn hold commandArgStarts ws ws fun a => a = false) :
    TakesIn hold (Rule.run (n + 1) .primary) (⟨gap, .ident, m.chars⟩ :: ws) ws
      fun x => x.kind = .ident (String.ofList m.chars) := by
  show TakesIn hold (readPrimary (Rule.run n)) _ _ _
  apply takes_peek.bind
  intro t ht
  rw [ht.kind]
  apply takes_bump.bind
  intro u hu
  apply (takes_no_parenAt_zero hparen).known
  apply hargs.known
  refine (takes_mkNode _ _).mono fun x hx => ?_
  rw [hu.text] at hx
  exact hx

theorem takes_name (m : MethodName) (h : w.kind ∈ loneClosers) :
    TakesIn hold (Rule.run (n + 1) .primary) (⟨gap, .ident, m.chars⟩ :: w :: rest) (w :: rest)
      fun x => x.kind = .ident (String.ofList m.chars) := by
  have hends : ∀ k ∈ loneClosers, k ∈ operandClosers := by decide
  exact takes_bare m (ne_of_mem_of_not_mem h (by decide)) (takes_no_commandArgs (hends _ h))

theorem takes_assign_trailers (hw : w.kind = .assign) (x : Node) :
    TakesIn hold (Rule.run (n + 1) (.trailers start x)) (w :: rest) (w :: rest) fun y => y = x :=
  takes_no_trailers (by rw [headKind_cons, hw]; decide) x

/-! ## Arguments behind a blank -/

/-- A string or a symbol that a blank sets off is an argument. -/
theorem takes_commandArgStarts (hgap : w.gap ≠ []) (hkind : w.kind = .symbol ∨ ∃ v, w.kind = .string v) :
    TakesIn hold commandArgStarts (w :: rest) (w :: rest) fun a => a = true := by
  apply takes_peek.bind
  intro t ht
  apply (takes_peekAt_one rfl).bind
  intro u _
  refine takes_pure ?_
  rw [ht.spaced hgap, ht.kind]
  rcases hkind with hkind | ⟨v, hkind⟩
  · rw [hkind]
    rfl
  · rw [hkind]
    rfl

/-- A method name and one argument behind a blank. -/
theorem takes_command (m : MethodName) (hgap : w.gap ≠ []) (hkind : w.kind = .symbol ∨ ∃ v, w.kind = .string v)
    (harg : TakesIn true (Rule.run (n + 1) .arg) (w :: ws) rest Q) (hcomma : headKind rest ≠ .comma) :
    TakesIn hold (Rule.run (n + 2) .primary) (⟨gap, .ident, m.chars⟩ :: w :: ws) rest
      fun x => ∃ y, x.kind = .call ⟨none, String.ofList m.chars, groupPairs [y], false, none⟩ ∧ Q y := by
  have hparen : headKind (w :: ws) ≠ .lparen := by
    rw [headKind_cons]
    rcases hkind with hkind | ⟨v, hkind⟩
    · simp [hkind]
    · simp [hkind]
  have hargs : TakesIn hold (commandArgs (Rule.run (n + 1))) (w :: ws) rest
      fun ns => ∃ y, ns = groupPairs [y] ∧ Q y := by
    have hall : TakesIn true (do
          let a ← Rule.run (n + 1) .arg
          return a :: (← Rule.run (n + 1) .moreArgs)) (w :: ws) rest
        fun ns => ∃ y, ns = [y] ∧ Q y := by
      apply harg.bind
      intro y hy
      have hmore : TakesIn true (Rule.run (n + 1) .moreArgs) rest rest fun ns => ns = [] := by
        show TakesIn true (readMoreArgs (Rule.run n)) rest rest _
        apply (takes_not_eat hcomma).known
        exact takes_pure rfl
      apply hmore.known
      exact takes_pure ⟨y, rfl, hy⟩
    apply hall.withoutDo.bind
    rintro ns ⟨y, rfl, hy⟩
    exact takes_pure ⟨y, rfl, hy⟩
  show TakesIn hold (readPrimary (Rule.run (n + 1))) _ rest _
  apply takes_peek.bind
  intro t ht
  rw [ht.kind]
  apply takes_bump.bind
  intro u hu
  apply (takes_no_parenAt_zero hparen).known
  apply (takes_commandArgStarts hgap hkind).known
  apply hargs.bind
  rintro ns ⟨y, rfl, hy⟩
  refine (takes_mkNode _ _).mono fun x hx => ⟨y, ?_, hy⟩
  rw [hu.text] at hx
  exact hx

end PuppetDocs.Ruby.Decl
