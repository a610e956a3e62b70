import PuppetDocs.Proofs.Tree.Order
import PuppetDocs.Proofs.Text.Position

/-
  PuppetDocs.Proofs.Tree.Starts — a statement starts with its first token.

  Parentheses around a statement leave no node, so a node may start behind the first token that
  was read for it. With a constant at the front it does not: the constant starts a node, and
  every rule that goes on with a node keeps its start (`step_starts`). So the first statement of
  a text that begins with a constant stands on the line of that constant (`first_line`).
-/

namespace PuppetDocs.Ruby

open ParseM

/-- The node starts with the next token, if that is a constant. -/
def StartsHere (p : P Node) : Prop :=
  ∀ env s, s.peek.kind = .constant → Gives p env s fun n _ => n.span.start = s.here

/-- A node that starts at `start` goes on from there. -/
def KeepsStart (start : Nat) (n : Node) (p : P Node) : Prop :=
  n.span.start = start → ∀ env s, Gives p env s fun m _ => m.span.start = start

/-- What is to be shown of a parser for the rule. -/
def Rule.Starts : {α : Type} → Rule α → P α → Prop
  | _, .modifiers start n, p => KeepsStart start n p
  | _, .joined start n, p => KeepsStart start n p
  | _, .operators _ start n, p => KeepsStart start n p
  | _, .trailers start n, p => KeepsStart start n p
  | _, .statement, p => StartsHere p
  | _, .sentence, p => StartsHere p
  | _, .negation, p => StartsHere p
  | _, .expr, p => StartsHere p
  | _, .ternary, p => StartsHere p
  | _, .binary _, p => StartsHere p
  | _, .unary, p => StartsHere p
  | _, .primary, p => StartsHere p
  | _, .items _, p => ∀ env s, s.peek.kind = .constant →
      Gives p env s fun ns _ => ∀ n ∈ ns.head?, n.span.start = s.here
  | _, .statements _, p => ∀ env s, s.peek.kind = .constant →
      Gives p env s fun m _ => ∀ items, m.kind = .statements items → ∀ n ∈ items.head?, n.span.start = s.here
  | _, _, _ => True

def Starts (self : Reader) : Prop := ∀ {α : Type} (rule : Rule α), rule.Starts (self rule)

/-! ## Tools -/

section Tools

variable {α β : Type} {env : ParseEnv} {s : Stream TokenKind}

/-- Behind a parser of which nothing needs to be known. -/
theorem gives_after {p : P α} {f : α → P β} {Q : β → Stream TokenKind → Prop}
    (hf : ∀ a s', Gives (f a) env s' Q) : Gives (p >>= f) env s Q :=
  gives_bind.mpr fun a s' _ => hf a s'

theorem mkNode_start (kind : NodeKind Node) (start : Nat) :
    Gives (mkNode kind start) env s fun n _ => n.span.start = start := by
  intro n s' h
  cases h
  rfl

/-- Nothing is skipped in front of a token that ends no statement. -/
theorem skipTerminators_eq {s : Stream TokenKind} (h : isTerminator s.peek.kind = false) :
    s.skipWhile isTerminator = s := by
  obtain ⟨rest, stop, prevEnd⟩ := s
  cases rest with
  | nil => rfl
  | cons t rest =>
    have ht : ¬isTerminator t.kind = true := Bool.eq_false_iff.mp h
    rw [Stream.skipWhile_cons, if_neg ht]

end Tools

/-! ## Rules -/

section Rules

variable {self : Reader} (hself : Starts self)
include hself

theorem starts_modifiers (start : Nat) (n : Node) : KeepsStart start n (readModifiers self start n) := by
  intro hn env s
  unfold readModifiers
  rw [gives_peekKind]
  split
  · split
    · refine gives_after fun _ _ => gives_after fun condition _ => ?_
      exact (mkNode_start _ start).bind fun m s' hm => hself (.modifiers start m) hm env s'
    · exact gives_pure.mpr hn
  · exact gives_pure.mpr hn

theorem starts_joined (start : Nat) (n : Node) : KeepsStart start n (readJoined self start n) := by
  intro hn env s
  unfold readJoined
  refine gives_look (looks_atAny _) fun joins => ?_
  split
  · refine gives_after fun _ _ => gives_after fun _ _ => gives_after fun rhs _ => ?_
    exact (mkNode_start _ start).bind fun m s' hm => hself (.joined start m) hm env s'
  · exact gives_pure.mpr hn

theorem starts_operators (min start : Nat) (n : Node) : KeepsStart start n (readOperators self min start n) := by
  intro hn env s
  unfold readOperators
  rw [gives_peek]
  split
  · exact gives_pure.mpr hn
  · split
    · exact gives_pure.mpr hn
    · refine gives_after fun _ _ => gives_after fun _ _ => gives_after fun rhs _ => ?_
      exact (mkNode_start _ start).bind fun m s' hm => hself (.operators min start m) hm env s'

omit hself in
theorem methodCall_start (receiver : Node) (start : Nat) {env : ParseEnv} {s : Stream TokenKind} :
    Gives (methodCall self receiver start) env s fun n _ => n.span.start = start := by
  unfold methodCall
  rw [gives_peek]
  split
  · exact gives_after fun _ _ => mkNode_start _ start
  · split
    · exact gives_fail
    · exact gives_after fun _ _ => gives_after fun _ _ => mkNode_start _ start

omit hself in
theorem scopedName_start (n : Node) (start : Nat) {env : ParseEnv} {s : Stream TokenKind} :
    Gives (scopedName self n start) env s fun m _ => m.span.start = start := by
  unfold scopedName
  refine gives_after fun _ _ => gives_after fun _ _ => gives_after fun _ _ => ?_
  split
  · exact gives_after fun _ _ => mkNode_start _ start
  · exact methodCall_start n start

omit hself in
theorem attachBlock_start (n : Node) {env : ParseEnv} {s : Stream TokenKind} :
    Gives (attachBlock self n) env s fun m _ => m.span.start = n.span.start := by
  unfold attachBlock
  exact gives_after fun _ _ => gives_after fun _ _ => gives_pure.mpr rfl

theorem starts_trailers (start : Nat) (n : Node) : KeepsStart start n (readTrailers self start n) := by
  intro hn env s
  have hmore : ∀ m s', m.span.start = start →
      Gives (self (.trailers start m)) env s' fun m _ => m.span.start = start := fun m s' hm =>
    hself (.trailers start m) hm env s'
  unfold readTrailers
  rw [gives_peek]
  split
  · exact gives_after fun _ _ => gives_after fun _ _ => (methodCall_start n start).bind hmore
  · exact gives_after fun _ _ => gives_after fun _ _ => (methodCall_start n start).bind hmore
  · refine gives_after fun goesOn _ => ?_
    split
    · exact gives_after fun _ s' => hmore n s' hn
    · exact gives_pure.mpr hn
  · exact (scopedName_start n start).bind hmore
  · split
    · exact gives_pure.mpr hn
    · have hindex : Gives (index self n start) env s fun m _ => m.span.start = start :=
        gives_after fun _ _ => gives_after fun _ _ => gives_after fun _ _ => mkNode_start _ start
      exact hindex.bind hmore
  · split
    · exact (attachBlock_start n).bind fun m s' hm => hmore m s' (hm.trans hn)
    · exact gives_pure.mpr hn
  · refine gives_after fun _ _ => ?_
    split
    · exact (attachBlock_start n).bind fun m s' hm => hmore m s' (hm.trans hn)
    · exact gives_pure.mpr hn
  · exact gives_pure.mpr hn

omit hself in
theorem starts_primary : StartsHere (readPrimary self) := by
  intro env s hs
  unfold readPrimary
  rw [gives_peek, hs]
  show Gives (constant self) env s _
  unfold constant
  rw [gives_bump]
  refine gives_after fun paren _ => ?_
  split
  · exact gives_after fun _ _ => mkNode_start _ _
  · exact mkNode_start _ _

theorem starts_unary : StartsHere (readUnary self) := by
  intro env s hs
  unfold readUnary
  rw [gives_peek, hs]
  dsimp only
  rw [if_neg (by simp)]
  refine (hself .primary env s hs).bind fun n s' hn => ?_
  exact (hself (.trailers n.span.start n) rfl env s').mono fun m _ hm => hm.trans hn

theorem starts_binary (min : Nat) : StartsHere (readBinary self min) := by
  intro env s hs
  unfold readBinary
  rw [gives_here]
  exact (hself .unary env s hs).bind fun n s' hn => hself (.operators min s.here n) hn env s'

theorem starts_ternary : StartsHere (readTernary self) := by
  intro env s hs
  unfold readTernary
  rw [gives_here]
  refine (hself (.binary 0) env s hs).bind fun n s' hn => gives_after fun question _ => ?_
  split
  · exact gives_after fun _ _ => gives_after fun _ _ => gives_after fun _ _ => gives_after fun _ _ => mkNode_start _ _
  · exact gives_pure.mpr hn

theorem starts_expr : StartsHere (readExpr self) := by
  intro env s hs
  unfold readExpr
  rw [gives_here]
  refine (hself .ternary env s hs).bind fun n s' hn => ?_
  split
  · rw [gives_peekKind]
    split
    · exact gives_after fun _ _ => gives_after fun _ _ => gives_after fun _ _ => mkNode_start _ _
    · exact gives_after fun _ _ => gives_after fun _ _ => gives_after fun _ _ => mkNode_start _ _
    · exact gives_pure.mpr hn
  · exact gives_pure.mpr hn

theorem starts_negation : StartsHere (readNegation self) := by
  intro env s hs
  unfold readNegation atKeyword
  rw [gives_at, hs]
  exact hself .expr env s hs

theorem starts_sentence : StartsHere (readSentence self) := by
  intro env s hs
  unfold readSentence
  rw [gives_here]
  exact (hself .negation env s hs).bind fun n s' hn => hself (.joined s.here n) hn env s'

theorem starts_statement : StartsHere (readStatement self) := by
  intro env s hs
  unfold readStatement
  rw [gives_here]
  exact (hself .sentence env s hs).bind fun n s' hn => hself (.modifiers s.here n) hn env s'

theorem starts_items (stops : List TokenKind) {env : ParseEnv} {s : Stream TokenKind} (hs : s.peek.kind = .constant) :
    Gives (readItems self stops) env s fun ns _ => ∀ n ∈ ns.head?, n.span.start = s.here := by
  have hskip : Gives skipTerminators env s fun _ s' => s' = s := by
    intro _ s' h
    cases h
    exact skipTerminators_eq (by rw [hs]; rfl)
  unfold readItems
  refine hskip.bind fun _ s' hs' => ?_
  subst hs'
  refine gives_look (looks_atAny _) fun closed => ?_
  split
  · exact gives_pure.mpr (by simp)
  · refine (hself .statement env s' hs).bind fun n _ hn => gives_after fun more _ => gives_pure.mpr ?_
    simpa using hn

theorem starts_statements (stops : List TokenKind) {env : ParseEnv} {s : Stream TokenKind}
    (hs : s.peek.kind = .constant) : Gives (readStatements self stops) env s fun m _ =>
      ∀ items, m.kind = .statements items → ∀ n ∈ items.head?, n.span.start = s.here := by
  unfold readStatements
  rw [gives_here]
  refine (hself (.items stops) env s hs).bind fun ns s' hns m _ hm => ?_
  cases hm
  rintro items ⟨⟩
  exact hns

end Rules

/-! ## Texts -/

theorem step_starts {self : Reader} (hself : Starts self) : Starts (Rule.step self) := by
  intro α rule
  cases rule with
  | modifiers start n => exact starts_modifiers hself start n
  | joined start n => exact starts_joined hself start n
  | operators min start n => exact starts_operators hself min start n
  | trailers start n => exact starts_trailers hself start n
  | statement => exact starts_statement hself
  | sentence => exact starts_sentence hself
  | negation => exact starts_negation hself
  | expr => exact starts_expr hself
  | ternary => exact starts_ternary hself
  | binary min => exact starts_binary hself min
  | unary => exact starts_unary hself
  | primary => exact starts_primary
  | items stops => exact fun _ _ hs => starts_items hself stops hs
  | statements stops => exact fun _ _ hs => starts_statements hself stops hs
  | _ => trivial

theorem run_starts (depth : Nat) : Starts (Rule.run depth) := by
  induction depth with
  | zero =>
    intro α rule
    cases rule with
    | modifiers | joined | operators | trailers => exact fun _ _ _ => gives_throw
    | statement | sentence | negation | expr | ternary | binary | unary | primary => exact fun _ _ _ => gives_throw
    | items | statements => exact fun _ _ _ => gives_throw
    | _ => trivial
  | succ depth ih => exact step_starts ih

/-- If a text begins with a constant, then its first statement is on the line of that. -/
theorem first_line {text : List Char} {comments : List Comment} {root n : Node} {items : List Node}
    {s : Scanned TokenKind} {t : Token TokenKind} {ts : List (Token TokenKind)}
    (hparse : Ruby.parse text = .ok (root, comments)) (hscan : scan text = .ok s) (htokens : s.tokens = t :: ts)
    (hconst : t.kind = .constant) (hroot : root.kind = .statements (n :: items)) :
    n.line = (LineIndex.ofText text).line t.span.start := by
  obtain ⟨s', s'', hscan', -, hprogram⟩ := parse_ok.mp hparse
  obtain rfl : s = s' := Except.ok.inj (hscan.symm.trans hscan')
  have hpeek : (Stream.mk s.tokens s.stop 0).peek = t := by rw [htokens]; rfl
  have hstart : n.span.start = t.span.start := by
    have hgives : Gives (program (Rule.run (depthBound s.tokens.length))) { text, lines := .ofText text }
        ⟨s.tokens, s.stop, 0⟩ fun root _ => ∀ items, root.kind = .statements items →
          ∀ n ∈ items.head?, n.span.start = t.span.start := by
      unfold program
      have hstatements := run_starts (depthBound s.tokens.length) (.statements []) { text, lines := .ofText text }
        ⟨s.tokens, s.stop, 0⟩ (by rw [hpeek, hconst])
      refine Gives.bind hstatements fun root _ hroot => ?_
      rw [gives_peek]
      split
      · refine gives_pure.mpr fun items hitems m hm => (hroot items hitems m hm).trans ?_
        rw [Stream.here, hpeek]
      · exact gives_fail
    exact hgives root s'' hprogram _ hroot n (by simp)
  obtain ⟨lo, hi, e, hlaid⟩ := parse_laid hparse
  have hchild : n ∈ root.children := by simp [Node.children, NodeKind.children, hroot]
  have hplace := hlaid.inPlace root List.mem_cons_self n (Node.child_mem_preorder root.mem_preorder hchild)
  rw [hplace.line, hstart]

end PuppetDocs.Ruby
