import PuppetDocs.Proofs.Tree.Reading
import PuppetDocs.Ruby.Grammar.Operators

/-
  PuppetDocs.Proofs.Tree.Operators — where statements and what operators join are laid.

  A rule that goes on with a node starts where that node was begun, and this may be in front
  of the node itself, as parentheses around a single statement leave no node. Only what
  follows a value starts with the value.
-/

namespace PuppetDocs.Ruby

open ParseM
open Text (byteLength)

section Operators

variable {text : List Char} {self : Reader} (hself : Lays text self)
include hself

/-! ## Statements -/

theorem reads_statements (stops : List TokenKind) : Reads text (readStatements self stops) := by
  intro env s hl hs
  unfold readStatements
  rw [gives_here]
  refine (Got.start hs).next hl (hself (.items stops)) fun items s' h => ?_
  exact h.node hl rfl nofun

theorem reads_items (stops : List TokenKind) : Reads text (readItems self stops) := by
  intro env s hl hs
  unfold readItems
  refine (Got.start hs).pass passes_skipTerminators fun _ s' h => ?_
  refine gives_look (looks_atAny _) fun closed => ?_
  split
  · exact gives_pure.mpr h
  · refine h.next hl (hself .statement) fun n s' h => ?_
    refine h.next hl (hself (.items stops)) fun more s' h => ?_
    exact gives_pure.mpr h

theorem reads_statement : Reads text (readStatement self) := by
  intro env s hl hs
  unfold readStatement
  rw [gives_here]
  refine (Got.start hs).next hl (hself .sentence) fun n s' h => ?_
  exact hself.modifiers env s s' hl h

theorem resumes_modifiers (start : Nat) (n : Node) : Resumes text start n (readModifiers self start n) := by
  intro env s₀ s hl h
  unfold readModifiers
  rw [gives_peekKind]
  split
  · split
    · rw [gives_bump]
      refine h.advance.next hl (hself .sentence) fun condition s' h => ?_
      refine h.make hl rfl nofun fun m s' h => ?_
      exact hself.modifiers env s₀ s' hl h
    · exact gives_pure.mpr h
  · exact gives_pure.mpr h

theorem reads_sentence : Reads text (readSentence self) := by
  intro env s hl hs
  unfold readSentence
  rw [gives_here]
  refine (Got.start hs).next hl (hself .negation) fun lhs s' h => ?_
  exact hself.joined env s s' hl h

theorem resumes_joined (start : Nat) (lhs : Node) : Resumes text start lhs (readJoined self start lhs) := by
  intro env s₀ s hl h
  unfold readJoined
  refine gives_look (looks_atAny _) fun joins => ?_
  split
  · rw [gives_bump]
    refine h.advance.pass passes_skipNewlines fun _ s' h => ?_
    refine h.next hl (hself .negation) fun rhs s' h => ?_
    refine h.make hl rfl nofun fun m s' h => ?_
    exact hself.joined env s₀ s' hl h
  · exact gives_pure.mpr h

theorem reads_negation : Reads text (readNegation self) := by
  intro env s hl hs
  unfold readNegation
  refine gives_look (looks_at _) fun negated => ?_
  split
  · rw [gives_bump]
    refine (Got.start hs).advance.next hl (hself .negation) fun operand s' h => ?_
    exact h.node hl rfl nofun
  · exact hself .expr env s hl hs

/-! ## Assignment -/

theorem reads_assignedValue : Reads text (assignedValue self) := by
  intro env s hl hs
  unfold assignedValue
  rw [gives_here]
  refine (Got.start hs).next hl (hself .expr) fun first s' h => ?_
  refine gives_look (looks_at _) fun more => ?_
  split
  · refine h.next hl (hself .moreArgs) fun more s' h => ?_
    exact h.node hl rfl nofun
  · exact gives_pure.mpr h

theorem reads_expr : Reads text (readExpr self) := by
  intro env s hl hs
  unfold readExpr
  rw [gives_here]
  refine (Got.start hs).next hl (hself .ternary) fun target s' h => ?_
  split
  · rw [gives_peekKind]
    split
    · rw [gives_bump]
      refine h.advance.pass passes_skipNewlines fun _ s' h => ?_
      refine h.next hl (reads_assignedValue hself) fun value s' h => ?_
      exact h.node hl rfl nofun
    · rw [gives_bump]
      refine h.advance.pass passes_skipNewlines fun _ s' h => ?_
      refine h.next hl (reads_assignedValue hself) fun value s' h => ?_
      exact h.node hl rfl nofun
    · exact gives_pure.mpr h
  · exact gives_pure.mpr h

/-! ## Ternary and binary operators -/

theorem reads_elseBranch : Reads text (elseBranch self) := by
  intro env s hl hs
  unfold elseBranch
  refine (Got.start hs).pass (passes_eat _) fun colon s' h => ?_
  split
  · refine h.pass passes_skipNewlines fun _ s' h => ?_
    refine h.next hl (hself .ternary) fun n s' h => ?_
    exact gives_pure.mpr h
  · rw [gives_at]
    split
    · rename_i hk
      rw [gives_bump]
      -- The name starts behind the colon that was read as part of it.
      have hcovers : s'.peek.span.start < s'.peek.span.stop :=
        h.sound.peek_covers (by rw [of_decide_eq_true hk]; decide)
      have hend := h.sound.advance_prevEnd hcovers
      have hnext := h.advance.sound.here_bounds.1
      have hname : Got text s s'.advance (s'.peek.span.start + 1) [] :=
        ⟨h.advance.leads, by omega, .nil, .nil⟩
      refine hname.make hl rfl nofun fun n s'' hn => ?_
      exact gives_pure.mpr (hn.from_start (Nat.le_succ_of_le h.leads.starts))
    · exact gives_pure.mpr h

theorem reads_ternary : Reads text (readTernary self) := by
  intro env s hl hs
  unfold readTernary
  rw [gives_here]
  refine (Got.start hs).next hl hself.binary fun condition s' h => ?_
  refine h.pass (passes_eat _) fun question s' h => ?_
  split
  · refine h.pass passes_skipNewlines fun _ s' h => ?_
    refine h.next hl (hself .ternary) fun then_ s' h => ?_
    refine h.pass passes_skipNewlines fun _ s' h => ?_
    refine h.next hl (reads_elseBranch hself) fun else_ s' h => ?_
    exact h.node hl rfl nofun
  · exact gives_pure.mpr h

theorem reads_binary (min : Nat) : Reads text (readBinary self min) := by
  intro env s hl hs
  unfold readBinary
  rw [gives_here]
  refine (Got.start hs).next hl (hself .unary) fun lhs s' h => ?_
  exact hself.operators env s s' hl h

theorem resumes_operators (min start : Nat) (lhs : Node) : Resumes text start lhs (readOperators self min start lhs) := by
  intro env s₀ s hl h
  unfold readOperators
  rw [gives_peek]
  split
  · exact gives_pure.mpr h
  · split
    · exact gives_pure.mpr h
    · rw [gives_bump]
      refine h.advance.pass passes_skipNewlines fun _ s' h => ?_
      refine h.next hl hself.binary fun rhs s' h => ?_
      refine h.make hl rfl nofun fun m s' h => ?_
      exact hself.operators env s₀ s' hl h

/-! ## Signs and splats -/

theorem resumes_signed {env : ParseEnv} {s₀ s : Stream TokenKind} {lo : Nat} (hl : env.lines = .ofText text)
    (h : Got text s₀ s lo []) (op : String) : Gives (signed self op lo) env s fun n s' => Got text s₀ s' lo [n] := by
  unfold signed
  refine h.next hl (hself .unary) fun operand s' h => ?_
  exact h.node hl rfl nofun

theorem reads_unary : Reads text (readUnary self) := by
  intro env s hl hs
  unfold readUnary
  rw [gives_peek]
  have h := (Got.start hs).advance
  dsimp only
  have hsplat : s.peek.kind ≠ .eof → ∀ double : Bool, Gives (do
      let value ← self .unary
      mkNode (.splat double (some value)) s.here) env s.advance fun n s' => Got text s s' s.here [n] := by
    intro hk double
    have hcovers := hs.peek_covers hk
    have hend := hs.advance_prevEnd hcovers
    refine h.restart.next hl (hself .unary) fun value s' h => ?_
    exact (h.node hl rfl fun _ => Nat.lt_of_lt_of_le hcovers (hend ▸ h.leads.ends)).mono fun n s' h => h.since hs.advance
  split
  · rw [gives_bump]
    exact resumes_signed hself hl h _
  · rw [gives_bump]
    exact resumes_signed hself hl h _
  · rw [gives_bump, gives_peek]
    split
    · rw [gives_bump]
      refine h.advance.make hl rfl nofun fun n s' h => ?_
      exact hself.trailers env s s' hl h
    · exact resumes_signed hself hl h _
  · rename_i hk
    rw [gives_bump]
    exact hsplat (by rw [hk]; decide) _
  · rename_i hk
    rw [gives_bump]
    exact hsplat (by rw [hk]; decide) _
  · split
    · rw [gives_bump]
      exact resumes_signed hself hl h _
    · refine (Got.start hs).next hl (hself .primary) fun n s' h => ?_
      obtain ⟨hn, hlo⟩ := h.from_node
      exact (hself.trailers env s s' hl hn).mono fun m s' h => h.from_start hlo

end Operators

end PuppetDocs.Ruby
