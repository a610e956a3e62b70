import PuppetDocs.Proofs.Tree.Args
import PuppetDocs.Ruby.Grammar.Calls

/-
  PuppetDocs.Proofs.Tree.Calls — where calls, their blocks and what follows a value are laid.

  A block is put into the call in front of it, which is laid already: the parts of the call
  and those of the block lie in order, and the call is closed again behind the block.
-/

namespace PuppetDocs.Ruby

open ParseM
open Text (byteLength)

theorem looks_lineGoesOn : Looks lineGoesOn := by
  intro env s a s' h
  cases h
  rfl

section Calls

variable {text : List Char} {self : Reader} (hself : Lays text self)
include hself

/-! ## Blocks -/

theorem reads_body : Reads text (readBody self) := by
  intro env s hl hs
  unfold readBody
  rw [gives_here]
  refine (Got.start hs).next hl hself.statements fun main s' h => ?_
  refine gives_look (looks_atAny _) fun clauses => ?_
  split
  · refine h.next hl (hself .rescues) fun rescues s' h => ?_
    refine h.pass (passes_eat _) fun _ s' h => ?_
    refine h.next_ite hl hself.statements.singleton (.nil rfl) fun else_ s' h => ?_
    refine h.pass (passes_eat _) fun _ s' h => ?_
    refine h.next_ite hl hself.statements.singleton (.nil rfl) fun ensure_ s' h => ?_
    exact h.node hl (by simp [NodeKind.children]) nofun
  · exact gives_pure.mpr h

theorem reads_rescueTypes : Reads text (readRescueTypes self) := by
  intro env s hl hs
  unfold readRescueTypes
  refine gives_look (looks_atAny _) fun closed => ?_
  split
  · exact gives_pure.mpr (Got.start hs)
  · refine (Got.start hs).next hl (hself .ternary) fun n s' h => ?_
    refine h.pass (passes_eat _) fun comma s' h => ?_
    split
    · refine h.pass passes_skipNewlines fun _ s' h => ?_
      refine h.next hl (hself .rescueTypes) fun more s' h => ?_
      exact gives_pure.mpr h
    · exact gives_pure.mpr h

theorem reads_rescues : Reads text (readRescues self) := by
  intro env s hl hs
  unfold readRescues
  refine (gives_eat hs _).bind fun found s₁ ⟨h₁, hpast⟩ => ?_
  split
  · rename_i hfound
    rw [gives_prevEnd]
    -- The clause starts behind `rescue`, in front of the next token.
    have hlt := hpast hfound (by decide)
    have h : Got text s s₁ s₁.prevEnd [] := ⟨h₁, h₁.sound.here_bounds.1, .nil, .nil⟩
    refine h.next hl (hself .rescueTypes) fun types s' h => ?_
    refine h.pass (passes_eat _) fun _ s' h => ?_
    refine h.next_ite hl (Reads.singleton (hself .primary)) (.nil rfl) fun binding s' h => ?_
    refine h.pass (passes_eat _) fun _ s' h => ?_
    refine h.next hl hself.statements fun body s' h => ?_
    refine h.make hl (by simp [NodeKind.children]) nofun fun clause s' h => ?_
    have h : Got text s s' s.here [clause] := h.from_start (Nat.le_of_lt hlt)
    refine h.next hl (hself .rescues) fun more s' h => ?_
    exact gives_pure.mpr h
  · exact gives_pure.mpr ((Got.start hs).move h₁)

theorem reads_blockParams : Reads text (blockParams self) := by
  intro env s hl hs
  unfold blockParams
  refine (Got.start hs).pass (passes_eat _) fun found s' h => ?_
  split
  · refine h.next hl hself.params fun params s' h => ?_
    refine h.pass (passes_need _ _) fun _ s' h => ?_
    exact gives_pure.mpr h
  · refine h.pass (passes_eat _) fun _ s' h => ?_
    exact gives_pure.mpr h

theorem gives_block {env : ParseEnv} {s : Stream TokenKind} (hl : env.lines = .ofText text)
    (hs : s.Sound (byteLength text)) (hk : s.peek.kind ≠ .eof) :
    Gives (block self) env s fun b s' => Got text s s' s.here (nodes b) ∧ s.here < s'.prevEnd := by
  unfold block
  rw [gives_bump]
  have hcovers := hs.peek_covers hk
  have hend := hs.advance_prevEnd hcovers
  have hinside : ∀ keyword : Bool, Reads text (do
      let params ← blockParams self
      let body ← if keyword then self .body else self (.statements [.rbrace])
      return (params, body)) := by
    intro keyword env s hl hs
    refine (Got.start hs).next hl (reads_blockParams hself) fun params s' h => ?_
    refine h.next_ite hl (hself .body) hself.statements fun body s' h => ?_
    exact gives_pure.mpr h
  refine (Got.start hs).advance.restart.next hl (hinside _).nested fun inside s' h => ?_
  obtain ⟨params, body⟩ := inside
  have hdone : ∀ s', Got text s.advance s' s.here (nodes (params, body)) →
      Got text s s' s.here (defaults params ++ [body]) ∧ s.here < s'.prevEnd := fun s' h =>
    ⟨h.since hs.advance, Nat.lt_of_lt_of_le hcovers (hend ▸ h.leads.ends)⟩
  dsimp only
  split
  · refine h.pass passes_needEnd fun _ s' h => ?_
    rw [gives_prevEnd, gives_lineOf, gives_pure]
    exact hdone s' h
  · refine h.pass (passes_need _ _) fun _ s' h => ?_
    rw [gives_prevEnd, gives_lineOf, gives_pure]
    exact hdone s' h

omit hself in
/-- The parts of a call that takes a block, and those of the block behind them. -/
theorem children_withBlock {n : Node} (h : takesBraces n = true ∨ takesDo n = true) (b : Block Node) :
    (withBlock n b).children = n.children ++ nodes b ∧ ∀ span line, isEntry ⟨withBlock n b, span, line⟩ = false := by
  obtain ⟨kind, span, line⟩ := n
  cases kind with
  | ident method => exact ⟨rfl, fun _ _ => rfl⟩
  | call c =>
    have hnone : c.block = none := by
      rcases h with h | h
      · simp only [takesBraces, Bool.and_eq_true] at h
        simpa using h.1
      · simpa [takesDo] using h
    refine ⟨?_, fun _ _ => rfl⟩
    simp [withBlock, Node.children, NodeKind.children, hnone]
  | _ => simp [takesBraces, takesDo] at h

theorem resumes_attachBlock {start : Nat} {n : Node} {env : ParseEnv} {s₀ s : Stream TokenKind}
    (hl : env.lines = .ofText text) (h : Got text s₀ s start [n]) (hn : takesBraces n = true ∨ takesDo n = true)
    (hk : s.peek.kind ≠ .eof) : Gives (attachBlock self n) env s fun m s' => Got text s₀ s' start [m] := by
  unfold attachBlock
  refine (gives_block hself hl h.sound hk).bind fun b s' ⟨hb, hlt⟩ => ?_
  rw [gives_prevEnd, gives_pure]
  obtain ⟨hplace, hlo, hhi⟩ := h.laid.mem List.mem_cons_self
  obtain ⟨hparts, hentry⟩ := children_withBlock hn b
  have hlaid : Laid text n.span.start s'.here s'.prevEnd (withBlock n b).children := by
    rw [hparts]
    exact h.laid.parts.append hb.laid hhi hb.leads.starts hb.leads.ends
  have hbounds := hb.sound.here_bounds
  have hnode : Laid text n.span.start s'.here s'.prevEnd
      [{ kind := withBlock n b, span := ⟨n.span.start, s'.prevEnd⟩, line := n.line }] := by
    refine .single rfl hlaid (Nat.le_trans hhi hb.leads.starts) ?_ ?_ hplace.line (Nat.le_refl _) (fun _ => Nat.le_refl _)
      fun he => absurd ((hentry _ _).symm.trans he) (by decide)
    · exact Nat.le_of_lt (Nat.lt_of_le_of_lt hhi hlt)
    · exact Nat.le_trans hbounds.1 hbounds.2
  exact ⟨h.leads.trans hb.leads, Nat.le_trans h.from_ hb.leads.starts, hnode.mono hlo (Nat.le_refl _) (Nat.le_refl _),
    List.pairwise_singleton _ _⟩

/-! ## What follows a value -/

theorem reads_callArgs : Reads text (callArgs self) := by
  intro env s hl hs
  unfold callArgs
  have h := Got.start hs
  refine gives_look (looks_parenAt 0) fun paren => ?_
  split
  · refine h.next hl (reads_parenArgs hself) fun args s' h => ?_
    exact gives_pure.mpr h
  · refine gives_look looks_commandArgStarts fun starts => ?_
    split
    · refine h.next hl (reads_commandArgs hself) fun args s' h => ?_
      exact gives_pure.mpr h
    · exact gives_pure.mpr h

variable {start : Nat} {n : Node}

theorem resumes_methodCall : Resumes text start n (methodCall self n start) := by
  intro env s₀ s hl h
  unfold methodCall
  rw [gives_peek]
  split
  · refine h.next hl (reads_parenArgs hself) fun args s' h => ?_
    exact h.node hl (by simp [NodeKind.children]) (by simp [isEntry])
  · split
    · exact gives_fail
    · rw [gives_bump]
      refine h.advance.next hl (reads_callArgs hself) fun args s' h => ?_
      exact h.node hl (by simp [NodeKind.children]) (by simp [isEntry])

theorem resumes_scopedName : Resumes text start n (scopedName self n start) := by
  intro env s₀ s hl h
  unfold scopedName
  rw [gives_bump]
  have h := h.advance
  refine gives_look (looks_at _) fun name => ?_
  refine gives_look (looks_parenAt 1) fun paren => ?_
  split
  · rw [gives_bump]
    exact h.advance.node hl (by simp [NodeKind.children]) nofun
  · exact resumes_methodCall hself env s₀ _ hl h

theorem resumes_index : Resumes text start n (index self n start) := by
  intro env s₀ s hl h
  unfold index
  rw [gives_bump]
  refine h.advance.next hl hself.args.nested fun args s' h => ?_
  refine h.pass (passes_need _ _) fun _ s' h => ?_
  exact h.node hl (by simp [NodeKind.children]) nofun

theorem resumes_trailers : Resumes text start n (readTrailers self start n) := by
  intro env s₀ s hl h
  unfold readTrailers
  rw [gives_peek]
  have hpeek : ∀ {kind : TokenKind}, s.peek.kind = kind → kind ≠ .eof → s.peek.kind ≠ .eof := fun hk hne => hk ▸ hne
  split
  · rw [gives_bump]
    refine h.advance.pass passes_skipNewlines fun _ s' h => ?_
    exact h.resume hl (resumes_methodCall hself) fun m s' h => hself.trailers env _ s' hl h
  · rw [gives_bump]
    refine h.advance.pass passes_skipNewlines fun _ s' h => ?_
    exact h.resume hl (resumes_methodCall hself) fun m s' h => hself.trailers env _ s' hl h
  · refine gives_look looks_lineGoesOn fun goesOn => ?_
    split
    · exact h.pass passes_skipNewlines fun _ s' h => hself.trailers env _ s' hl h
    · exact gives_pure.mpr h
  · exact h.resume hl (resumes_scopedName hself) fun m s' h => hself.trailers env _ s' hl h
  · split
    · exact gives_pure.mpr h
    · exact h.resume hl (resumes_index hself) fun m s' h => hself.trailers env _ s' hl h
  · rename_i hk
    split
    · rename_i hn
      exact (resumes_attachBlock hself hl h (.inl hn) (hpeek hk nofun)).bind fun m s' h => hself.trailers env _ s' hl h
    · exact gives_pure.mpr h
  · rename_i hk
    rw [gives_read]
    split
    · rename_i hn
      rw [Bool.and_eq_true] at hn
      exact (resumes_attachBlock hself hl h (.inr hn.2) (hpeek hk nofun)).bind fun m s' h => hself.trailers env _ s' hl h
    · exact gives_pure.mpr h
  · exact gives_pure.mpr h

end Calls

end PuppetDocs.Ruby
