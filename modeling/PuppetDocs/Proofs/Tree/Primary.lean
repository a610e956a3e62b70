import PuppetDocs.Proofs.Tree.Calls
import PuppetDocs.Proofs.Tree.Definitions
import PuppetDocs.Ruby.Grammar.Primary

/-
  PuppetDocs.Proofs.Tree.Primary — where names and literals are laid.

  The entries of a word list share the span of the list. Parentheses around one statement
  leave that statement, which starts behind them.
-/

namespace PuppetDocs.Ruby

open ParseM
open Text (byteLength)

section Primary

variable {text : List Char} {self : Reader}

/-! ## Names and literals -/

theorem reads_rootConstant : Reads text rootConstant := by
  intro env s hl hs
  unfold rootConstant
  rw [gives_bump]
  refine (Got.start hs).advance.pass (passes_need _ _) fun name s' h => ?_
  exact h.node hl rfl nofun

theorem leads_joinStrings {len : Nat} (acc : StrLit) {rest : List (Token TokenKind)} {stop : Token TokenKind}
    {prevEnd : Nat} (hs : (Stream.mk rest stop prevEnd).Sound len) :
    (Stream.mk rest stop prevEnd).Leads len
      ⟨(joinStrings acc prevEnd rest).2.1, stop, (joinStrings acc prevEnd rest).2.2⟩ := by
  fun_induction joinStrings acc prevEnd rest with
  | case1 | case2 | case4 => exact .refl hs
  | case3 acc prevEnd t rest v hk hc ih => exact hs.advance.trans (ih hs.advance.sound)

theorem reads_stringLiteral (value : StrLit) : Reads text (stringLiteral value) := by
  intro env s hl hs
  unfold stringLiteral
  rw [gives_bump, gives_get]
  have h := (Got.start hs).advance.move (leads_joinStrings value hs.advance.sound)
  exact h.node hl rfl nofun

theorem reads_wordList {entries : List (NodeKind Node)}
    (hentries : ∀ k ∈ entries, k.children = [] ∧ ∀ span line, isEntry ⟨k, span, line⟩ = false) :
    Reads text (wordList entries) := by
  intro env s hl hs
  unfold wordList
  rw [gives_bump, gives_lineOf, hl]
  have hspan := hs.peek_span
  have hnext := hs.advance
  have h : Got text s s.advance s.here
      (entries.map fun kind => ⟨kind, s.peek.span, (LineIndex.ofText text).line s.peek.span.start⟩) := by
    refine ⟨hnext, hnext.starts, ?_, .shared entries _ _⟩
    exact .shared entries (fun k hk => ⟨(hentries k hk).1, (hentries k hk).2 _ _⟩) (Nat.le_refl _) hnext.starts hspan.1
      hspan.2 fun hc => Nat.le_of_eq (hs.advance_prevEnd hc).symm
  exact h.node hl rfl nofun

theorem reads_aliasName : Reads text aliasName := by
  intro env s hl hs
  unfold aliasName
  rw [gives_bump]
  exact (Got.start hs).advance.node hl rfl nofun

theorem reads_aliasStatement : Reads text aliasStatement := by
  intro env s hl hs
  unfold aliasStatement
  rw [gives_bump]
  refine (Got.start hs).advance.next hl reads_aliasName fun new s' h => ?_
  refine h.next hl reads_aliasName fun old s' h => ?_
  exact h.node hl rfl nofun

theorem reads_unmodelled : Reads text unmodelled := by
  intro env s hl hs
  unfold unmodelled
  rw [gives_bump]
  exact (Got.start hs).advance.node hl rfl nofun

theorem reads_unbalanced (t : Token TokenKind) : Reads text (unbalanced t) := fun _ _ _ _ => gives_fail

theorem looks_jumpHasValue : Looks jumpHasValue := (looks_atAny _).bind fun _ => .pure _

variable (hself : Lays text self)
include hself

theorem reads_named : Reads text (named self) := by
  intro env s hl hs
  unfold named
  rw [gives_bump]
  have h := (Got.start hs).advance
  refine gives_look (looks_parenAt 0) fun paren => ?_
  split
  · refine h.next hl (reads_parenArgs hself) fun args s' h => ?_
    exact h.node hl (by simp [NodeKind.children]) (by simp [isEntry])
  · refine gives_look looks_commandArgStarts fun command => ?_
    split
    · refine h.next hl (reads_commandArgs hself) fun args s' h => ?_
      exact h.node hl (by simp [NodeKind.children]) (by simp [isEntry])
    · exact h.node hl rfl (by simp [isEntry])

theorem reads_constant : Reads text (constant self) := by
  intro env s hl hs
  unfold constant
  rw [gives_bump]
  have h := (Got.start hs).advance
  refine gives_look (looks_parenAt 0) fun paren => ?_
  split
  · refine h.next hl (reads_parenArgs hself) fun args s' h => ?_
    exact h.node hl (by simp [NodeKind.children]) (by simp [isEntry])
  · exact h.node hl rfl (by simp [isEntry])

/-! ## Brackets -/

theorem reads_parenthesised : Reads text (parenthesised self) := by
  intro env s hl hs
  unfold parenthesised
  rw [gives_bump]
  refine (Got.start hs).advance.next hl hself.statements.nested fun inner s₁ h => ?_
  refine (gives_need h.sound _ _).bind fun _ s₂ ⟨h₂, hpast⟩ => ?_
  have hlt := Nat.lt_of_le_of_lt h.from_ (hpast (by decide))
  have h := h.move h₂
  obtain ⟨-, hlo, hhi⟩ := h.laid.mem List.mem_cons_self
  have hparts : Laid text s.here s₂.here s₂.prevEnd inner.kind.children :=
    h.laid.parts.mono hlo (Nat.le_refl _) (Nat.le_refl _)
  split
  · rename_i n hn
    rw [hn] at hparts
    exact gives_pure.mpr ⟨h.leads, h.from_, hparts, List.pairwise_singleton _ _⟩
  · exact gives_mkNode hl h.leads h.from_ hparts fun _ => hlt

theorem reads_arrayLiteral : Reads text (arrayLiteral self) := by
  intro env s hl hs
  unfold arrayLiteral
  rw [gives_bump]
  refine (Got.start hs).advance.next hl hself.args.nested fun items s' h => ?_
  refine h.pass (passes_need _ _) fun _ s' h => ?_
  exact h.node hl rfl nofun

theorem reads_hashLiteral : Reads text (hashLiteral self) := by
  intro env s hl hs
  unfold hashLiteral
  rw [gives_bump]
  refine (Got.start hs).advance.next hl hself.args.nested fun items s' h => ?_
  refine h.pass (passes_need _ _) fun _ s' h => ?_
  exact h.node hl rfl nofun

/-! ## Keywords -/

theorem reads_jump : Reads text (jump self) := by
  intro env s hl hs
  unfold jump
  rw [gives_bump]
  refine gives_look looks_jumpHasValue fun value => ?_
  refine (Got.start hs).advance.next_ite hl (reads_commandArgs hself) (.nil rfl) fun args s' h => ?_
  exact h.node hl rfl nofun

theorem reads_yieldOrSuper : Reads text (yieldOrSuper self) := by
  intro env s hl hs
  unfold yieldOrSuper
  rw [gives_bump]
  refine (Got.start hs).advance.next hl (reads_callArgs hself) fun args s' h => ?_
  exact h.node hl rfl nofun

theorem reads_definedCall : Reads text (definedCall self) := by
  intro env s hl hs
  unfold definedCall
  rw [gives_bump]
  refine gives_look (looks_at _) fun paren => ?_
  refine (Got.start hs).advance.next_ite hl (reads_parenArgs hself) (Reads.singleton (hself .unary)) fun args s' h => ?_
  exact h.node hl (by simp [NodeKind.children]) nofun

theorem reads_undefNames : Reads text (readUndefNames self) := by
  intro env s hl hs
  unfold readUndefNames
  refine (Got.start hs).pass (passes_eat _) fun comma s' h => ?_
  split
  · refine h.next hl (hself .primary) fun n s' h => ?_
    refine h.next hl (hself .undefNames) fun more s' h => ?_
    exact gives_pure.mpr h
  · exact gives_pure.mpr h

theorem reads_undefStatement : Reads text (undefStatement self) := by
  intro env s hl hs
  unfold undefStatement
  rw [gives_bump]
  refine (Got.start hs).advance.next hl (hself .primary) fun n s' h => ?_
  refine h.next hl (hself .undefNames) fun more s' h => ?_
  exact h.node hl rfl nofun

theorem reads_keywordPrimary (t : Token TokenKind) (k : Keyword) : Reads text (keywordPrimary self t k) := by
  cases k with
  | nilKw | trueKw | falseKw | selfKw => exact reads_leaf rfl rfl
  | defKw => exact reads_method hself
  | classKw => exact reads_classDefinition hself
  | moduleKw => exact reads_moduleDefinition hself
  | ifKw | unlessKw => exact reads_conditional hself
  | whileKw | untilKw => exact reads_whileLoop hself
  | forKw => exact reads_forLoop hself
  | caseKw => exact reads_caseOf hself
  | beginKw => exact reads_beginBlock hself
  | returnKw | breakKw | nextKw | redoKw | retryKw => exact reads_jump hself
  | yieldKw | superKw => exact reads_yieldOrSuper hself
  | definedKw => exact reads_definedCall hself
  | aliasKw => exact reads_aliasStatement
  | undefKw => exact reads_undefStatement hself
  | notKw => exact hself .negation
  | endKw => exact reads_unbalanced t
  | _ => exact reads_unmodelled

theorem reads_primary : Reads text (readPrimary self) := by
  intro env s hl hs
  unfold readPrimary
  rw [gives_peek]
  have hstrings : ∀ ws : List String, ∀ k ∈ ws.map fun w => NodeKind.str { value := w, interpolated := false },
      (k : NodeKind Node).children = [] ∧ ∀ span line, isEntry ⟨k, span, line⟩ = false := by
    intro ws k hk
    obtain ⟨w, -, rfl⟩ := List.mem_map.mp hk
    exact ⟨rfl, fun _ _ => rfl⟩
  have hsymbols : ∀ ws : List String, ∀ k ∈ ws.map NodeKind.symbol,
      (k : NodeKind Node).children = [] ∧ ∀ span line, isEntry ⟨k, span, line⟩ = false := by
    intro ws k hk
    obtain ⟨w, -, rfl⟩ := List.mem_map.mp hk
    exact ⟨rfl, fun _ _ => rfl⟩
  generalize s.peek.kind = kind
  cases kind with
  | ident => exact reads_named hself env s hl hs
  | constant => exact reads_constant hself env s hl hs
  | colonColon => exact reads_rootConstant env s hl hs
  | instanceVar | classVar | globalVar | number | symbol | label | quotedSymbol | command | regex =>
    exact reads_leaf rfl rfl env s hl hs
  | string value => exact reads_stringLiteral value env s hl hs
  | words ws => exact reads_wordList (hstrings ws) env s hl hs
  | symbolWords ws => exact reads_wordList (hsymbols ws) env s hl hs
  | lparen => exact reads_parenthesised hself env s hl hs
  | lbracket => exact reads_arrayLiteral hself env s hl hs
  | lbrace => exact reads_hashLiteral hself env s hl hs
  | arrow => exact reads_lambda hself env s hl hs
  | keyword k => exact reads_keywordPrimary hself _ k env s hl hs
  | bang | plus | minus | star | doubleStar => exact hself .unary env s hl hs
  | rparen | rbracket | rbrace => exact reads_unbalanced _ env s hl hs
  | eof => exact gives_fail
  | _ => exact reads_unmodelled env s hl hs

end Primary

end PuppetDocs.Ruby
