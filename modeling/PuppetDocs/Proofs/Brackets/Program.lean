import PuppetDocs.Proofs.Brackets.Calls
import PuppetDocs.Proofs.Scan.Kinds
import PuppetDocs.Proofs.Tree.Order

/-
  PuppetDocs.Proofs.Brackets.Program — how far a Ruby text keeps its brackets balanced.

  One step of the grammar keeps brackets balanced if the rules inside it do (`balanced_step`),
  so every rule does (`run_balances`). The tokens of a text that is accepted are therefore
  nested but for some in lax places (`parse_tidy`), and nested altogether where no bracket
  stands in one (`program_nested`). A stray bracket in such a place is not reported
  (`program_not_nested`).
-/

namespace PuppetDocs.Ruby

open ParseM

/-! ## Names and literals -/

section Primary

variable {env : ParseEnv} {s : Stream TokenKind} {before : List (Token TokenKind)}

theorem balancedPlain_leaf (kind : NodeKind Node) : BalancedPlain (leaf kind) :=
  balancedPlain_bump fun _ => .look (looks_lineOf _) fun _ => balanced_pure _

theorem balancedPlain_rootConstant : BalancedPlain rootConstant :=
  balancedPlain_bump fun _ => (balanced_need (by decide) _).bind fun _ => balanced_mkNode _ _

/-- Strings are joined with the strings right behind them. -/
theorem joinStrings_split (acc : StrLit) (prevEnd : Nat) (ts : List (Token TokenKind)) :
    ∃ joined, ts = joined ++ (joinStrings acc prevEnd ts).2.1 ∧ ∀ t ∈ joined, t.side = .plain := by
  induction ts generalizing acc prevEnd with
  | nil => exact ⟨[], rfl, nofun⟩
  | cons t ts ih =>
    unfold joinStrings
    split
    · next v hk =>
      split
      · exact ⟨[], rfl, nofun⟩
      · obtain ⟨joined, hsplit, hplain⟩ := ih (acc.append v) t.span.stop
        refine ⟨t :: joined, ?_, List.forall_mem_cons.mpr ⟨side_of_kind hk, hplain⟩⟩
        rw [List.cons_append, ← hsplit]
    · exact ⟨[], rfl, nofun⟩

theorem balancedPlain_stringLiteral (value : StrLit) : BalancedPlain (stringLiteral value) := by
  refine balancedPlain_bump fun t env s before hs => ?_
  obtain ⟨joined, hsplit, hplain⟩ := joinStrings_split value s.prevEnd s.rest
  refine gives_get.mpr (gives_set.mpr (Tidies.after ?_ ⟨rfl, hsplit⟩ (.of_nested (nested_plain hplain) before)))
  exact balanced_mkNode _ _ env _ _ hs

theorem balancedPlain_wordList (entries : List (NodeKind Node)) : BalancedPlain (wordList entries) :=
  balancedPlain_bump fun _ => .look (looks_lineOf _) fun _ => balanced_mkNode _ _

theorem balancedPlain_unmodelled : BalancedPlain unmodelled := balancedPlain_bump fun _ => balanced_mkNode _ _

/-- Either name behind `alias` is taken whatever it is. -/
theorem gives_aliasName : Gives aliasName env s fun _ s' => ∃ used, s.Uses used s' ∧ used.length ≤ 1 := by
  unfold aliasName
  rw [gives_bump]
  refine (looks_mkNode _ _ env s.advance).mono ?_
  rintro _ _ rfl
  rcases Stream.Uses.advance_any s with huses | huses
  · exact ⟨_, huses, Nat.le_refl 1⟩
  · exact ⟨_, huses, Nat.zero_le 1⟩

theorem tidy_short {ts : List (Token TokenKind)} (hts : ts.length ≤ 1) (hlax : ∀ t, Lax before t) : Tidy Lax before ts := by
  match ts, hts with
  | [], _ => exact .nil before
  | [t], _ => exact .spare (hlax t)

theorem tidies_aliasStatement (hs : s.stop.kind = .eof) (hk : s.peek.kind = .keyword .aliasKw) :
    Tidies Lax before aliasStatement env s := by
  have h₁ := uses_peek hs (by rw [hk]; decide)
  unfold aliasStatement
  rw [Tidies, gives_bump]
  refine gives_aliasName.bind ?_
  rintro new s₂ ⟨first, h₂, hfirst⟩
  refine gives_aliasName.bind ?_
  rintro old s₃ ⟨second, h₃, hsecond⟩
  have hnames : Tidy Lax (before ++ [s.peek]) (first ++ second) := by
    have hlax : ∀ t, Lax (before ++ [s.peek]) t := fun t => @Lax.alias_ before [] s.peek t hk (Nat.zero_le 1)
    refine (tidy_short hfirst hlax).append (tidy_short hsecond fun t => ?_)
    rw [List.append_assoc]
    exact .alias_ hk hfirst
  refine Tidies.after ?_ ((h₁.trans h₂).trans h₃) (by simpa using (Tidy.single (side_of_kind hk) before).append hnames)
  exact balanced_mkNode _ _ env s₃ _ (((h₁.trans h₂).trans h₃).stop ▸ hs)

variable {self : Reader} (h : Balances self)
include h

theorem balancedPlain_named : BalancedPlain (named self) := by
  unfold named mkCall
  refine balancedPlain_bump fun t => .look (looks_parenAt 0) fun paren => ?_
  refine .ite (fun _ => (balanced_parenArgs h).bind fun args => balanced_mkNode _ _) fun _ => ?_
  refine .look looks_commandArgStarts fun command => ?_
  exact .ite (fun _ => (balanced_commandArgs h).bind fun args => balanced_mkNode _ _) fun _ => balanced_mkNode _ _

theorem balancedPlain_constant : BalancedPlain (constant self) := by
  unfold constant mkCall
  refine balancedPlain_bump fun t => .look (looks_parenAt 0) fun paren => ?_
  exact .ite (fun _ => (balanced_parenArgs h).bind fun args => balanced_mkNode _ _) fun _ => balanced_mkNode _ _

theorem tidies_parenthesised (hs : s.stop.kind = .eof) (hk : s.peek.kind = .lparen) :
    Tidies Lax before (parenthesised self) env s := by
  unfold parenthesised
  refine tidies_bracket hs (side_of_kind hk) ?_
  refine (h.rule (.statements _) rfl).nested.closing fun inner => closing_need rfl fun _ => ?_
  split
  · exact balanced_pure _
  · exact balanced_mkNode _ _

theorem tidies_arrayLiteral (hs : s.stop.kind = .eof) (hk : s.peek.kind = .lbracket) :
    Tidies Lax before (arrayLiteral self) env s := by
  unfold arrayLiteral
  refine tidies_bracket hs (side_of_kind hk) ?_
  exact (h.rule (.args _) rfl).nested.closing fun items => closing_need rfl fun _ => balanced_mkNode _ _

theorem tidies_hashLiteral (hs : s.stop.kind = .eof) (hk : s.peek.kind = .lbrace) :
    Tidies Lax before (hashLiteral self) env s := by
  unfold hashLiteral
  refine tidies_bracket hs (side_of_kind hk) ?_
  exact (h.rule (.args _) rfl).nested.closing fun entries => closing_need rfl fun _ => balanced_mkNode _ _

/-! ## Keywords -/

theorem balancedPlain_jump : BalancedPlain (jump self) := by
  unfold jump
  refine balancedPlain_bump fun t => .look looks_jumpHasValue fun value => ?_
  exact .ite_bind (balanced_commandArgs h) (balanced_pure _) fun args => balanced_mkNode _ _

theorem balancedPlain_yieldOrSuper : BalancedPlain (yieldOrSuper self) := by
  unfold yieldOrSuper
  exact balancedPlain_bump fun t => (balanced_callArgs h).bind fun args => balanced_mkNode _ _

theorem balancedPlain_definedCall : BalancedPlain (definedCall self) := by
  unfold definedCall mkCall
  refine balancedPlain_bump fun t => .look (looks_at _) fun paren => ?_
  exact .ite_bind (balanced_parenArgs h) ((h.rule .unary rfl).bind fun n => balanced_pure _) fun args => balanced_mkNode _ _

theorem balanced_undefNames : Balanced (readUndefNames self) := by
  unfold readUndefNames
  refine (balanced_eat (by decide)).bind fun comma => .ite (fun _ => ?_) fun _ => balanced_pure _
  exact (h.rule .primary rfl).bind fun n => (h.rule .undefNames rfl).bind fun more => balanced_pure _

theorem balancedPlain_undefStatement : BalancedPlain (undefStatement self) := by
  unfold undefStatement
  refine balancedPlain_bump fun t => (h.rule .primary rfl).bind fun n => ?_
  exact (h.rule .undefNames rfl).bind fun more => balanced_mkNode _ _

theorem tidies_keywordPrimary (hs : s.stop.kind = .eof) (t : Token TokenKind) {k : Keyword} (hk : s.peek.kind = .keyword k) :
    Tidies Lax before (keywordPrimary self t k) env s := by
  have hplain : s.peek.side = .plain := side_of_kind hk
  cases k with
  | nilKw | trueKw | falseKw | selfKw => exact balancedPlain_leaf _ env s before hs hplain
  | defKw => exact tidies_method h hs hk
  | classKw => exact balancedPlain_classDefinition h env s before hs hplain
  | moduleKw => exact balancedPlain_moduleDefinition h env s before hs hplain
  | ifKw | unlessKw => exact balancedPlain_conditional h env s before hs hplain
  | whileKw | untilKw => exact balancedPlain_whileLoop h env s before hs hplain
  | forKw => exact balancedPlain_forLoop h env s before hs hplain
  | caseKw => exact balancedPlain_caseOf h env s before hs hplain
  | beginKw => exact balancedPlain_beginBlock h env s before hs hplain
  | returnKw | breakKw | nextKw | redoKw | retryKw => exact balancedPlain_jump h env s before hs hplain
  | yieldKw | superKw => exact balancedPlain_yieldOrSuper h env s before hs hplain
  | definedKw => exact balancedPlain_definedCall h env s before hs hplain
  | aliasKw => exact tidies_aliasStatement hs hk
  | undefKw => exact balancedPlain_undefStatement h env s before hs hplain
  | notKw => exact h.rule .negation rfl env s before hs
  | endKw => exact tidies_fail
  | _ => exact balancedPlain_unmodelled env s before hs hplain

theorem balanced_primary : Balanced (readPrimary self) := by
  intro env s before hs
  unfold readPrimary
  rw [tidies_peek]
  cases hk : s.peek.kind with
  | ident => exact balancedPlain_named h env s before hs (side_of_kind hk)
  | constant => exact balancedPlain_constant h env s before hs (side_of_kind hk)
  | colonColon => exact balancedPlain_rootConstant env s before hs (side_of_kind hk)
  | instanceVar | classVar | globalVar | number | symbol | label | quotedSymbol | command | regex =>
    exact balancedPlain_leaf _ env s before hs (side_of_kind hk)
  | string value => exact balancedPlain_stringLiteral value env s before hs (side_of_kind hk)
  | words ws | symbolWords ws => exact balancedPlain_wordList _ env s before hs (side_of_kind hk)
  | lparen => exact tidies_parenthesised h hs hk
  | lbracket => exact tidies_arrayLiteral h hs hk
  | lbrace => exact tidies_hashLiteral h hs hk
  | arrow => exact tidies_lambda h hs hk
  | keyword k => exact tidies_keywordPrimary h hs _ hk
  | bang | plus | minus | star | doubleStar => exact h.rule .unary rfl env s before hs
  | rparen | rbracket | rbrace => exact tidies_fail
  | eof => exact tidies_fail
  | _ => exact balancedPlain_unmodelled env s before hs (side_of_kind hk)

end Primary

/-! ## All rules -/

theorem balanced_step {self : Reader} (h : Balances self) {α : Type} (rule : Rule α) (hrule : rule.isParams = false) :
    Balanced (Rule.step self rule) := by
  cases rule with
  | statements stops => exact balanced_statements h stops
  | items stops => exact balanced_items h stops
  | body => exact balanced_body h
  | rescues => exact balanced_rescues h
  | rescueTypes => exact balanced_rescueTypes h
  | statement => exact balanced_statement h
  | modifiers start n => exact balanced_modifiers h start n
  | sentence => exact balanced_sentence h
  | joined start lhs => exact balanced_joined h start lhs
  | negation => exact balanced_negation h
  | expr => exact balanced_expr h
  | ternary => exact balanced_ternary h
  | binary min => exact balanced_binary h min
  | operators min start lhs => exact balanced_operators h min start lhs
  | unary => exact balanced_unary h
  | primary => exact balanced_primary h
  | trailers start n => exact balanced_trailers h start n
  | arg => exact balanced_arg h
  | args closer => exact balanced_args h closer
  | moreArgs => exact balanced_moreArgs h
  | params closers => cases hrule
  | forTargets => exact balanced_forTargets h
  | elsifs => exact balanced_elsifs h
  | whens => exact balanced_whens h
  | undefNames => exact balanced_undefNames h

theorem run_balances (depth : Nat) : Balances (Rule.run depth) := by
  induction depth with
  | zero =>
    exact ⟨fun _ _ _ _ _ _ => gives_throw, fun _ _ _ => gives_throw, fun _ hn => nomatch hn⟩
  | succ depth ih =>
    refine ⟨fun rule hrule => balanced_step ih rule hrule, fun front hs hpassed => tidies_params ih front hs hpassed, ?_⟩
    exact fun hrule hn huses => ⟨_, depth + 1, _, _, _, _, hrule, hn, huses⟩

/-! ## Texts -/

/-- The tokens of a text that is accepted are nested but for some in lax places. -/
theorem parse_tidy {text : List Char} {tree : Node} {comments : List Comment} {found : Scanned TokenKind}
    (hparse : Ruby.parse text = .ok (tree, comments)) (hscan : scan text = .ok found) : Tidy Lax [] found.tokens := by
  obtain ⟨found', s', hscan', -, hrun⟩ := parse_ok.mp hparse
  obtain rfl : found' = found := by
    rw [hscan] at hscan'
    exact (Except.ok.inj hscan').symm
  have hstop : found'.stop.kind = .eof := by rw [(scan_cut hscan).2]
  have hprogram : Gives (program (Rule.run (depthBound found'.tokens.length))) { text, lines := .ofText text }
      { rest := found'.tokens, stop := found'.stop } fun _ s' =>
        ∃ used, Stream.Uses { rest := found'.tokens, stop := found'.stop } used s' ∧ Tidy Lax [] used ∧ s'.peek.kind = .eof := by
    unfold program
    refine Gives.bind ((run_balances _).rule (.statements []) rfl _ _ [] hstop) ?_
    rintro n s₁ ⟨used, huses, htidy⟩
    rw [gives_peek]
    split
    · next hend => exact gives_pure.mpr ⟨used, huses, htidy, hend⟩
    · exact gives_fail
  obtain ⟨used, huses, htidy, hend⟩ := hprogram tree s' hrun
  -- No token of the text is its end, so all have been read.
  have hall : found'.tokens = used := huses.all fun t ht => by
    rw [hend]
    exact scan_inner hscan t ht
  rw [hall]
  exact htidy

/-- The tokens of a text that is accepted are nested if no bracket stands in a lax place. -/
theorem program_nested {text : List Char} {tree : Node} {comments : List Comment} {found : Scanned TokenKind}
    (hparse : Ruby.parse text = .ok (tree, comments)) (hscan : scan text = .ok found)
    (hlax : ∀ before t behind, found.tokens = before ++ t :: behind → Lax before t → t.side = .plain) :
    Nested found.tokens := by
  obtain ⟨kept, hspares, hnested⟩ := parse_tidy hparse hscan
  rw [Nested, ← hspares.nest_eq fun front t behind hts ht => hlax front t behind hts ht]
  exact hnested

theorem program_nested_call :
    ∃ tree comments found, Ruby.parse "a([1]) { 2 }\n".toList = .ok (tree, comments) ∧
      scan "a([1]) { 2 }\n".toList = .ok found ∧
      (∀ before t behind, found.tokens = before ++ t :: behind → Lax before t → t.side = .plain) ∧
      Nested found.tokens := by
  have hok : (Ruby.parse "a([1]) { 2 }\n".toList).isOk = true := by decide +kernel
  have hkinds : (match scan "a([1]) { 2 }\n".toList with
      | .ok found => found.tokens.all fun t => t.kind ∉ [.keyword .aliasKw, .keyword .defKw, .arrow, .pipe]
      | .error _ => false) = true := by decide +kernel
  rcases hparse : Ruby.parse "a([1]) { 2 }\n".toList with _ | ⟨tree, comments⟩
  · rw [hparse] at hok
    cases hok
  rcases hscan : scan "a([1]) { 2 }\n".toList with _ | found
  · rw [hscan] at hkinds
    cases hkinds
  simp only [hscan, List.all_eq_true, decide_eq_true_eq] at hkinds
  have hlax : ∀ before t behind, found.tokens = before ++ t :: behind → Lax before t → t.side = .plain := by
    intro before t behind htokens ht
    obtain ⟨u, hu, hkind⟩ := ht.behind
    exact absurd hkind (hkinds u (by rw [htokens]; exact List.mem_append_left _ hu))
  exact ⟨tree, comments, found, rfl, rfl, hlax, program_nested hparse hscan hlax⟩

/-- The bracket that stands in the place of a method's name is not reported. -/
theorem program_not_nested :
    ¬∀ text tree comments found, Ruby.parse text = .ok (tree, comments) → scan text = .ok found → Nested found.tokens := by
  intro h
  have hok : (Ruby.parse "def )\nend\n".toList).isOk = true := by decide +kernel
  have hnest : (match scan "def )\nend\n".toList with
      | .ok found => nest [] found.tokens == none
      | .error _ => false) = true := by decide +kernel
  rcases hparse : Ruby.parse "def )\nend\n".toList with _ | ⟨tree, comments⟩
  · rw [hparse] at hok
    cases hok
  rcases hscan : scan "def )\nend\n".toList with _ | found
  · rw [hscan] at hnest
    cases hnest
  have hnested : nest [] found.tokens = some [] := h _ tree comments found hparse hscan
  simp only [hscan, hnested] at hnest
  cases hnest

end PuppetDocs.Ruby
