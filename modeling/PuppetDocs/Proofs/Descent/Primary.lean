import PuppetDocs.Proofs.Descent.Grammar

/-
  PuppetDocs.Proofs.Descent.Primary — every rule comes to an end.

  What starts with a keyword or a bracket uses it up before it asks for anything, and so do
  names and literals. With this each rule is known to come to an end if the readers agree on
  what comes after it (`step_agree`), whatever tokens are ahead.
-/

namespace PuppetDocs.Ruby

open ParseM

/-! ## Control structures -/

section Control

variable {self self' : Reader} {w : Page} {n : Nat} (h : Below w self self' n)
include h

theorem settles_elseClause : Settles w n (elseClause self) (elseClause self') := by
  unfold elseClause eatKeyword
  refine (settles_eat _).bind fun found => ?_
  exact .ite (fun _ => (h (.statements _)).bind fun body => settles_pure) (fun _ => settles_pure)

theorem opens_conditional : Opens w (n + 1) (conditional self) (conditional self') := by
  unfold conditional
  refine opens_bump.bind fun t => ?_
  refine (h .sentence).bind fun condition => ?_
  refine (settles_eat _).bind fun _ => ?_
  refine settles_skipTerminators.bind fun _ => ?_
  refine (settles_eat _).bind fun _ => ?_
  refine (h (.statements _)).bind fun body => ?_
  refine (h .elsifs).bind fun elsifs => ?_
  refine (settles_elseClause h).bind fun else_ => ?_
  exact settles_needEnd.bind fun _ => (sees_mkNode _ _).settles

theorem settles_elsifs : Settles w (n + 1) (readElsifs self) (readElsifs self') := by
  unfold readElsifs eatKeyword
  refine settles_eat_bind (by decide) ?_ settles_pure
  refine (h .sentence).bind fun condition => ?_
  refine (settles_eat _).bind fun _ => ?_
  refine (h (.statements _)).bind fun body => ?_
  exact (h .elsifs).bind fun more => settles_pure

theorem opens_whileLoop : Opens w (n + 1) (whileLoop self) (whileLoop self') := by
  unfold whileLoop
  refine opens_bump.bind fun t => ?_
  refine (h .sentence).withoutDo.bind fun condition => ?_
  refine (settles_eat _).bind fun _ => ?_
  refine (h (.statements _)).bind fun body => ?_
  exact settles_needEnd.bind fun _ => (sees_mkNode _ _).settles

omit h in
theorem settles_forTargets (h : Ready w self self' n 3) :
    Settles w (n + 1) (readForTargets self) (readForTargets self') := by
  unfold readForTargets
  refine .look (sees_atAny _) fun closed => ?_
  refine .ite (fun _ => settles_pure) (fun _ => ?_)
  refine ((h.consumes .primary (fun _ => Nat.lt_succ_self 2) rfl).bind fun target => ?_).settles
  refine (settles_eat _).bind fun _ => ?_
  exact (h.below .forTargets).bind fun more => settles_pure

theorem opens_forLoop : Opens w (n + 1) (forLoop self) (forLoop self') := by
  unfold forLoop
  refine opens_bump.bind fun t => ?_
  refine (h .forTargets).bind fun targets => ?_
  refine (settles_need _ _).bind fun _ => ?_
  refine (h .sentence).withoutDo.bind fun range => ?_
  refine (settles_eat _).bind fun _ => ?_
  refine (h (.statements _)).bind fun body => ?_
  exact settles_needEnd.bind fun _ => (sees_mkNode _ _).settles

theorem settles_whens : Settles w (n + 1) (readWhens self) (readWhens self') := by
  unfold readWhens
  refine settles_atAny (by decide) ?_ settles_pure
  refine opens_bump.bind fun _ => ?_
  refine (h .arg).bind fun value => ?_
  refine (h .moreArgs).bind fun values => ?_
  refine (settles_eat _).bind fun _ => ?_
  refine (h (.statements _)).bind fun body => ?_
  exact (h .whens).bind fun rest => settles_pure

theorem opens_caseOf : Opens w (n + 1) (caseOf self) (caseOf self') := by
  unfold caseOf
  refine opens_bump.bind fun t => ?_
  refine .look (sees_atAny _) fun bare => ?_
  refine .ite_bind settles_pure ((h .sentence).bind fun _ => settles_pure) fun subject => ?_
  refine settles_skipTerminators.bind fun _ => ?_
  refine (h .whens).bind fun whens => ?_
  refine (settles_elseClause h).bind fun else_ => ?_
  exact settles_needEnd.bind fun _ => (sees_mkNode _ _).settles

theorem opens_beginBlock : Opens w (n + 1) (beginBlock self) (beginBlock self') := by
  unfold beginBlock
  refine opens_bump.bind fun t => ?_
  refine (h .body).bind fun body => ?_
  exact settles_needEnd.bind fun _ => (sees_mkNode _ _).settles

end Control

/-! ## Methods, lambdas, classes and modules -/

section Definitions

variable {self self' : Reader} {w : Page} {n : Nat} (h : Below w self self' n)
include h

theorem settles_parenParams : Settles w n (parenParams self) (parenParams self') := by
  unfold parenParams
  refine settles_bump.bind fun _ => ?_
  refine (h (.params _)).bind fun params => ?_
  exact (settles_need _ _).bind fun _ => settles_pure

theorem opens_lambda : Opens w (n + 1) (lambda self) (lambda self') := by
  unfold lambda
  refine opens_bump.bind fun t => ?_
  refine .look (sees_at _) fun paren => ?_
  refine .ite_bind (settles_parenParams h) (h (.params _)) fun params => ?_
  refine (settles_eat _).bind fun keyword => ?_
  refine .ite (fun _ => ?_) (fun _ => ?_)
  · refine (h .body).nested.bind fun body => ?_
    exact settles_needEnd.bind fun _ => (sees_mkNode _ _).settles
  · refine (settles_need _ _).bind fun _ => ?_
    refine Settles.bind (h (.statements _)).nested fun body => ?_
    exact (settles_need _ _).bind fun _ => (sees_mkNode _ _).settles

omit h in
theorem settles_singletonOwner : Settles w n singletonOwner singletonOwner := by
  unfold singletonOwner
  refine .look (sees_atAny _) fun owner => ?_
  refine .look (sees_peekAt 1) fun t => ?_
  refine .ite (fun _ => ?_) (fun _ => settles_pure)
  exact settles_bump.bind fun _ => settles_bump.bind fun _ => settles_pure

omit h in
theorem settles_definedName (start : Nat) : Settles w n (definedName start) (definedName start) := by
  have hsetter : ∀ name : String, Settles w n (do
      let next ← peek
      if next.kind = .assign ∧ !next.spaced then
        if ← parenAt 1 then
          let _ ← bump
          return name ++ "="
        else return name
      else return name : P String) (do
      let next ← peek
      if next.kind = .assign ∧ !next.spaced then
        if ← parenAt 1 then
          let _ ← bump
          return name ++ "="
        else return name
      else return name) := by
    intro name
    refine .look sees_peek fun next => ?_
    refine .ite (fun _ => ?_) (fun _ => settles_pure)
    refine .look (sees_parenAt 1) fun paren => ?_
    exact .ite (fun _ => settles_bump.bind fun _ => settles_pure) (fun _ => settles_pure)
  unfold definedName
  refine settles_bump.bind fun t => ?_
  cases t.kind with
  | lbracket => exact (settles_need _ _).bind fun _ => settles_pure.bind hsetter
  | eof => exact settles_fail.bind hsetter
  | _ => exact settles_pure.bind hsetter

theorem settles_methodParams : Settles w n (methodParams self) (methodParams self') := by
  unfold methodParams
  refine .look (sees_at _) fun paren => ?_
  refine .ite (fun _ => settles_parenParams h) (fun _ => ?_)
  refine .look (sees_atAny _) fun bare => ?_
  exact .ite (fun _ => settles_pure) (fun _ => h (.params _))

theorem opens_method : Opens w (n + 1) (method self) (method self') := by
  unfold method
  refine opens_bump.bind fun t => ?_
  refine settles_singletonOwner.bind fun singleton => ?_
  refine (settles_definedName _).bind fun name => ?_
  refine (settles_methodParams h).bind fun params => ?_
  refine (settles_eat _).bind fun assigned => ?_
  refine .ite (fun _ => ?_) (fun _ => ?_)
  · refine settles_skipNewlines.bind fun _ => ?_
    exact (h .statement).bind fun body => (sees_mkNode _ _).settles
  · refine (h .body).nested.bind fun body => ?_
    exact settles_needEnd.bind fun _ => (sees_mkNode _ _).settles

theorem opens_classDefinition : Opens w (n + 1) (classDefinition self) (classDefinition self') := by
  have hbody : ∀ kind : Node → NodeKind Node, ∀ start,
      Settles w n (nested (self .body) >>= fun body => needEnd >>= fun _ => mkNode (kind body) start)
        (nested (self' .body) >>= fun body => needEnd >>= fun _ => mkNode (kind body) start) := by
    intro kind start
    refine (h .body).nested.bind fun body => ?_
    exact settles_needEnd.bind fun _ => (sees_mkNode _ _).settles
  unfold classDefinition
  refine opens_bump.bind fun t => ?_
  refine .look sees_peek fun next => ?_
  refine .ite (fun _ => ?_) (fun _ => ?_)
  · refine settles_bump.bind fun _ => ?_
    exact (h .expr).bind fun target => hbody _ _
  · refine (h .unary).bind fun name => ?_
    refine (settles_eat _).bind fun inherits => ?_
    exact .ite_bind (h .expr).map settles_pure fun superclass => hbody _ _

theorem opens_moduleDefinition : Opens w (n + 1) (moduleDefinition self) (moduleDefinition self') := by
  unfold moduleDefinition
  refine opens_bump.bind fun t => ?_
  refine (h .unary).bind fun name => ?_
  refine (h .body).bind fun body => ?_
  exact settles_needEnd.bind fun _ => (sees_mkNode _ _).settles

end Definitions

/-! ## Names and literals -/

section Primary

variable {self self' : Reader} {w : Page} {n : Nat}

theorem opens_leaf (kind : NodeKind Node) : Opens w (n + 1) (leaf kind) (leaf kind) :=
  opens_bump.bind fun _ => .look (sees_lineOf _) fun _ => settles_pure

theorem opens_rootConstant : Opens w (n + 1) rootConstant rootConstant := by
  unfold rootConstant
  refine opens_bump.bind fun t => ?_
  exact (settles_need _ _).bind fun name => (sees_mkNode _ _).settles

theorem joinStrings_suffix (acc : StrLit) (prevEnd : Nat) (rest : List (Token TokenKind)) :
    (joinStrings acc prevEnd rest).2.1 <:+ rest := by
  induction rest generalizing acc prevEnd with
  | nil => exact List.suffix_rfl
  | cons t rest ih =>
    obtain ⟨kind, text, span, spaced⟩ := t
    cases kind with
    | string v =>
      change (if isTightColon rest then (acc, _ :: rest, prevEnd)
        else joinStrings (acc.append v) span.stop rest).2.1 <:+ _
      split
      · exact List.suffix_rfl
      · exact (ih _ _).trans (List.suffix_cons _ _)
    | _ => exact List.suffix_rfl

theorem opens_stringLiteral (value : StrLit) : Opens w (n + 1) (stringLiteral value) (stringLiteral value) := by
  unfold stringLiteral
  refine opens_bump.bind fun t env s hs hn => ?_
  rw [agree_get]
  have honward :
      s.Onward ⟨(joinStrings value s.prevEnd s.rest).2.1, s.stop, (joinStrings value s.prevEnd s.rest).2.2⟩ :=
    ⟨rfl, joinStrings_suffix value s.prevEnd s.rest⟩
  refine agree_set.mpr (((sees_mkNode _ _).agree env _).mono fun m s' hs' => ?_)
  rw [hs']
  exact honward

theorem opens_wordList (entries : List (NodeKind Node)) : Opens w (n + 1) (wordList entries) (wordList entries) := by
  unfold wordList
  refine opens_bump.bind fun t => ?_
  exact .look (sees_lineOf _) fun line => (sees_mkNode _ _).settles

theorem settles_aliasName : Settles w n aliasName aliasName :=
  settles_bump.bind fun _ => (sees_mkNode _ _).settles

theorem opens_aliasStatement : Opens w (n + 1) aliasStatement aliasStatement := by
  unfold aliasStatement
  refine opens_bump.bind fun t => ?_
  refine settles_aliasName.bind fun new => ?_
  exact settles_aliasName.bind fun old => (sees_mkNode _ _).settles

theorem opens_unmodelled : Opens w (n + 1) unmodelled unmodelled := opens_bump.bind fun _ => (sees_mkNode _ _).settles

theorem sees_jumpHasValue : Sees jumpHasValue := fun _ _ => ⟨_, rfl⟩

variable (h : Below w self self' n)
include h

theorem opens_named : Opens w (n + 1) (named self) (named self') := by
  unfold named mkCall
  refine opens_bump.bind fun t => ?_
  refine .look (sees_parenAt 0) fun paren => ?_
  refine .ite (fun _ => (settles_parenArgs h).bind fun args => (sees_mkNode _ _).settles) (fun _ => ?_)
  refine .look sees_commandArgStarts fun command => ?_
  refine .ite (fun _ => ?_) (fun _ => (sees_mkNode _ _).settles)
  exact (settles_commandArgs h).bind fun args => (sees_mkNode _ _).settles

theorem opens_constant : Opens w (n + 1) (constant self) (constant self') := by
  unfold constant mkCall
  refine opens_bump.bind fun t => ?_
  refine .look (sees_parenAt 0) fun paren => ?_
  refine .ite (fun _ => ?_) (fun _ => (sees_mkNode _ _).settles)
  exact (settles_parenArgs h).bind fun args => (sees_mkNode _ _).settles

theorem opens_parenthesised : Opens w (n + 1) (parenthesised self) (parenthesised self') := by
  unfold parenthesised
  refine opens_bump.bind fun t => ?_
  refine Settles.bind (h (.statements _)).nested fun inner => ?_
  refine (settles_need _ _).bind fun _ => ?_
  -- Both readers have given the same node, so what is made of it is one parser.
  refine Sees.settles ?_
  split
  · exact fun _ _ => ⟨_, rfl⟩
  · exact sees_mkNode _ _

theorem opens_arrayLiteral : Opens w (n + 1) (arrayLiteral self) (arrayLiteral self') := by
  unfold arrayLiteral
  refine opens_bump.bind fun t => ?_
  refine Settles.bind (h (.args _)).nested fun items => ?_
  exact (settles_need _ _).bind fun _ => (sees_mkNode _ _).settles

theorem opens_hashLiteral : Opens w (n + 1) (hashLiteral self) (hashLiteral self') := by
  unfold hashLiteral
  refine opens_bump.bind fun t => ?_
  refine Settles.bind (h (.args _)).nested fun entries => ?_
  exact (settles_need _ _).bind fun _ => (sees_mkNode _ _).settles

/-! ## Keywords -/

theorem opens_jump : Opens w (n + 1) (jump self) (jump self') := by
  unfold jump
  refine opens_bump.bind fun t => ?_
  refine .look sees_jumpHasValue fun value => ?_
  exact .ite_bind (settles_commandArgs h) settles_pure fun args => (sees_mkNode _ _).settles

theorem opens_yieldOrSuper : Opens w (n + 1) (yieldOrSuper self) (yieldOrSuper self') := by
  unfold yieldOrSuper
  refine opens_bump.bind fun t => ?_
  exact (settles_callArgs h).bind fun args => (sees_mkNode _ _).settles

theorem opens_definedCall : Opens w (n + 1) (definedCall self) (definedCall self') := by
  unfold definedCall mkCall
  refine opens_bump.bind fun t => ?_
  refine .look (sees_at _) fun paren => ?_
  refine .ite_bind (settles_parenArgs h) ((h .unary).bind fun _ => settles_pure) fun args => ?_
  exact (sees_mkNode _ _).settles

theorem settles_undefNames : Settles w (n + 1) (readUndefNames self) (readUndefNames self') := by
  unfold readUndefNames
  refine settles_eat_bind (by decide) ?_ settles_pure
  refine (h .primary).bind fun name => ?_
  exact (h .undefNames).bind fun more => settles_pure

theorem opens_undefStatement : Opens w (n + 1) (undefStatement self) (undefStatement self') := by
  unfold undefStatement
  refine opens_bump.bind fun t => ?_
  refine (h .primary).bind fun name => ?_
  exact (h .undefNames).bind fun more => (sees_mkNode _ _).settles

/-- All keywords but `not` are used up by what they start. -/
theorem opens_keywordPrimary (t : Token TokenKind) {k : Keyword} (hk : k ≠ .notKw) :
    Opens w (n + 1) (keywordPrimary self t k) (keywordPrimary self' t k) := by
  cases k with
  | nilKw | trueKw | falseKw | selfKw => exact opens_leaf _
  | defKw => exact opens_method h
  | classKw => exact opens_classDefinition h
  | moduleKw => exact opens_moduleDefinition h
  | ifKw | unlessKw => exact opens_conditional h
  | whileKw | untilKw => exact opens_whileLoop h
  | forKw => exact opens_forLoop h
  | caseKw => exact opens_caseOf h
  | beginKw => exact opens_beginBlock h
  | returnKw | breakKw | nextKw | redoKw | retryKw => exact opens_jump h
  | yieldKw | superKw => exact opens_yieldOrSuper h
  | definedKw => exact opens_definedCall h
  | aliasKw => exact opens_aliasStatement
  | undefKw => exact opens_undefStatement h
  | notKw => exact absurd rfl hk
  | endKw => exact fun _ _ _ _ _ => agree_fail
  | _ => exact opens_unmodelled

end Primary

/-- Signs and `not` are left to the rules that use them up. -/
theorem agree_primary {self self' : Reader} {env : ParseEnv} {s : Stream TokenKind} (hs : w.Holds env s)
    (h : Ready w self self' s.rest.length 2) :
    Agree (readPrimary self) (readPrimary self') env s fun _ s' => s.Past s' := by
  have hbelow : Below w self self' s.rest.length := h.below
  have hn := Nat.lt_succ_self s.rest.length
  have hsigned : isSign s.peek.kind = true → Agree (self .unary) (self' .unary) env s fun _ s' => s.Past s' := by
    intro hk
    have hrank : Rule.unary.rank s.peek.kind = 1 := if_pos hk
    exact (h .unary env s hs (.inr ⟨rfl, by rw [hrank]; decide⟩)).mono fun _ _ hs' => hs'.past rfl
  have hnot : s.peek.kind = .keyword .notKw →
      Agree (self .negation) (self' .negation) env s fun _ s' => s.Past s' := by
    intro hk
    have hrank : Rule.negation.rank s.peek.kind = 1 := if_pos hk
    exact (h .negation env s hs (.inr ⟨rfl, by rw [hrank]; decide⟩)).mono fun _ _ hs' => hs'.past rfl
  unfold readPrimary
  rw [agree_peek]
  cases hk : s.peek.kind with
  | ident => exact opens_named hbelow env s hs hn (by simp [hk])
  | constant => exact opens_constant hbelow env s hs hn (by simp [hk])
  | colonColon => exact opens_rootConstant env s hs hn (by simp [hk])
  | instanceVar | classVar | globalVar | number | symbol | label | quotedSymbol | command | regex =>
    exact opens_leaf _ env s hs hn (by simp [hk])
  | string value => exact opens_stringLiteral value env s hs hn (by simp [hk])
  | words ws | symbolWords ws => exact opens_wordList _ env s hs hn (by simp [hk])
  | lparen => exact opens_parenthesised hbelow env s hs hn (by simp [hk])
  | lbracket => exact opens_arrayLiteral hbelow env s hs hn (by simp [hk])
  | lbrace => exact opens_hashLiteral hbelow env s hs hn (by simp [hk])
  | arrow => exact opens_lambda hbelow env s hs hn (by simp [hk])
  | keyword k =>
    by_cases hnotKw : k = .notKw
    · subst hnotKw
      exact hnot hk
    · exact opens_keywordPrimary hbelow _ hnotKw env s hs hn (by simp [hk])
  | bang | plus | minus | star | doubleStar => exact hsigned (by rw [hk]; rfl)
  | rparen | rbracket | rbrace => exact agree_fail
  | eof => exact agree_fail
  | _ => exact opens_unmodelled env s hs hn (by simp [hk])

/-! ## All rules -/

/-- A rule comes to an end, and reads on as far as it has to, if what it asks for does. -/
theorem step_agree {self self' : Reader} {α : Type} (rule : Rule α) (env : ParseEnv) {s : Stream TokenKind}
    (hs : w.Holds env s) (h : Ready w self self' s.rest.length (rule.rank s.peek.kind)) :
    Agree (Rule.step self rule) (Rule.step self' rule) env s (rule.Leaves s) := by
  have hbelow : Below w self self' s.rest.length := h.below
  have hn := Nat.lt_succ_self s.rest.length
  cases rule with
  | statements stops => exact settles_statements stops h env s hs hn
  | items stops => exact settles_items stops h env s hs hn
  | body => exact settles_body h env s hs hn
  | rescues => exact settles_rescues hbelow env s hs hn
  | rescueTypes => exact settles_rescueTypes h env s hs hn
  | statement => exact consumes_statement h env s hs hn
  | modifiers start m => exact settles_modifiers start m hbelow env s hs hn
  | sentence => exact consumes_sentence h env s hs hn
  | joined start lhs => exact settles_joined start lhs hbelow env s hs hn
  | negation => exact agree_negation hs h
  | expr => exact consumes_expr h env s hs hn
  | ternary => exact consumes_ternary h env s hs hn
  | binary min => exact consumes_binary min h env s hs hn
  | operators min start lhs => exact settles_operators min start lhs hbelow env s hs hn
  | unary => exact agree_unary hs h
  | primary => exact agree_primary hs h
  | trailers start m => exact settles_trailers start m hbelow env s hs hn
  | arg => exact consumes_arg h env s hs hn
  | args closer => exact settles_args closer h env s hs hn
  | moreArgs => exact settles_moreArgs hbelow env s hs hn
  | params closers => exact settles_params closers hbelow env s hs hn
  | forTargets => exact settles_forTargets h env s hs hn
  | elsifs => exact settles_elsifs hbelow env s hs hn
  | whens => exact settles_whens hbelow env s hs hn
  | undefNames => exact settles_undefNames hbelow env s hs hn

end PuppetDocs.Ruby
