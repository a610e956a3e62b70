import PuppetDocs.Proofs.Descent.Primary
import PuppetDocs.Proofs.Moved.Grammar

/-
  PuppetDocs.Proofs.Moved.Primary — every rule is read further on as it is here.

  Values, control structures and definitions are made of the parts that `Tracks` is known of, so
  a step of the parser is tracked by the same step further on if the readers inside it are
  (`TracksAll.step`), and with the bound on the depth so does every rule (`tracks_run`).
-/

namespace PuppetDocs.Ruby

open ParseM

variable {self self' : Reader} {w : Relocation} (h : TracksAll w self self')
include h

/-! ## Control structures -/

section Control

theorem tracks_elseClause : Tracks w (elseClause self) (elseClause self') (MovedNodes w) := by
  unfold elseClause
  refine (tracks_eat _).bind ?_
  rintro _ found rfl
  refine .ite (fun _ => ?_) (fun _ => tracks_pure rfl)
  refine (h (.statements _)).bind ?_
  rintro body _ rfl
  exact tracks_pure rfl

theorem tracks_conditional : Tracks w (conditional self) (conditional self') (MovedNode w) := by
  unfold conditional
  refine tracks_bump.bind ?_
  rintro t _ ⟨-, rfl⟩
  refine (h .sentence).bind ?_
  rintro condition _ rfl
  refine (tracks_eat _).bind fun _ _ _ => ?_
  refine tracks_skipTerminators.bind fun _ _ _ => ?_
  refine (tracks_eat _).bind fun _ _ _ => ?_
  refine (h (.statements branchStops)).bind ?_
  rintro body _ rfl
  refine (h .elsifs).bind ?_
  rintro elsifs _ rfl
  refine (tracks_elseClause h).bind ?_
  rintro else_ _ rfl
  exact tracks_needEnd.bind fun _ _ _ => tracks_mkNode (by simp [relocateKind, Token.move]) rfl

theorem tracks_elsifs : Tracks w (readElsifs self) (readElsifs self') (MovedNodes w) := by
  unfold readElsifs
  refine (tracks_eat _).bind ?_
  rintro _ found rfl
  refine .ite (fun _ => ?_) (fun _ => tracks_pure rfl)
  refine (h .sentence).bind ?_
  rintro condition _ rfl
  refine (tracks_eat _).bind fun _ _ _ => ?_
  refine (h (.statements branchStops)).bind ?_
  rintro body _ rfl
  refine (h .elsifs).bind ?_
  rintro more _ rfl
  exact tracks_pure rfl

theorem tracks_whileLoop : Tracks w (whileLoop self) (whileLoop self') (MovedNode w) := by
  unfold whileLoop
  refine tracks_bump.bind ?_
  rintro t _ ⟨-, rfl⟩
  refine (h .sentence).withoutDo.bind ?_
  rintro condition _ rfl
  refine (tracks_eat _).bind fun _ _ _ => ?_
  refine (h (.statements _)).bind ?_
  rintro body _ rfl
  exact tracks_needEnd.bind fun _ _ _ => tracks_mkNode (by simp [relocateKind, Token.move]) rfl

theorem tracks_forTargets : Tracks w (readForTargets self) (readForTargets self') (MovedNodes w) := by
  unfold readForTargets
  refine (tracks_atAny _).bind ?_
  rintro _ closed rfl
  refine .ite (fun _ => tracks_pure rfl) (fun _ => ?_)
  refine (h .primary).bind ?_
  rintro n _ rfl
  refine (tracks_eat _).bind fun _ _ _ => ?_
  refine (h .forTargets).bind ?_
  rintro more _ rfl
  exact tracks_pure rfl

theorem tracks_forLoop : Tracks w (forLoop self) (forLoop self') (MovedNode w) := by
  unfold forLoop
  refine tracks_bump.bind ?_
  rintro t _ ⟨-, rfl⟩
  refine (h .forTargets).bind ?_
  rintro targets _ rfl
  refine (tracks_need _ _).bind fun _ _ _ => ?_
  refine (h .sentence).withoutDo.bind ?_
  rintro range _ rfl
  refine (tracks_eat _).bind fun _ _ _ => ?_
  refine (h (.statements _)).bind ?_
  rintro body _ rfl
  exact tracks_needEnd.bind fun _ _ _ => tracks_mkNode (by simp [relocateKind]) rfl

theorem tracks_whens : Tracks w (readWhens self) (readWhens self') (MovedNodes w) := by
  unfold readWhens
  refine (tracks_atAny _).bind ?_
  rintro _ found rfl
  refine .ite (fun _ => ?_) (fun _ => tracks_pure rfl)
  refine tracks_bump.bind fun _ _ _ => ?_
  refine (h .arg).bind ?_
  rintro value _ rfl
  refine (h .moreArgs).bind ?_
  rintro values _ rfl
  refine (tracks_eat _).bind fun _ _ _ => ?_
  refine (h (.statements _)).bind ?_
  rintro body _ rfl
  refine (h .whens).bind ?_
  rintro more _ rfl
  exact tracks_pure (by simp [MovedNodes])

theorem tracks_caseOf : Tracks w (caseOf self) (caseOf self') (MovedNode w) := by
  unfold caseOf
  refine tracks_bump.bind ?_
  rintro t _ ⟨-, rfl⟩
  refine (tracks_atAny _).bind ?_
  rintro _ bare rfl
  refine .ite_bind (R := MovedNodes w) (tracks_pure rfl) ?_ ?_
  · refine (h .sentence).bind ?_
    rintro n _ rfl
    exact tracks_pure rfl
  rintro subject _ rfl
  refine tracks_skipTerminators.bind fun _ _ _ => ?_
  refine (h .whens).bind ?_
  rintro whens _ rfl
  refine (tracks_elseClause h).bind ?_
  rintro else_ _ rfl
  exact tracks_needEnd.bind fun _ _ _ => tracks_mkNode (by simp [relocateKind]) rfl

theorem tracks_beginBlock : Tracks w (beginBlock self) (beginBlock self') (MovedNode w) := by
  unfold beginBlock
  refine tracks_bump.bind ?_
  rintro t _ ⟨-, rfl⟩
  refine (h .body).bind ?_
  rintro body _ rfl
  exact tracks_needEnd.bind fun _ _ _ => tracks_mkNode (by simp [relocateKind]) rfl

end Control

/-! ## Methods, lambdas, classes and modules -/

section Definitions

theorem tracks_parenParams : Tracks w (parenParams self) (parenParams self') (MovedParams w) := by
  unfold parenParams
  refine tracks_bump.bind fun _ _ _ => ?_
  refine (h (.params [.rparen])).bind ?_
  rintro params _ rfl
  exact (tracks_need _ _).bind fun _ _ _ => tracks_pure rfl

theorem tracks_lambda : Tracks w (lambda self) (lambda self') (MovedNode w) := by
  unfold lambda
  refine tracks_bump.bind ?_
  rintro t _ ⟨-, rfl⟩
  refine (tracks_at _).bind ?_
  rintro _ paren rfl
  refine .ite_bind (tracks_parenParams h) (h (.params [.lbrace, .keyword .doKw])) ?_
  rintro params _ rfl
  refine (tracks_eat _).bind ?_
  rintro _ found rfl
  refine .ite (fun _ => ?_) (fun _ => ?_)
  · refine (h .body).nested.bind ?_
    rintro body _ rfl
    exact tracks_needEnd.bind fun _ _ _ => tracks_mkNode (by simp [relocateKind]) rfl
  · refine (tracks_need _ _).bind fun _ _ _ => ?_
    refine (h (.statements [.rbrace])).nested.bind ?_
    rintro body _ rfl
    exact (tracks_need _ _).bind fun _ _ _ => tracks_mkNode (by simp [relocateKind]) rfl

omit h in
theorem tracks_singletonOwner : Tracks w singletonOwner singletonOwner fun b b' => b' = b := by
  unfold singletonOwner
  refine (tracks_atAny _).bind ?_
  rintro _ owner rfl
  refine (tracks_peekAt 1).bind ?_
  rintro t _ ⟨-, rfl⟩
  refine .ite (fun _ => ?_) (fun _ => tracks_pure rfl)
  exact tracks_bump.bind fun _ _ _ => tracks_bump.bind fun _ _ _ => tracks_pure rfl

omit h in
theorem tracks_definedName {start start' : Nat} (hstart : StartOf w start start') :
    Tracks w (definedName start) (definedName start') fun name name' => name' = name := by
  obtain ⟨⟨u, hu, rfl⟩, rfl⟩ := hstart
  have hsetter : ∀ name : String, Tracks w (do
      let next ← peek
      if next.kind = .assign ∧ !next.spaced then
        if ← parenAt 1 then
          let _ ← bump
          return name ++ "="
        else return name
      else return name : P String) (do
      let next ← peek
      if next.kind = .assign ∧ !next.spaced then
        if ← parenAt 1 then
          let _ ← bump
          return name ++ "="
        else return name
      else return name : P String) fun name name' => name' = name := by
    intro name
    refine tracks_peek.bind ?_
    rintro next _ ⟨-, rfl⟩
    refine .ite (fun _ => ?_) (fun _ => tracks_pure rfl)
    refine (tracks_parenAt 1).bind ?_
    rintro _ paren rfl
    refine .ite (fun _ => ?_) (fun _ => tracks_pure rfl)
    exact tracks_bump.bind fun _ _ _ => tracks_pure rfl
  unfold definedName
  refine tracks_bump.bind ?_
  rintro t _ ⟨-, rfl⟩
  obtain ⟨kind, text, span, spaced⟩ := t
  dsimp only [Token.move]
  cases kind with
  | lbracket => exact (tracks_need _ _).bind fun _ _ _ => hsetter _
  | eof =>
    refine Tracks.bind (R := fun name name' => name' = name) (tracks_fail hu ?_) ?_
    · trivial
    · rintro _ name rfl
      exact hsetter name
  | _ => exact hsetter _

theorem tracks_methodParams : Tracks w (methodParams self) (methodParams self') (MovedParams w) := by
  unfold methodParams
  refine (tracks_at _).bind ?_
  rintro _ paren rfl
  refine .ite (fun _ => tracks_parenParams h) (fun _ => ?_)
  refine (tracks_atAny _).bind ?_
  rintro _ bare rfl
  exact .ite (fun _ => tracks_pure rfl) (fun _ => h (.params _))

theorem tracks_method : Tracks w (method self) (method self') (MovedNode w) := by
  unfold method
  refine tracks_bump.bind ?_
  rintro t _ ⟨ht, rfl⟩
  refine tracks_singletonOwner.bind ?_
  rintro _ singleton rfl
  refine (tracks_definedName ⟨⟨t, ht, rfl⟩, rfl⟩).bind ?_
  rintro _ name rfl
  refine (tracks_methodParams h).bind ?_
  rintro params _ rfl
  refine (tracks_eat _).bind ?_
  rintro _ endless rfl
  refine .ite (fun _ => ?_) (fun _ => ?_)
  · refine tracks_skipNewlines.bind fun _ _ _ => ?_
    refine (h .statement).bind ?_
    rintro body _ rfl
    exact tracks_mkNode (by simp [relocateKind]) rfl
  · refine (h .body).nested.bind ?_
    rintro body _ rfl
    exact tracks_needEnd.bind fun _ _ _ => tracks_mkNode (by simp [relocateKind]) rfl

theorem tracks_classDefinition : Tracks w (classDefinition self) (classDefinition self') (MovedNode w) := by
  unfold classDefinition
  refine tracks_bump.bind ?_
  rintro t _ ⟨-, rfl⟩
  refine tracks_peek.bind ?_
  rintro next _ ⟨-, rfl⟩
  refine .ite (fun _ => ?_) (fun _ => ?_)
  · refine tracks_bump.bind fun _ _ _ => ?_
    refine (h .expr).bind ?_
    rintro target _ rfl
    refine (h .body).nested.bind ?_
    rintro body _ rfl
    exact tracks_needEnd.bind fun _ _ _ => tracks_mkNode (by simp [relocateKind]) rfl
  · refine (h .unary).bind ?_
    rintro name _ rfl
    refine (tracks_eat _).bind ?_
    rintro _ derived rfl
    refine .ite_bind (R := fun o o' => o' = o.map (·.move w.place w.drop)) ?_ (tracks_pure rfl) ?_
    · refine (h .expr).map ?_
      rintro n _ rfl
      rfl
    rintro superclass _ rfl
    refine (h .body).nested.bind ?_
    rintro body _ rfl
    exact tracks_needEnd.bind fun _ _ _ => tracks_mkNode (by simp [relocateKind]) rfl

theorem tracks_moduleDefinition : Tracks w (moduleDefinition self) (moduleDefinition self') (MovedNode w) := by
  unfold moduleDefinition
  refine tracks_bump.bind ?_
  rintro t _ ⟨-, rfl⟩
  refine (h .unary).bind ?_
  rintro name _ rfl
  refine (h .body).bind ?_
  rintro body _ rfl
  exact tracks_needEnd.bind fun _ _ _ => tracks_mkNode (by simp [relocateKind]) rfl

end Definitions

/-! ## Names, literals and brackets -/

section Primary

theorem tracks_named : Tracks w (named self) (named self') (MovedNode w) := by
  unfold named
  refine tracks_bump.bind ?_
  rintro t _ ⟨-, rfl⟩
  refine (tracks_parenAt 0).bind ?_
  rintro _ paren rfl
  refine .ite (fun _ => ?_) (fun _ => ?_)
  · refine (tracks_parenArgs h).bind ?_
    rintro args _ rfl
    exact tracks_mkCall none _ _ _ _
  refine tracks_commandArgStarts.bind ?_
  rintro _ starts rfl
  refine .ite (fun _ => ?_) (fun _ => tracks_mkNode rfl rfl)
  refine (tracks_commandArgs h).bind ?_
  rintro args _ rfl
  exact tracks_mkCall none _ _ _ _

theorem tracks_constant : Tracks w (constant self) (constant self') (MovedNode w) := by
  unfold constant
  refine tracks_bump.bind ?_
  rintro t _ ⟨-, rfl⟩
  refine (tracks_parenAt 0).bind ?_
  rintro _ paren rfl
  refine .ite (fun _ => ?_) (fun _ => tracks_mkNode rfl rfl)
  refine (tracks_parenArgs h).bind ?_
  rintro args _ rfl
  exact tracks_mkCall none _ _ _ _

omit h

theorem tracks_rootConstant : Tracks w rootConstant rootConstant (MovedNode w) := by
  unfold rootConstant
  refine tracks_bump.bind ?_
  rintro t _ ⟨-, rfl⟩
  refine (tracks_need _ _).bind ?_
  rintro name _ ⟨-, rfl⟩
  exact tracks_mkNode rfl rfl

theorem joinStrings_move (place : Nat → Nat) (acc : StrLit) (prevEnd : Nat) (rest : List (Token TokenKind)) :
    joinStrings acc (place prevEnd) (rest.map (·.move place)) =
      ((joinStrings acc prevEnd rest).1, (joinStrings acc prevEnd rest).2.1.map (·.move place),
        place (joinStrings acc prevEnd rest).2.2) := by
  induction rest generalizing acc prevEnd with
  | nil => rfl
  | cons t rest ih =>
    have htight : isTightColon (rest.map (·.move place)) = isTightColon rest := by cases rest <;> rfl
    rw [List.map_cons, joinStrings, joinStrings, Token.move_kind, htight]
    split
    · split
      · rfl
      · exact ih _ _
    · rfl

theorem tracks_stringLiteral (value : StrLit) : Tracks w (stringLiteral value) (stringLiteral value) (MovedNode w) := by
  unfold stringLiteral
  refine tracks_bump.bind ?_
  rintro t _ ⟨-, rfl⟩
  intro env env' s hs
  have hprevEnd : (s.move w.place).prevEnd = w.place s.prevEnd := rfl
  rw [tracksAt_get, Stream.move_rest, hprevEnd, joinStrings_move]
  refine tracksAt_set.mpr (tracks_mkNode rfl rfl env env' _ (hs.move rfl (joinStrings_suffix _ _ _)))

theorem tracks_wordList {entries : List (NodeKind Node)}
    (hentries : ∀ kind ∈ entries, relocateKind (·.move w.place) (w.drop + ·) kind = kind) :
    Tracks w (wordList entries) (wordList entries) (MovedNode w) := by
  unfold wordList
  refine tracks_bump.bind ?_
  rintro t _ ⟨-, rfl⟩
  refine (tracks_lineOf t.span.start).bind ?_
  rintro _ line rfl
  refine tracks_mkNode ?_ rfl
  simp only [relocateKind, relocateAll_eq, List.map_map, NodeKind.array.injEq]
  refine List.map_congr_left fun kind hkind => ?_
  simp [Node.relocate, hentries kind hkind, Token.move]

include h

theorem tracks_parenthesised : Tracks w (parenthesised self) (parenthesised self') (MovedNode w) := by
  unfold parenthesised
  refine tracks_bump.bind ?_
  rintro t _ ⟨-, rfl⟩
  refine (h (.statements [.rparen])).nested.bind ?_
  rintro inner _ rfl
  refine (tracks_need _ _).bind fun _ _ _ => ?_
  rw [Node.relocate_kind]
  generalize inner.kind = kind
  cases kind with
  | statements items =>
    rcases items with _ | ⟨n, _ | ⟨m, items⟩⟩
    · exact tracks_mkNode rfl rfl
    · exact tracks_pure rfl
    · exact tracks_mkNode rfl rfl
  | _ => exact tracks_mkNode rfl rfl

theorem tracks_arrayLiteral : Tracks w (arrayLiteral self) (arrayLiteral self') (MovedNode w) := by
  unfold arrayLiteral
  refine tracks_bump.bind ?_
  rintro t _ ⟨-, rfl⟩
  refine (h (.args .rbracket)).nested.bind ?_
  rintro items _ rfl
  exact (tracks_need _ _).bind fun _ _ _ => tracks_mkNode (by simp [relocateKind]) rfl

theorem tracks_hashLiteral : Tracks w (hashLiteral self) (hashLiteral self') (MovedNode w) := by
  unfold hashLiteral
  refine tracks_bump.bind ?_
  rintro t _ ⟨-, rfl⟩
  refine (h (.args .rbrace)).nested.bind ?_
  rintro entries _ rfl
  exact (tracks_need _ _).bind fun _ _ _ => tracks_mkNode (by simp [relocateKind]) rfl

theorem tracks_jump : Tracks w (jump self) (jump self') (MovedNode w) := by
  unfold jump
  refine tracks_bump.bind ?_
  rintro t _ ⟨-, rfl⟩
  refine Tracks.bind (R := fun b b' => b' = b) ?_ ?_
  · refine (tracks_atAny _).bind ?_
    rintro _ bare rfl
    exact tracks_pure rfl
  rintro _ valued rfl
  refine .ite_bind (tracks_commandArgs h) (tracks_pure rfl) ?_
  rintro args _ rfl
  exact tracks_mkNode (by simp [relocateKind, Token.move]) rfl

theorem tracks_yieldOrSuper : Tracks w (yieldOrSuper self) (yieldOrSuper self') (MovedNode w) := by
  unfold yieldOrSuper
  refine tracks_bump.bind ?_
  rintro t _ ⟨-, rfl⟩
  refine (tracks_callArgs h).bind ?_
  rintro ⟨args, parens⟩ _ rfl
  exact tracks_mkNode (by simp [relocateKind, Token.move]) rfl

theorem tracks_definedCall : Tracks w (definedCall self) (definedCall self') (MovedNode w) := by
  unfold definedCall
  refine tracks_bump.bind ?_
  rintro t _ ⟨-, rfl⟩
  refine (tracks_at _).bind ?_
  rintro _ paren rfl
  refine .ite_bind (R := MovedNodes w) (tracks_parenArgs h) ?_ ?_
  · refine (h .unary).bind ?_
    rintro n _ rfl
    exact tracks_pure rfl
  rintro args _ rfl
  exact tracks_mkCall none _ _ _ _

omit h in
theorem tracks_aliasName : Tracks w aliasName aliasName (MovedNode w) := by
  unfold aliasName
  refine tracks_bump.bind ?_
  rintro t _ ⟨-, rfl⟩
  exact tracks_mkNode rfl rfl

omit h in
theorem tracks_aliasStatement : Tracks w aliasStatement aliasStatement (MovedNode w) := by
  unfold aliasStatement
  refine tracks_bump.bind ?_
  rintro t _ ⟨-, rfl⟩
  refine tracks_aliasName.bind ?_
  rintro new _ rfl
  refine tracks_aliasName.bind ?_
  rintro old _ rfl
  exact tracks_mkNode (by simp [relocateKind]) rfl

theorem tracks_undefNames : Tracks w (readUndefNames self) (readUndefNames self') (MovedNodes w) := by
  unfold readUndefNames
  refine (tracks_eat _).bind ?_
  rintro _ comma rfl
  refine .ite (fun _ => ?_) (fun _ => tracks_pure rfl)
  refine (h .primary).bind ?_
  rintro n _ rfl
  refine (h .undefNames).bind ?_
  rintro more _ rfl
  exact tracks_pure rfl

theorem tracks_undefStatement : Tracks w (undefStatement self) (undefStatement self') (MovedNode w) := by
  unfold undefStatement
  refine tracks_bump.bind ?_
  rintro t _ ⟨-, rfl⟩
  refine (h .primary).bind ?_
  rintro n _ rfl
  refine (h .undefNames).bind ?_
  rintro more _ rfl
  exact tracks_mkNode (by simp [relocateKind]) rfl

omit h in
theorem tracks_unmodelled : Tracks w unmodelled unmodelled (MovedNode w) := by
  unfold unmodelled
  refine tracks_bump.bind ?_
  rintro t _ ⟨-, rfl⟩
  exact tracks_mkNode rfl rfl

theorem tracks_keywordPrimary {t : Token TokenKind} (ht : t ∈ w.page) (k : Keyword) :
    Tracks w (keywordPrimary self t k) (keywordPrimary self' (t.move w.place) k) (MovedNode w) := by
  cases k with
  | nilKw | trueKw | falseKw | selfKw => exact tracks_leaf rfl
  | defKw => exact tracks_method h
  | classKw => exact tracks_classDefinition h
  | moduleKw => exact tracks_moduleDefinition h
  | ifKw | unlessKw => exact tracks_conditional h
  | whileKw | untilKw => exact tracks_whileLoop h
  | forKw => exact tracks_forLoop h
  | caseKw => exact tracks_caseOf h
  | beginKw => exact tracks_beginBlock h
  | returnKw | breakKw | nextKw | redoKw | retryKw => exact tracks_jump h
  | yieldKw | superKw => exact tracks_yieldOrSuper h
  | definedKw => exact tracks_definedCall h
  | aliasKw => exact tracks_aliasStatement
  | undefKw => exact tracks_undefStatement h
  | notKw => exact h .negation
  | endKw => exact tracks_fail ht rfl
  | _ => exact tracks_unmodelled

theorem tracks_primary : Tracks w (readPrimary self) (readPrimary self') (MovedNode w) := by
  unfold readPrimary
  refine tracks_peek.bind ?_
  rintro t _ ⟨ht, rfl⟩
  have hkind : (t.move w.place).kind = t.kind := rfl
  rw [hkind]
  cases hk : t.kind with
  | ident => exact tracks_named h
  | constant => exact tracks_constant h
  | colonColon => exact tracks_rootConstant
  | instanceVar | classVar | globalVar | number | symbol | label | quotedSymbol | command | regex =>
    exact tracks_leaf rfl
  | string value => exact tracks_stringLiteral value
  | words ws => exact tracks_wordList (by simp [relocateKind])
  | symbolWords ws => exact tracks_wordList (by simp [relocateKind])
  | lparen => exact tracks_parenthesised h
  | lbracket => exact tracks_arrayLiteral h
  | lbrace => exact tracks_hashLiteral h
  | arrow => exact tracks_lambda h
  | keyword k => exact tracks_keywordPrimary h ht k
  | bang | plus | minus | star | doubleStar => exact h .unary
  | rparen | rbracket | rbrace => exact tracks_fail ht rfl
  | eof =>
    refine tracks_fail ht ?_
    trivial
  | _ => exact tracks_unmodelled

end Primary

/-! ## All rules -/

/-- A step of the parser does further on what it does here. -/
theorem TracksAll.step : TracksAll w (Rule.step self) (Rule.step self') := by
  intro α rule
  cases rule with
  | statements stops => exact tracks_statements h stops
  | items stops => exact tracks_items h stops
  | body => exact tracks_body h
  | rescues => exact tracks_rescues h
  | rescueTypes => exact tracks_rescueTypes h
  | statement => exact tracks_statement h
  | modifiers start n => exact tracks_modifiers h start n
  | sentence => exact tracks_sentence h
  | joined start lhs => exact tracks_joined h start lhs
  | negation => exact tracks_negation h
  | expr => exact tracks_expr h
  | ternary => exact tracks_ternary h
  | binary min => exact tracks_binary h min
  | operators min start lhs => exact tracks_operators h min start lhs
  | unary => exact tracks_unary h
  | primary => exact tracks_primary h
  | trailers start n => exact tracks_trailers h start n
  | arg => exact tracks_arg h
  | args closer => exact tracks_args h closer
  | moreArgs => exact tracks_moreArgs h
  | params closers => exact tracks_params h closers
  | forTargets => exact tracks_forTargets h
  | elsifs => exact tracks_elsifs h
  | whens => exact tracks_whens h
  | undefNames => exact tracks_undefNames h

omit h in
theorem tracks_exhausted {α : Type} {p' : P α} {R : α → α → Prop} : Tracks w (throw .exhausted) p' R := by
  intro env env' s hs
  refine ⟨fun e he => ?_, nofun⟩
  cases he
  exact w.exhausted

omit h in
/-- With the same bound on the depth, all that is read here is read further on. -/
theorem tracks_run (w : Relocation) (depth : Nat) : TracksAll w (Rule.run depth) (Rule.run depth) := by
  induction depth with
  | zero => exact fun _ => tracks_exhausted
  | succ depth ih => exact ih.step

end PuppetDocs.Ruby
