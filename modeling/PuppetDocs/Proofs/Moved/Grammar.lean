import PuppetDocs.Proofs.Descent.Grammar
import PuppetDocs.Proofs.Moved.Tracks

/-
  PuppetDocs.Proofs.Moved.Grammar — arguments, operators and calls are read further on as they are here.

  Each part of the grammar asks for others, looks at tokens whose kinds and texts are the same in
  both texts, and makes nodes of what it has read. So it does in the second text what it does in
  the first, if that is so of the rules inside it. The one stretch of the text that is read apart
  from its tokens, a parameter in parentheses, runs from the start of one token to the end of
  another.
-/

namespace PuppetDocs.Ruby

open ParseM

variable {self self' : Reader} {w : Relocation} (h : TracksAll w self self')
include h

/-! ## Arguments -/

section Args

theorem tracks_parenArgs : Tracks w (parenArgs self) (parenArgs self') (MovedNodes w) := by
  unfold parenArgs
  refine (tracks_need _ _).bind fun _ _ _ => ?_
  refine (h (.args _)).nested.bind ?_
  rintro args _ rfl
  exact (tracks_need _ _).bind fun _ _ _ => tracks_pure (groupPairs_move w.mono _ _)

theorem tracks_commandArgs : Tracks w (commandArgs self) (commandArgs self') (MovedNodes w) := by
  unfold commandArgs
  refine Tracks.bind (R := MovedNodes w) (Tracks.withoutDo ?_) ?_
  · refine (h .arg).bind ?_
    rintro a _ rfl
    refine (h .moreArgs).bind ?_
    rintro more _ rfl
    exact tracks_pure rfl
  · rintro args _ rfl
    exact tracks_pure (groupPairs_move w.mono _ _)

theorem tracks_args (closer : TokenKind) : Tracks w (readArgs self closer) (readArgs self' closer) (MovedNodes w) := by
  unfold readArgs
  refine tracks_skipNewlines.bind fun _ _ _ => ?_
  refine (tracks_atAny _).bind ?_
  rintro closed _ rfl
  refine .ite (fun _ => tracks_pure rfl) (fun _ => ?_)
  refine (h .arg).bind ?_
  rintro a _ rfl
  refine tracks_skipNewlines.bind fun _ _ _ => ?_
  refine (tracks_eat _).bind ?_
  rintro comma _ rfl
  refine .ite (fun _ => ?_) (fun _ => tracks_pure rfl)
  refine (h (.args closer)).bind ?_
  rintro more _ rfl
  exact tracks_pure rfl

theorem tracks_moreArgs : Tracks w (readMoreArgs self) (readMoreArgs self') (MovedNodes w) := by
  unfold readMoreArgs
  refine (tracks_eat _).bind ?_
  rintro comma _ rfl
  refine .ite (fun _ => ?_) (fun _ => tracks_pure rfl)
  refine tracks_skipNewlines.bind fun _ _ _ => ?_
  refine (h .arg).bind ?_
  rintro a _ rfl
  refine (h .moreArgs).bind ?_
  rintro more _ rfl
  exact tracks_pure rfl

omit h in
theorem tracks_mkPair (key value : Node) (start : Nat) :
    Tracks w (mkPair key value start)
      (mkPair (key.move w.place w.drop) (value.move w.place w.drop) (w.place start))
      (MovedNode w) := tracks_mkNode (by simp [relocateKind]) rfl

theorem tracks_labelArg (start : Nat) :
    Tracks w (labelArg self start) (labelArg self' (w.place start)) (MovedNode w) := by
  unfold labelArg
  refine tracks_bump.bind ?_
  rintro t _ ⟨ht, rfl⟩
  refine (tracks_lineOf t.span.start).bind ?_
  rintro line _ rfl
  refine tracks_skipNewlines.bind fun _ _ _ => ?_
  refine (tracks_atAny _).bind ?_
  rintro alone _ rfl
  have hspan : Span.mk (t.move w.place).span.start ((t.move w.place).span.stop - 1) =
      (Span.mk t.span.start (t.span.stop - 1)).move w.place := by
    simp only [Token.move, Span.move, Span.mk.injEq, true_and]
    exact w.stop_eq t ht
  have hkey : ∀ kind, relocateKind (·.move w.place) (w.drop + ·) kind = kind →
      Node.mk kind ⟨(t.move w.place).span.start, (t.move w.place).span.stop - 1⟩ (w.drop + line) =
        (Node.mk kind ⟨t.span.start, t.span.stop - 1⟩ line).move w.place w.drop := by
    intro kind hkind
    rw [hspan, Node.move, Node.relocate, hkind]
  refine .ite (fun _ => ?_) (fun _ => ?_)
  · rw [hkey _ rfl, hkey _ rfl]
    exact tracks_mkPair _ _ _
  · refine (h .negation).bind ?_
    rintro value _ rfl
    rw [hkey _ rfl]
    exact tracks_mkPair _ _ _

theorem tracks_quotedKeyArg (value : StrLit) (start : Nat) :
    Tracks w (quotedKeyArg self value start) (quotedKeyArg self' value (w.place start)) (MovedNode w) := by
  unfold quotedKeyArg
  refine tracks_bump.bind ?_
  rintro t _ ⟨-, rfl⟩
  refine tracks_bump.bind fun _ _ _ => ?_
  refine (tracks_lineOf t.span.start).bind ?_
  rintro line _ rfl
  refine tracks_skipNewlines.bind fun _ _ _ => ?_
  refine (h .negation).bind ?_
  rintro m _ rfl
  have hkey : Node.mk (.quotedSymbol value) (t.move w.place).span (w.drop + line) =
      (Node.mk (.quotedSymbol value) t.span line).move w.place w.drop := by
    rw [Node.move, Node.relocate]
    rfl
  rw [hkey]
  exact tracks_mkPair _ _ _

theorem tracks_plainArg (start : Nat) :
    Tracks w (plainArg self start) (plainArg self' (w.place start)) (MovedNode w) := by
  unfold plainArg
  refine (h .negation).bind ?_
  rintro value _ rfl
  refine (tracks_eat _).bind ?_
  rintro arrow _ rfl
  refine .ite (fun _ => ?_) (fun _ => tracks_pure rfl)
  refine tracks_skipNewlines.bind fun _ _ _ => ?_
  refine (h .negation).bind ?_
  rintro m _ rfl
  exact tracks_mkPair _ _ _

theorem tracks_arg : Tracks w (readArg self) (readArg self') (MovedNode w) := by
  unfold readArg
  refine tracks_here.bind ?_
  rintro start _ ⟨-, rfl⟩
  refine tracks_peekKind.bind ?_
  rintro _ kind rfl
  cases kind with
  | amp =>
    refine tracks_bump.bind fun _ _ _ => ?_
    refine (tracks_atAny _).bind ?_
    rintro alone _ rfl
    refine .ite (fun _ => tracks_mkNode rfl rfl) (fun _ => ?_)
    refine (h .ternary).bind ?_
    rintro value _ rfl
    exact tracks_mkNode (by simp [relocateKind]) rfl
  | label => exact tracks_labelArg h start
  | string value =>
    refine (tracks_colonAt 1).bind ?_
    rintro key _ rfl
    exact .ite (fun _ => tracks_quotedKeyArg h value start) (fun _ => tracks_plainArg h start)
  | _ => exact tracks_plainArg h start

end Args

/-! ## Parameters -/

section Params

/-- What a parameter consists of, its span aside, in its new place and `l` lines further down. -/
abbrev moveParts (place : Nat → Nat) (l : Nat) (p : String × ParamKind × Option Node) : String × ParamKind × Option Node :=
  (p.1, p.2.1, p.2.2.map (·.move place l))

abbrev MovedParts (w : Relocation) (found found' : Option (String × ParamKind × Option Node)) : Prop :=
  found' = found.map (moveParts w.place w.drop)

section Groups

omit h

theorem parensEnd_move (place : Nat → Nat) (depth : Nat) (rest : List (Token TokenKind)) :
    parensEnd depth (rest.map (·.move place)) = (parensEnd depth rest).map fun x => (x.1.map (·.move place), place x.2) := by
  fun_induction parensEnd depth rest with
  | case1 => rfl
  | case2 depth t rest hk ih => simp [parensEnd, Token.move_kind, hk, ih]
  | case3 t rest hk hr | case4 t rest hk hr => simp [parensEnd, hr, Token.move, Span.move]
  | case5 t rest hk hr depth hdepth ih => simp [parensEnd, Token.move_kind, hr, ih]
  | case6 depth t rest hk hr ih => simp [parensEnd, Token.move_kind, hk, hr, ih]

/-- The stretch from the parenthesis to the one that closes it says the same in both texts. -/
theorem tracks_groupParam {start start' : Nat} (hstart : StartOf w start start') :
    Tracks w (groupParam start) (groupParam start') fun name name' => name' = name := by
  obtain ⟨⟨t, ht, rfl⟩, rfl⟩ := hstart
  unfold groupParam
  refine tracks_bump.bind fun _ _ _ env env' s hs => ?_
  rw [tracksAt_get, Stream.move_rest, parensEnd_move]
  cases hend : parensEnd 1 s.rest with
  | none =>
    refine tracks_fail ht ?_ env env' s hs
    trivial
  | some found =>
    obtain ⟨rest, stop⟩ := found
    obtain ⟨hsuffix, u, hu, rfl⟩ := parensEnd_within hend
    have hslice := w.slice_eq t ht u (List.mem_append_left _ (hs.suffix.subset hu))
    have hs' : w.Holds env env' { s with rest, prevEnd := u.span.stop } := hs.move rfl hsuffix
    refine tracksAt_set.mpr (tracksAt_read.mpr ?_)
    rw [hs.text, hs.text', hslice]
    refine tracks_pure ?_ env env' _ hs'
    rfl

theorem tracks_sigilParam (kind : ParamKind) :
    Tracks w (some <$> sigilParam kind) (some <$> sigilParam kind) (MovedParts w) := by
  have hsigil : Tracks w (sigilParam kind) (sigilParam kind) fun p p' => p' = moveParts w.place w.drop p := by
    unfold sigilParam
    refine tracks_bump.bind fun _ _ _ => ?_
    refine (tracks_at _).bind ?_
    rintro _ named rfl
    refine .ite_bind (R := fun name name' => name' = name) ?_ (tracks_pure rfl) ?_
    · refine tracks_bump.bind ?_
      rintro t _ ⟨-, rfl⟩
      exact tracks_pure rfl
    · rintro _ name rfl
      exact tracks_pure rfl
  refine hsigil.map ?_
  rintro p _ rfl
  rfl

end Groups

theorem tracks_param (closers : List TokenKind) :
    Tracks w (readParam self closers) (readParam self' closers) (MovedParts w) := by
  unfold readParam
  refine tracks_peekKind.bind ?_
  rintro _ kind rfl
  cases kind with
  | star | doubleStar | amp => exact tracks_sigilParam _
  | label =>
    refine tracks_bump.bind ?_
    rintro t _ ⟨-, rfl⟩
    refine (tracks_atAny _).bind ?_
    rintro _ alone rfl
    refine .ite (fun _ => tracks_pure rfl) (fun _ => ?_)
    refine (h .unary).bind ?_
    rintro value _ rfl
    exact tracks_pure rfl
  | ident =>
    refine tracks_bump.bind ?_
    rintro t _ ⟨-, rfl⟩
    refine (tracks_eat _).bind ?_
    rintro _ assigned rfl
    refine .ite (fun _ => ?_) (fun _ => tracks_pure rfl)
    refine .ite_bind (h .ternary) (h .unary) ?_
    rintro value _ rfl
    exact tracks_pure rfl
  | lparen =>
    refine tracks_here.bind fun start start' hstart => ?_
    refine (tracks_groupParam hstart).bind ?_
    rintro _ name rfl
    exact tracks_pure rfl
  | _ => exact tracks_bump.bind fun _ _ _ => tracks_pure rfl

theorem tracks_params (closers : List TokenKind) :
    Tracks w (readParams self closers) (readParams self' closers) (MovedParams w) := by
  unfold readParams
  refine .pass_ite tracks_skipNewlines ?_
  refine (tracks_atAny _).bind ?_
  rintro _ closed rfl
  refine .ite (fun _ => tracks_pure rfl) (fun _ => ?_)
  refine tracks_here.bind ?_
  rintro start _ ⟨-, rfl⟩
  refine (tracks_param h closers).bind ?_
  rintro found _ rfl
  refine tracks_prevEnd.bind ?_
  rintro stop _ rfl
  refine .pass_ite tracks_skipNewlines ?_
  refine (tracks_eat _).bind ?_
  rintro _ comma rfl
  refine .pass_ite (tracks_eat _) ?_
  refine (h (.params closers)).bind ?_
  rintro rest _ rfl
  cases found with
  | none => exact tracks_pure rfl
  | some param => exact tracks_pure (by simp [MovedParams, relocateParam, Span.move_mk])

end Params

/-! ## Statements and operators -/

section Operators

theorem tracks_statements (stops : List TokenKind) :
    Tracks w (readStatements self stops) (readStatements self' stops) (MovedNode w) := by
  unfold readStatements
  refine tracks_here.bind ?_
  rintro start _ ⟨-, rfl⟩
  refine (h (.items stops)).bind ?_
  rintro items _ rfl
  exact tracks_mkNode (by simp [relocateKind]) rfl

theorem tracks_items (stops : List TokenKind) :
    Tracks w (readItems self stops) (readItems self' stops) (MovedNodes w) := by
  unfold readItems
  refine tracks_skipTerminators.bind fun _ _ _ => ?_
  refine (tracks_atAny _).bind ?_
  rintro _ closed rfl
  refine .ite (fun _ => tracks_pure rfl) (fun _ => ?_)
  refine (h .statement).bind ?_
  rintro n _ rfl
  refine (h (.items stops)).bind ?_
  rintro more _ rfl
  exact tracks_pure rfl

theorem tracks_statement : Tracks w (readStatement self) (readStatement self') (MovedNode w) := by
  unfold readStatement
  refine tracks_here.bind ?_
  rintro start _ ⟨-, rfl⟩
  refine (h .sentence).bind ?_
  rintro n _ rfl
  exact h (.modifiers start n)

theorem tracks_modifiers (start : Nat) (n : Node) :
    Tracks w (readModifiers self start n) (readModifiers self' (w.place start) (n.move w.place w.drop))
      (MovedNode w) := by
  unfold readModifiers
  refine tracks_peekKind.bind ?_
  rintro _ kind rfl
  cases kind with
  | keyword k =>
    refine .ite (fun _ => ?_) (fun _ => tracks_pure rfl)
    refine tracks_bump.bind fun _ _ _ => ?_
    refine (h .sentence).bind ?_
    rintro condition _ rfl
    refine (tracks_mkNode (by simp [relocateKind]) rfl).bind ?_
    rintro m _ rfl
    exact h (.modifiers start m)
  | _ => exact tracks_pure rfl

theorem tracks_sentence : Tracks w (readSentence self) (readSentence self') (MovedNode w) := by
  unfold readSentence
  refine tracks_here.bind ?_
  rintro start _ ⟨-, rfl⟩
  refine (h .negation).bind ?_
  rintro lhs _ rfl
  exact h (.joined start lhs)

theorem tracks_joined (start : Nat) (lhs : Node) :
    Tracks w (readJoined self start lhs) (readJoined self' (w.place start) (lhs.move w.place w.drop))
      (MovedNode w) := by
  unfold readJoined
  refine (tracks_atAny _).bind ?_
  rintro _ found rfl
  refine .ite (fun _ => ?_) (fun _ => tracks_pure rfl)
  refine tracks_bump.bind ?_
  rintro op _ ⟨-, rfl⟩
  refine tracks_skipNewlines.bind fun _ _ _ => ?_
  refine (h .negation).bind ?_
  rintro rhs _ rfl
  refine (tracks_mkNode (by simp [relocateKind, Token.move]) rfl).bind ?_
  rintro n _ rfl
  exact h (.joined start n)

theorem tracks_negation : Tracks w (readNegation self) (readNegation self') (MovedNode w) := by
  unfold readNegation
  refine (tracks_at _).bind ?_
  rintro _ found rfl
  refine .ite (fun _ => ?_) (fun _ => h .expr)
  refine tracks_bump.bind ?_
  rintro t _ ⟨-, rfl⟩
  refine (h .negation).bind ?_
  rintro operand _ rfl
  exact tracks_mkNode (by simp [relocateKind]) rfl

theorem tracks_assignedValue : Tracks w (assignedValue self) (assignedValue self') (MovedNode w) := by
  unfold assignedValue
  refine tracks_here.bind ?_
  rintro start _ ⟨-, rfl⟩
  refine (h .expr).bind ?_
  rintro first _ rfl
  refine (tracks_at _).bind ?_
  rintro _ comma rfl
  refine .ite (fun _ => ?_) (fun _ => tracks_pure rfl)
  refine (h .moreArgs).bind ?_
  rintro more _ rfl
  exact tracks_mkNode (by simp [relocateKind]) rfl

theorem tracks_expr : Tracks w (readExpr self) (readExpr self') (MovedNode w) := by
  unfold readExpr
  refine tracks_here.bind ?_
  rintro start _ ⟨-, rfl⟩
  refine (h .ternary).bind ?_
  rintro target _ rfl
  rw [isAssignable_relocate]
  refine .ite (fun _ => ?_) (fun _ => tracks_pure rfl)
  refine tracks_peekKind.bind ?_
  rintro _ kind rfl
  cases kind with
  | assign =>
    refine tracks_bump.bind fun _ _ _ => ?_
    refine tracks_skipNewlines.bind fun _ _ _ => ?_
    refine (tracks_assignedValue h).bind ?_
    rintro value _ rfl
    exact tracks_mkNode (by simp [relocateKind]) rfl
  | opAssign =>
    refine tracks_bump.bind ?_
    rintro op _ ⟨-, rfl⟩
    refine tracks_skipNewlines.bind fun _ _ _ => ?_
    refine (tracks_assignedValue h).bind ?_
    rintro value _ rfl
    exact tracks_mkNode (by simp [relocateKind, Token.move]) rfl
  | _ => exact tracks_pure rfl

theorem tracks_elseBranch : Tracks w (elseBranch self) (elseBranch self') (MovedNodes w) := by
  unfold elseBranch
  refine (tracks_eat _).bind ?_
  rintro _ colon rfl
  refine .ite (fun _ => ?_) (fun _ => ?_)
  · refine tracks_skipNewlines.bind fun _ _ _ => ?_
    refine (h .ternary).bind ?_
    rintro value _ rfl
    exact tracks_pure rfl
  · refine (tracks_at _).bind ?_
    rintro _ joined rfl
    refine .ite (fun _ => ?_) (fun _ => tracks_pure rfl)
    refine tracks_bump.bind ?_
    rintro t _ ⟨ht, rfl⟩
    refine (tracks_mkNode (by simp [relocateKind, Token.move]) (w.start_eq t ht)).bind ?_
    rintro value _ rfl
    exact tracks_pure rfl

theorem tracks_ternary : Tracks w (readTernary self) (readTernary self') (MovedNode w) := by
  unfold readTernary
  refine tracks_here.bind ?_
  rintro start _ ⟨-, rfl⟩
  refine (h (.binary 0)).bind ?_
  rintro condition _ rfl
  refine (tracks_eat _).bind ?_
  rintro _ question rfl
  refine .ite (fun _ => ?_) (fun _ => tracks_pure rfl)
  refine tracks_skipNewlines.bind fun _ _ _ => ?_
  refine (h .ternary).bind ?_
  rintro then_ _ rfl
  refine tracks_skipNewlines.bind fun _ _ _ => ?_
  refine (tracks_elseBranch h).bind ?_
  rintro else_ _ rfl
  exact tracks_mkNode (by simp [relocateKind]) rfl

theorem tracks_binary (min : Nat) : Tracks w (readBinary self min) (readBinary self' min) (MovedNode w) := by
  unfold readBinary
  refine tracks_here.bind ?_
  rintro start _ ⟨-, rfl⟩
  refine (h .unary).bind ?_
  rintro lhs _ rfl
  exact h (.operators min start lhs)

theorem tracks_operators (min start : Nat) (lhs : Node) :
    Tracks w (readOperators self min start lhs)
      (readOperators self' min (w.place start) (lhs.move w.place w.drop)) (MovedNode w) := by
  unfold readOperators
  refine tracks_peek.bind ?_
  rintro t _ ⟨-, rfl⟩
  have hprecedence : precedence? (t.move w.place) = precedence? t := rfl
  rw [hprecedence]
  cases precedence? t with
  | none => exact tracks_pure rfl
  | some found =>
    refine .ite (fun _ => tracks_pure rfl) (fun _ => ?_)
    refine tracks_bump.bind ?_
    rintro op _ ⟨-, rfl⟩
    refine tracks_skipNewlines.bind fun _ _ _ => ?_
    refine (h (.binary _)).bind ?_
    rintro rhs _ rfl
    refine (tracks_mkNode (by simp [relocateKind, Token.move]) rfl).bind ?_
    rintro n _ rfl
    exact h (.operators min start n)

theorem tracks_signed (op : String) (start : Nat) :
    Tracks w (signed self op start) (signed self' op (w.place start)) (MovedNode w) := by
  unfold signed
  refine (h .unary).bind ?_
  rintro operand _ rfl
  exact tracks_mkNode (by simp [relocateKind]) rfl

theorem tracks_unary : Tracks w (readUnary self) (readUnary self') (MovedNode w) := by
  unfold readUnary
  refine tracks_peek.bind ?_
  rintro t _ ⟨-, rfl⟩
  obtain ⟨kind, text, span, spaced⟩ := t
  dsimp only [Token.move, Span.move]
  have hprimary : Tracks w (self .primary >>= fun n => self (.trailers n.span.start n))
      (self' .primary >>= fun n => self' (.trailers n.span.start n)) (MovedNode w) := by
    refine (h .primary).bind ?_
    rintro n _ rfl
    rw [Node.relocate_span]
    exact h (.trailers _ n)
  cases kind with
  | bang | plus => exact tracks_bump.bind fun _ _ _ => tracks_signed h _ _
  | minus =>
    refine tracks_bump.bind fun _ _ _ => ?_
    refine tracks_peek.bind ?_
    rintro next _ ⟨-, rfl⟩
    refine .ite (fun _ => ?_) (fun _ => tracks_signed h _ _)
    refine tracks_bump.bind fun _ _ _ => ?_
    refine (tracks_mkNode (by simp [relocateKind, Token.move]) rfl).bind ?_
    rintro n _ rfl
    exact h (.trailers _ n)
  | star | doubleStar =>
    refine tracks_bump.bind fun _ _ _ => ?_
    refine (h .unary).bind ?_
    rintro value _ rfl
    exact tracks_mkNode (by simp [relocateKind]) rfl
  | operator =>
    refine .ite (fun _ => ?_) (fun _ => hprimary)
    exact tracks_bump.bind fun _ _ _ => tracks_signed h _ _
  | _ => exact .ite (fun hk => absurd hk.1 (by simp)) (fun _ => hprimary)

end Operators

/-! ## Calls and what follows a value -/

section Calls

omit h in
theorem tracks_mkCall (receiver : Option Node) (method : String) (args : List Node) (parens : Bool) (start : Nat) :
    Tracks w (mkCall receiver method args parens start)
      (mkCall (receiver.map (·.move w.place w.drop)) method (args.map (·.move w.place w.drop)) parens
        (w.place start))
      (MovedNode w) := tracks_mkNode (by simp [relocateKind]) rfl

theorem tracks_body : Tracks w (readBody self) (readBody self') (MovedNode w) := by
  have hclause : ∀ stops, Tracks w (self (.statements stops) >>= fun m => pure [m])
      (self' (.statements stops) >>= fun m => pure [m]) (MovedNodes w) := by
    intro stops
    refine (h (.statements stops)).bind ?_
    rintro m _ rfl
    exact tracks_pure rfl
  unfold readBody
  refine tracks_here.bind ?_
  rintro start _ ⟨-, rfl⟩
  refine (h (.statements bodyStops)).bind ?_
  rintro main _ rfl
  refine (tracks_atAny _).bind ?_
  rintro _ clauses rfl
  refine .ite (fun _ => ?_) (fun _ => tracks_pure rfl)
  refine (h .rescues).bind ?_
  rintro rescues _ rfl
  refine (tracks_eat _).bind ?_
  rintro _ found rfl
  refine .ite_bind (hclause _) (tracks_pure rfl) ?_
  rintro else_ _ rfl
  refine (tracks_eat _).bind ?_
  rintro _ found rfl
  refine .ite_bind (hclause _) (tracks_pure rfl) ?_
  rintro ensure_ _ rfl
  exact tracks_mkNode (by simp [relocateKind]) rfl

theorem tracks_rescueTypes : Tracks w (readRescueTypes self) (readRescueTypes self') (MovedNodes w) := by
  unfold readRescueTypes
  refine (tracks_atAny _).bind ?_
  rintro _ closed rfl
  refine .ite (fun _ => tracks_pure rfl) (fun _ => ?_)
  refine (h .ternary).bind ?_
  rintro n _ rfl
  refine (tracks_eat _).bind ?_
  rintro _ comma rfl
  refine .ite (fun _ => ?_) (fun _ => tracks_pure rfl)
  refine tracks_skipNewlines.bind fun _ _ _ => ?_
  refine (h .rescueTypes).bind ?_
  rintro more _ rfl
  exact tracks_pure rfl

theorem tracks_rescues : Tracks w (readRescues self) (readRescues self') (MovedNodes w) := by
  unfold readRescues
  refine (tracks_eat _).bind ?_
  rintro _ found rfl
  refine .ite (fun _ => ?_) (fun _ => tracks_pure rfl)
  refine tracks_prevEnd.bind ?_
  rintro start _ rfl
  refine (h .rescueTypes).bind ?_
  rintro types _ rfl
  refine (tracks_eat _).bind ?_
  rintro _ arrow rfl
  refine .ite_bind (R := MovedNodes w) ?_ (tracks_pure rfl) ?_
  · refine (h .primary).bind ?_
    rintro n _ rfl
    exact tracks_pure rfl
  rintro binding _ rfl
  refine (tracks_eat _).bind fun _ _ _ => ?_
  refine (h (.statements bodyStops)).bind ?_
  rintro body _ rfl
  refine (tracks_mkNode (by simp [relocateKind]) rfl).bind ?_
  rintro clause _ rfl
  refine (h .rescues).bind ?_
  rintro more _ rfl
  exact tracks_pure rfl

theorem tracks_blockParams : Tracks w (blockParams self) (blockParams self') (MovedParams w) := by
  unfold blockParams
  refine (tracks_eat _).bind ?_
  rintro _ pipe rfl
  refine .ite (fun _ => ?_) (fun _ => ?_)
  · refine (h (.params [.pipe])).bind ?_
    rintro params _ rfl
    exact (tracks_need _ _).bind fun _ _ _ => tracks_pure rfl
  · exact (tracks_eat _).bind fun _ _ _ => tracks_pure rfl

theorem tracks_block :
    Tracks w (block self) (block self') fun b b' => b' = relocateBlock (·.move w.place) (w.drop + ·) b := by
  unfold block
  refine tracks_bump.bind ?_
  rintro opener _ ⟨-, rfl⟩
  refine Tracks.bind (R := fun x x' => MovedParams w x.1 x'.1 ∧ MovedNode w x.2 x'.2) (Tracks.nested ?_) ?_
  · refine (tracks_blockParams h).bind ?_
    rintro params _ rfl
    refine .ite_bind (h .body) (h (.statements [.rbrace])) ?_
    rintro body _ rfl
    exact tracks_pure ⟨rfl, rfl⟩
  rintro ⟨params, body⟩ ⟨_, _⟩ ⟨rfl, rfl⟩
  have hmake : Tracks w
      (do return { params, body, span := ⟨opener.span.start, ← prevEnd⟩, line := ← lineOf opener.span.start })
      (do return {
        params := params.map (relocateParam (·.move w.place) (w.drop + ·)), body := body.move w.place w.drop
        span := ⟨(opener.move w.place).span.start, ← prevEnd⟩
        line := ← lineOf (opener.move w.place).span.start })
      fun b b' => b' = relocateBlock (·.move w.place) (w.drop + ·) b := by
    refine tracks_prevEnd.bind ?_
    rintro stop _ rfl
    refine (tracks_lineOf opener.span.start).bind ?_
    rintro line _ rfl
    exact tracks_pure (by simp [relocateBlock, Token.move, Span.move_mk]; rfl)
  exact .ite (fun _ => tracks_needEnd.bind fun _ _ _ => hmake) (fun _ => (tracks_need _ _).bind fun _ _ _ => hmake)

theorem tracks_attachBlock (n : Node) :
    Tracks w (attachBlock self n) (attachBlock self' (n.move w.place w.drop)) (MovedNode w) := by
  unfold attachBlock
  refine (tracks_block h).bind ?_
  rintro b _ rfl
  refine tracks_prevEnd.bind ?_
  rintro stop _ rfl
  exact tracks_pure (by simp [MovedNode, Node.relocate, withBlock_relocate, Span.move_mk]; rfl)

theorem tracks_callArgs : Tracks w (callArgs self) (callArgs self')
    fun x x' => x' = (x.1.map (·.move w.place w.drop), x.2) := by
  unfold callArgs
  refine (tracks_parenAt 0).bind ?_
  rintro _ paren rfl
  refine .ite (fun _ => ?_) (fun _ => ?_)
  · refine (tracks_parenArgs h).bind ?_
    rintro args _ rfl
    exact tracks_pure rfl
  refine tracks_commandArgStarts.bind ?_
  rintro _ starts rfl
  refine .ite (fun _ => ?_) (fun _ => tracks_pure rfl)
  refine (tracks_commandArgs h).bind ?_
  rintro args _ rfl
  exact tracks_pure rfl

theorem tracks_methodCall (receiver : Node) (start : Nat) :
    Tracks w (methodCall self receiver start)
      (methodCall self' (receiver.move w.place w.drop) (w.place start)) (MovedNode w) := by
  unfold methodCall
  refine tracks_peek.bind ?_
  rintro t _ ⟨ht, rfl⟩
  refine .ite (fun _ => ?_) (fun _ => ?_)
  · refine (tracks_parenArgs h).bind ?_
    rintro args _ rfl
    exact tracks_mkCall (some receiver) _ _ _ _
  have hname : methodName? (t.move w.place) = methodName? t := rfl
  rw [hname]
  cases methodName? t with
  | none => exact tracks_fail ht rfl
  | some method =>
    refine tracks_bump.bind fun _ _ _ => ?_
    refine (tracks_callArgs h).bind ?_
    rintro ⟨args, parens⟩ _ rfl
    exact tracks_mkCall (some receiver) _ _ _ _

theorem tracks_scopedName (n : Node) (start : Nat) :
    Tracks w (scopedName self n start) (scopedName self' (n.move w.place w.drop) (w.place start))
      (MovedNode w) := by
  unfold scopedName
  refine tracks_bump.bind fun _ _ _ => ?_
  refine (tracks_at _).bind ?_
  rintro _ name rfl
  refine (tracks_parenAt 1).bind ?_
  rintro _ paren rfl
  refine .ite (fun _ => ?_) (fun _ => tracks_methodCall h n start)
  refine tracks_bump.bind ?_
  rintro t _ ⟨-, rfl⟩
  exact tracks_mkNode (by simp [relocateKind, Token.move]) rfl

theorem tracks_index (n : Node) (start : Nat) :
    Tracks w (index self n start) (index self' (n.move w.place w.drop) (w.place start)) (MovedNode w) := by
  unfold index
  refine tracks_bump.bind fun _ _ _ => ?_
  refine (h (.args .rbracket)).nested.bind ?_
  rintro args _ rfl
  exact (tracks_need _ _).bind fun _ _ _ => tracks_mkCall (some n) _ _ _ _

theorem tracks_trailers (start : Nat) (n : Node) :
    Tracks w (readTrailers self start n) (readTrailers self' (w.place start) (n.move w.place w.drop))
      (MovedNode w) := by
  have hmore : ∀ m m', MovedNode w m m' →
      Tracks w (self (.trailers start m)) (self' (.trailers (w.place start) m')) (MovedNode w) := by
    rintro m _ rfl
    exact h (.trailers start m)
  unfold readTrailers
  refine tracks_peek.bind ?_
  rintro t _ ⟨-, rfl⟩
  obtain ⟨kind, text, span, spaced⟩ := t
  dsimp only [Token.move]
  cases kind with
  | dot | safeNav =>
    refine tracks_bump.bind fun _ _ _ => ?_
    refine tracks_skipNewlines.bind fun _ _ _ => ?_
    exact (tracks_methodCall h n start).bind hmore
  | newline =>
    refine tracks_lineGoesOn.bind ?_
    rintro _ goesOn rfl
    refine .ite (fun _ => ?_) (fun _ => tracks_pure rfl)
    exact tracks_skipNewlines.bind fun _ _ _ => hmore n _ rfl
  | colonColon => exact (tracks_scopedName h n start).bind hmore
  | lbracket => exact .ite (fun _ => tracks_pure rfl) (fun _ => (tracks_index h n start).bind hmore)
  | lbrace =>
    rw [takesBraces_relocate]
    exact .ite (fun _ => (tracks_attachBlock h n).bind hmore) (fun _ => tracks_pure rfl)
  | keyword k =>
    cases k with
    | doKw =>
      refine tracks_holdDo.bind fun env env' henv => ?_
      rw [henv, takesDo_relocate]
      exact .ite (fun _ => (tracks_attachBlock h n).bind hmore) (fun _ => tracks_pure rfl)
    | _ => exact tracks_pure rfl
  | _ => exact tracks_pure rfl

end Calls

end PuppetDocs.Ruby
