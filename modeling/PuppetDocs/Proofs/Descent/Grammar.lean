import PuppetDocs.Proofs.Descent.Settles
import PuppetDocs.Ruby.Parse

/-
  PuppetDocs.Proofs.Descent.Grammar — how far the rules descend.

  `Rule.rank` counts down while rules ask for each other and no token is used up. Only signs
  and `not` are read by two ways that lead into each other: there the rank of the stronger
  rule is the lower one. A rule comes to an end if the two readers agree on all that has fewer
  tokens left or, with as many, a lower rank (`Ready`).
-/

namespace PuppetDocs.Ruby

open ParseM

/-- A sign or splat, which stands in front of what the strongest operators may have. -/
def isSign : TokenKind → Bool
  | .bang | .plus | .minus | .star | .doubleStar => true
  | _ => false

/-- How many rules may be asked for, each by the one before, with the next token of this kind still there. -/
def Rule.rank {α : Type} (rule : Rule α) (next : TokenKind) : Nat :=
  match rule with
  | .body => 12
  | .statements _ => 11
  | .items _ => 10
  | .statement | .args _ => 9
  | .sentence | .arg => 8
  | .negation => if next = .keyword .notKw then 1 else 7
  | .expr | .rescueTypes => 6
  | .ternary => 5
  | .binary _ => 4
  | .unary => if isSign next then 1 else 3
  | .forTargets => 3
  | .primary => 2
  | _ => 1

/-- There is no value without a token for it. -/
def Rule.advances {α : Type} : Rule α → Bool
  | .statement | .sentence | .negation | .expr | .ternary | .binary _ | .unary | .primary | .arg => true
  | _ => false

/-- Where the stream stands behind a value of the rule. -/
def Rule.Leaves {α : Type} (rule : Rule α) (s : Stream TokenKind) (_ : α) (s' : Stream TokenKind) : Prop :=
  if rule.advances then s.Past s' else s.Onward s'

/-- The readers agree wherever fewer than `n` tokens are left. -/
def Below (w : Page) (self self' : Reader) (n : Nat) : Prop := ∀ {α : Type} (rule : Rule α), Settles w n (self rule) (self' rule)

/-- The readers agree on all that comes after rank `r` with `n` tokens left. -/
def Ready (w : Page) (self self' : Reader) (n r : Nat) : Prop :=
  ∀ {α : Type} (rule : Rule α) env (s : Stream TokenKind), w.Holds env s →
    s.rest.length < n ∨ s.rest.length = n ∧ rule.rank s.peek.kind < r →
      Agree (self rule) (self' rule) env s (rule.Leaves s)

section Ready

variable {self self' : Reader} {w : Page} {n r : Nat} {α : Type}

theorem Rule.Leaves.onward {rule : Rule α} {s s' : Stream TokenKind} {a : α} (h : rule.Leaves s a s') :
    s.Onward s' := by
  unfold Rule.Leaves at h
  split at h
  · exact h.onward
  · exact h

theorem Rule.Leaves.past {rule : Rule α} {s s' : Stream TokenKind} {a : α} (h : rule.Leaves s a s')
    (hrule : rule.advances = true) : s.Past s' := by
  unfold Rule.Leaves at h
  rwa [if_pos hrule] at h

theorem Ready.below (h : Ready w self self' n r) : Below w self self' n :=
  fun rule env s hs hn => (h rule env s hs (.inl hn)).mono fun _ _ hs' => hs'.onward

/-- A rule that is always of a lower rank may be asked for at once. -/
theorem Ready.settles (h : Ready w self self' n r) (rule : Rule α) (hr : ∀ next, rule.rank next < r) :
    Settles w (n + 1) (self rule) (self' rule) := by
  intro env s hs hn
  have hle := Nat.lt_or_eq_of_le (Nat.le_of_lt_succ hn)
  exact (h rule env s hs (hle.imp_right fun he => ⟨he, hr _⟩)).mono fun _ _ hs' => hs'.onward

theorem Ready.consumes (h : Ready w self self' n r) (rule : Rule α) (hr : ∀ next, rule.rank next < r)
    (hrule : rule.advances = true) : Consumes w (n + 1) (self rule) (self' rule) := by
  intro env s hs hn
  have hle := Nat.lt_or_eq_of_le (Nat.le_of_lt_succ hn)
  exact (h rule env s hs (hle.imp_right fun he => ⟨he, hr _⟩)).mono fun _ _ hs' => hs'.past hrule

theorem Rule.rank_negation_le (next : TokenKind) : Rule.negation.rank next ≤ 7 := by
  change (if next = .keyword .notKw then 1 else 7) ≤ 7
  split <;> decide

theorem Rule.rank_unary_le (next : TokenKind) : Rule.unary.rank next ≤ 3 := by
  change (if isSign next then 1 else 3) ≤ 3
  split <;> decide

end Ready

/-! ## Arguments -/

section Args

variable {self self' : Reader} {w : Page} {n : Nat}

theorem settles_parenArgs (h : Below w self self' n) : Settles w n (parenArgs self) (parenArgs self') := by
  unfold parenArgs
  refine (settles_need _ _).bind fun _ => ?_
  refine Settles.bind (h (.args _)).nested fun args => ?_
  refine (settles_need _ _).bind fun _ => ?_
  exact settles_pure

theorem settles_commandArgs (h : Below w self self' n) : Settles w n (commandArgs self) (commandArgs self') := by
  unfold commandArgs
  refine Settles.bind (Settles.withoutDo ?_) fun args => settles_pure
  refine (h .arg).bind fun a => ?_
  refine (h .moreArgs).bind fun more => ?_
  exact settles_pure

theorem settles_args (closer : TokenKind) (h : Ready w self self' n 9) :
    Settles w (n + 1) (readArgs self closer) (readArgs self' closer) := by
  unfold readArgs
  refine settles_skipNewlines.bind fun _ => ?_
  refine .look (sees_atAny _) fun closed => ?_
  refine .ite (fun _ => settles_pure) (fun _ => ?_)
  refine ((h.consumes .arg (fun _ => Nat.lt_succ_self 8) rfl).bind fun a => ?_).settles
  refine settles_skipNewlines.bind fun _ => ?_
  refine (settles_eat _).bind fun comma => ?_
  refine .ite (fun _ => ?_) (fun _ => settles_pure)
  exact (h.below (.args closer)).bind fun more => settles_pure

theorem settles_moreArgs (h : Below w self self' n) : Settles w (n + 1) (readMoreArgs self) (readMoreArgs self') := by
  unfold readMoreArgs
  refine settles_eat_bind (by decide) ?_ settles_pure
  refine settles_skipNewlines.bind fun _ => ?_
  refine (h .arg).bind fun a => ?_
  exact (h .moreArgs).bind fun more => settles_pure

theorem opens_labelArg (start : Nat) (h : Below w self self' n) :
    Opens w (n + 1) (labelArg self start) (labelArg self' start) := by
  unfold labelArg
  refine opens_bump.bind fun label => ?_
  refine .look (sees_lineOf _) fun line => ?_
  refine settles_skipNewlines.bind fun _ => ?_
  refine .look (sees_atAny _) fun bare => ?_
  refine .ite (fun _ => (sees_mkNode _ _).settles) (fun _ => ?_)
  exact (h .negation).bind fun value => (sees_mkNode _ _).settles

theorem opens_quotedKeyArg (value : StrLit) (start : Nat) (h : Below w self self' n) :
    Opens w (n + 1) (quotedKeyArg self value start) (quotedKeyArg self' value start) := by
  unfold quotedKeyArg
  refine opens_bump.bind fun t => ?_
  refine settles_bump.bind fun _ => ?_
  refine .look (sees_lineOf _) fun line => ?_
  refine settles_skipNewlines.bind fun _ => ?_
  exact (h .negation).bind fun value => (sees_mkNode _ _).settles

theorem consumes_plainArg (start : Nat) (h : Ready w self self' n 8) :
    Consumes w (n + 1) (plainArg self start) (plainArg self' start) := by
  unfold plainArg
  refine (h.consumes .negation (fun next => Nat.lt_succ_of_le (Rule.rank_negation_le next)) rfl).bind fun value => ?_
  refine (settles_eat _).bind fun arrow => ?_
  refine .ite (fun _ => ?_) (fun _ => settles_pure)
  refine settles_skipNewlines.bind fun _ => ?_
  exact (h.below .negation).bind fun value => (sees_mkNode _ _).settles

theorem consumes_arg (h : Ready w self self' n 8) : Consumes w (n + 1) (readArg self) (readArg self') := by
  intro env s hs hn
  have hbelow : Below w self self' n := h.below
  unfold readArg
  rw [agree_here, agree_peekKind]
  cases hk : s.peek.kind with
  | amp =>
    refine opens_bump.bind (fun _ => ?_) env s hs hn (by simp [hk])
    refine .look (sees_atAny _) fun bare => ?_
    refine .ite (fun _ => (sees_mkNode _ _).settles) (fun _ => ?_)
    exact (hbelow .ternary).bind fun value => (sees_mkNode _ _).settles
  | label => exact opens_labelArg _ hbelow env s hs hn (by simp [hk])
  | string value =>
    refine agree_look (sees_colonAt 1) fun colon => ?_
    cases colon with
    | true => exact opens_quotedKeyArg _ _ hbelow env s hs hn (by simp [hk])
    | false => exact consumes_plainArg _ h env s hs hn
  | _ => exact consumes_plainArg _ h env s hs hn

/-! ## Parameters -/

/-- A group ends behind one of the tokens, and the tokens behind it are the last of them. -/
theorem parensEnd_within {depth : Nat} {rest rest' : List (Token TokenKind)} {e : Nat}
    (h : parensEnd depth rest = some (rest', e)) : rest' <:+ rest ∧ ∃ t ∈ rest, t.span.stop = e := by
  have hlater : ∀ {t : Token TokenKind} {rest : List (Token TokenKind)},
      (rest' <:+ rest ∧ ∃ t ∈ rest, t.span.stop = e) → rest' <:+ t :: rest ∧ ∃ u ∈ t :: rest, u.span.stop = e :=
    fun ⟨hsuffix, u, hu, hstop⟩ => ⟨hsuffix.trans (List.suffix_cons _ _), u, List.mem_cons_of_mem _ hu, hstop⟩
  fun_induction parensEnd depth rest with
  | case1 => cases h
  | case2 depth t rest hk ih => exact hlater (ih h)
  | case3 t | case4 t =>
    cases h
    exact ⟨List.suffix_cons _ _, t, List.mem_cons_self, rfl⟩
  | case5 t rest hk hr depth =>
    rename_i ih
    exact hlater (ih h)
  | case6 depth t rest hk hr ih => exact hlater (ih h)

theorem opens_groupParam (start : Nat) : Opens w (n + 1) (groupParam start) (groupParam start) := by
  unfold groupParam
  refine opens_bump.bind fun _ env s hs hn => ?_
  rw [agree_get]
  cases hends : parensEnd 1 s.rest with
  | none => exact agree_fail
  | some found => exact agree_set.mpr (agree_read.mpr (agree_pure ⟨rfl, (parensEnd_within hends).1⟩))

theorem opens_sigilParam (kind : ParamKind) : Opens w (n + 1) (some <$> sigilParam kind) (some <$> sigilParam kind) := by
  have hmap : some <$> sigilParam kind = sigilParam kind >>= fun p => pure (some p) := (bind_pure_comp _ _).symm
  rw [hmap]
  unfold sigilParam
  rw [bind_assoc]
  refine opens_bump.bind fun _ => ?_
  refine Settles.bind ?_ fun _ => settles_pure
  refine .look (sees_at _) fun named => ?_
  refine .ite_bind ?_ settles_pure fun name => settles_pure
  exact settles_bump.bind fun _ => settles_pure

theorem opens_param (closers : List TokenKind) (h : Below w self self' n) :
    Opens w (n + 1) (readParam self closers) (readParam self' closers) := by
  intro env s hs hn hne
  unfold readParam
  rw [agree_peekKind]
  cases hk : s.peek.kind with
  | star | doubleStar | amp => exact opens_sigilParam _ env s hs hn hne
  | label =>
    refine opens_bump.bind (fun label => ?_) env s hs hn hne
    refine .look (sees_atAny _) fun bare => ?_
    refine .ite (fun _ => settles_pure) (fun _ => ?_)
    exact (h .unary).bind fun value => settles_pure
  | ident =>
    refine opens_bump.bind (fun name => ?_) env s hs hn hne
    refine (settles_eat _).bind fun assigned => ?_
    refine .ite (fun _ => ?_) (fun _ => settles_pure)
    exact .ite_bind (h .ternary) (h .unary) fun value => settles_pure
  | lparen =>
    refine agree_look sees_here fun start => ?_
    refine (opens_groupParam start env s hs hn hne).bind fun name s' hs' => ?_
    exact agree_pure hs'
  | _ => exact opens_bump.bind (fun _ => settles_pure) env s hs hn hne

theorem settles_params (closers : List TokenKind) (h : Below w self self' n) :
    Settles w (n + 1) (readParams self closers) (readParams self' closers) := by
  unfold readParams
  refine .pass_ite settles_skipNewlines fun env s hs hn => ?_
  rw [agree_atAny]
  refine .ite (fun _ => agree_pure (.refl s)) (fun hopen => ?_)
  have hne : s.peek.kind ≠ .eof := by
    intro he
    simp [he] at hopen
  rw [agree_here]
  -- Whatever stands here is used up, so the next parameter has fewer tokens left.
  refine Opens.onward ((opens_param closers h).bind fun found => ?_) hs hn hne
  refine .look sees_prevEnd fun stop => ?_
  refine .pass_ite settles_skipNewlines ?_
  refine (settles_eat _).bind fun comma => ?_
  refine .pass_ite (settles_eat _) ?_
  refine (h (.params closers)).bind fun rest => ?_
  cases found with
  | none => exact settles_pure
  | some param => exact settles_pure

end Args

/-! ## Statements and operators -/

section Operators

variable {self self' : Reader} {w : Page} {n : Nat}

theorem settles_statements (stops : List TokenKind) (h : Ready w self self' n 11) :
    Settles w (n + 1) (readStatements self stops) (readStatements self' stops) := by
  unfold readStatements
  refine .look sees_here fun start => ?_
  exact (h.settles (.items stops) fun _ => Nat.lt_succ_self 10).bind fun items => (sees_mkNode _ _).settles

theorem settles_items (stops : List TokenKind) (h : Ready w self self' n 10) :
    Settles w (n + 1) (readItems self stops) (readItems self' stops) := by
  unfold readItems
  refine settles_skipTerminators.bind fun _ => ?_
  refine .look (sees_atAny _) fun closed => ?_
  refine .ite (fun _ => settles_pure) (fun _ => ?_)
  refine ((h.consumes .statement (fun _ => Nat.lt_succ_self 9) rfl).bind fun statement => ?_).settles
  exact (h.below (.items stops)).bind fun more => settles_pure

theorem consumes_statement (h : Ready w self self' n 9) :
    Consumes w (n + 1) (readStatement self) (readStatement self') := by
  unfold readStatement
  refine .look sees_here fun start => ?_
  exact (h.consumes .sentence (fun _ => Nat.lt_succ_self 8) rfl).bind fun sentence => h.below (.modifiers _ _)

theorem settles_modifiers (start : Nat) (m : Node) (h : Below w self self' n) :
    Settles w (n + 1) (readModifiers self start m) (readModifiers self' start m) := by
  intro env s hs hn
  unfold readModifiers
  rw [agree_peekKind]
  cases hk : s.peek.kind with
  | keyword k =>
    refine .ite (fun _ => ?_) (fun _ => agree_pure (.refl s))
    refine Opens.onward (opens_bump.bind fun _ => ?_) hs hn (by simp [hk])
    refine (h .sentence).bind fun condition => ?_
    exact .look (sees_mkNode _ _) fun m => h (.modifiers start m)
  | _ => exact agree_pure (.refl s)

theorem consumes_sentence (h : Ready w self self' n 8) : Consumes w (n + 1) (readSentence self) (readSentence self') := by
  unfold readSentence
  refine .look sees_here fun start => ?_
  refine (h.consumes .negation (fun next => Nat.lt_succ_of_le (Rule.rank_negation_le next)) rfl).bind fun lhs => ?_
  exact h.below (.joined _ _)

theorem settles_joined (start : Nat) (lhs : Node) (h : Below w self self' n) :
    Settles w (n + 1) (readJoined self start lhs) (readJoined self' start lhs) := by
  unfold readJoined
  refine settles_atAny (by decide) ?_ settles_pure
  refine opens_bump.bind fun op => ?_
  refine settles_skipNewlines.bind fun _ => ?_
  refine (h .negation).bind fun rhs => ?_
  exact .look (sees_mkNode _ _) fun m => h (.joined start m)

/-- Behind a `not` is another negation, with that token used up. -/
theorem agree_negation {env : ParseEnv} {s : Stream TokenKind} (hs : w.Holds env s)
    (h : Ready w self self' s.rest.length (Rule.negation.rank s.peek.kind)) :
    Agree (readNegation self) (readNegation self') env s fun _ s' => s.Past s' := by
  unfold readNegation atKeyword
  rw [agree_at]
  by_cases hk : s.peek.kind = .keyword .notKw
  · rw [decide_eq_true hk]
    refine opens_bump.bind (fun _ => ?_) env s hs (Nat.lt_succ_self _) (by simp [hk])
    exact (h.below .negation).bind fun operand => (sees_mkNode _ _).settles
  · rw [decide_eq_false hk]
    have hrank : Rule.negation.rank s.peek.kind = 7 := if_neg hk
    rw [hrank] at h
    exact h.consumes .expr (fun _ => Nat.lt_succ_self 6) rfl env s hs (Nat.lt_succ_self _)

theorem settles_assignedValue (h : Below w self self' n) : Settles w n (assignedValue self) (assignedValue self') := by
  unfold assignedValue
  refine .look sees_here fun start => ?_
  refine (h .expr).bind fun first => ?_
  refine .look (sees_at _) fun comma => ?_
  refine .ite (fun _ => ?_) (fun _ => settles_pure)
  exact (h .moreArgs).bind fun more => (sees_mkNode _ _).settles

theorem consumes_expr (h : Ready w self self' n 6) : Consumes w (n + 1) (readExpr self) (readExpr self') := by
  unfold readExpr
  refine .look sees_here fun start => ?_
  refine (h.consumes .ternary (fun _ => Nat.lt_succ_self 5) rfl).bind fun target => ?_
  have hvalue := settles_assignedValue h.below
  refine .ite (fun _ => ?_) (fun _ => settles_pure)
  refine .look sees_peekKind fun kind => ?_
  cases kind with
  | assign =>
    refine settles_bump.bind fun _ => ?_
    refine settles_skipNewlines.bind fun _ => ?_
    exact hvalue.bind fun value => (sees_mkNode _ _).settles
  | opAssign =>
    refine settles_bump.bind fun op => ?_
    refine settles_skipNewlines.bind fun _ => ?_
    exact hvalue.bind fun value => (sees_mkNode _ _).settles
  | _ => exact settles_pure

theorem settles_elseBranch (h : Below w self self' n) : Settles w n (elseBranch self) (elseBranch self') := by
  unfold elseBranch
  refine (settles_eat _).bind fun colon => ?_
  refine .ite (fun _ => ?_) (fun _ => ?_)
  · refine settles_skipNewlines.bind fun _ => ?_
    exact (h .ternary).bind fun value => settles_pure
  · refine .look (sees_at _) fun joined => ?_
    refine .ite (fun _ => ?_) (fun _ => settles_pure)
    refine settles_bump.bind fun t => ?_
    exact .look (sees_mkNode _ _) fun value => settles_pure

theorem consumes_ternary (h : Ready w self self' n 5) : Consumes w (n + 1) (readTernary self) (readTernary self') := by
  unfold readTernary
  refine .look sees_here fun start => ?_
  refine (h.consumes (.binary 0) (fun _ => Nat.lt_succ_self 4) rfl).bind fun condition => ?_
  refine (settles_eat _).bind fun question => ?_
  refine .ite (fun _ => ?_) (fun _ => settles_pure)
  refine settles_skipNewlines.bind fun _ => ?_
  refine (h.below .ternary).bind fun then_ => ?_
  refine settles_skipNewlines.bind fun _ => ?_
  exact (settles_elseBranch h.below).bind fun else_ => (sees_mkNode _ _).settles

theorem consumes_binary (min : Nat) (h : Ready w self self' n 4) :
    Consumes w (n + 1) (readBinary self min) (readBinary self' min) := by
  unfold readBinary
  refine .look sees_here fun start => ?_
  refine (h.consumes .unary (fun next => Nat.lt_succ_of_le (Rule.rank_unary_le next)) rfl).bind fun lhs => ?_
  exact h.below (.operators _ _ _)

theorem ne_eof_of_precedence {t : Token TokenKind} {p : Nat × Bool} (h : precedence? t = some p) : t.kind ≠ .eof := by
  intro he
  simp [precedence?, he] at h

theorem settles_operators (min start : Nat) (lhs : Node) (h : Below w self self' n) :
    Settles w (n + 1) (readOperators self min start lhs) (readOperators self' min start lhs) := by
  intro env s hs hn
  unfold readOperators
  rw [agree_peek]
  cases hp : precedence? s.peek with
  | none => exact agree_pure (.refl s)
  | some found =>
    refine .ite (fun _ => agree_pure (.refl s)) (fun _ => ?_)
    refine Opens.onward (opens_bump.bind fun op => ?_) hs hn (ne_eof_of_precedence hp)
    refine settles_skipNewlines.bind fun _ => ?_
    refine (h (.binary _)).bind fun rhs => ?_
    exact .look (sees_mkNode _ _) fun m => h (.operators min start m)

theorem settles_signed (op : String) (start : Nat) (h : Below w self self' n) :
    Settles w n (signed self op start) (signed self' op start) := by
  unfold signed
  exact (h .unary).bind fun operand => (sees_mkNode _ _).settles

/-- Behind a sign is another operand, with the sign used up. -/
theorem agree_unary {env : ParseEnv} {s : Stream TokenKind} (hs : w.Holds env s)
    (h : Ready w self self' s.rest.length (Rule.unary.rank s.peek.kind)) :
    Agree (readUnary self) (readUnary self') env s fun _ s' => s.Past s' := by
  have hbelow : Below w self self' s.rest.length := h.below
  have hn := Nat.lt_succ_self s.rest.length
  have hprimary : isSign s.peek.kind = false → Consumes w (s.rest.length + 1)
      (self .primary >>= fun m => self (.trailers m.span.start m))
      (self' .primary >>= fun m => self' (.trailers m.span.start m)) := by
    intro hk
    have hrank : Rule.unary.rank s.peek.kind = 3 := if_neg (by simp [hk])
    rw [hrank] at h
    exact (h.consumes .primary (fun _ => Nat.lt_succ_self 2) rfl).bind fun m => hbelow (.trailers _ m)
  unfold readUnary
  rw [agree_peek]
  cases hk : s.peek.kind with
  | bang | plus => exact opens_bump.bind (fun _ => settles_signed _ _ hbelow) env s hs hn (by simp [hk])
  | minus =>
    refine opens_bump.bind (fun _ => ?_) env s hs hn (by simp [hk])
    refine .look sees_peek fun next => ?_
    refine .ite (fun _ => ?_) (fun _ => settles_signed _ _ hbelow)
    refine settles_bump.bind fun _ => ?_
    exact .look (sees_mkNode _ _) fun m => hbelow (.trailers _ m)
  | star | doubleStar =>
    refine opens_bump.bind (fun _ => ?_) env s hs hn (by simp [hk])
    exact (hbelow .unary).bind fun value => (sees_mkNode _ _).settles
  | operator =>
    refine .ite (fun _ => ?_) (fun _ => hprimary (by simp [hk, isSign]) env s hs hn)
    exact opens_bump.bind (fun _ => settles_signed _ _ hbelow) env s hs hn (by simp [hk])
  | _ =>
    exact hprimary (by simp [hk, isSign]) env s hs hn

end Operators

/-! ## Calls and what follows a value -/

section Calls

variable {self self' : Reader} {w : Page} {n : Nat}

theorem settles_body (h : Ready w self self' n 12) : Settles w (n + 1) (readBody self) (readBody self') := by
  have hstatements : ∀ stops, Settles w (n + 1) (self (.statements stops)) (self' (.statements stops)) :=
    fun stops => h.settles _ fun _ => Nat.lt_succ_self 11
  have hclause : ∀ stops, Settles w (n + 1) (self (.statements stops) >>= fun m => pure [m])
      (self' (.statements stops) >>= fun m => pure [m]) := fun stops => (hstatements stops).bind fun _ => settles_pure
  unfold readBody
  refine .look sees_here fun start => ?_
  refine (hstatements _).bind fun main => ?_
  refine .look (sees_atAny _) fun clauses => ?_
  refine .ite (fun _ => ?_) (fun _ => settles_pure)
  refine (h.settles .rescues (fun _ => (by decide : 1 < 12))).bind fun rescues => ?_
  refine (settles_eat _).bind fun _ => ?_
  refine .ite_bind (hclause _) settles_pure fun else_ => ?_
  refine (settles_eat _).bind fun _ => ?_
  exact .ite_bind (hclause _) settles_pure fun ensure_ => (sees_mkNode _ _).settles

theorem settles_rescueTypes (h : Ready w self self' n 6) :
    Settles w (n + 1) (readRescueTypes self) (readRescueTypes self') := by
  unfold readRescueTypes
  refine .look (sees_atAny _) fun closed => ?_
  refine .ite (fun _ => settles_pure) (fun _ => ?_)
  refine ((h.consumes .ternary (fun _ => Nat.lt_succ_self 5) rfl).bind fun type => ?_).settles
  refine (settles_eat _).bind fun comma => ?_
  refine .ite (fun _ => ?_) (fun _ => settles_pure)
  refine settles_skipNewlines.bind fun _ => ?_
  exact (h.below .rescueTypes).bind fun more => settles_pure

theorem settles_rescues (h : Below w self self' n) : Settles w (n + 1) (readRescues self) (readRescues self') := by
  unfold readRescues eatKeyword
  refine settles_eat_bind (by decide) ?_ settles_pure
  refine .look sees_prevEnd fun start => ?_
  refine (h .rescueTypes).bind fun types => ?_
  refine (settles_eat _).bind fun arrow => ?_
  refine .ite_bind ((h .primary).bind fun _ => settles_pure) settles_pure fun binding => ?_
  refine (settles_eat _).bind fun _ => ?_
  refine (h (.statements _)).bind fun body => ?_
  refine .look (sees_mkNode _ _) fun clause => ?_
  exact (h .rescues).bind fun more => settles_pure

theorem settles_blockParams (h : Below w self self' n) : Settles w n (blockParams self) (blockParams self') := by
  unfold blockParams
  refine (settles_eat _).bind fun pipe => ?_
  refine .ite (fun _ => ?_) (fun _ => ?_)
  · refine (h (.params _)).bind fun params => ?_
    exact (settles_need _ _).bind fun _ => settles_pure
  · exact (settles_eat _).bind fun _ => settles_pure

theorem opens_block (h : Below w self self' n) : Opens w (n + 1) (block self) (block self') := by
  unfold block
  refine opens_bump.bind fun opener => ?_
  refine Settles.bind (Settles.nested ?_) fun inside => ?_
  · refine (settles_blockParams h).bind fun params => ?_
    exact .ite_bind (h .body) (h (.statements _)) fun body => settles_pure
  · obtain ⟨params, body⟩ := inside
    dsimp only
    refine .ite (fun _ => settles_needEnd.bind fun _ => ?_) (fun _ => (settles_need _ _).bind fun _ => ?_)
    · exact .look sees_prevEnd fun stop => .look (sees_lineOf _) fun line => settles_pure
    · exact .look sees_prevEnd fun stop => .look (sees_lineOf _) fun line => settles_pure

theorem opens_attachBlock (m : Node) (h : Below w self self' n) :
    Opens w (n + 1) (attachBlock self m) (attachBlock self' m) := by
  unfold attachBlock
  refine (opens_block h).bind fun b => ?_
  exact .look sees_prevEnd fun stop => settles_pure

theorem settles_callArgs (h : Below w self self' n) : Settles w n (callArgs self) (callArgs self') := by
  unfold callArgs
  refine .look (sees_parenAt 0) fun paren => ?_
  refine .ite (fun _ => (settles_parenArgs h).bind fun args => settles_pure) (fun _ => ?_)
  refine .look sees_commandArgStarts fun starts => ?_
  exact .ite (fun _ => (settles_commandArgs h).bind fun args => settles_pure) (fun _ => settles_pure)

theorem settles_methodCall (receiver : Node) (start : Nat) (h : Below w self self' n) :
    Settles w n (methodCall self receiver start) (methodCall self' receiver start) := by
  unfold methodCall mkCall
  refine .look sees_peek fun t => ?_
  refine .ite (fun _ => ?_) (fun _ => ?_)
  · exact (settles_parenArgs h).bind fun args => (sees_mkNode _ _).settles
  · cases methodName? t with
    | none => exact settles_fail
    | some method =>
      refine settles_bump.bind fun _ => ?_
      exact (settles_callArgs h).bind fun args => (sees_mkNode _ _).settles

theorem opens_scopedName (m : Node) (start : Nat) (h : Below w self self' n) :
    Opens w (n + 1) (scopedName self m start) (scopedName self' m start) := by
  unfold scopedName
  refine opens_bump.bind fun _ => ?_
  refine .look (sees_at _) fun name => ?_
  refine .look (sees_parenAt 1) fun paren => ?_
  refine .ite (fun _ => ?_) (fun _ => settles_methodCall m start h)
  exact settles_bump.bind fun _ => (sees_mkNode _ _).settles

theorem opens_index (m : Node) (start : Nat) (h : Below w self self' n) :
    Opens w (n + 1) (index self m start) (index self' m start) := by
  unfold index mkCall
  refine opens_bump.bind fun _ => ?_
  refine Settles.bind (h (.args _)).nested fun args => ?_
  exact (settles_need _ _).bind fun _ => (sees_mkNode _ _).settles

/-- The line feeds in front of a dot are tokens too. -/
theorem settles_trailers (start : Nat) (m : Node) (h : Below w self self' n) :
    Settles w (n + 1) (readTrailers self start m) (readTrailers self' start m) := by
  intro env s hs hn
  have hrest : ∀ m, Settles w n (self (.trailers start m)) (self' (.trailers start m)) := fun m => h (.trailers start m)
  unfold readTrailers
  rw [agree_peek]
  cases hk : s.peek.kind with
  | dot | safeNav =>
    refine Opens.onward (opens_bump.bind fun _ => ?_) hs hn (by simp [hk])
    refine settles_skipNewlines.bind fun _ => ?_
    exact (settles_methodCall m start h).bind hrest
  | newline =>
    refine agree_look sees_lineGoesOn fun goesOn => ?_
    refine .ite (fun _ => ?_) (fun _ => agree_pure (.refl s))
    have hpast : s.Past (s.skipWhile isNewline) := Stream.past_skipWhile (by rw [hk]; rfl) (by rw [hk, hs.stop]; decide)
    have hlt := hpast.lt
    exact (hrest m env _ (hs.past hpast) (by omega)).mono fun _ _ hs' => (hpast.onward).trans hs'
  | colonColon => exact ((opens_scopedName m start h).bind hrest).onward hs hn (by simp [hk])
  | lbracket =>
    refine .ite (fun _ => agree_pure (.refl s)) (fun _ => ?_)
    exact ((opens_index m start h).bind hrest).onward hs hn (by simp [hk])
  | lbrace =>
    refine .ite (fun _ => ?_) (fun _ => agree_pure (.refl s))
    exact ((opens_attachBlock m h).bind hrest).onward hs hn (by simp [hk])
  | keyword k =>
    cases k with
    | doKw =>
      refine agree_look sees_read fun env' => ?_
      refine .ite (fun _ => ?_) (fun _ => agree_pure (.refl s))
      exact ((opens_attachBlock m h).bind hrest).onward hs hn (by simp [hk])
    | _ => exact agree_pure (.refl s)
  | _ => exact agree_pure (.refl s)

end Calls

end PuppetDocs.Ruby
