import PuppetDocs.Proofs.Descent.Requests
import PuppetDocs.Proofs.Tree.Order

/-
  PuppetDocs.Proofs.Command.Yields — what a parser reads if its recursion may go deep enough.

  `Yields p env s a s'` says that the parser `p` reads `a` at `s` and goes on at `s'`, with every
  bound on the recursion from some bound on. So proofs that put parsers together need not add up
  bounds; that the bound of the whole parser is large enough is known (`parse_yields`).

  From an operand to a statement lie the rules for operators, assignments and modifiers. None of
  them reads on in front of a quiet token, and only a name, a constant or the like can be
  assigned to.
-/

namespace PuppetDocs.Ruby

open ParseM

/-- From some bound on, `p` reads `a` at `s` and goes on at `s'`. -/
def Yields {α : Type} (p : Nat → P α) (env : ParseEnv) (s : Stream TokenKind) (a : α) (s' : Stream TokenKind) : Prop :=
  ∃ k, ∀ n, k ≤ n → p n env s = .ok (a, s')

abbrev RuleYields {α : Type} (rule : Rule α) (env : ParseEnv) (s : Stream TokenKind) (a : α)
    (s' : Stream TokenKind) : Prop :=
  Yields (fun n => Rule.run n rule) env s a s'

variable {α β : Type} {env : ParseEnv} {s s' s₁ : Stream TokenKind} {a : α} {b : β} {x y : Node}

/-! ## Putting parsers together -/

theorem Yields.bind {p : Nat → P α} {f : Nat → α → P β} (h : Yields p env s a s₁)
    (hf : Yields (fun n => f n a) env s₁ b s') : Yields (fun n => p n >>= f n) env s b s' := by
  obtain ⟨k, hk⟩ := h
  obtain ⟨l, hl⟩ := hf
  refine ⟨max k l, fun n hn => ?_⟩
  show (p n >>= f n) env s = _
  rw [bind_eq, hk n (Nat.le_trans (Nat.le_max_left k l) hn)]
  exact hl n (Nat.le_trans (Nat.le_max_right k l) hn)

/-- Reading a rule takes one level of the recursion. -/
theorem Yields.rule {rule : Rule α} (h : Yields (fun n => Rule.step (Rule.run n) rule) env s a s') : RuleYields rule env s a s' := by
  obtain ⟨k, hk⟩ := h
  refine ⟨k + 1, fun n hn => ?_⟩
  obtain ⟨m, rfl⟩ := Nat.exists_eq_add_of_le' (show 1 ≤ n by omega)
  exact hk m (by omega)

theorem yields_pure : Yields (fun _ => pure a) env s a s := ⟨0, fun _ _ => rfl⟩

theorem Yields.ite {c : Prop} [Decidable c] {p q : Nat → P α} (h : c → Yields p env s a s')
    (k : ¬c → Yields q env s a s') : Yields (fun n => if c then p n else q n) env s a s' := by
  split
  · exact h ‹_›
  · exact k ‹_›

section Look

variable {f : Nat → Token TokenKind → P β} {g : Nat → TokenKind → P β} {h : Nat → Nat → P β}
  {i : Nat → Bool → P β}

theorem yields_peek : Yields (fun n => peek >>= f n) env s b s' ↔ Yields (fun n => f n s.peek) env s b s' :=
  Iff.rfl

theorem yields_peekKind :
    Yields (fun n => peekKind >>= g n) env s b s' ↔ Yields (fun n => g n s.peek.kind) env s b s' := Iff.rfl

theorem yields_here :
    Yields (fun n => here >>= h n) env s b s' ↔ Yields (fun n => h n s.peek.span.start) env s b s' := Iff.rfl

theorem yields_at {kind : TokenKind} :
    Yields (fun n => at_ kind >>= i n) env s b s' ↔
      Yields (fun n => i n (decide (s.peek.kind = kind))) env s b s' := Iff.rfl

theorem yields_atAny {kinds : List TokenKind} :
    Yields (fun n => atAny kinds >>= i n) env s b s' ↔
      Yields (fun n => i n (kinds.contains s.peek.kind)) env s b s' := Iff.rfl

theorem yields_colonAt {k : Nat} :
    Yields (fun n => colonAt k >>= i n) env s b s' ↔
      Yields (fun n => i n (decide ((s.peekAt k).kind = .colon ∧ !(s.peekAt k).spaced))) env s b s' := Iff.rfl

theorem yields_bump :
    Yields (fun n => bump >>= f n) env s b s' ↔ Yields (fun n => f n s.peek) env s.advance b s' := Iff.rfl

theorem yields_read {f : Nat → ParseEnv → P β} :
    Yields (fun n => MonadReader.read >>= f n) env s b s' ↔ Yields (fun n => f n env) env s b s' := Iff.rfl

theorem yields_nested {p : Nat → P α} :
    Yields (fun n => nested (p n)) env s a s' ↔ Yields p { env with holdDo := false } s a s' := Iff.rfl

theorem yields_withoutDo {p : Nat → P α} :
    Yields (fun n => withoutDo (p n)) env s a s' ↔ Yields p { env with holdDo := true } s a s' := Iff.rfl

end Look

theorem skipWhile_stays {p : TokenKind → Bool} (h : p s.peek.kind = false) (hstop : p .eof = false ∨ s.rest ≠ []) :
    s.skipWhile p = s := by
  obtain ⟨rest, stop, prevEnd⟩ := s
  cases rest with
  | nil => rfl
  | cons t rest =>
    have ht : p t.kind = false := h
    rw [Stream.skipWhile_cons, ht]
    rfl

theorem yields_skipNewlines {f : Nat → Unit → P β} (h : s.peek.kind ≠ .newline)
    (hf : Yields (fun n => f n ()) env s b s') : Yields (fun n => skipNewlines >>= f n) env s b s' := by
  have hstays : s.skipWhile isNewline = s := by
    refine skipWhile_stays ?_ (.inl rfl)
    cases hk : s.peek.kind with
    | newline => exact absurd hk h
    | _ => rfl
  obtain ⟨k, hk⟩ := hf
  refine ⟨k, fun n hn => ?_⟩
  show f n () env (s.skipWhile isNewline) = _
  rw [hstays]
  exact hk n hn

theorem yields_eat {kind : TokenKind} {f : Nat → Bool → P β} (h : s.peek.kind = kind)
    (hf : Yields (fun n => f n true) env s.advance b s') : Yields (fun n => eat kind >>= f n) env s b s' := by
  have heat : eat kind env s = .ok (true, s.advance) := by
    show (if s.peek.kind = kind then _ else _ : P Bool) env s = _
    rw [if_pos h]
    rfl
  exact .bind (p := fun _ => eat kind) ⟨0, fun _ _ => heat⟩ hf

theorem yields_not_eat {kind : TokenKind} {f : Nat → Bool → P β} (h : s.peek.kind ≠ kind)
    (hf : Yields (fun n => f n false) env s b s') : Yields (fun n => eat kind >>= f n) env s b s' := by
  have heat : eat kind env s = .ok (false, s) := by
    show (if s.peek.kind = kind then _ else _ : P Bool) env s = _
    rw [if_neg h]
    rfl
  exact .bind (p := fun _ => eat kind) ⟨0, fun _ _ => heat⟩ hf

theorem yields_need {kind : TokenKind} {expected : String} {f : Nat → Token TokenKind → P β} (h : s.peek.kind = kind)
    (hf : Yields (fun n => f n s.peek) env s.advance b s') :
    Yields (fun n => need kind expected >>= f n) env s b s' := by
  have hneed : need kind expected env s = .ok (s.peek, s.advance) := by
    show (if s.peek.kind = kind then _ else _ : P (Token TokenKind)) env s = _
    rw [if_pos h]
    rfl
  exact .bind (p := fun _ => need kind expected) ⟨0, fun _ _ => hneed⟩ hf

/-- What is known without reading on. -/
theorem yields_known {p : P α} {f : Nat → α → P β} (h : p env s = .ok (a, s)) (hf : Yields (fun n => f n a) env s b s') :
    Yields (fun n => p >>= f n) env s b s' :=
  .bind (p := fun _ => p) ⟨0, fun _ _ => h⟩ hf

theorem parenAt_tight {t : Token TokenKind} {rest : List (Token TokenKind)} {stop : Token TokenKind} {pe : Nat}
    (hkind : t.kind = .lparen) (htight : t.spaced = false) :
    parenAt 0 env ⟨t :: rest, stop, pe⟩ = .ok (true, ⟨t :: rest, stop, pe⟩) :=
  congrArg (fun b => Except.ok (b, _)) (decide_eq_true ⟨hkind, congrArg (!·) htight⟩)

theorem parenAt_apart (h : s.peek.kind ≠ .lparen) : parenAt 0 env s = .ok (false, s) := by
  have hpeek : s.peekAt 0 = s.peek := by
    obtain ⟨rest, stop, prevEnd⟩ := s
    cases rest <;> rfl
  show Except.ok (decide ((s.peekAt 0).kind = .lparen ∧ _), s) = _
  rw [hpeek, decide_eq_false fun hand => h hand.1]

theorem parenAt_one_apart {t stop : Token TokenKind} {rest : List (Token TokenKind)} {pe : Nat}
    (h : (rest.headD stop).kind ≠ .lparen) : parenAt 1 env ⟨t :: rest, stop, pe⟩ = .ok (false, ⟨t :: rest, stop, pe⟩) := by
  have hpeek : (Stream.mk (t :: rest) stop pe).peekAt 1 = rest.headD stop := by cases rest <;> rfl
  show Except.ok (decide (((Stream.mk (t :: rest) stop pe).peekAt 1).kind = .lparen ∧ _), _) = _
  rw [hpeek, decide_eq_false fun hand => h hand.1]

theorem yields_mkNode {kind : NodeKind Node} {start : Nat} :
    Yields (fun _ => mkNode kind start) env s
      { kind, span := ⟨start, max s.prevEnd start⟩, line := env.lines.line start } s := ⟨0, fun _ _ => rfl⟩

theorem yields_leaf {kind : NodeKind Node} :
    Yields (fun _ => leaf kind) env s
      { kind, span := s.peek.span, line := env.lines.line s.peek.span.start } s.advance := ⟨0, fun _ _ => rfl⟩

/-! ## Large bounds -/

/-- The bound of the parser is as good as any larger one. -/
theorem parse_yields {text : List Char} {tree : Node} {comments : List Comment} :
    Ruby.parse text = .ok (tree, comments) ↔ ∃ found s', scan text = .ok found ∧ found.comments = comments ∧
      Yields (fun n => program (Rule.run n)) { text, lines := .ofText text }
        { rest := found.tokens, stop := found.stop } tree s' := by
  have hagree : ∀ {found : Scanned TokenKind}, scan text = .ok found → ∀ {n}, depthBound found.tokens.length ≤ n →
      program (Rule.run n) { text, lines := .ofText text } { rest := found.tokens, stop := found.stop } =
        program (Rule.run (depthBound found.tokens.length)) { text, lines := .ofText text }
          { rest := found.tokens, stop := found.stop } := by
    intro found hscan n hn
    have hstop : found.stop.kind = .eof := by rw [(scan_cut hscan).2]
    exact (program_agree hstop (Nat.le_refl _) hn).1
  rw [parse_ok]
  constructor
  · rintro ⟨found, s', hscan, hcomments, hread⟩
    exact ⟨found, s', hscan, hcomments, _, fun n hn => (hagree hscan hn).trans hread⟩
  · rintro ⟨found, s', hscan, hcomments, k, hk⟩
    have hdeep := hk (max k (depthBound found.tokens.length)) (Nat.le_max_left _ _)
    exact ⟨found, s', hscan, hcomments, (hagree hscan (Nat.le_max_right _ _)).symm.trans hdeep⟩

/-- A bound that is linear in the number of tokens is enough for a block. -/
theorem block_yields {k : Nat} {b : Block Node} (hstop : s.stop.kind = .eof) (hpeek : s.peek.kind ≠ .eof)
    (hk : 16 * s.rest.length ≤ k) (h : block (Rule.run k) env s = .ok (b, s')) :
    Yields (fun n => block (Rule.run n)) env s b s' := by
  refine ⟨k, fun n hn => ?_⟩
  have hbelow : Below (Page.mk env.text s.rest) (Rule.run k) (Rule.run n) s.rest.length := by
    intro α rule env' s₁ hs hlt
    have hrank := rule.rank_le s₁.peek.kind
    exact (run_agree rule env' hs.stop (by omega) (by omega)).mono fun _ _ hleaves => hleaves.onward
  exact (opens_block hbelow env s (Page.holds_rest env hstop) (Nat.lt_succ_self _) hpeek).1.trans h

/-! ## From operands to statements -/

/-- The kinds of the tokens in front of which no operator, assignment or modifier follows. -/
def quiet : List TokenKind :=
  [.newline, .semicolon, .eof, .comma, .rparen, .rbracket, .fatArrow, .keyword .doKw]

theorem RuleYields.binary {min : Nat} (h : RuleYields .unary env s x s₁)
    (hmore : RuleYields (.operators min s.peek.span.start x) env s₁ y s') : RuleYields (.binary min) env s y s' := by
  refine .rule ?_
  show Yields (fun n => readBinary (Rule.run n) min) env s y s'
  unfold readBinary
  exact yields_here.mpr (.bind h hmore)

theorem yields_no_operators {min start : Nat} (h : s.peek.kind ∈ quiet) :
    RuleYields (.operators min start x) env s x s := by
  have hnone : precedence? s.peek = none := by
    simp only [quiet, List.mem_cons, List.not_mem_nil, or_false] at h
    unfold precedence?
    rcases h with h | h | h | h | h | h | h | h <;> rw [h]
  refine .rule ?_
  show Yields (fun n => readOperators (Rule.run n) min start x) env s x s
  unfold readOperators
  rw [yields_peek, hnone]
  exact yields_pure

theorem RuleYields.ternary (h : RuleYields (.binary 0) env s x s') (hquiet : s'.peek.kind ∈ quiet) :
    RuleYields .ternary env s x s' := by
  refine .rule ?_
  show Yields (fun n => readTernary (Rule.run n)) env s x s'
  unfold readTernary
  exact yields_here.mpr (.bind h (yields_not_eat (ne_of_mem_of_not_mem hquiet (by decide)) yields_pure))

theorem RuleYields.expr (h : RuleYields .ternary env s x s') (hquiet : s'.peek.kind ∈ quiet) :
    RuleYields .expr env s x s' := by
  refine .rule ?_
  show Yields (fun n => readExpr (Rule.run n)) env s x s'
  unfold readExpr
  refine yields_here.mpr (.bind h (.ite (fun _ => ?_) fun _ => yields_pure))
  rw [yields_peekKind]
  split
  · rename_i hk
    exact absurd hk (ne_of_mem_of_not_mem hquiet (by decide))
  · rename_i hk
    exact absurd hk (ne_of_mem_of_not_mem hquiet (by decide))
  · exact yields_pure

theorem RuleYields.negation (h : RuleYields .expr env s x s') (hstart : s.peek.kind ≠ .keyword .notKw) :
    RuleYields .negation env s x s' := by
  refine .rule ?_
  show Yields (fun n => readNegation (Rule.run n)) env s x s'
  unfold readNegation
  rw [atKeyword, yields_at, decide_eq_false hstart]
  exact h

/-- An operand in front of a quiet token is all that is read. -/
theorem RuleYields.value (h : RuleYields .unary env s x s') (hquiet : s'.peek.kind ∈ quiet)
    (hstart : s.peek.kind ≠ .keyword .notKw) : RuleYields .negation env s x s' :=
  ((h.binary (yields_no_operators hquiet)).ternary hquiet).expr hquiet |>.negation hstart

theorem RuleYields.sentence (h : RuleYields .negation env s x s') (hquiet : s'.peek.kind ∈ quiet) :
    RuleYields .sentence env s x s' := by
  have hjoined : RuleYields (.joined s.peek.span.start x) env s' x s' := by
    refine .rule ?_
    show Yields (fun n => readJoined (Rule.run n) s.peek.span.start x) env s' x s'
    unfold readJoined
    have hapart : ∀ k ∈ quiet, [TokenKind.keyword .andKw, .keyword .orKw].contains k = false := by decide
    rw [yields_atAny, hapart _ hquiet]
    exact yields_pure
  refine .rule ?_
  show Yields (fun n => readSentence (Rule.run n)) env s x s'
  unfold readSentence
  exact yields_here.mpr (.bind h hjoined)

theorem RuleYields.statement (h : RuleYields .sentence env s x s') (hquiet : s'.peek.kind ∈ quiet) :
    RuleYields .statement env s x s' := by
  have hmodifiers : RuleYields (.modifiers s.peek.span.start x) env s' x s' := by
    refine .rule ?_
    show Yields (fun n => readModifiers (Rule.run n) s.peek.span.start x) env s' x s'
    unfold readModifiers
    rw [yields_peekKind]
    split
    · rename_i k hk
      have hapart : ∀ k, TokenKind.keyword k ∈ quiet → isModifier k = false := by
        intro k hk
        cases k <;> first | rfl | exact absurd hk (by decide)
      rw [hapart k (hk ▸ hquiet)]
      exact yields_pure
    · exact yields_pure
  refine .rule ?_
  show Yields (fun n => readStatement (Rule.run n)) env s x s'
  unfold readStatement
  exact yields_here.mpr (.bind h hmodifiers)

end PuppetDocs.Ruby
