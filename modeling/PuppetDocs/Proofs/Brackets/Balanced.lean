import PuppetDocs.Proofs.Brackets.Lax
import PuppetDocs.Proofs.Tree.Reading

/-
  PuppetDocs.Proofs.Brackets.Balanced — parts of the Ruby grammar that keep brackets balanced.

  A parser is `Balanced` if what it uses up is tidy wherever it stands, `BalancedPlain` if that
  holds in front of a token that is no bracket, and `Closing b` if it goes on behind an opening
  bracket `b` up to its partner and further. A parser written with `do` is followed bind by
  bind, and every production in which all brackets are matched is shown to be balanced from
  `Balances`, which says so of the rules inside it. Parameter lists need to know what stands
  in front of them (`Rule.Asks`) and have a module of their own.
-/

namespace PuppetDocs.Ruby

open ParseM

/-! ## Balanced parsers -/

section Parsers

variable {α β : Type}

/-- What the parser uses up is tidy wherever it stands. -/
def Balanced (p : P α) : Prop := ∀ env s before, s.stop.kind = .eof → Tidies Lax before p env s

/-- … if the next token is no bracket. -/
def BalancedPlain (p : P α) : Prop :=
  ∀ env s before, s.stop.kind = .eof → s.peek.side = .plain → Tidies Lax before p env s

/-- What the parser uses up closes the bracket `b` and is tidy but for that. -/
def Closing (b : Bracket) (p : P α) : Prop := ∀ env s before, s.stop.kind = .eof → Shuts Lax b before p env s

variable {p q : P α} {f : α → P β} {b : Bracket}

theorem Balanced.plain (h : Balanced p) : BalancedPlain p := fun env s before hs _ => h env s before hs

theorem balanced_pure (a : α) : Balanced (pure a : P α) := fun _ _ _ _ => tidies_pure a

theorem Balanced.bind (hp : Balanced p) (hf : ∀ a, Balanced (f a)) : Balanced (p >>= f) := fun env s before hs =>
  (hp env s before hs).bind fun a _ _ huses => hf a env _ _ (huses.stop ▸ hs)

theorem BalancedPlain.bind (hp : BalancedPlain p) (hf : ∀ a, Balanced (f a)) : BalancedPlain (p >>= f) :=
  fun env s before hs hpeek => (hp env s before hs hpeek).bind fun a _ _ huses => hf a env _ _ (huses.stop ▸ hs)

theorem Balanced.look (hp : Looks p) (hf : ∀ a, Balanced (f a)) : Balanced (p >>= f) := fun env s before hs =>
  tidies_look hp fun a => hf a env s before hs

theorem Balanced.ite {c : Prop} [Decidable c] (hp : c → Balanced p) (hq : ¬c → Balanced q) : Balanced (if c then p else q) := by
  split
  · exact hp ‹_›
  · exact hq ‹_›

/-- One of two parsers, and then the same. -/
theorem Balanced.ite_bind {c : Prop} [Decidable c] (hp : Balanced p) (hq : Balanced q) (hf : ∀ a, Balanced (f a)) :
    Balanced (if c then p >>= f else q >>= f) :=
  .ite (fun _ => hp.bind hf) fun _ => hq.bind hf

theorem Balanced.map (hp : Balanced p) (g : α → β) : Balanced (g <$> p) := fun env s before hs =>
  gives_map.mpr (hp env s before hs)

theorem Balanced.nested (hp : Balanced p) : Balanced (nested p) := fun _ s before hs =>
  gives_withReader.mpr (hp _ s before hs)

theorem Balanced.withoutDo (hp : Balanced p) : Balanced (withoutDo p) := fun _ s before hs =>
  gives_withReader.mpr (hp _ s before hs)

theorem balanced_looks (hp : Looks p) : Balanced p := fun env s before _ =>
  (hp env s).mono fun _ _ hs => ⟨[], hs ▸ .refl s, .nil before⟩

theorem Balanced.closing (hp : Balanced p) (hf : ∀ a, Closing b (f a)) : Closing b (p >>= f) := fun env s before hs =>
  (hp env s before hs).shuts fun a _ _ huses => hf a env _ _ (huses.stop ▸ hs)

end Parsers

/-! ## Tools -/

section Tools

variable {α : Type} {kind : TokenKind} {b : Bracket} {env : ParseEnv} {s : Stream TokenKind}
  {before : List (Token TokenKind)}

theorem looks_mkNode (kind : NodeKind Node) (start : Nat) : Looks (mkNode kind start) := by
  intro env s a s' h
  cases h
  rfl

theorem tidies_atAny {kinds : List TokenKind} {f : Bool → P α} :
    Tidies Lax before (atAny kinds >>= f) env s ↔ Tidies Lax before (f (kinds.contains s.peek.kind)) env s := Iff.rfl

theorem tidies_atKeyword {k : Keyword} {f : Bool → P α} :
    Tidies Lax before (atKeyword k >>= f) env s ↔ Tidies Lax before (f (decide (s.peek.kind = .keyword k))) env s := Iff.rfl

theorem tidies_colonAt {n : Nat} {f : Bool → P α} :
    Tidies Lax before (colonAt n >>= f) env s ↔
      Tidies Lax before (f (decide ((s.peekAt n).kind = .colon ∧ !(s.peekAt n).spaced))) env s := Iff.rfl

/-- The token behind the next one, which is not the end of the text. -/
theorem peek_advance (hs : s.stop.kind = .eof) (hpeek : s.peek.kind ≠ .eof) : s.advance.peek = s.peekAt 1 := by
  obtain ⟨rest, stop, prevEnd⟩ := s
  rcases rest with _ | ⟨t, _ | ⟨u, rest⟩⟩
  · exact absurd hs hpeek
  · rfl
  · rfl

/-- One of some kinds none of which is a bracket. -/
theorem side_of_contains {kinds : List TokenKind} {t : Token TokenKind} (h : kinds.contains t.kind = true)
    (hkinds : ∀ kind ∈ kinds, kind.side = .plain) : t.side = .plain :=
  hkinds _ (List.contains_iff_mem.mp h)

theorem balanced_mkNode (kind : NodeKind Node) (start : Nat) : Balanced (mkNode kind start) := balanced_looks (looks_mkNode kind start)

theorem balancedPlain_bump {f : Token TokenKind → P α} (hf : ∀ t, Balanced (f t)) : BalancedPlain (bump >>= f) :=
  fun env s _ hs hpeek => tidies_bump hpeek fun _ huses => hf s.peek env _ _ (huses.stop ▸ hs)

theorem balanced_need (hkind : kind.side = .plain ∧ kind ≠ .eof) (expected : String) : Balanced (need kind expected) := by
  intro env s before hs
  refine (gives_expect (by rw [hs]; exact hkind.2)).mono ?_
  rintro t s' ⟨ht, huses⟩
  exact ⟨[t], huses, .single ((side_of_kind ht).trans hkind.1) before⟩

theorem balanced_needEnd : Balanced needEnd := (balanced_need (by decide) _).bind fun _ => balanced_pure _

theorem balanced_eat (hkind : kind.side = .plain ∧ kind ≠ .eof) : Balanced (eat kind : P Bool) := by
  intro env s before hs
  refine (ParseM.gives_eat (by rw [hs]; exact hkind.2)).mono ?_
  rintro found s' h
  split at h
  · obtain ⟨t, ht, huses⟩ := h
    exact ⟨[t], huses, .single ((side_of_kind ht).trans hkind.1) before⟩
  · subst h
    exact ⟨[], .refl _, .nil before⟩

/-- The tokens passed over, each of which satisfies `p`. -/
theorem uses_skipWhile (p : TokenKind → Bool) (s : Stream TokenKind) :
    ∃ used, s.Uses used (s.skipWhile p) ∧ ∀ t ∈ used, p t.kind = true := by
  obtain ⟨rest, stop, prevEnd⟩ := s
  induction rest generalizing prevEnd with
  | nil => exact ⟨[], .refl _, nofun⟩
  | cons t rest ih =>
    rw [Stream.skipWhile_cons]
    split
    · next ht =>
      obtain ⟨used, huses, hused⟩ := ih t.span.stop
      exact ⟨t :: used, ⟨huses.stop, by rw [List.cons_append, ← huses.rest]⟩, List.forall_mem_cons.mpr ⟨ht, hused⟩⟩
    · exact ⟨[], .refl _, nofun⟩

theorem nested_plain {ts : List (Token TokenKind)} (h : ∀ t ∈ ts, t.side = .plain) : Nested ts := by
  induction ts with
  | nil => exact .nil
  | cons t ts ih =>
    obtain ⟨ht, hts⟩ := List.forall_mem_cons.mp h
    exact (Nested.single ht).append (ih hts)

theorem balanced_skipWhile {p : TokenKind → Bool} (hp : ∀ kind, p kind = true → kind.side = .plain) : Balanced (skipWhile p) := by
  intro env s before _ a s' h
  cases h
  obtain ⟨used, huses, hused⟩ := uses_skipWhile p s
  exact ⟨used, huses, .of_nested (nested_plain fun t ht => hp _ (hused t ht)) before⟩

theorem balanced_skipNewlines : Balanced skipNewlines := balanced_skipWhile fun kind h => by
  cases kind <;> first | rfl | cases h

theorem balanced_skipTerminators : Balanced skipTerminators := balanced_skipWhile fun kind h => by
  cases kind <;> first | rfl | cases h

theorem closing_need (hside : kind.side = .closes b) {expected : String} {f : Token TokenKind → P α}
    (hf : ∀ t, Balanced (f t)) : Closing b (need kind expected >>= f) := by
  intro env s before hs
  refine shuts_expect ?_ hside fun t s' huses => hf t env s' _ (huses.stop ▸ hs)
  rw [hs]
  rintro rfl
  cases hside

/-- A bracket that has to be there, what stands in it, and what follows. -/
theorem balanced_bracket (hside : kind.side = .opens b) {expected : String} {f : Token TokenKind → P α}
    (hf : ∀ t, Closing b (f t)) : Balanced (need kind expected >>= f) := by
  intro env s before hs
  refine tidies_expect ?_ hside fun t s' huses => hf t env s' _ (huses.stop ▸ hs)
  rw [hs]
  rintro rfl
  cases hside

/-- … or that is there. -/
theorem tidies_bracket {f : Token TokenKind → P α} (hs : s.stop.kind = .eof) (hside : s.peek.side = .opens b)
    (hf : Closing b (f s.peek)) : Tidies Lax before (bump >>= f) env s := by
  have hne : s.peek.kind ≠ s.stop.kind := by
    intro he
    rw [Token.side, he, hs] at hside
    cases hside
  exact tidies_opens hne hside (hf env _ _ ((Stream.Uses.advance hne).stop ▸ hs))

end Tools

/-! ## Rules -/

def Rule.isParams {α : Type} : Rule α → Bool
  | .params _ => true
  | _ => false

/-- Every rule keeps brackets balanced but for those in lax places, and reads values as the grammar has them. Only
parameters have to know of the tokens around them. -/
structure Balances (reader : Reader) : Prop where
  rule : ∀ {α : Type} (rule : Rule α), rule.isParams = false → Balanced (reader rule)
  params : ∀ {closers : List TokenKind} {env : ParseEnv} {s : Stream TokenKind} {ts : List (Token TokenKind)}
    (front : List (Token TokenKind)), s.stop.kind = .eof → Passed closers ts s.peek →
    Tidies Lax (front ++ ts) (reader (.params closers)) env s
  value : ∀ {rule : Rule Node} {env : ParseEnv} {s s' : Stream TokenKind} {n : Node} {used : List (Token TokenKind)},
    rule = .unary ∨ rule = .ternary → reader rule env s = .ok (n, s') → s.Uses used s' → IsValue used

section Args

variable {self : Reader} (h : Balances self)
include h

theorem balanced_commandArgs : Balanced (commandArgs self) := by
  unfold commandArgs
  refine Balanced.bind (.withoutDo ?_) fun args => balanced_pure _
  exact (h.rule .arg rfl).bind fun a => (h.rule .moreArgs rfl).bind fun more => balanced_pure _

theorem balanced_parenArgs : Balanced (parenArgs self) := by
  unfold parenArgs
  refine balanced_bracket rfl fun _ => ?_
  refine (h.rule (.args _) rfl).nested.closing fun args => ?_
  exact closing_need rfl fun _ => balanced_pure _

theorem balanced_args (closer : TokenKind) : Balanced (readArgs self closer) := by
  unfold readArgs
  refine balanced_skipNewlines.bind fun _ => ?_
  refine .look (looks_atAny _) fun closed => ?_
  refine .ite (fun _ => balanced_pure _) fun _ => ?_
  refine (h.rule .arg rfl).bind fun a => ?_
  refine balanced_skipNewlines.bind fun _ => ?_
  refine (balanced_eat (by decide)).bind fun comma => ?_
  exact .ite (fun _ => (h.rule (.args closer) rfl).bind fun more => balanced_pure _) fun _ => balanced_pure _

theorem balanced_moreArgs : Balanced (readMoreArgs self) := by
  unfold readMoreArgs
  refine (balanced_eat (by decide)).bind fun comma => ?_
  refine .ite (fun _ => ?_) fun _ => balanced_pure _
  refine balanced_skipNewlines.bind fun _ => ?_
  exact (h.rule .arg rfl).bind fun a => (h.rule .moreArgs rfl).bind fun more => balanced_pure _

theorem balanced_plainArg (start : Nat) : Balanced (plainArg self start) := by
  unfold plainArg mkPair
  refine (h.rule .negation rfl).bind fun value => ?_
  refine (balanced_eat (by decide)).bind fun arrow => ?_
  refine .ite (fun _ => ?_) fun _ => balanced_pure _
  refine balanced_skipNewlines.bind fun _ => ?_
  exact (h.rule .negation rfl).bind fun value => balanced_mkNode _ _

theorem balancedPlain_labelArg (start : Nat) : BalancedPlain (labelArg self start) := by
  unfold labelArg mkPair
  refine balancedPlain_bump fun label => ?_
  refine .look (looks_lineOf _) fun line => ?_
  refine balanced_skipNewlines.bind fun _ => ?_
  refine .look (looks_atAny _) fun bare => ?_
  exact .ite (fun _ => balanced_mkNode _ _) fun _ => (h.rule .negation rfl).bind fun value => balanced_mkNode _ _

theorem tidies_quotedKeyArg (value : StrLit) (start : Nat) {env : ParseEnv} {s : Stream TokenKind}
    {before : List (Token TokenKind)} (hs : s.stop.kind = .eof) (hk : s.peek.kind = .string value)
    (hcolon : (s.peekAt 1).kind = .colon) : Tidies Lax before (quotedKeyArg self value start) env s := by
  have hnext : s.advance.peek.side = .plain := by
    rw [peek_advance hs (by rw [hk]; simp), side_of_kind hcolon]
    rfl
  have hrest : ∀ t : Token TokenKind, Balanced (do
      let key : Node := { kind := .quotedSymbol value, span := t.span, line := ← lineOf t.span.start }
      skipNewlines
      mkPair key (← self .negation) start) := by
    intro t
    refine .look (looks_lineOf _) fun line => ?_
    refine balanced_skipNewlines.bind fun _ => ?_
    exact (h.rule .negation rfl).bind fun value => balanced_mkNode _ _
  unfold quotedKeyArg
  refine tidies_bump (side_of_kind hk) fun _ h₁ => ?_
  refine tidies_bump hnext fun _ h₂ => ?_
  exact hrest s.peek env _ _ ((h₁.trans h₂).stop ▸ hs)

theorem balanced_arg : Balanced (readArg self) := by
  intro env s before hs
  unfold readArg
  rw [tidies_here, tidies_peekKind]
  have hplain : ∀ {kind : TokenKind}, s.peek.kind = kind → kind.side = .plain → s.peek.side = .plain :=
    fun hk hside => (side_of_kind hk).trans hside
  split
  · next hk =>
    refine (balancedPlain_bump fun _ => ?_) env s before hs (hplain hk rfl)
    refine .look (looks_atAny _) fun bare => ?_
    exact .ite (fun _ => balanced_mkNode _ _) fun _ => (h.rule .ternary rfl).bind fun value => balanced_mkNode _ _
  · next hk => exact balancedPlain_labelArg h _ env s before hs (hplain hk rfl)
  · next value hk =>
    rw [tidies_colonAt]
    split
    · next hcolon => exact tidies_quotedKeyArg h value _ hs hk (of_decide_eq_true hcolon).1
    · exact balanced_plainArg h _ env s before hs
  · exact balanced_plainArg h _ env s before hs

end Args

/-! ## Operators -/

section Operators

variable {self : Reader} (h : Balances self)
include h

theorem balanced_statements (stops : List TokenKind) : Balanced (readStatements self stops) := by
  unfold readStatements
  refine .look looks_here fun start => ?_
  exact (h.rule (.items stops) rfl).bind fun items => balanced_mkNode _ _

theorem balanced_items (stops : List TokenKind) : Balanced (readItems self stops) := by
  unfold readItems
  refine balanced_skipTerminators.bind fun _ => ?_
  refine .look (looks_atAny _) fun closed => ?_
  refine .ite (fun _ => balanced_pure _) fun _ => ?_
  exact (h.rule .statement rfl).bind fun n => (h.rule (.items stops) rfl).bind fun more => balanced_pure _

theorem balanced_statement : Balanced (readStatement self) := by
  unfold readStatement
  refine .look looks_here fun start => ?_
  exact (h.rule .sentence rfl).bind fun n => h.rule (.modifiers start n) rfl

theorem balanced_modifiers (start : Nat) (n : Node) : Balanced (readModifiers self start n) := by
  intro env s before hs
  unfold readModifiers
  rw [tidies_peekKind]
  split
  · next k hk =>
    refine Tidies.ite (fun _ => ?_) fun _ => tidies_pure n
    refine (balancedPlain_bump fun _ => ?_) env s before hs ((side_of_kind hk).trans rfl)
    refine (h.rule .sentence rfl).bind fun condition => ?_
    exact (balanced_mkNode _ _).bind fun n => h.rule (.modifiers start n) rfl
  · exact tidies_pure n

theorem balanced_sentence : Balanced (readSentence self) := by
  unfold readSentence
  refine .look looks_here fun start => ?_
  exact (h.rule .negation rfl).bind fun lhs => h.rule (.joined start lhs) rfl

theorem balanced_joined (start : Nat) (lhs : Node) : Balanced (readJoined self start lhs) := by
  intro env s before hs
  unfold readJoined
  rw [tidies_atAny]
  refine Tidies.ite (fun hjoin => ?_) fun _ => tidies_pure lhs
  refine (balancedPlain_bump fun t => ?_) env s before hs (side_of_contains hjoin (by decide))
  refine balanced_skipNewlines.bind fun _ => ?_
  refine (h.rule .negation rfl).bind fun rhs => ?_
  exact (balanced_mkNode _ _).bind fun n => h.rule (.joined start n) rfl

theorem balanced_negation : Balanced (readNegation self) := by
  intro env s before hs
  unfold readNegation
  rw [tidies_atKeyword]
  refine Tidies.ite (fun hnot => ?_) fun _ => h.rule .expr rfl env s before hs
  refine (balancedPlain_bump fun t => ?_) env s before hs ((side_of_kind (of_decide_eq_true hnot)).trans rfl)
  exact (h.rule .negation rfl).bind fun operand => balanced_mkNode _ _

theorem balanced_assignedValue : Balanced (assignedValue self) := by
  unfold assignedValue
  refine .look looks_here fun start => ?_
  refine (h.rule .expr rfl).bind fun first => ?_
  refine .look (looks_at _) fun comma => ?_
  refine .ite (fun _ => ?_) fun _ => balanced_pure _
  exact (h.rule .moreArgs rfl).bind fun more => balanced_mkNode _ _

theorem balanced_expr : Balanced (readExpr self) := by
  have hvalue : ∀ kind : String → Node → NodeKind Node, ∀ start, BalancedPlain (do
      let op := (← bump).text
      skipNewlines
      let value ← assignedValue self
      mkNode (kind op value) start) := by
    intro kind start
    refine balancedPlain_bump fun t => ?_
    refine balanced_skipNewlines.bind fun _ => ?_
    exact (balanced_assignedValue h).bind fun value => balanced_mkNode _ _
  unfold readExpr
  refine .look looks_here fun start => ?_
  refine (h.rule .ternary rfl).bind fun target => ?_
  refine .ite (fun _ => ?_) fun _ => balanced_pure _
  intro env s before hs
  rw [tidies_peekKind]
  split
  · next hk => exact hvalue (fun _ => .assign target) start env s before hs ((side_of_kind hk).trans rfl)
  · next hk => exact hvalue (fun op => .opAssign op target) start env s before hs ((side_of_kind hk).trans rfl)
  · exact tidies_pure target

theorem balanced_elseBranch : Balanced (elseBranch self) := by
  unfold elseBranch
  refine (balanced_eat (by decide)).bind fun colon => ?_
  refine .ite (fun _ => ?_) fun _ => ?_
  · exact balanced_skipNewlines.bind fun _ => (h.rule .ternary rfl).bind fun n => balanced_pure _
  · intro env s before hs
    rw [tidies_at]
    refine Tidies.ite (fun hsymbol => ?_) fun _ => tidies_pure _
    refine (balancedPlain_bump fun t => ?_) env s before hs ((side_of_kind (of_decide_eq_true hsymbol)).trans rfl)
    exact (balanced_mkNode _ _).bind fun n => balanced_pure _

theorem balanced_ternary : Balanced (readTernary self) := by
  unfold readTernary
  refine .look looks_here fun start => ?_
  refine (h.rule (.binary 0) rfl).bind fun condition => ?_
  refine (balanced_eat (by decide)).bind fun question => ?_
  refine .ite (fun _ => ?_) fun _ => balanced_pure _
  refine balanced_skipNewlines.bind fun _ => (h.rule .ternary rfl).bind fun then_ => ?_
  exact balanced_skipNewlines.bind fun _ => (balanced_elseBranch h).bind fun else_ => balanced_mkNode _ _

theorem balanced_binary (min : Nat) : Balanced (readBinary self min) := by
  unfold readBinary
  refine .look looks_here fun start => ?_
  exact (h.rule .unary rfl).bind fun lhs => h.rule (.operators min start lhs) rfl

omit h in
/-- No bracket is an operator. -/
theorem side_of_precedence {t : Token TokenKind} {found : Nat × Bool} (ht : precedence? t = some found) : t.side = .plain := by
  obtain ⟨kind, text, span, spaced⟩ := t
  cases kind <;> first | rfl | cases ht

theorem balanced_operators (min start : Nat) (lhs : Node) : Balanced (readOperators self min start lhs) := by
  intro env s before hs
  unfold readOperators
  rw [tidies_peek]
  split
  · exact tidies_pure lhs
  · next strength rightward hfound =>
    refine Tidies.ite (fun _ => tidies_pure lhs) fun _ => ?_
    refine (balancedPlain_bump fun t => ?_) env s before hs (side_of_precedence hfound)
    refine balanced_skipNewlines.bind fun _ => ?_
    refine (h.rule (.binary _) rfl).bind fun rhs => ?_
    exact (balanced_mkNode _ _).bind fun n => h.rule (.operators min start n) rfl

theorem balanced_signed (op : String) (start : Nat) : Balanced (signed self op start) := by
  unfold signed
  exact (h.rule .unary rfl).bind fun operand => balanced_mkNode _ _

theorem balanced_unary : Balanced (readUnary self) := by
  intro env s before hs
  have hplain : ∀ {kind : TokenKind}, s.peek.kind = kind → kind.side = .plain → s.peek.side = .plain :=
    fun hk hside => (side_of_kind hk).trans hside
  unfold readUnary
  rw [tidies_peek]
  dsimp only
  split
  · next hk => exact balancedPlain_bump (fun _ => balanced_signed h _ _) env s before hs (hplain hk rfl)
  · next hk => exact balancedPlain_bump (fun _ => balanced_signed h _ _) env s before hs (hplain hk rfl)
  · next hk =>
    refine tidies_bump (hplain hk rfl) fun used huses => ?_
    have hs' : s.advance.stop.kind = .eof := huses.stop ▸ hs
    rw [tidies_peek]
    refine Tidies.ite (fun hnumber => ?_) fun _ => balanced_signed h _ _ env _ _ hs'
    refine (balancedPlain_bump fun t => ?_) env _ _ hs' ((side_of_kind hnumber.1).trans rfl)
    exact (balanced_mkNode _ _).bind fun n => h.rule (.trailers _ n) rfl
  · next hk =>
    refine balancedPlain_bump (fun _ => ?_) env s before hs (hplain hk rfl)
    exact (h.rule .unary rfl).bind fun value => balanced_mkNode _ _
  · next hk =>
    refine balancedPlain_bump (fun _ => ?_) env s before hs (hplain hk rfl)
    exact (h.rule .unary rfl).bind fun value => balanced_mkNode _ _
  · refine Tidies.ite (fun hnot => ?_) fun _ => ?_
    · exact balancedPlain_bump (fun _ => balanced_signed h _ _) env s before hs (hplain hnot.1 rfl)
    · exact ((h.rule .primary rfl).bind fun n => h.rule (.trailers _ n) rfl) env s before hs

end Operators

/-! ## Control -/

section Control

variable {self : Reader} (h : Balances self)
include h

theorem balanced_elseClause : Balanced (elseClause self) := by
  unfold elseClause
  refine (balanced_eat (by decide)).bind fun found => ?_
  exact .ite (fun _ => (h.rule (.statements _) rfl).bind fun n => balanced_pure _) fun _ => balanced_pure _

theorem balancedPlain_conditional : BalancedPlain (conditional self) := by
  unfold conditional
  refine balancedPlain_bump fun t => ?_
  refine (h.rule .sentence rfl).bind fun condition => ?_
  refine (balanced_eat (by decide)).bind fun _ => balanced_skipTerminators.bind fun _ => ?_
  refine (balanced_eat (by decide)).bind fun _ => (h.rule (.statements _) rfl).bind fun body => ?_
  refine (h.rule .elsifs rfl).bind fun elsifs => (balanced_elseClause h).bind fun else_ => ?_
  exact balanced_needEnd.bind fun _ => balanced_mkNode _ _

theorem balanced_elsifs : Balanced (readElsifs self) := by
  unfold readElsifs
  refine (balanced_eat (by decide)).bind fun found => ?_
  refine .ite (fun _ => ?_) fun _ => balanced_pure _
  refine (h.rule .sentence rfl).bind fun condition => (balanced_eat (by decide)).bind fun _ => ?_
  exact (h.rule (.statements _) rfl).bind fun body => (h.rule .elsifs rfl).bind fun more => balanced_pure _

theorem balancedPlain_whileLoop : BalancedPlain (whileLoop self) := by
  unfold whileLoop
  refine balancedPlain_bump fun t => ?_
  refine (h.rule .sentence rfl).withoutDo.bind fun condition => (balanced_eat (by decide)).bind fun _ => ?_
  exact (h.rule (.statements _) rfl).bind fun body => balanced_needEnd.bind fun _ => balanced_mkNode _ _

theorem balanced_forTargets : Balanced (readForTargets self) := by
  unfold readForTargets
  refine .look (looks_atAny _) fun closed => ?_
  refine .ite (fun _ => balanced_pure _) fun _ => ?_
  refine (h.rule .primary rfl).bind fun n => (balanced_eat (by decide)).bind fun _ => ?_
  exact (h.rule .forTargets rfl).bind fun more => balanced_pure _

theorem balancedPlain_forLoop : BalancedPlain (forLoop self) := by
  unfold forLoop
  refine balancedPlain_bump fun t => ?_
  refine (h.rule .forTargets rfl).bind fun targets => (balanced_need (by decide) _).bind fun _ => ?_
  refine (h.rule .sentence rfl).withoutDo.bind fun range => (balanced_eat (by decide)).bind fun _ => ?_
  exact (h.rule (.statements _) rfl).bind fun body => balanced_needEnd.bind fun _ => balanced_mkNode _ _

theorem balanced_whens : Balanced (readWhens self) := by
  intro env s before hs
  unfold readWhens
  rw [tidies_atAny]
  refine Tidies.ite (fun hwhen => ?_) fun _ => tidies_pure _
  refine (balancedPlain_bump fun _ => ?_) env s before hs (side_of_contains hwhen (by decide))
  refine (h.rule .arg rfl).bind fun value => (h.rule .moreArgs rfl).bind fun values => ?_
  refine (balanced_eat (by decide)).bind fun _ => (h.rule (.statements _) rfl).bind fun body => ?_
  exact (h.rule .whens rfl).bind fun more => balanced_pure _

theorem balancedPlain_caseOf : BalancedPlain (caseOf self) := by
  unfold caseOf
  refine balancedPlain_bump fun t => ?_
  refine .look (looks_atAny _) fun bare => ?_
  refine .ite_bind (balanced_pure _) ((h.rule .sentence rfl).bind fun n => balanced_pure _) fun subject => ?_
  refine balanced_skipTerminators.bind fun _ => (h.rule .whens rfl).bind fun whens => ?_
  exact (balanced_elseClause h).bind fun else_ => balanced_needEnd.bind fun _ => balanced_mkNode _ _

theorem balancedPlain_beginBlock : BalancedPlain (beginBlock self) := by
  unfold beginBlock
  refine balancedPlain_bump fun t => ?_
  exact (h.rule .body rfl).bind fun body => balanced_needEnd.bind fun _ => balanced_mkNode _ _

end Control

end PuppetDocs.Ruby
