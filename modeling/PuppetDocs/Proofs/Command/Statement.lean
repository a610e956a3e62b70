import PuppetDocs.Proofs.Command.Values
import PuppetDocs.Proofs.Tree.Calls

/-
  PuppetDocs.Proofs.Command.Statement — a text that is one call with a block.

  From a value to a program lie the rules for operators, assignments, modifiers and statements.
  What they make of a value is neither a name nor a call without receiver. So if a text that
  begins with a name and `do` is read as such a call, all of it was read as the block
  (`block_of_program`). The other way round, a value with nothing behind it is all that a text
  is read as (`program_yields`).
-/

namespace PuppetDocs.Ruby.Command

open ParseM

variable {env : ParseEnv} {s s' : Stream TokenKind} {x y n : Node} {start min : Nat}

/-- Only line feeds and semicolons are left. -/
def Spent (s : Stream TokenKind) : Prop := (s.skipWhile isTerminator).peek.kind = .eof

/-! ## What is made of a value -/

/-- A name or a call without receiver. -/
def isLone (n : Node) : Bool :=
  match n.kind with
  | .ident _ => true
  | .call c => c.receiver.isNone
  | _ => false

/-- What is shown of the value that is read and of the place behind it holds of all but lone names and calls. -/
def Lonely (F : Node → Stream TokenKind → Prop) : Prop := ∀ ⦃y s⦄, isLone y = false → F y s

variable {F : Node → Stream TokenKind → Prop} (hF : Lonely F)
include hF

theorem gives_made {kind : NodeKind Node} (hlone : ∀ span line, isLone ⟨kind, span, line⟩ = false) :
    Gives (mkNode kind start) env s F := by
  intro y s' h
  cases h
  exact hF (hlone _ _)

theorem gives_operators (depth : Nat) (h : F x s) : Gives (Rule.run depth (.operators min start x)) env s F := by
  induction depth generalizing x s with
  | zero => exact gives_throw
  | succ depth ih =>
    show Gives (readOperators (Rule.run depth) min start x) env s F
    unfold readOperators
    rw [gives_peek]
    split
    · exact gives_pure.mpr h
    split
    · exact gives_pure.mpr h
    rw [gives_bump]
    refine gives_bind.mpr fun _ _ _ => gives_bind.mpr fun rhs _ _ => ?_
    exact gives_bind.mpr ((gives_made hF fun _ _ => rfl).mono fun _ _ hn => ih hn)

theorem gives_joined (depth : Nat) (h : F x s) : Gives (Rule.run depth (.joined start x)) env s F := by
  induction depth generalizing x s with
  | zero => exact gives_throw
  | succ depth ih =>
    show Gives (readJoined (Rule.run depth) start x) env s F
    unfold readJoined
    refine gives_look (looks_atAny _) fun joins => ?_
    split
    · rw [gives_bump]
      refine gives_bind.mpr fun _ _ _ => gives_bind.mpr fun rhs _ _ => ?_
      exact gives_bind.mpr ((gives_made hF fun _ _ => rfl).mono fun _ _ hn => ih hn)
    · exact gives_pure.mpr h

theorem gives_modifiers (depth : Nat) (h : F x s) : Gives (Rule.run depth (.modifiers start x)) env s F := by
  induction depth generalizing x s with
  | zero => exact gives_throw
  | succ depth ih =>
    show Gives (readModifiers (Rule.run depth) start x) env s F
    unfold readModifiers
    rw [gives_peekKind]
    split
    · split
      · rw [gives_bump]
        refine gives_bind.mpr fun condition _ _ => ?_
        exact gives_bind.mpr ((gives_made hF fun _ _ => rfl).mono fun _ _ hn => ih hn)
      · exact gives_pure.mpr h
    · exact gives_pure.mpr h

/-- What an operand is, and what the operators behind it make of it. -/
theorem gives_ternary {depth : Nat} (h : Gives (Rule.run depth .unary) env s F) :
    Gives (Rule.run (depth + 2) .ternary) env s F := by
  have hbinary : Gives (Rule.run (depth + 1) (.binary 0)) env s F := by
    show Gives (readBinary (Rule.run depth) 0) env s F
    unfold readBinary
    rw [gives_here]
    exact h.bind fun x s' hx => gives_operators hF depth hx
  show Gives (readTernary (Rule.run (depth + 1))) env s F
  unfold readTernary
  rw [gives_here]
  refine hbinary.bind fun condition s' hc => ?_
  rw [gives_eat_bind]
  split
  · refine gives_bind.mpr fun _ _ _ => gives_bind.mpr fun then_ _ _ => gives_bind.mpr fun _ _ _ => ?_
    exact gives_bind.mpr fun else_ _ _ => gives_made hF fun _ _ => rfl
  · exact gives_pure.mpr hc

theorem gives_expr {depth : Nat} (h : Gives (Rule.run depth .unary) env s F) : Gives (Rule.run (depth + 3) .expr) env s F := by
  show Gives (readExpr (Rule.run (depth + 2))) env s F
  unfold readExpr
  rw [gives_here]
  refine (gives_ternary hF h).bind fun target s' ht => ?_
  split
  · rw [gives_peekKind]
    split
    · rw [gives_bump]
      exact gives_bind.mpr fun _ _ _ => gives_bind.mpr fun value _ _ => gives_made hF fun _ _ => rfl
    · rw [gives_bump]
      exact gives_bind.mpr fun _ _ _ => gives_bind.mpr fun value _ _ => gives_made hF fun _ _ => rfl
    · exact gives_pure.mpr ht
  · exact gives_pure.mpr ht

theorem gives_statement {depth : Nat} (h : Gives (Rule.run depth .unary) env s F) (hstart : s.peek.kind ≠ .keyword .notKw) :
    Gives (Rule.run (depth + 6) .statement) env s F := by
  have hnegation : Gives (Rule.run (depth + 4) .negation) env s F := by
    show Gives (readNegation (Rule.run (depth + 3))) env s F
    unfold readNegation
    rw [atKeyword, gives_at, decide_eq_false hstart]
    exact gives_expr hF h
  have hsentence : Gives (Rule.run (depth + 5) .sentence) env s F := by
    show Gives (readSentence (Rule.run (depth + 4))) env s F
    unfold readSentence
    rw [gives_here]
    exact hnegation.bind fun x s' hx => gives_joined hF _ hx
  show Gives (readStatement (Rule.run (depth + 5))) env s F
  unfold readStatement
  rw [gives_here]
  exact hsentence.bind fun x s' hx => gives_modifiers hF _ hx

/-! ## What follows a value -/

omit hF in
theorem gives_methodCall {self : Reader} : Gives (methodCall self x start) env s fun y _ => isLone y = false := by
  have hmade : ∀ {kind : NodeKind Node} {s : Stream TokenKind}, (∀ span line, isLone ⟨kind, span, line⟩ = false) →
      Gives (mkNode kind start) env s fun y _ => isLone y = false := fun h => gives_made (fun _ _ hy => hy) h
  unfold methodCall
  rw [gives_peek]
  split
  · exact gives_bind.mpr fun args _ _ => hmade fun _ _ => rfl
  · split
    · exact gives_fail
    · rw [gives_bump]
      exact gives_bind.mpr fun args _ _ => hmade fun _ _ => rfl

omit hF in
theorem gives_scopedName {self : Reader} : Gives (scopedName self x start) env s fun y _ => isLone y = false := by
  unfold scopedName
  rw [gives_bump]
  refine gives_look (looks_at _) fun name => gives_look (looks_parenAt 1) fun paren => ?_
  split
  · rw [gives_bump]
    exact gives_made (fun _ _ hy => hy) fun _ _ => rfl
  · exact gives_methodCall

omit hF in
theorem gives_index {self : Reader} : Gives (index self x start) env s fun y _ => isLone y = false := by
  unfold index
  rw [gives_bump]
  refine gives_bind.mpr fun args _ _ => gives_bind.mpr fun _ _ _ => ?_
  exact gives_made (fun _ _ hy => hy) fun _ _ => rfl

omit hF in
theorem gives_lineGoesOn {α : Type} {f : Bool → P α} {Q : α → Stream TokenKind → Prop} :
    Gives (lineGoesOn >>= f) env s Q ↔ Gives (f (decide ((s.skipWhile isNewline).peek.kind = .dot ∨
      (s.skipWhile isNewline).peek.kind = .safeNav))) env s Q := Iff.rfl

omit hF in
theorem gives_attachBlock {self : Reader} :
    Gives (attachBlock self x) env s fun y s' => ∃ b, block self env s = .ok (b, s') ∧ y.kind = withBlock x b :=
  gives_bind.mpr fun b _ hb => gives_prevEnd.mpr (gives_pure.mpr ⟨b, hb, rfl⟩)

omit hF in
theorem isLone_withBlock {b : Block Node} (hx : isLone x = false) (hy : y.kind = withBlock x b) : isLone y = false := by
  obtain ⟨kind, span, line⟩ := x
  unfold isLone
  rw [hy]
  cases kind with
  | ident => cases hx
  | _ => exact hx

omit hF in
/-- A call with a block takes no other one; what follows it makes something else of it, or is left. -/
theorem gives_trailers (depth : Nat) (hx : isLone x = false ∨ takesBraces x = false ∧ takesDo x = false) :
    Gives (Rule.run depth (.trailers start x)) env s fun y s' =>
      isLone y = false ∨ y = x ∧ s' = s ∧ s.peek.kind ∉ [.dot, .safeNav] := by
  induction depth generalizing x s with
  | zero => exact gives_throw
  | succ depth ih =>
    have hmade : ∀ {y s₁}, isLone y = false → Gives (Rule.run depth (.trailers start y)) env s₁ fun y s' =>
        isLone y = false ∨ y = x ∧ s' = s ∧ s.peek.kind ∉ [.dot, .safeNav] := by
      intro y s₁ hy
      refine (ih (s := s₁) (.inl hy)).mono ?_
      rintro z s' (hz | ⟨rfl, -, -⟩)
      · exact .inl hz
      · exact .inl hy
    have hleft : s.peek.kind ∉ [.dot, .safeNav] → Gives (pure x) env s fun y s' =>
        isLone y = false ∨ y = x ∧ s' = s ∧ s.peek.kind ∉ [.dot, .safeNav] := fun h => gives_pure.mpr (.inr ⟨rfl, rfl, h⟩)
    show Gives (readTrailers (Rule.run depth) start x) env s _
    unfold readTrailers
    rw [gives_peek]
    split
    · rw [gives_bump]
      exact gives_bind.mpr fun _ _ _ => gives_methodCall.bind fun y s₁ hy => hmade hy
    · rw [gives_bump]
      exact gives_bind.mpr fun _ _ _ => gives_methodCall.bind fun y s₁ hy => hmade hy
    · rename_i hk
      refine gives_lineGoesOn.mpr ?_
      split
      · rename_i hgoesOn
        refine gives_bind.mpr fun u s₁ hskip => ?_
        cases hskip
        refine (ih hx).mono ?_
        rintro y s' (hy | ⟨-, -, hapart⟩)
        · exact .inl hy
        · exact absurd (by simpa using of_decide_eq_true hgoesOn) hapart
      · exact hleft (by rw [hk]; decide)
    · exact gives_scopedName.bind fun y s₁ hy => hmade hy
    · rename_i hk
      split
      · exact hleft (by rw [hk]; decide)
      · exact gives_index.bind fun y s₁ hy => hmade hy
    · rename_i hk
      split
      · rename_i hbraces
        have hlone : isLone x = false := hx.resolve_right fun h => by simp [h.1] at hbraces
        exact gives_attachBlock.bind fun y s₁ ⟨_, _, hy⟩ => hmade (isLone_withBlock hlone hy)
      · exact hleft (by rw [hk]; decide)
    · rename_i hk
      rw [gives_read]
      split
      · rename_i hdo
        have hlone : isLone x = false := hx.resolve_right fun h => by simp [h.2] at hdo
        exact gives_attachBlock.bind fun y s₁ ⟨_, _, hy⟩ => hmade (isLone_withBlock hlone hy)
      · exact hleft (by rw [hk]; decide)
    · rename_i hdot hnav _ _ _ _ _
      refine hleft fun hmem => ?_
      simp only [List.mem_cons, List.not_mem_nil, or_false] at hmem
      exact hmem.elim hdot hnav

omit hF

/-- The node is a call of the method with the block that is read at `s₀`, behind which is `s'`. -/
def Called (self : Reader) (env : ParseEnv) (s₀ : Stream TokenKind) (method : String) (y : Node) (s' : Stream TokenKind) : Prop :=
  ∃ b, block self env s₀ = .ok (b, s') ∧ y.kind = .call ⟨none, method, [], false, some b⟩

variable {t d stop : Token TokenKind} {ts : List (Token TokenKind)} {pe : Nat}

/-- Behind a name and `do`, what is read is not lone, or the block is all that was read. -/
theorem gives_name_do {depth : Nat} (ht : t.kind = .ident) (hd : d.kind = .keyword .doKw) (hhold : env.holdDo = false) :
    Gives (Rule.run (depth + 3) .unary) env ⟨t :: d :: ts, stop, pe⟩ fun y s' => isLone y = true →
      Called (Rule.run (depth + 1)) env ⟨d :: ts, stop, t.span.stop⟩ t.text y s' := by
  have hsign : (Stream.mk (t :: d :: ts) stop pe).peek.kind ∉ Decl.signKinds := by
    show t.kind ∉ _
    rw [ht]
    decide
  have hname := @readPrimary_name env stop t (d :: ts) pe (Rule.run (depth + 1)) ht (hd ▸ List.mem_cons_self)
  suffices hgives : Gives (do
      let n ← Rule.run (depth + 2) .primary
      Rule.run (depth + 2) (.trailers n.span.start n)) env ⟨t :: d :: ts, stop, pe⟩ _ from
    fun y s' h => hgives y s' ((Decl.readUnary_plain (Rule.run (depth + 2)) env hsign).symm.trans h)
  refine gives_bind.mpr fun x s₁ hx => ?_
  cases hx.symm.trans hname
  show Gives (readTrailers (Rule.run (depth + 1)) _ _) env ⟨d :: ts, stop, t.span.stop⟩ _
  unfold readTrailers
  rw [gives_peek, show (Stream.mk (d :: ts) stop t.span.stop).peek.kind = _ from hd]
  refine gives_read.mpr ?_
  rw [hhold]
  refine gives_attachBlock.bind fun y s₂ ⟨b, hb, hkind⟩ => ?_
  have htaken : takesBraces y = false ∧ takesDo y = false := by
    simp [takesBraces, takesDo, hkind, withBlock]
  refine (gives_trailers (depth + 1) (.inr htaken)).mono ?_
  rintro z s' (hz | ⟨rfl, rfl, -⟩) hlone
  · exact absurd (hz.symm.trans hlone) Bool.false_ne_true
  · exact ⟨b, hb, hkind⟩

theorem gives_items (depth : Nat) : Gives (Rule.run depth (.items [])) env s fun ns _ => ns = [] → Spent s := by
  cases depth with
  | zero => exact gives_throw
  | succ depth =>
    show Gives (readItems (Rule.run depth) []) env s _
    unfold readItems Spent
    refine gives_bind.mpr fun u s₁ hskip => ?_
    cases hskip
    refine gives_atAny.mpr ?_
    split
    · rename_i hk
      exact gives_pure.mpr fun _ => by simpa using hk
    · exact gives_bind.mpr fun n s₁ _ => gives_bind.mpr fun ns s₂ _ => gives_pure.mpr nofun

/-- If a text that begins with a name and `do` is read as one lone call, all of it was read as the block. -/
theorem block_of_program {depth : Nat} {root : Node} (ht : t.kind = .ident) (hd : d.kind = .keyword .doKw)
    (hhold : env.holdDo = false) (h : program (Rule.run (depth + 11)) env ⟨t :: d :: ts, stop, pe⟩ = .ok (root, s'))
    (hroot : root.kind = .statements [n]) (hn : isLone n = true) :
    ∃ s₁, Called (Rule.run (depth + 1)) env ⟨d :: ts, stop, t.span.stop⟩ t.text n s₁ ∧ Spent s₁ := by
  have hnot : (Stream.mk (t :: d :: ts) stop pe).peek.kind ≠ .keyword .notKw := ht.trans_ne nofun
  have hlonely : Lonely fun y s₁ => isLone y = true →
      Called (Rule.run (depth + 1)) env ⟨d :: ts, stop, t.span.stop⟩ t.text y s₁ :=
    fun _ _ hy hlone => absurd (hy.symm.trans hlone) Bool.false_ne_true
  have hlone : Gives (Rule.run (depth + 3) .unary) env ⟨t :: d :: ts, stop, pe⟩ fun y s' => isLone y = true →
      Called (Rule.run (depth + 1)) env ⟨d :: ts, stop, t.span.stop⟩ t.text y s' := gives_name_do ht hd hhold
  have hstatement := gives_statement hlonely hlone hnot
  have hitems : Gives (Rule.run (depth + 10) (.items [])) env ⟨t :: d :: ts, stop, pe⟩ fun ns _ => ns = [n] →
      ∃ s₁, Called (Rule.run (depth + 1)) env ⟨d :: ts, stop, t.span.stop⟩ t.text n s₁ ∧ Spent s₁ := by
    show Gives (readItems (Rule.run (depth + 9)) []) env _ _
    unfold readItems
    refine gives_bind.mpr fun u s₁ hskip => ?_
    cases hskip
    rw [skipWhile_stays (by rw [show (Stream.mk (t :: d :: ts) stop pe).peek.kind = _ from ht]; rfl) (.inl rfl)]
    refine gives_atAny.mpr ?_
    split
    · exact gives_pure.mpr nofun
    · refine hstatement.bind fun y s₁ hy => (gives_items (depth + 9)).bind fun ns s₂ hns => gives_pure.mpr ?_
      intro heq
      obtain ⟨rfl, rfl⟩ := List.cons.inj heq
      exact ⟨s₁, hy hn, hns rfl⟩
  have hprogram : Gives (program (Rule.run (depth + 11))) env ⟨t :: d :: ts, stop, pe⟩ fun root _ =>
      root.kind = .statements [n] →
        ∃ s₁, Called (Rule.run (depth + 1)) env ⟨d :: ts, stop, t.span.stop⟩ t.text n s₁ ∧ Spent s₁ := by
    unfold program
    have hstatements : Gives (Rule.run (depth + 11) (.statements [])) env ⟨t :: d :: ts, stop, pe⟩ fun root _ =>
        root.kind = .statements [n] →
          ∃ s₁, Called (Rule.run (depth + 1)) env ⟨d :: ts, stop, t.span.stop⟩ t.text n s₁ ∧ Spent s₁ := by
      show Gives (readStatements (Rule.run (depth + 10)) []) env _ _
      unfold readStatements
      rw [gives_here]
      refine hitems.bind fun ns s₁ hns root s₂ hroot hkind => ?_
      cases hroot
      cases hkind
      exact hns rfl
    refine hstatements.bind fun root s₁ hroot => gives_peek.mpr ?_
    split
    · exact gives_pure.mpr hroot
    · exact gives_fail
  exact hprogram root s' h hroot

/-- The same with bounds that are large enough: the block is read behind the name. -/
theorem block_of_yields {root : Node} {method : String} {b : Block Node} (ht : t.kind = .ident) (hd : d.kind = .keyword .doKw)
    (hhold : env.holdDo = false) (hstop : stop.kind = .eof)
    (h : Yields (fun n => program (Rule.run n)) env ⟨t :: d :: ts, stop, pe⟩ root s') (hroot : root.kind = .statements [n])
    (hn : n.kind = .call ⟨none, method, [], false, some b⟩) :
    ∃ s₁, Yields (fun n => block (Rule.run n)) env ⟨d :: ts, stop, t.span.stop⟩ b s₁ ∧ Spent s₁ := by
  obtain ⟨k, hk⟩ := h
  obtain ⟨depth, hdeep, hlarge⟩ : ∃ depth, k ≤ depth + 11 ∧ 16 * (d :: ts).length ≤ depth + 1 :=
    ⟨max k (16 * (d :: ts).length), by omega, by omega⟩
  have hlone : isLone n = true := by simp [isLone, hn]
  obtain ⟨s₁, ⟨b', hblock, hcalled⟩, hspent⟩ := block_of_program ht hd hhold (hk (depth + 11) hdeep) hroot hlone
  have hb : b' = b := by
    rw [hn] at hcalled
    cases hcalled
    rfl
  have hpeek : (Stream.mk (d :: ts) stop t.span.stop).peek.kind ≠ .eof := hd.trans_ne nofun
  exact ⟨s₁, hb ▸ block_yields hstop hpeek hlarge hblock, hspent⟩

/-! ## One statement -/

theorem skipWhile_skipWhile {p q : TokenKind → Bool} (h : ∀ k, p k = true → q k = true) (s : Stream TokenKind) :
    (s.skipWhile p).skipWhile q = s.skipWhile q := by
  obtain ⟨rest, stop, prevEnd⟩ := s
  induction rest generalizing prevEnd with
  | nil => rfl
  | cons t rest ih =>
    rw [Stream.skipWhile_cons]
    split
    · rename_i ht
      rw [ih, Stream.skipWhile_cons, if_pos (h _ ht)]
    · rfl

theorem Spent.peek (h : Spent s) : s.peek.kind ∈ [.newline, .semicolon, .eof] := by
  by_cases hk : isTerminator s.peek.kind = true
  · unfold isTerminator at hk
    split at hk
    · rename_i heq
      simp [heq]
    · rename_i heq
      simp [heq]
    · cases hk
  · unfold Spent at h
    rw [skipWhile_stays (by simpa using hk) (.inl rfl)] at h
    simp [h]

theorem Spent.trailers (h : Spent s) : RuleYields (.trailers start x) env s x s := by
  have hlines : Spent (s.skipWhile isNewline) := by
    have hsub : ∀ k, isNewline k = true → isTerminator k = true := by
      intro k hk
      cases k <;> first | rfl | cases hk
    unfold Spent
    rwa [skipWhile_skipWhile hsub]
  have hgoesOn : lineGoesOn env s = .ok (false, s) := by
    refine congrArg (fun b => Except.ok (b, s)) (decide_eq_false ?_)
    have hpeek := hlines.peek
    rintro (hk | hk) <;> simp [hk] at hpeek
  refine .rule ?_
  show Yields (fun n => readTrailers (Rule.run n) start x) env s x s
  unfold readTrailers
  rw [yields_peek]
  have hpeek := h.peek
  simp only [List.mem_cons, List.not_mem_nil, or_false] at hpeek
  rcases hpeek with hk | hk | hk
  · rw [hk]
    exact yields_known hgoesOn yields_pure
  · rw [hk]
    exact yields_pure
  · rw [hk]
    exact yields_pure

/-- A block behind a call or a name is attached to it. -/
theorem yields_block {b : Block Node} (hk : s.peek.kind = .keyword .doKw) (hhold : env.holdDo = false) (hx : takesDo x = true)
    (hb : Yields (fun n => block (Rule.run n)) env s b s') (hspent : Spent s') :
    RuleYields (.trailers start x) env s
      { kind := withBlock x b, span := ⟨x.span.start, s'.prevEnd⟩, line := x.line } s' := by
  refine .rule ?_
  show Yields (fun n => readTrailers (Rule.run n) start x) env s _ s'
  unfold readTrailers
  rw [yields_peek, hk]
  have hattach : Yields (fun n => attachBlock (Rule.run n) x) env s
      { kind := withBlock x b, span := ⟨x.span.start, s'.prevEnd⟩, line := x.line } s' := .bind hb ⟨0, fun _ _ => rfl⟩
  exact yields_read.mpr (.ite (fun _ => .bind hattach hspent.trailers) fun hc => absurd (by simp [hhold, hx]) hc)

theorem yields_skipTerminators {f : Nat → Unit → P (List Node)} {ns : List Node} :
    Yields (fun n => skipTerminators >>= f n) env s ns s' ↔ Yields (fun n => f n ()) env (s.skipWhile isTerminator) ns s' :=
  Iff.rfl

theorem Spent.items (h : Spent s) : RuleYields (.items []) env s [] (s.skipWhile isTerminator) := by
  refine .rule ?_
  show Yields (fun n => readItems (Rule.run n) []) env s [] _
  unfold readItems
  refine yields_skipTerminators.mpr (yields_atAny.mpr (.ite (fun _ => yields_pure) fun hc => absurd ?_ hc))
  rw [show (s.skipWhile isTerminator).peek.kind = .eof from h]
  rfl

/-- A value with nothing behind it is all that the text is read as. -/
theorem program_yields (h : RuleYields .unary env s x s') (hspent : Spent s')
    (hstart : s.peek.kind ∉ [.newline, .semicolon, .eof, .keyword .notKw]) :
    ∃ root s₁, root.kind = .statements [x] ∧ Yields (fun n => program (Rule.run n)) env s root s₁ := by
  have hends : [.newline, .semicolon, .eof] ⊆ quiet := by decide
  have hquiet : s'.peek.kind ∈ quiet := hends hspent.peek
  have hstatement := ((h.value hquiet fun hk => hstart (by simp [hk])).sentence hquiet).statement hquiet
  have hterminator : isTerminator s.peek.kind = false := by
    unfold isTerminator
    split
    · rename_i hk
      exact absurd (by simp [hk]) hstart
    · rename_i hk
      exact absurd (by simp [hk]) hstart
    · rfl
  have hitems : RuleYields (.items []) env s [x] (s'.skipWhile isTerminator) := by
    refine .rule ?_
    show Yields (fun n => readItems (Rule.run n) []) env s [x] _
    unfold readItems
    rw [yields_skipTerminators, skipWhile_stays hterminator (.inl rfl)]
    refine yields_atAny.mpr (.ite (fun hc => absurd ?_ hstart) fun _ => .bind hstatement (.bind hspent.items yields_pure))
    have heof : s.peek.kind = .eof := by simpa using hc
    simp [heof]
  have hstatements : RuleYields (.statements []) env s
      { kind := .statements [x], span := ⟨s.peek.span.start, max (s'.skipWhile isTerminator).prevEnd s.peek.span.start⟩
        line := env.lines.line s.peek.span.start } (s'.skipWhile isTerminator) := by
    refine .rule ?_
    show Yields (fun n => readStatements (Rule.run n) []) env s _ _
    unfold readStatements
    exact yields_here.mpr (.bind hitems yields_mkNode)
  refine ⟨_, _, rfl, .bind hstatements (yields_peek.mpr (.ite (fun _ => yields_pure) fun hc => absurd hspent hc))⟩

end PuppetDocs.Ruby.Command
