import PuppetDocs.Proofs.Command.Syntax
import PuppetDocs.Proofs.Command.Yields
import PuppetDocs.Proofs.Decl.Calls

/-
  PuppetDocs.Proofs.Command.Values — which node a value is read as.

  Given its tokens, a value is read as one node with one end, in whatever surroundings
  (`ReadsAs`): inside parentheses or behind a blank, at the end of the arguments or in front of a
  comma, with `do` held back or not. Nothing of these surroundings gets into the node, and neither
  does the blank in front of the value. The lines of the node are those of its tokens, told by a
  function `ℓ` on which the surroundings agree.
-/

namespace PuppetDocs.Ruby.Command

open ParseM
open Decl (startsValue signKinds readUnary_plain)

variable {α : Type} {ℓ : Nat → Nat} {env : ParseEnv} {s s' : Stream TokenKind} {stop t u : Token TokenKind}
  {ts us rest : List (Token TokenKind)} {ends : List TokenKind} {x y : Node} {e pe start : Nat}

/-! ## Surroundings -/

/-- The tokens are on the lines that `ℓ` says. -/
def OnLines (ℓ : Nat → Nat) (env : ParseEnv) (ts : List (Token TokenKind)) : Prop :=
  ∀ t ∈ ts, env.lines.line t.span.start = ℓ t.span.start

theorem OnLines.left (h : OnLines ℓ env (ts ++ us)) : OnLines ℓ env ts := fun t ht => h t (List.mem_append_left _ ht)

theorem OnLines.right (h : OnLines ℓ env (ts ++ us)) : OnLines ℓ env us := fun t ht => h t (List.mem_append_right _ ht)

/-- The kinds of the tokens behind a value. -/
def valueEnds : List TokenKind := [.comma, .rparen, .rbracket, .fatArrow, .eof]

/-- The kinds of the tokens behind what a dot may follow. -/
def operandEnds : List TokenKind := .dot :: valueEnds

/-- A token of one of these kinds comes next, or a `do` that is held back. -/
def Stops (ends : List TokenKind) (env : ParseEnv) (s : Stream TokenKind) : Prop :=
  s.peek.kind ∈ ends ∨ env.holdDo = true ∧ s.peek.kind = .keyword .doKw

theorem Stops.mono {ends' : List TokenKind} (h : Stops ends env s) (hsub : ends ⊆ ends') : Stops ends' env s :=
  h.imp_left fun hk => hsub hk

theorem Stops.mem (h : Stops ends env s) : s.peek.kind ∈ TokenKind.keyword .doKw :: ends := by
  rcases h with h | ⟨-, h⟩
  · exact List.mem_cons_of_mem _ h
  · exact h ▸ List.mem_cons_self

theorem Stops.quiet (h : Stops valueEnds env s) : s.peek.kind ∈ quiet := by
  have hall : ∀ k ∈ TokenKind.keyword .doKw :: valueEnds, k ∈ Ruby.quiet := by decide
  exact hall _ h.mem

theorem yields_no_trailers (h : Stops valueEnds env s) : RuleYields (.trailers start x) env s x s := by
  refine .rule ?_
  show Yields (fun n => readTrailers (Rule.run n) start x) env s x s
  unfold readTrailers
  rw [yields_peek]
  rcases h with h | ⟨hhold, hk⟩
  · simp only [valueEnds, List.mem_cons, List.not_mem_nil, or_false] at h
    rcases h with h | h | h | h | h <;> (rw [h]; exact yields_pure)
  · rw [hk]
    exact yields_read.mpr (.ite (fun hc => by simp [hhold] at hc) fun _ => yields_pure)

/-- No arguments start where a value ends, or where a dot follows. -/
theorem commandArgStarts_ends (hk : s.peek.kind ∈ TokenKind.keyword .doKw :: operandEnds) :
    commandArgStarts env s = .ok (false, s) := by
  simp only [operandEnds, valueEnds, List.mem_cons, List.not_mem_nil, or_false] at hk
  show Except.ok (_, s) = _
  refine congrArg (fun b => Except.ok (b, s)) (Bool.and_eq_false_imp.mpr fun _ => ?_)
  rcases hk with hk | hk | hk | hk | hk | hk | hk <;> simp [hk]

/-! ## What an argument begins with -/

def beginsArgument : TokenKind → Bool
  | .symbol | .string _ | .number | .constant | .ident | .lbracket => true
  | .keyword k => k == .nilKw || k == .trueKw || k == .falseKw
  | _ => false

/-- A token as the first of an argument that starts at `start`, in front of `us`. -/
structure Leads (start : Nat) (t : Token TokenKind) (us : List (Token TokenKind)) : Prop where
  start : t.span.start = start
  kind : beginsArgument t.kind = true
  tight : t.kind = .lbracket → ∃ u vs, us = u :: vs ∧ u.spaced = false
  /-- A string is no key. -/
  apart : ∀ v, t.kind = .string v → ∀ u ∈ us.head?, u.kind ≠ .colon

/-- The tokens begin at `start`, and like an argument. -/
def Begins (start : Nat) (ts : List (Token TokenKind)) : Prop := ∃ t us, ts = t :: us ∧ Leads start t us

theorem Begins.append (h : Begins start ts) (hus : ∀ u ∈ us.head?, u.kind ≠ .colon) : Begins start (ts ++ us) := by
  obtain ⟨t, vs, rfl, ht⟩ := h
  refine ⟨t, vs ++ us, rfl, ht.start, ht.kind, fun hl => ?_, fun v hv => ?_⟩
  · obtain ⟨u, ws, rfl, hu⟩ := ht.tight hl
    exact ⟨u, ws ++ us, rfl, hu⟩
  · cases vs with
    | nil => exact hus
    | cons u vs => exact ht.apart v hv

theorem Begins.ne {kind : TokenKind} (h : Begins start ts) (hkind : beginsArgument kind = false) :
    (Stream.mk (ts ++ rest) stop pe).peek.kind ≠ kind := by
  obtain ⟨t, us, rfl, ht⟩ := h
  rintro rfl
  exact absurd (hkind.symm.trans ht.kind) Bool.false_ne_true

theorem Begins.here (h : Begins start ts) : (Stream.mk (ts ++ rest) stop pe).peek.span.start = start := by
  obtain ⟨t, us, rfl, ht⟩ := h
  exact ht.start

theorem Begins.line (h : Begins start ts) (hlines : OnLines ℓ env ts) : env.lines.line start = ℓ start := by
  obtain ⟨t, us, rfl, ht⟩ := h
  exact ht.start ▸ hlines t List.mem_cons_self

/-- Behind a blank such tokens are the arguments of the name in front. -/
theorem Begins.commandArgStarts (h : Begins start ts) (hspaced : ts.head?.any (·.spaced) = true) :
    commandArgStarts env ⟨ts ++ rest, stop, pe⟩ = .ok (true, ⟨ts ++ rest, stop, pe⟩) := by
  obtain ⟨⟨kind, text, span, spaced⟩, us, rfl, -, hkind, htight, -⟩ := h
  cases (show spaced = true from hspaced)
  show Except.ok (_, _) = _
  refine congrArg (fun b => Except.ok (b, _)) ?_
  cases kind
  case lbracket =>
    obtain ⟨u, vs, rfl, hu⟩ := htight rfl
    show (!u.spaced) = true
    rw [hu]
    rfl
  case keyword k => cases k <;> first | rfl | cases hkind
  all_goals first | rfl | cases hkind

/-! ## Nodes -/

/-- A node over what is between two places. -/
def node (ℓ : Nat → Nat) (kind : NodeKind Node) (start stop : Nat) : Node :=
  { kind, span := ⟨start, max stop start⟩, line := ℓ start }

theorem yields_node {kind : NodeKind Node} (hline : env.lines.line start = ℓ start) :
    Yields (fun _ => mkNode kind start) env s (node ℓ kind start s.prevEnd) s := by
  rw [node, ← hline]
  exact yields_mkNode

/-! ## Values -/

/-- The value is read as `x` and ends at `e`, in front of a token of one of the kinds `ends`; what comes behind it
goes to the trailers. -/
structure ReadsAs (ℓ : Nat → Nat) (ends : List TokenKind) (ts : List (Token TokenKind)) (x : Node) (e : Nat) : Prop where
  begins : Begins x.span.start ts
  reads : ∀ {env stop rest pe y s'}, OnLines ℓ env ts → Stops ends env ⟨rest, stop, e⟩ →
    RuleYields (.trailers x.span.start x) env ⟨rest, stop, e⟩ y s' → RuleYields .unary env ⟨ts ++ rest, stop, pe⟩ y s'

theorem ReadsAs.mono {ends' : List TokenKind} (h : ReadsAs ℓ ends' ts x e) (hsub : ends ⊆ ends') : ReadsAs ℓ ends ts x e :=
  ⟨h.begins, fun hlines hstops => h.reads hlines (hstops.mono hsub)⟩

/-- A value is all that is read where it ends. -/
theorem ReadsAs.value (h : ReadsAs ℓ ends ts x e) (hlines : OnLines ℓ env ts) (hends : Stops ends env ⟨rest, stop, e⟩)
    (hstops : Stops valueEnds env ⟨rest, stop, e⟩) : RuleYields .negation env ⟨ts ++ rest, stop, pe⟩ x ⟨rest, stop, e⟩ :=
  (h.reads hlines hends (yields_no_trailers hstops)).value hstops.quiet (h.begins.ne rfl)

/-- A primary value is read, and then what the trailers make of it. -/
theorem Begins.unary {s₁ : Stream TokenKind} (h : Begins start ts)
    (hprimary : RuleYields .primary env ⟨ts ++ rest, stop, pe⟩ x s₁) (htrailers : RuleYields (.trailers x.span.start x) env s₁ y s') :
    RuleYields .unary env ⟨ts ++ rest, stop, pe⟩ y s' := by
  obtain ⟨t, us, rfl, ht⟩ := h
  have hsigns : ∀ k ∈ signKinds, beginsArgument k = false := by decide
  have hsign : (Stream.mk (t :: us ++ rest) stop pe).peek.kind ∉ signKinds := fun hmem =>
    absurd ((hsigns _ hmem).symm.trans ht.kind) Bool.false_ne_true
  obtain ⟨k, hk⟩ := Yields.bind (f := fun n (x : Node) => Rule.run n (.trailers x.span.start x)) hprimary htrailers
  exact .rule ⟨k, fun n hn => (readUnary_plain (Rule.run n) env hsign).trans (hk n hn)⟩

theorem reads_primary (hbegins : Begins x.span.start ts)
    (h : ∀ {env stop rest pe}, OnLines ℓ env ts → Stops ends env ⟨rest, stop, e⟩ →
      Yields (fun n => readPrimary (Rule.run n)) env ⟨ts ++ rest, stop, pe⟩ x ⟨rest, stop, e⟩) : ReadsAs ℓ ends ts x e :=
  ⟨hbegins, fun hlines hstops htrailers => hbegins.unary (.rule (h hlines hstops)) htrailers⟩

/-- A value of one token. -/
theorem reads_token (hkind : beginsArgument t.kind = true) (htight : t.kind ≠ .lbracket) (hstart : x.span.start = t.span.start)
    (h : ∀ {env stop rest pe}, env.lines.line t.span.start = ℓ t.span.start → Stops ends env ⟨rest, stop, t.span.stop⟩ →
      Yields (fun n => readPrimary (Rule.run n)) env ⟨t :: rest, stop, pe⟩ x ⟨rest, stop, t.span.stop⟩) :
    ReadsAs ℓ ends [t] x t.span.stop :=
  reads_primary ⟨t, [], rfl, hstart.symm, hkind, fun hl => absurd hl htight, nofun⟩ fun hlines => h (hlines t List.mem_cons_self)

theorem reads_leaf {kind : NodeKind Node} (hkind : beginsArgument t.kind = true) (htight : t.kind ≠ .lbracket)
    (h : ∀ {env : ParseEnv} {s s' : Stream TokenKind} {x : Node}, s.peek = t → Yields (fun _ => leaf kind) env s x s' →
      Yields (fun n => readPrimary (Rule.run n)) env s x s') :
    ReadsAs ℓ ends [t] { kind, span := t.span, line := ℓ t.span.start } t.span.stop := by
  refine reads_token hkind htight rfl fun {env stop rest pe} hline _ => ?_
  rw [← hline]
  exact h rfl yields_leaf

theorem joinStrings_apart {v : StrLit} (h : ∀ v, (Stream.mk rest stop e).peek.kind ≠ .string v) :
    joinStrings v e rest = (v, rest, e) := by
  cases rest with
  | nil => rfl
  | cons t rest =>
    unfold joinStrings
    split
    · rename_i hk
      exact absurd hk (h _)
    · rfl

theorem reads_string {v : StrLit} (hkind : t.kind = .string v) :
    ReadsAs ℓ operandEnds [t] (node ℓ (.str v) t.span.start t.span.stop) t.span.stop := by
  refine reads_token (by rw [hkind]; rfl) (by simp [hkind]) rfl fun {env stop rest pe} hline hstops => ?_
  have hpeek : (Stream.mk (t :: rest) stop pe).peek.kind = .string v := hkind
  have happly : stringLiteral v env ⟨t :: rest, stop, pe⟩ =
      mkNode (.str (joinStrings v t.span.stop rest).1) t.span.start env
        ⟨(joinStrings v t.span.stop rest).2.1, stop, (joinStrings v t.span.stop rest).2.2⟩ := rfl
  have hstring : ∀ v, (Stream.mk rest stop t.span.stop).peek.kind ≠ .string v := by
    intro v hv
    have hmem := hstops.mem
    rw [hv] at hmem
    simp [operandEnds, valueEnds] at hmem
  rw [joinStrings_apart hstring] at happly
  unfold readPrimary
  rw [yields_peek, hpeek, node, ← hline]
  exact ⟨0, fun _ _ => happly⟩

/-- A name is read as what `named` makes of it. -/
theorem yields_named (hkind : s.peek.kind = .ident) (h : Yields (fun n => named (Rule.run n)) env s x s') :
    Yields (fun n => readPrimary (Rule.run n)) env s x s' := by
  unfold readPrimary
  rwa [yields_peek, hkind]

/-- A name in front of a block, or of anything that is no argument, is read alone. -/
theorem readPrimary_name (self : Reader) (hkind : t.kind = .ident)
    (hnext : (Stream.mk rest stop t.span.stop).peek.kind ∈ TokenKind.keyword .doKw :: operandEnds) :
    readPrimary self env ⟨t :: rest, stop, pe⟩ =
      .ok ({ kind := .ident t.text, span := ⟨t.span.start, max t.span.stop t.span.start⟩, line := env.lines.line t.span.start },
        ⟨rest, stop, t.span.stop⟩) := by
  have hparen : (Stream.mk rest stop t.span.stop).peek.kind ≠ .lparen := ne_of_mem_of_not_mem hnext (by decide)
  unfold readPrimary
  rw [bind_eq, show peek env ⟨t :: rest, stop, pe⟩ = .ok (t, ⟨t :: rest, stop, pe⟩) from rfl]
  dsimp only
  rw [hkind]
  show named self env ⟨t :: rest, stop, pe⟩ = _
  unfold named
  rw [bind_eq, show bump env ⟨t :: rest, stop, pe⟩ = .ok (t, ⟨rest, stop, t.span.stop⟩) from rfl]
  dsimp only
  rw [bind_eq, parenAt_apart hparen]
  dsimp only
  rw [if_neg Bool.false_ne_true, bind_eq, commandArgStarts_ends hnext]
  rfl

theorem reads_name (hkind : t.kind = .ident) :
    ReadsAs ℓ operandEnds [t] (node ℓ (.ident t.text) t.span.start t.span.stop) t.span.stop := by
  refine reads_token (by rw [hkind]; rfl) (by simp [hkind]) rfl fun {env stop rest pe} hline hstops => ⟨0, fun n _ => ?_⟩
  rw [node, ← hline]
  exact readPrimary_name (Rule.run n) hkind hstops.mem

theorem reads_constant (hkind : t.kind = .constant) :
    ReadsAs ℓ (.colonColon :: operandEnds) [t] (node ℓ (.const none t.text) t.span.start t.span.stop) t.span.stop := by
  refine reads_token (by rw [hkind]; rfl) (by simp [hkind]) rfl fun {env stop rest pe} hline hstops => ?_
  have hpeek : (Stream.mk (t :: rest) stop pe).peek.kind = .constant := hkind
  unfold readPrimary
  rw [yields_peek, hpeek]
  show Yields (fun n => constant (Rule.run n)) _ _ _ _
  unfold constant
  rw [yields_bump]
  exact yields_known (parenAt_apart (ne_of_mem_of_not_mem hstops.mem (by decide))) (yields_node hline)

/-! ## Parts of values -/

/-- Behind a value comes what its trailers make of it. -/
theorem ReadsAs.append {ends' : List TokenKind} {e' : Nat} (h : ReadsAs ℓ ends' ts x e) (hstart : y.span.start = x.span.start)
    (hus : ∃ u vs, us = u :: vs ∧ u.kind ∈ ends' ∧ u.kind ≠ .colon)
    (htrailers : ∀ {env stop rest z s'}, OnLines ℓ env us → env.lines.line x.span.start = ℓ x.span.start →
      Stops ends env ⟨rest, stop, e'⟩ → RuleYields (.trailers y.span.start y) env ⟨rest, stop, e'⟩ z s' →
      RuleYields (.trailers x.span.start x) env ⟨us ++ rest, stop, e⟩ z s') :
    ReadsAs ℓ ends (ts ++ us) y e' := by
  obtain ⟨u, vs, rfl, hu, hcolon⟩ := hus
  refine ⟨hstart ▸ h.begins.append (by simpa using hcolon), fun {env stop rest pe z s'} hlines hstops hnext => ?_⟩
  rw [List.append_assoc]
  exact h.reads hlines.left (.inl hu) (htrailers hlines.right (h.begins.line hlines.left) hstops hnext)

theorem ReadsAs.member {d : Token TokenKind} (h : ReadsAs ℓ (.colonColon :: operandEnds) ts x e) (hd : d.kind = .colonColon)
    (ht : t.kind = .constant) : ReadsAs ℓ (.colonColon :: operandEnds) (ts ++ [d, t])
      (node ℓ (.const (some x) t.text) x.span.start t.span.stop) t.span.stop := by
  refine h.append rfl ⟨d, [t], rfl, by simp [hd], by simp [hd]⟩ fun {env stop rest z s'} _ hline hstops hnext => ?_
  have hpeek : (Stream.mk (d :: t :: rest) stop e).peek.kind = .colonColon := hd
  have hname : Yields (fun n => scopedName (Rule.run n) x x.span.start) env ⟨d :: t :: rest, stop, e⟩
      (node ℓ (.const (some x) t.text) x.span.start t.span.stop) ⟨rest, stop, t.span.stop⟩ := by
    unfold scopedName
    rw [yields_bump, yields_at]
    refine yields_known (parenAt_one_apart (ne_of_mem_of_not_mem hstops.mem (by decide))) (.ite (fun _ => ?_) fun hc => ?_)
    · exact yields_bump.mpr (yields_node hline)
    · exact absurd (by simp [Stream.peek, Stream.advance, ht]) hc
  refine .rule ?_
  show Yields (fun n => readTrailers (Rule.run n) x.span.start x) env _ z s'
  unfold readTrailers
  simp only [List.cons_append, List.nil_append]
  rw [yields_peek, hpeek]
  exact .bind hname hnext

/-! ## Brackets -/

/-- Between brackets the tokens are read as the items `ns`. -/
def InBrackets (ℓ : Nat → Nat) (ts : List (Token TokenKind)) (ns : List Node) : Prop :=
  ∀ {env stop r rest pe}, OnLines ℓ env ts → r.kind = .rparen ∨ r.kind = .rbracket →
    ∃ e, RuleYields (.args r.kind) env ⟨ts ++ r :: rest, stop, pe⟩ ns ⟨r :: rest, stop, e⟩

theorem inBrackets_nil : InBrackets ℓ [] [] := by
  intro env stop r rest pe _ hr
  refine ⟨pe, .rule ?_⟩
  show Yields (fun n => readArgs (Rule.run n) r.kind) env ⟨r :: rest, stop, pe⟩ _ _
  unfold readArgs
  have hnewline : (Stream.mk (r :: rest) stop pe).peek.kind ≠ .newline := by
    show r.kind ≠ _
    rcases hr with hr | hr <;> simp [hr]
  refine yields_skipNewlines hnewline (yields_atAny.mpr (.ite (fun _ => yields_pure) fun hc => ?_))
  exact absurd (by simp [Stream.peek]) hc

variable {l r : Token TokenKind} {ns : List Node}

theorem InBrackets.parenArgs (h : InBrackets ℓ ts ns) (hlines : OnLines ℓ env ts) (hl : l.kind = .lparen) (hr : r.kind = .rparen) :
    Yields (fun n => parenArgs (Rule.run n)) env ⟨l :: (ts ++ r :: rest), stop, pe⟩ (groupPairs ns)
      ⟨rest, stop, r.span.stop⟩ := by
  have hinner : OnLines ℓ { env with holdDo := false } ts := hlines
  obtain ⟨e, hargs⟩ := @h _ stop r rest l.span.stop hinner (.inl hr)
  rw [hr] at hargs
  unfold Ruby.parenArgs
  exact yields_need hl (.bind (yields_nested.mpr hargs) (yields_need hr yields_pure))

/-- A name and what is in parentheses behind it. -/
theorem InBrackets.call (h : InBrackets ℓ ts ns) (ht : t.kind = .ident) (hl : l.kind = .lparen) (htight : l.spaced = false)
    (hr : r.kind = .rparen) : ReadsAs ℓ ends (t :: l :: (ts ++ [r]))
      (node ℓ (.call ⟨none, t.text, groupPairs ns, true, none⟩) t.span.start r.span.stop) r.span.stop := by
  refine reads_primary ⟨t, _, rfl, rfl, by rw [ht]; rfl, by simp [ht], by simp [ht]⟩ fun {env stop rest pe} hlines _ => ?_
  have hinner : OnLines ℓ env ts := fun u hu => hlines u (by simp [hu])
  simp only [List.cons_append, List.append_assoc, List.nil_append]
  refine yields_named ht ?_
  unfold named
  rw [yields_bump]
  exact yields_known (parenAt_tight hl htight) (.bind (h.parenArgs hinner hl hr) (yields_node (hlines t List.mem_cons_self)))

/-- A dot, a name and what is in parentheses behind it. -/
theorem ReadsAs.send {d : Token TokenKind} (hx : ReadsAs ℓ operandEnds us x e) (h : InBrackets ℓ ts ns) (hd : d.kind = .dot)
    (ht : t.kind = .ident) (hl : l.kind = .lparen) (htight : l.spaced = false) (hr : r.kind = .rparen) :
    ReadsAs ℓ ends (us ++ d :: t :: l :: (ts ++ [r]))
      (node ℓ (.call ⟨some x, t.text, groupPairs ns, true, none⟩) x.span.start r.span.stop) r.span.stop := by
  refine hx.append rfl ⟨d, _, rfl, by simp [hd, operandEnds], by simp [hd]⟩ fun {env stop rest z s'} hlines hline _ hnext => ?_
  have hinner : OnLines ℓ env ts := fun u hu => hlines u (by simp [hu])
  simp only [List.cons_append, List.append_assoc, List.nil_append]
  have hargs : Yields (fun n => callArgs (Rule.run n)) env ⟨l :: (ts ++ r :: rest), stop, t.span.stop⟩ (groupPairs ns, true)
      ⟨rest, stop, r.span.stop⟩ := by
    unfold callArgs
    exact yields_known (parenAt_tight hl htight) (.bind (h.parenArgs hinner hl hr) yields_pure)
  have hcall : Yields (fun n => methodCall (Rule.run n) x x.span.start) env ⟨t :: l :: (ts ++ r :: rest), stop, d.span.stop⟩
      (node ℓ (.call ⟨some x, t.text, groupPairs ns, true, none⟩) x.span.start r.span.stop) ⟨rest, stop, r.span.stop⟩ := by
    have hname : methodName? (Stream.mk (t :: l :: (ts ++ r :: rest)) stop d.span.stop).peek = some t.text := by
      show methodName? t = some t.text
      rw [methodName?, ht]
    unfold methodCall
    rw [yields_peek]
    refine .ite (fun hc => absurd (ht.symm.trans hc) (by decide)) fun _ => ?_
    rw [hname]
    exact yields_bump.mpr (.bind hargs (yields_node hline))
  have hpeek : (Stream.mk (d :: t :: l :: (ts ++ r :: rest)) stop e).peek.kind = .dot := hd
  have hnewline : (Stream.mk (t :: l :: (ts ++ r :: rest)) stop d.span.stop).peek.kind ≠ .newline := ht.trans_ne (by decide)
  refine .rule ?_
  show Yields (fun n => readTrailers (Rule.run n) x.span.start x) env _ z s'
  unfold readTrailers
  rw [yields_peek, hpeek]
  exact yields_bump.mpr (yields_skipNewlines hnewline (.bind hcall hnext))

theorem InBrackets.array (h : InBrackets ℓ ts ns) (hl : l.kind = .lbracket) (htight : ∃ u us, ts ++ [r] = u :: us ∧ u.spaced = false)
    (hr : r.kind = .rbracket) : ReadsAs ℓ ends (l :: (ts ++ [r])) (node ℓ (.array ns) l.span.start r.span.stop) r.span.stop := by
  refine reads_primary ⟨l, _, rfl, rfl, by rw [hl]; rfl, fun _ => htight, by simp [hl]⟩ fun {env stop rest pe} hlines _ => ?_
  have hinner : OnLines ℓ { env with holdDo := false } ts := fun u hu => hlines u (by simp [hu])
  simp only [List.cons_append, List.append_assoc, List.nil_append]
  obtain ⟨e, hargs⟩ := @h _ stop r rest l.span.stop hinner (.inr hr)
  rw [hr] at hargs
  have hpeek : (Stream.mk (l :: (ts ++ r :: rest)) stop pe).peek.kind = .lbracket := hl
  unfold readPrimary
  rw [yields_peek, hpeek]
  show Yields (fun n => arrayLiteral (Rule.run n)) _ _ _ _
  unfold arrayLiteral
  exact yields_bump.mpr (.bind (yields_nested.mpr hargs) (yields_need hr (yields_node (hlines l List.mem_cons_self))))

end PuppetDocs.Ruby.Command
