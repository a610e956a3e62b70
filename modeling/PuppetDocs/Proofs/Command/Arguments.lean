import PuppetDocs.Proofs.Command.Values
import PuppetDocs.Proofs.Decl.Chain

/-
  PuppetDocs.Proofs.Command.Arguments — arguments are read the same in parentheses and behind a blank.

  Two loops read arguments: that in brackets stops at the bracket, that behind a blank goes on
  while commas follow and holds `do` back. `Listed` describes arguments for both, and each loop
  reads the nodes that it says (`Listed.inBrackets`, `Listed.commandArgs`). A call that has no
  parentheses takes all that is behind its name, so it is the last argument or the only one.

  For every syntax there are such nodes, which depend on the places of the tokens and not on the
  blank in front of the first (`Args.reads`).
-/

namespace PuppetDocs.Ruby.Command

open ParseM
open Decl (sign separated print placed Piece Word)
open Text (byteLength)

variable {ℓ : Nat → Nat} {env : ParseEnv} {s s' : Stream TokenKind} {stop t : Token TokenKind}
  {ts us rest : List (Token TokenKind)} {ends : List TokenKind} {x y : Node} {ns : List Node} {e e' pe start : Nat}

/-! ## One argument -/

/-- The kinds of the tokens behind the last argument. -/
def lastEnds : List TokenKind := [.rparen, .rbracket, .eof]

/-- The tokens are read as the argument `x`, which ends at `e`, in front of a token of one of the kinds `ends`. -/
structure ReadsItem (ℓ : Nat → Nat) (ends : List TokenKind) (ts : List (Token TokenKind)) (x : Node) (e : Nat) : Prop where
  begins : Begins x.span.start ts
  reads : ∀ {env stop rest pe}, OnLines ℓ env ts → Stops ends env ⟨rest, stop, e⟩ →
    RuleYields .arg env ⟨ts ++ rest, stop, pe⟩ x ⟨rest, stop, e⟩

theorem Begins.arg (h : Begins start ts) (hcolon : (rest.headD stop).kind ≠ .colon)
    (hplain : Yields (fun n => plainArg (Rule.run n) start) env ⟨ts ++ rest, stop, pe⟩ x s') :
    RuleYields .arg env ⟨ts ++ rest, stop, pe⟩ x s' := by
  refine .rule ?_
  show Yields (fun n => readArg (Rule.run n)) env _ x s'
  unfold readArg
  rw [yields_here, yields_peekKind, h.here]
  obtain ⟨t, us, rfl, ht⟩ := h
  have hkind := ht.kind
  split
  · rename_i hk
    rw [show t.kind = .amp from hk] at hkind
    cases hkind
  · rename_i hk
    rw [show t.kind = .label from hk] at hkind
    cases hkind
  · rename_i v hk
    refine yields_colonAt.mpr (.ite (fun hc => absurd (of_decide_eq_true hc).1 ?_) fun _ => hplain)
    cases us with
    | nil => cases rest <;> exact hcolon
    | cons u us => exact ht.apart v hk u rfl
  · exact hplain

theorem ReadsAs.item (h : ReadsAs ℓ ends ts x e) (hsub : ends ⊆ .comma :: lastEnds) : ReadsItem ℓ ends ts x e := by
  refine ⟨h.begins, fun {env stop rest pe} hlines hstops => h.begins.arg ?_ ?_⟩
  · exact ne_of_mem_of_not_mem (hstops.mono hsub).mem (by decide)
  · have hvalueEnds : .comma :: lastEnds ⊆ valueEnds := by decide
    have hvalue : Stops valueEnds env ⟨rest, stop, e⟩ := hstops.mono fun k hk => hvalueEnds (hsub hk)
    unfold plainArg
    refine .bind (h.value hlines hstops hvalue) (yields_not_eat ?_ yields_pure)
    exact ne_of_mem_of_not_mem (hstops.mono hsub).mem (by decide)

/-- A key, an arrow and a value. -/
theorem ReadsAs.pair {k v : Node} {a : Token TokenKind} (hk : ReadsAs ℓ operandEnds ts k e) (ha : a.kind = .fatArrow)
    (hv : ReadsAs ℓ operandEnds us v e') :
    ReadsItem ℓ (.comma :: lastEnds) (ts ++ a :: us) (node ℓ (.pair k v) k.span.start e') e' := by
  refine ⟨hk.begins.append (by simp [ha]), fun {env stop rest pe} hlines hstops => ?_⟩
  have hcolon : ((a :: us ++ rest).headD stop).kind ≠ .colon := by simp [ha]
  have hfirst := hlines.left
  have hsecond : OnLines ℓ env us := fun t ht => hlines t (by simp [ht])
  have harrow : ∀ {ends}, .fatArrow ∈ ends → Stops ends env ⟨a :: (us ++ rest), stop, e⟩ := fun h => .inl (ha.symm ▸ h)
  have hvalue : Stops valueEnds env ⟨rest, stop, e'⟩ := hstops.mono (by decide)
  rw [List.append_assoc]
  refine hk.begins.arg hcolon ?_
  unfold plainArg
  refine .bind (hk.value hfirst (harrow (by decide)) (harrow (by decide))) (yields_eat ha ?_)
  refine yields_skipNewlines (hv.begins.ne rfl) (.bind (hv.value hsecond (hvalue.mono (List.subset_cons_self _ _)) hvalue) ?_)
  exact yields_node (hk.begins.line hfirst)

/-! ## Several arguments -/

/-- The tokens are arguments with commas between them, and `ns` are their nodes. -/
inductive Listed (ℓ : Nat → Nat) : List (Token TokenKind) → List Node → Nat → Prop
  | last {ts : List (Token TokenKind)} {x : Node} {e : Nat} : ReadsItem ℓ lastEnds ts x e → Listed ℓ ts [x] e
  | cons {ts us : List (Token TokenKind)} {c : Token TokenKind} {x : Node} {ns : List Node} {e e' : Nat} :
    ReadsItem ℓ (.comma :: lastEnds) ts x e → c.kind = .comma → Listed ℓ us ns e' → Listed ℓ (ts ++ c :: us) (x :: ns) e'

theorem Listed.begins (h : Listed ℓ ts ns e) : ∃ start, Begins start ts := by
  cases h with
  | last hx => exact ⟨_, hx.begins⟩
  | cons hx hc _ => exact ⟨_, hx.begins.append (by simp [hc])⟩

theorem yields_no_moreArgs (h : s.peek.kind ≠ .comma) : RuleYields .moreArgs env s [] s := by
  refine .rule ?_
  show Yields (fun n => readMoreArgs (Rule.run n)) env s [] s
  unfold readMoreArgs
  exact yields_not_eat h yields_pure

theorem Listed.moreArgs (h : Listed ℓ ts ns e) {c : Token TokenKind} (hc : c.kind = .comma) (hlines : OnLines ℓ env ts)
    (hstops : Stops lastEnds env ⟨rest, stop, e⟩) :
    RuleYields .moreArgs env ⟨c :: (ts ++ rest), stop, pe⟩ ns ⟨rest, stop, e⟩ := by
  induction h generalizing c pe with
  | last hx =>
    refine .rule ?_
    show Yields (fun n => readMoreArgs (Rule.run n)) env _ _ _
    unfold readMoreArgs
    refine yields_eat hc (yields_skipNewlines (hx.begins.ne rfl) (.bind (hx.reads hlines hstops) ?_))
    exact .bind (yields_no_moreArgs (ne_of_mem_of_not_mem hstops.mem (by decide))) yields_pure
  | @cons ts us d x ns e e' hx hd _ ih =>
    have hcomma : Stops (.comma :: lastEnds) env ⟨d :: (us ++ rest), stop, e⟩ := .inl (hd.symm ▸ List.mem_cons_self)
    have hmore : RuleYields .moreArgs env ⟨d :: (us ++ rest), stop, e⟩ ns ⟨rest, stop, e'⟩ :=
      ih hd (fun t ht => hlines t (by simp [ht])) hstops
    refine .rule ?_
    show Yields (fun n => readMoreArgs (Rule.run n)) env _ _ _
    unfold readMoreArgs
    simp only [List.append_assoc, List.cons_append]
    refine yields_eat hc (yields_skipNewlines (hx.begins.ne rfl) (.bind (hx.reads hlines.left hcomma) ?_))
    exact .bind hmore yields_pure

/-- The loop for arguments without parentheses reads them. -/
theorem Listed.commandArgs (h : Listed ℓ ts ns e) (hlines : OnLines ℓ env ts)
    (hstops : Stops lastEnds { env with holdDo := true } ⟨rest, stop, e⟩) :
    Yields (fun n => commandArgs (Rule.run n)) env ⟨ts ++ rest, stop, pe⟩ (groupPairs ns) ⟨rest, stop, e⟩ := by
  unfold Ruby.commandArgs
  refine .bind (yields_withoutDo.mpr ?_) yields_pure
  cases h with
  | last hx =>
    refine .bind (hx.reads hlines hstops) (.bind (yields_no_moreArgs ?_) yields_pure)
    exact ne_of_mem_of_not_mem hstops.mem (by decide)
  | @cons ts us d x ns e e' hx hd hmore =>
    have hcomma : Stops (.comma :: lastEnds) { env with holdDo := true } ⟨d :: (us ++ rest), stop, e⟩ :=
      .inl (hd.symm ▸ List.mem_cons_self)
    have hlines' : OnLines ℓ { env with holdDo := true } us := fun t ht => hlines t (by simp [ht])
    simp only [List.append_assoc, List.cons_append]
    exact .bind (hx.reads hlines.left hcomma) (.bind (hmore.moreArgs hd hlines' hstops) yields_pure)

theorem Begins.args {closer : TokenKind} (h : Begins start ts) (hclose : beginsArgument closer = false)
    (hread : Yields (fun n => do
      let a ← Rule.run n .arg
      skipNewlines
      if ← eat .comma then return a :: (← Rule.run n (.args closer)) else return [a]) env ⟨ts ++ rest, stop, pe⟩ ns s') :
    RuleYields (.args closer) env ⟨ts ++ rest, stop, pe⟩ ns s' := by
  have hany : [closer, .eof].contains (Stream.mk (ts ++ rest) stop pe).peek.kind = false := by
    have heof : (Stream.mk (ts ++ rest) stop pe).peek.kind ≠ .eof := h.ne rfl
    simp [h.ne hclose, heof]
  refine .rule ?_
  show Yields (fun n => readArgs (Rule.run n) closer) env _ _ _
  unfold readArgs
  refine yields_skipNewlines (h.ne rfl) ?_
  rw [yields_atAny, hany]
  exact hread

/-- The loop for arguments in brackets reads them. -/
theorem Listed.inBrackets (h : Listed ℓ ts ns e) : InBrackets ℓ ts ns := by
  intro env stop r rest pe hlines hr
  refine ⟨e, ?_⟩
  have hcloser : r.kind ∈ lastEnds ∧ beginsArgument r.kind = false ∧ r.kind ≠ .newline ∧ r.kind ≠ .comma := by
    rcases hr with hr | hr <;> (rw [hr]; decide)
  obtain ⟨hlast, hclose, hnewline, hcomma⟩ := hcloser
  induction h generalizing pe with
  | last hx =>
    refine hx.begins.args hclose (.bind (hx.reads hlines (.inl hlast)) ?_)
    exact yields_skipNewlines hnewline (yields_not_eat hcomma yields_pure)
  | @cons ts us d x ns e e' hx hd _ ih =>
    have hstops : Stops (.comma :: lastEnds) env ⟨d :: (us ++ r :: rest), stop, e⟩ := .inl (hd.symm ▸ List.mem_cons_self)
    have hmore : RuleYields (.args r.kind) env ⟨us ++ r :: rest, stop, d.span.stop⟩ ns ⟨r :: rest, stop, e'⟩ :=
      ih fun t ht => hlines t (by simp [ht])
    have hline : d.kind ≠ .newline := hd.trans_ne nofun
    simp only [List.append_assoc, List.cons_append]
    refine hx.begins.args hclose (.bind (hx.reads hlines.left hstops) ?_)
    exact yields_skipNewlines hline (yields_eat hd (.bind hmore yields_pure))

/-! ## Calls without parentheses -/

/-- A name and arguments behind a blank, in front of what ends them even where `do` is not held back otherwise. -/
theorem Listed.command (h : Listed ℓ us ns e) (ht : t.kind = .ident) (hspaced : us.head?.any (·.spaced) = true)
    (hlines : OnLines ℓ env (t :: us)) (hstops : Stops lastEnds { env with holdDo := true } ⟨rest, stop, e⟩) :
    Yields (fun n => readPrimary (Rule.run n)) env ⟨t :: us ++ rest, stop, pe⟩
      (node ℓ (.call ⟨none, t.text, groupPairs ns, false, none⟩) t.span.start e) ⟨rest, stop, e⟩ := by
  obtain ⟨start, hbegins⟩ := h.begins
  have hargs : OnLines ℓ env us := fun u hu => hlines u (List.mem_cons_of_mem _ hu)
  refine yields_named ht ?_
  unfold named
  rw [yields_bump]
  refine yields_known (parenAt_apart (hbegins.ne rfl)) (yields_known (hbegins.commandArgStarts hspaced) ?_)
  exact .bind (h.commandArgs hargs hstops) (yields_node (hlines t List.mem_cons_self))

/-- At the end of a text, and in front of a block. -/
theorem Listed.readsAs (h : Listed ℓ us ns e) (ht : t.kind = .ident) (hspaced : us.head?.any (·.spaced) = true) :
    ReadsAs ℓ (.keyword .doKw :: lastEnds) (t :: us)
      (node ℓ (.call ⟨none, t.text, groupPairs ns, false, none⟩) t.span.start e) e := by
  refine reads_primary ⟨t, us, rfl, rfl, by rw [ht]; rfl, by simp [ht], by simp [ht]⟩ fun {env stop rest pe} hlines hstops =>
    h.command ht hspaced hlines ?_
  rcases hstops with hk | ⟨-, hdo⟩
  · rcases List.mem_cons.mp hk with hdo | hlast
    · exact .inr ⟨rfl, hdo⟩
    · exact .inl hlast
  · exact .inr ⟨rfl, hdo⟩

/-! ## Written arguments -/

variable {p q : Piece} {ps : List Piece} {Q R : Node → Prop} {S : List Node → Prop} {ws : List Word}

theorem Uniform.placed_append (hp : Uniform p) (o : Nat) (b : Bool) (ws : List Word) :
    placed o b (p [] ++ ws) = placed o b (p []) ++ placed (o + byteLength (print (p []))) false ws := by
  obtain ⟨kind, text, vs, hwords⟩ := hp
  rw [hwords, Decl.placed_append, List.isEmpty_cons, Bool.and_false]

/-- A blank in front makes only the first token another one. -/
theorem Uniform.placed_blank (hp : Uniform p) (o : Nat) : placed o false (p [' ']) = placed (o + 1) true (p []) := by
  obtain ⟨kind, text, vs, hwords⟩ := hp
  have hblank : ' '.utf8Size = 1 := by decide
  simp only [hwords, placed, Word.chars, Text.byteLength_append, Text.byteLength_cons, Text.byteLength_nil, hblank]
  simp [Nat.add_assoc]

theorem Uniform.tight (hp : Uniform p) (o : Nat) (ws : List Word) :
    ∃ u us, placed o false (p [] ++ ws) = u :: us ∧ u.spaced = false := by
  obtain ⟨kind, text, vs, hwords⟩ := hp
  rw [hwords]
  exact ⟨_, _, rfl, rfl⟩

theorem Uniform.spaced (hp : Uniform p) (o : Nat) : (placed o true (p [])).head?.any (·.spaced) = true := by
  obtain ⟨kind, text, vs, hwords⟩ := hp
  rw [hwords]
  rfl

/-- Wherever the piece stands, it is read as one node that satisfies `Q`, with or without a blank in front. -/
def IsValue (ℓ : Nat → Nat) (ends : List TokenKind) (p : Piece) (Q : Node → Prop) : Prop :=
  ∀ o, ∃ x e, Q x ∧ ∀ b, ReadsAs ℓ ends (placed o b (p [])) x e

def IsItem (ℓ : Nat → Nat) (ends : List TokenKind) (p : Piece) (Q : Node → Prop) : Prop :=
  ∀ o, ∃ x e, Q x ∧ ∀ b, ReadsItem ℓ ends (placed o b (p [])) x e

def IsListed (ℓ : Nat → Nat) (ps : List Piece) (S : List Node → Prop) : Prop :=
  ∀ o, ∃ ns e, S ns ∧ ∀ b, Listed ℓ (placed o b (separated [] ps)) ns e

theorem IsValue.mono {ends' : List TokenKind} (h : IsValue ℓ ends' p Q) (hsub : ends ⊆ ends') : IsValue ℓ ends p Q := by
  intro o
  obtain ⟨x, e, hx, hreads⟩ := h o
  exact ⟨x, e, hx, fun b => (hreads b).mono hsub⟩

theorem IsValue.item (h : IsValue ℓ operandEnds p Q) : IsItem ℓ (.comma :: lastEnds) p Q := by
  intro o
  obtain ⟨x, e, hx, hreads⟩ := h o
  exact ⟨x, e, hx, fun b => ((hreads b).mono (by decide)).item (List.Subset.refl _)⟩

theorem IsValue.pair (hp : IsValue ℓ operandEnds p Q) (hup : Uniform p) (hq : IsValue ℓ operandEnds q R) (huq : Uniform q) :
    IsItem ℓ (.comma :: lastEnds) (fun gap => p gap ++ ⟨[' '], .fatArrow, "=>".toList⟩ :: q [' '])
      fun x => ∃ k v, x.kind = .pair k v ∧ Q k ∧ R v := by
  intro o
  obtain ⟨k, e, hk, hkey⟩ := hp o
  obtain ⟨v, e', hv, hvalue⟩ := hq (o + byteLength (print (p [])) + byteLength " =>".toList + 1)
  refine ⟨node ℓ (.pair k v) k.span.start e', e', ⟨k, v, rfl, hk, hv⟩, fun b => ?_⟩
  dsimp only
  rw [hup.placed_append, placed, huq.placed_blank]
  exact (hkey b).pair rfl (hvalue true)

theorem isListed_last (h : IsItem ℓ ends p Q) (hsub : lastEnds ⊆ ends) :
    IsListed ℓ [p] fun ns => ∃ x, ns = [x] ∧ Q x := by
  intro o
  obtain ⟨x, e, hx, hreads⟩ := h o
  exact ⟨[x], e, ⟨x, rfl, hx⟩, fun b => .last ⟨(hreads b).begins, fun hlines hstops =>
    (hreads b).reads hlines (hstops.mono hsub)⟩⟩

theorem IsListed.cons (hp : IsItem ℓ (.comma :: lastEnds) p Q) (hup : Uniform p) (h : IsListed ℓ ps S) (hne : ps ≠ [])
    (hus : Uniform fun gap => separated gap ps) :
    IsListed ℓ (p :: ps) fun ns => ∃ x ms, ns = x :: ms ∧ Q x ∧ S ms := by
  obtain ⟨q, qs, rfl⟩ := List.exists_cons_of_ne_nil hne
  intro o
  obtain ⟨x, e, hx, hfirst⟩ := hp o
  obtain ⟨ns, e', hns, hmore⟩ := h (o + byteLength (print (p [])) + byteLength [','] + 1)
  refine ⟨x :: ns, e', ⟨x, ns, rfl, hx, hns⟩, fun b => ?_⟩
  show Listed ℓ (placed o b (p [] ++ sign .comma "," :: separated [' '] (q :: qs))) _ _
  rw [hup.placed_append, placed, hus.placed_blank]
  exact .cons (hfirst b) rfl (hmore true)

/-- Wherever they stand, the pieces are read between brackets as nodes that satisfy `S`. -/
def IsInside (ℓ : Nat → Nat) (ps : List Piece) (S : List Node → Prop) : Prop :=
  ∀ o, ∃ ns, S ns ∧ InBrackets ℓ (placed o false (separated [] ps)) ns

theorem isInside_nil (hS : S []) : IsInside ℓ [] S := fun _ => ⟨[], hS, inBrackets_nil⟩

theorem IsListed.inside (h : IsListed ℓ ps S) : IsInside ℓ ps S := by
  intro o
  obtain ⟨ns, e, hns, hlisted⟩ := h o
  exact ⟨ns, hns, (hlisted false).inBrackets⟩

theorem IsListed.mono {T : List Node → Prop} (h : IsListed ℓ ps S) (hsub : ∀ ns, S ns → T ns) : IsListed ℓ ps T := by
  intro o
  obtain ⟨ns, e, hns, hlisted⟩ := h o
  exact ⟨ns, e, hsub ns hns, hlisted⟩

/-! ## What is no pair -/

theorem Operand.Shows.not_entry {o : Operand} (h : o.Shows x) : isEntry x = false ∧ isBlockPass x = false := by
  cases o with
  | path p =>
    cases p with
    | name c =>
      rw [Operand.Shows, Decl.Path.Shows] at h
      exact Decl.not_entry_of_kind (by simp [h]) (by simp [h]) (by simp [h])
    | member p c =>
      obtain ⟨_, h, -⟩ := h
      exact Decl.not_entry_of_kind (by simp [h]) (by simp [h]) (by simp [h])
  | name m =>
    rw [Operand.Shows] at h
    exact Decl.not_entry_of_kind (by simp [h]) (by simp [h]) (by simp [h])
  | call m args =>
    obtain ⟨_, h, -⟩ := h
    exact Decl.not_entry_of_kind (by simp [h]) (by simp [h]) (by simp [h])
  | send receiver m args =>
    obtain ⟨_, _, h, -⟩ := h
    exact Decl.not_entry_of_kind (by simp [h]) (by simp [h]) (by simp [h])

theorem Arg.Shows.not_entry {a : Arg} (h : a.Shows x) : isEntry x = false ∧ isBlockPass x = false := by
  cases a with
  | operand o => exact Operand.Shows.not_entry h
  | array items =>
    obtain ⟨_, h, -⟩ := h
    exact Decl.not_entry_of_kind (by simp [h]) (by simp [h]) (by simp [h])
  | symbol | str | int | nil | true_ | false_ =>
    rw [Arg.Shows] at h
    exact Decl.not_entry_of_kind (by simp [h]) (by simp [h]) (by simp [h])

theorem EntriesShow.entries {entries : List Entry} (h : EntriesShow entries ns) :
    ∀ x ∈ ns, isEntry x = true ∧ isBlockPass x = false := by
  induction entries generalizing ns with
  | nil =>
    rw [EntriesShow] at h
    simp [h]
  | cons e entries ih =>
    obtain ⟨m, ms, rfl, he, hms⟩ := h
    obtain ⟨key, value⟩ := e
    obtain ⟨k, v, hkind, -⟩ := he
    intro x hx
    rcases List.mem_cons.mp hx with rfl | hx
    · simp [isEntry, isBlockPass, hkind]
    · exact ih hms x hx

theorem groupPairs_single (hx : isEntry x = false ∧ isBlockPass x = false) : groupPairs [x] = [x] :=
  Decl.groupPairs_cons hx.1 hx.2 []

theorem EntriesShow.grouped {e : Entry} {entries : List Entry} (h : EntriesShow (e :: entries) ns) :
    (Args.pairs e entries).Show (groupPairs ns) := by
  have hentries := h.entries
  obtain ⟨m, ms, rfl, he, hms⟩ := h
  obtain ⟨n, hgroup, hkind⟩ := Decl.groupPairs_entries (List.cons_ne_nil m ms) (fun x hx => (hentries x hx).1)
    fun x hx => (hentries x hx).2
  exact ⟨n, m, ms, hgroup, hkind, he, hms⟩

theorem Args.pieces_ne_nil (args : Args) : args.pieces ≠ [] := by
  cases args <;> exact List.cons_ne_nil _ _

/-! ## Every argument is read -/

theorem path_reads (p : Decl.Path) : IsValue ℓ (.colonColon :: operandEnds) p.words p.Shows := by
  induction p with
  | name c =>
    intro o
    exact ⟨node ℓ (.const none (String.ofList c.chars)) o (o + byteLength c.chars), _, rfl, fun b => reads_constant rfl⟩
  | member p c ih =>
    intro o
    obtain ⟨x, e, hx, hreads⟩ := ih o
    let stop := o + byteLength (print (p.words [])) + byteLength "::".toList + byteLength c.chars
    refine ⟨node ℓ (.const (some x) (String.ofList c.chars)) x.span.start stop, stop, ⟨x, rfl, hx⟩, fun b => ?_⟩
    rw [Decl.Path.words, (uniform_path p).placed_append]
    exact (hreads b).member rfl rfl

/-- A value of one token, if its node does not depend on the blank in front. -/
theorem isValue_token {kind : TokenKind} {text : List Char} {x : Nat → Node} (hx : ∀ o, Q (x o))
    (h : ∀ o b, ReadsAs ℓ ends [⟨kind, String.ofList text, ⟨o, o + byteLength text⟩, b⟩] (x o) (o + byteLength text)) :
    IsValue ℓ ends (fun gap => [⟨gap, kind, text⟩]) Q :=
  fun o => ⟨x o, _, hx o, fun b => h o (b || false)⟩

theorem isValue_leaf {kind : TokenKind} {text : List Char} {kind' : NodeKind Node} (hkind : beginsArgument kind = true)
    (htight : kind ≠ .lbracket) (hQ : ∀ x : Node, x.kind = kind' → Q x)
    (h : ∀ {env : ParseEnv} {s s' : Stream TokenKind} {x : Node}, s.peek.kind = kind → s.peek.text = String.ofList text →
      Yields (fun _ => leaf kind') env s x s' → Yields (fun n => readPrimary (Rule.run n)) env s x s') :
    IsValue ℓ ends (fun gap => [⟨gap, kind, text⟩]) Q :=
  isValue_token (x := fun o => { kind := kind', span := ⟨o, o + byteLength text⟩, line := ℓ o }) (fun _ => hQ _ rfl)
    fun o b => reads_leaf hkind htight fun hs => h (by rw [hs]) (by rw [hs])

/-- A call with the arguments `args`, behind whatever is in front of its name. -/
theorem IsInside.call {m : Decl.MethodName} (h : IsInside ℓ ps fun ns => S (groupPairs ns)) :
    IsValue ℓ ends (fun gap => ⟨gap, .ident, m.chars⟩ :: sign .lparen "(" :: (separated [] ps ++ [sign .rparen ")"]))
      fun x => ∃ ns, x.kind = .call ⟨none, String.ofList m.chars, ns, true, none⟩ ∧ S ns := by
  intro o
  let inner := o + byteLength m.chars + byteLength ['(']
  let stop := inner + byteLength (print (separated [] ps)) + byteLength [')']
  obtain ⟨ns, hns, hinside⟩ := h inner
  refine ⟨node ℓ (.call ⟨none, String.ofList m.chars, groupPairs ns, true, none⟩) o stop, stop, ⟨_, rfl, hns⟩, fun b => ?_⟩
  rw [placed, placed, Decl.placed_append]
  exact hinside.call rfl rfl rfl rfl

theorem IsValue.send {m : Decl.MethodName} (hp : IsValue ℓ operandEnds p Q) (hup : Uniform p)
    (h : IsInside ℓ ps fun ns => S (groupPairs ns)) :
    IsValue ℓ ends (fun gap => p gap ++ sign .dot "." :: ⟨[], .ident, m.chars⟩ :: sign .lparen "(" ::
        (separated [] ps ++ [sign .rparen ")"]))
      fun x => ∃ r ns, x.kind = .call ⟨some r, String.ofList m.chars, ns, true, none⟩ ∧ Q r ∧ S ns := by
  intro o
  obtain ⟨r, e, hr, hreceiver⟩ := hp o
  let inner := o + byteLength (print (p [])) + byteLength ['.'] + byteLength m.chars + byteLength ['(']
  let stop := inner + byteLength (print (separated [] ps)) + byteLength [')']
  obtain ⟨ns, hns, hinside⟩ := h inner
  refine ⟨node ℓ (.call ⟨some r, String.ofList m.chars, groupPairs ns, true, none⟩) r.span.start stop, stop,
    ⟨r, _, rfl, hr, hns⟩, fun b => ?_⟩
  dsimp only
  rw [hup.placed_append, placed, placed, placed, Decl.placed_append]
  exact (hreceiver b).send hinside rfl rfl rfl rfl rfl

theorem IsInside.array (h : IsInside ℓ ps S) (hups : ps ≠ [] → Uniform fun gap => separated gap ps) :
    IsValue ℓ ends (fun gap => ⟨gap, .lbracket, ['[']⟩ :: (separated [] ps ++ [sign .rbracket "]"]))
      fun x => ∃ ns, x.kind = .array ns ∧ S ns := by
  intro o
  let inner := o + byteLength ['[']
  let stop := inner + byteLength (print (separated [] ps)) + byteLength [']']
  obtain ⟨ns, hns, hinside⟩ := h inner
  refine ⟨node ℓ (.array ns) o stop, stop, ⟨_, rfl, hns⟩, fun b => ?_⟩
  have htight : ∃ u us, placed inner false (separated [] ps ++ [sign .rbracket "]"]) = u :: us ∧ u.spaced = false := by
    by_cases hps : ps = []
    · subst hps
      exact ⟨_, _, rfl, rfl⟩
    · exact (hups hps).tight inner _
  rw [Decl.placed_append] at htight
  rw [placed, Decl.placed_append]
  exact hinside.array rfl htight rfl

theorem IsListed.command {m : Decl.MethodName} (h : IsListed ℓ ps fun ns => S (groupPairs ns))
    (hups : Uniform fun gap => separated gap ps) :
    IsItem ℓ lastEnds (fun gap => ⟨gap, .ident, m.chars⟩ :: separated [' '] ps)
      fun x => ∃ ns, x.kind = .call ⟨none, String.ofList m.chars, ns, false, none⟩ ∧ S ns := by
  intro o
  obtain ⟨ns, e, hns, hlisted⟩ := h (o + byteLength m.chars + 1)
  refine ⟨node ℓ (.call ⟨none, String.ofList m.chars, groupPairs ns, false, none⟩) o e, e, ⟨_, rfl, hns⟩, fun b => ?_⟩
  rw [placed, hups.placed_blank]
  have hreads := (hlisted true).readsAs (t := ⟨.ident, String.ofList m.chars, ⟨o, o + byteLength m.chars⟩, b || false⟩) rfl
    (hups.spaced _)
  exact (hreads.mono (List.subset_cons_self _ _)).item (List.subset_cons_self _ _)

theorem yields_keyword {k : Keyword} (hkind : s.peek.kind = .keyword k)
    (h : Yields (fun n => keywordPrimary (Rule.run n) s.peek k) env s x s') :
    Yields (fun n => readPrimary (Rule.run n)) env s x s' := by
  unfold readPrimary
  rw [yields_peek, hkind]
  exact h

mutual

theorem Arg.reads : ∀ a : Arg, IsValue ℓ operandEnds a.words a.Shows
  | .symbol name => by
    refine isValue_leaf rfl nofun (fun _ hx => hx) fun {env s s' x} hkind htext h => ?_
    have hname : withoutFirst s.peek.text = String.ofList name.chars := by simp [htext, withoutFirst]
    unfold readPrimary
    rw [yields_peek, hkind, hname]
    exact h
  | .str content => isValue_token (x := fun o => node ℓ (.str (Decl.plainString content)) o _) (fun _ => rfl) fun _ _ =>
      reads_string rfl
  | .int n => by
    refine isValue_leaf rfl nofun (fun _ hx => hx) fun hkind htext h => ?_
    unfold readPrimary
    rw [yields_peek, hkind, htext]
    exact h
  | .nil => isValue_leaf rfl nofun (fun _ hx => hx) fun hkind _ h => yields_keyword hkind h
  | .true_ => isValue_leaf rfl nofun (fun _ hx => hx) fun hkind _ h => yields_keyword hkind h
  | .false_ => isValue_leaf rfl nofun (fun _ hx => hx) fun hkind _ h => yields_keyword hkind h
  | .array items => by
    refine (items_inside items).array fun hne => ?_
    cases items with
    | nil => exact absurd rfl hne
    | cons a items => exact uniform_separated a.uniform _
  | .operand o => o.reads

theorem items_inside : ∀ items : List Arg, IsInside ℓ (itemPieces items) (ItemsShow items)
  | [] => isInside_nil rfl
  | a :: items => (items_read (a :: items) (List.cons_ne_nil a items)).inside

theorem items_read : ∀ items : List Arg, items ≠ [] → IsListed ℓ (itemPieces items) (ItemsShow items)
  | [], hne => absurd rfl hne
  | [a], _ => by
    refine (isListed_last a.reads.item (List.subset_cons_self _ _)).mono ?_
    rintro _ ⟨x, rfl, hx⟩
    exact ⟨x, [], rfl, hx, rfl⟩
  | a :: b :: items, _ => .cons a.reads.item a.uniform (items_read (b :: items) (List.cons_ne_nil b items))
      (List.cons_ne_nil _ _) (uniform_separated b.uniform _)

theorem Operand.reads : ∀ o : Operand, IsValue ℓ operandEnds o.words o.Shows
  | .path p => (path_reads p).mono (List.subset_cons_self _ _)
  | .name m => isValue_token (x := fun o => node ℓ (.ident (String.ofList m.chars)) o _) (fun _ => rfl) fun _ _ =>
      reads_name rfl
  | .call _ args => (inside_reads args).call
  | .send receiver _ args => receiver.reads.send receiver.uniform (inside_reads args)

theorem inside_reads : ∀ args : Option Args, IsInside ℓ (inside args) fun ns => InsideShows args (groupPairs ns)
  | none => isInside_nil rfl
  | some args => args.reads.inside

theorem Entry.reads : ∀ e : Entry, IsItem ℓ (.comma :: lastEnds) e.words e.Shows
  | .mk key value => key.reads.pair key.uniform value.reads value.uniform

theorem entries_read : ∀ entries : List Entry, entries ≠ [] → IsListed ℓ (entryPieces entries) (EntriesShow entries)
  | [], hne => absurd rfl hne
  | [e], _ => by
    refine (isListed_last e.reads (List.subset_cons_self _ _)).mono ?_
    rintro _ ⟨x, rfl, hx⟩
    exact ⟨x, [], rfl, hx, rfl⟩
  | e :: f :: entries, _ => .cons e.reads e.uniform (entries_read (f :: entries) (List.cons_ne_nil f entries))
      (List.cons_ne_nil _ _) (uniform_separated f.uniform _)

/-- Arguments are read as what they say, with or without a blank in front. -/
theorem Args.reads : ∀ args : Args, IsListed ℓ args.pieces fun ns => args.Show (groupPairs ns)
  | .last a => by
    refine (isListed_last a.reads.item (List.subset_cons_self _ _)).mono ?_
    rintro _ ⟨x, rfl, hx⟩
    exact ⟨x, groupPairs_single hx.not_entry, hx⟩
  | .pairs first more => (entries_read (first :: more) (List.cons_ne_nil first more)).mono fun _ hns => hns.grouped
  | .command m args => by
    refine (isListed_last (args.reads.command args.uniform) (List.Subset.refl _)).mono ?_
    rintro _ ⟨x, rfl, ms, hkind, hms⟩
    have hentry := Decl.not_entry_of_kind (x := x) (by simp [hkind]) (by simp [hkind]) (by simp [hkind])
    exact ⟨x, ms, groupPairs_single hentry, hkind, hms⟩
  | .cons a more => by
    refine (IsListed.cons a.reads.item a.uniform more.reads more.pieces_ne_nil more.uniform).mono ?_
    rintro _ ⟨x, ms, rfl, hx, hms⟩
    exact ⟨x, _, Decl.groupPairs_cons hx.not_entry.1 hx.not_entry.2 ms, hx, hms⟩

end

end PuppetDocs.Ruby.Command
