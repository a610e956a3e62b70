import PuppetDocs.Proofs.Decl.Scan
import PuppetDocs.Proofs.Source.Stream
import PuppetDocs.Ruby.Parse

/-
  PuppetDocs.Proofs.Decl.Takes — parsers that succeed on words.

  `Takes p before after Q` says that wherever the tokens that are left spell `before`, the
  parser `p` succeeds, `Q` holds of its value, and the tokens then left spell `after`. It is
  said of places where a `do` belongs to the nearest call; `TakesIn true` is the same in the
  arguments of a call without parentheses. A parser written with `do` is taken apart with
  `TakesIn.bind` and the rules of the tools it begins with; a tool that only looks ahead takes
  nothing.
-/

namespace PuppetDocs.Ruby.Decl

open ParseM

/-- The kind of the token that comes next. -/
def headKind : List Word → TokenKind
  | [] => .eof
  | w :: _ => w.kind

@[simp] theorem headKind_cons (w : Word) (ws : List Word) : headKind (w :: ws) = w.kind := rfl

/-- From tokens that spell `before` the parser reads on to tokens that spell `after`, and `Q` holds of its value;
`hold` says whether a `do` belongs to a construct further out. -/
def TakesIn (hold : Bool) {α : Type} (p : P α) (before after : List Word) (Q : α → Prop) : Prop :=
  ∀ env stop tokens prevEnd, env.holdDo = hold → stop.kind = .eof → List.Forall₂ Word.Spells before tokens →
    ∃ a tokens' prevEnd', p env ⟨tokens, stop, prevEnd⟩ = .ok (a, ⟨tokens', stop, prevEnd'⟩) ∧
      List.Forall₂ Word.Spells after tokens' ∧ Q a

abbrev Takes {α : Type} (p : P α) (before after : List Word) (Q : α → Prop) : Prop := TakesIn false p before after Q

variable {α β : Type} {p : P α} {f : α → P β} {before between after ws : List Word} {w : Word} {kind : TokenKind}
  {Q R : α → Prop} {hold : Bool}

theorem TakesIn.mono (h : TakesIn hold p before after R) (hRQ : ∀ a, R a → Q a) : TakesIn hold p before after Q := by
  intro env stop tokens prevEnd henv hstop hspells
  obtain ⟨a, tokens', prevEnd', heq, hafter, ha⟩ := h env stop tokens prevEnd henv hstop hspells
  exact ⟨a, tokens', prevEnd', heq, hafter, hRQ a ha⟩

theorem TakesIn.bind {Q : β → Prop} (h : TakesIn hold p before between R)
    (hf : ∀ a, R a → TakesIn hold (f a) between after Q) :
    TakesIn hold (p >>= f) before after Q := by
  intro env stop tokens prevEnd henv hstop hspells
  obtain ⟨a, tokens', prevEnd', heq, hbetween, ha⟩ := h env stop tokens prevEnd henv hstop hspells
  obtain ⟨b, tokens'', prevEnd'', heq', hafter, hb⟩ := hf a ha env stop tokens' prevEnd' henv hstop hbetween
  refine ⟨b, tokens'', prevEnd'', ?_, hafter, hb⟩
  rw [bind_eq, heq]
  exact heq'

/-- Behind a tool whose value is known. -/
theorem TakesIn.known {Q : β → Prop} {b : α} (h : TakesIn hold p before between fun a => a = b)
    (hf : TakesIn hold (f b) between after Q) : TakesIn hold (p >>= f) before after Q := by
  apply h.bind
  intro a ha
  rw [ha]
  exact hf

/-- Behind a tool whose value does not matter. -/
theorem TakesIn.next {Q : β → Prop} (h : TakesIn hold p before between fun _ => True)
    (hf : ∀ a, TakesIn hold (f a) between after Q) :
    TakesIn hold (p >>= f) before after Q :=
  h.bind fun a _ => hf a

theorem takes_pure {a : α} (h : Q a) : TakesIn hold (pure a : P α) ws ws Q :=
  fun _ _ tokens prevEnd _ _ hspells => ⟨a, tokens, prevEnd, rfl, hspells, h⟩

/-- Inside brackets a `do` belongs to the nearest call, whatever is around them. -/
theorem TakesIn.nested (h : Takes p before after Q) : TakesIn hold (nested p) before after Q := by
  intro env stop tokens prevEnd _ hstop hspells
  exact h { env with holdDo := false } stop tokens prevEnd rfl hstop hspells

theorem TakesIn.withoutDo (h : TakesIn true p before after Q) : TakesIn hold (withoutDo p) before after Q := by
  intro env stop tokens prevEnd _ hstop hspells
  exact h { env with holdDo := true } stop tokens prevEnd rfl hstop hspells

/-! ## Looking -/

theorem peek_kind {tokens : List (Token TokenKind)} {stop : Token TokenKind} {prevEnd : Nat} (hstop : stop.kind = .eof)
    (h : List.Forall₂ Word.Spells ws tokens) : (Stream.mk tokens stop prevEnd).peek.kind = headKind ws := by
  cases h with
  | nil => exact hstop
  | cons ht _ => exact ht.kind

theorem takes_peek : TakesIn hold peek (w :: ws) (w :: ws) w.Spells := by
  intro env stop tokens prevEnd _ _ hspells
  cases hspells with
  | cons ht htokens => exact ⟨_, _, prevEnd, rfl, .cons ht htokens, ht⟩

theorem takes_peek_kind (h : headKind ws = kind) : TakesIn hold peek ws ws fun t => t.kind = kind := by
  intro env stop tokens prevEnd _ hstop hspells
  exact ⟨_, tokens, prevEnd, rfl, hspells, (peek_kind hstop hspells).trans h⟩

theorem takes_peekKind (h : headKind ws = kind) : TakesIn hold peekKind ws ws fun k => k = kind :=
  (takes_peek_kind h).bind fun _ ht => takes_pure ht

/-- The kind of the token behind the next one. -/
theorem takes_peekAt_one (h : headKind ws = kind) :
    TakesIn hold (peekAt 1) (w :: ws) (w :: ws) fun t => t.kind = kind := by
  intro env stop tokens prevEnd _ hstop hspells
  cases hspells with
  | @cons _ t _ tokens ht htokens =>
    refine ⟨_, t :: tokens, prevEnd, rfl, .cons ht htokens, ?_⟩
    rw [← h]
    cases htokens with
    | nil => exact hstop
    | cons hu _ => exact hu.kind

theorem takes_here : TakesIn hold here ws ws fun _ => True :=
  fun _ _ tokens prevEnd _ _ hspells => ⟨_, tokens, prevEnd, rfl, hspells, trivial⟩

theorem takes_prevEnd : TakesIn hold ParseM.prevEnd ws ws fun _ => True :=
  fun _ _ tokens prevEnd _ _ hspells => ⟨_, tokens, prevEnd, rfl, hspells, trivial⟩

theorem takes_lineOf (offset : Nat) : TakesIn hold (lineOf offset) ws ws fun _ => True :=
  fun _ _ tokens prevEnd _ _ hspells => ⟨_, tokens, prevEnd, rfl, hspells, trivial⟩

theorem takes_holdDo : TakesIn hold (read : P ParseEnv) ws ws fun env => env.holdDo = hold :=
  fun env _ tokens prevEnd henv _ hspells => ⟨env, tokens, prevEnd, rfl, hspells, henv⟩

theorem takes_at {b : Bool} (h : decide (headKind ws = kind) = b) : TakesIn hold (at_ kind) ws ws fun a => a = b :=
  (takes_peekKind rfl).bind fun _ hk => takes_pure (hk ▸ h)

theorem takes_atAny {kinds : List TokenKind} {b : Bool} (h : kinds.contains (headKind ws) = b) :
    TakesIn hold (atAny kinds) ws ws fun a => a = b :=
  (takes_peekKind rfl).bind fun _ hk => takes_pure (hk ▸ h)

theorem takes_peekAt (k : Nat) : TakesIn hold (peekAt k) ws ws fun _ => True :=
  fun _ _ tokens prevEnd _ _ hspells => ⟨_, tokens, prevEnd, rfl, hspells, trivial⟩

theorem takes_peekAt_word {v : Word} : TakesIn hold (peekAt 1) (v :: w :: ws) (v :: w :: ws) w.Spells := by
  intro env stop tokens prevEnd _ _ hspells
  cases hspells with
  | cons hv htokens =>
    cases htokens with
    | cons ht htokens => exact ⟨_, _, prevEnd, rfl, .cons hv (.cons ht htokens), ht⟩

theorem takes_parenAt_zero (hkind : w.kind = .lparen) (hgap : w.gap = []) :
    TakesIn hold (parenAt 0) (w :: ws) (w :: ws) fun a => a = true := by
  intro env stop tokens prevEnd _ _ hspells
  refine ⟨_, tokens, prevEnd, rfl, hspells, ?_⟩
  cases hspells with
  | @cons w t _ _ ht _ =>
    show decide (t.kind = .lparen ∧ !t.spaced) = _
    simp [ht.kind, hkind, ht.tight hkind hgap]

theorem takes_no_parenAt_zero (h : headKind ws ≠ .lparen) : TakesIn hold (parenAt 0) ws ws fun a => a = false := by
  intro env stop tokens prevEnd _ hstop hspells
  refine ⟨_, tokens, prevEnd, rfl, hspells, ?_⟩
  cases hspells with
  | nil =>
    show decide (stop.kind = .lparen ∧ !stop.spaced) = _
    simp [hstop]
  | @cons w t _ _ ht _ =>
    have hkind : w.kind ≠ .lparen := h
    show decide (t.kind = .lparen ∧ !t.spaced) = _
    simp [hkind, ht.kind]

theorem takes_parenAt_one (h : headKind ws ≠ .lparen) :
    TakesIn hold (parenAt 1) (w :: ws) (w :: ws) fun a => a = false :=
  (takes_peekAt_one rfl).bind fun t ht => takes_pure (by simp [ht, h])

theorem takes_colonAt_one (h : headKind ws ≠ .colon) :
    TakesIn hold (colonAt 1) (w :: ws) (w :: ws) fun a => a = false :=
  (takes_peekAt_one rfl).bind fun t ht => takes_pure (by simp [ht, h])

/-! ## Reading -/

theorem takes_bump : TakesIn hold bump (w :: ws) ws w.Spells := by
  intro env stop tokens prevEnd _ _ hspells
  cases hspells with
  | @cons _ t _ tokens ht htokens => exact ⟨t, tokens, t.span.stop, rfl, htokens, ht⟩

theorem takes_eat (h : w.kind = kind) : TakesIn hold (eat kind) (w :: ws) ws fun a => a = true := by
  have hk : headKind (w :: ws) = kind := h
  apply (takes_peekKind hk).known
  rw [if_pos rfl]
  exact takes_bump.bind fun _ _ => takes_pure rfl

theorem takes_not_eat (h : headKind ws ≠ kind) : TakesIn hold (eat kind) ws ws fun a => a = false := by
  apply (takes_peekKind rfl).known
  rw [if_neg h]
  exact takes_pure rfl

theorem takes_need (h : w.kind = kind) (expected : String) :
    TakesIn hold (need kind expected) (w :: ws) ws fun _ => True := by
  apply takes_peek.bind
  intro t ht
  rw [if_pos (ht.kind.trans h)]
  exact takes_bump.mono fun _ _ => trivial

theorem takes_mkNode (k : NodeKind Node) (start : Nat) : TakesIn hold (mkNode k start) ws ws fun n => n.kind = k :=
  takes_prevEnd.next fun _ => (takes_lineOf _).next fun _ => takes_pure rfl

theorem takes_leaf (k : NodeKind Node) : TakesIn hold (leaf k) (w :: ws) ws fun n => n.kind = k :=
  takes_bump.bind fun _ _ => (takes_lineOf _).next fun _ => takes_pure rfl

/-- The stream behind the tokens that spell words of these kinds. -/
theorem skipWhile_spells (q : TokenKind → Bool) {tokens : List (Token TokenKind)} (stop : Token TokenKind)
    (prevEnd : Nat) (h : List.Forall₂ Word.Spells ws tokens) :
    ∃ tokens' prevEnd', (Stream.mk tokens stop prevEnd).skipWhile q = ⟨tokens', stop, prevEnd'⟩ ∧
      List.Forall₂ Word.Spells (ws.dropWhile fun w => q w.kind) tokens' := by
  induction h generalizing prevEnd with
  | nil => exact ⟨[], prevEnd, rfl, .nil⟩
  | @cons w t ws tokens ht htokens ih =>
    rw [Stream.skipWhile_cons, ht.kind]
    by_cases hq : q w.kind = true
    · rw [if_pos hq, List.dropWhile_cons, if_pos hq]
      exact ih t.span.stop
    · rw [if_neg hq, List.dropWhile_cons, if_neg hq]
      exact ⟨t :: tokens, prevEnd, rfl, .cons ht htokens⟩

theorem takes_skipWhile (q : TokenKind → Bool) :
    TakesIn hold (skipWhile q) ws (ws.dropWhile fun w => q w.kind) fun _ => True := by
  intro env stop tokens prevEnd _ _ hspells
  obtain ⟨tokens', prevEnd', heq, hafter⟩ := skipWhile_spells q stop prevEnd hspells
  refine ⟨⟨⟩, tokens', prevEnd', ?_, hafter, trivial⟩
  show Except.ok ((), (Stream.mk tokens stop prevEnd).skipWhile q) = _
  rw [heq]

theorem dropWhile_newline (h : headKind ws ≠ .newline) : ws.dropWhile (fun w => isNewline w.kind) = ws := by
  cases ws with
  | nil => rfl
  | cons w ws =>
    refine List.dropWhile_cons_of_neg ?_
    unfold isNewline
    split
    · rename_i heq
      exact absurd heq h
    · simp

/-- Nothing is skipped where the line goes on. -/
theorem takes_skipNewlines (h : headKind ws ≠ .newline) : TakesIn hold skipNewlines ws ws fun _ => True := by
  have hskip : TakesIn hold skipNewlines ws (ws.dropWhile fun w => isNewline w.kind) fun _ => True :=
    takes_skipWhile isNewline
  rw [dropWhile_newline h] at hskip
  exact hskip

theorem takes_lineGoesOn {b : Bool}
    (h : decide (headKind (ws.dropWhile fun w => isNewline w.kind) = .dot ∨
      headKind (ws.dropWhile fun w => isNewline w.kind) = .safeNav) = b) :
    TakesIn hold lineGoesOn ws ws fun a => a = b := by
  intro env stop tokens prevEnd _ hstop hspells
  refine ⟨_, tokens, prevEnd, rfl, hspells, ?_⟩
  obtain ⟨tokens', prevEnd', heq, hafter⟩ := skipWhile_spells isNewline stop prevEnd hspells
  rw [← h]
  simp only [heq, peek_kind hstop hafter]

end PuppetDocs.Ruby.Decl
