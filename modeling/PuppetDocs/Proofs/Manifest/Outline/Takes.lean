import PuppetDocs.Manifest.Parse
import PuppetDocs.Proofs.Manifest.Outline.Words
import PuppetDocs.Proofs.Source.Stream

/-
  PuppetDocs.Proofs.Manifest.Outline.Takes — parsers that succeed on words.

  A place in a written text is what stands in front of it and the words that follow, up to the
  last one. `Takes p a b Q` says that at the place `a` the parser `p` succeeds and ends at the
  place `b` of the same text, and that `Q` holds of its value. Both places are places of the text,
  so the text between two offsets is known there (`takes_written`). A parser written with `do` is taken apart with
  `Takes.bind` and the rules of the tools it begins with; a tool that only looks ends where it
  begins.
-/

namespace PuppetDocs.Manifest.Outline

open ParseM
open Text (byteLength)

structure Place where
  front : List Char
  ahead : List Word

namespace Place

/-- The text up to the end of the last word. -/
def text (a : Place) : List Char := a.front ++ chars a.ahead

def offset (a : Place) : Nat := byteLength a.front

end Place

/-- The kind of the token that comes next. -/
def headKind : List Word → TokenKind
  | [] => .eof
  | w :: _ => w.kind

@[simp] theorem headKind_cons (w : Word) (ws : List Word) : headKind (w :: ws) = w.kind := rfl

/-- The parser reads on from one place to another, and `Q` holds of its value. -/
def Takes {α : Type} (p : P α) (a b : Place) (Q : α → Prop) : Prop :=
  ∀ env stop tokens, stop.kind = .eof → a.text <+: env.text → Lies a.offset a.ahead tokens →
    ∃ x tokens', p env ⟨tokens, stop, a.offset⟩ = .ok (x, ⟨tokens', stop, b.offset⟩) ∧
      b.text = a.text ∧ Lies b.offset b.ahead tokens' ∧ Q x

section Takes

variable {α β : Type} {p : P α} {f : α → P β} {a b c : Place} {R : α → Prop} {front : List Char} {w : Word}
  {ws : List Word} {kind : TokenKind}

theorem Takes.mono {Q : α → Prop} (h : Takes p a b R) (hRQ : ∀ x, R x → Q x) : Takes p a b Q := by
  intro env stop tokens hstop htext hlies
  obtain ⟨x, tokens', heq, hb, hlies', hx⟩ := h env stop tokens hstop htext hlies
  exact ⟨x, tokens', heq, hb, hlies', hRQ x hx⟩

theorem Takes.bind {Q : β → Prop} (h : Takes p a b R) (hf : ∀ x, R x → Takes (f x) b c Q) : Takes (p >>= f) a c Q := by
  intro env stop tokens hstop htext hlies
  obtain ⟨x, tokens', heq, hb, hlies', hx⟩ := h env stop tokens hstop htext hlies
  obtain ⟨y, tokens'', heq', hc, hlies'', hy⟩ := hf x hx env stop tokens' hstop (hb ▸ htext) hlies'
  refine ⟨y, tokens'', ?_, hc.trans hb, hlies'', hy⟩
  rw [bind_eq, heq]
  exact heq'

/-- Behind a tool whose value is known. -/
theorem Takes.known {Q : β → Prop} {x : α} (h : Takes p a b fun y => y = x) (hf : Takes (f x) b c Q) :
    Takes (p >>= f) a c Q := by
  apply h.bind
  intro y hy
  rw [hy]
  exact hf

/-- Behind a tool whose value does not matter. -/
theorem Takes.next {Q : β → Prop} (h : Takes p a b fun _ => True) (hf : ∀ x, Takes (f x) b c Q) :
    Takes (p >>= f) a c Q :=
  h.bind fun x _ => hf x

theorem takes_pure {Q : α → Prop} {x : α} (h : Q x) : Takes (pure x : P α) a a Q :=
  fun _ _ tokens _ _ hlies => ⟨x, tokens, rfl, rfl, hlies, h⟩

/-- The end of a parser, at a place that is written in another way. -/
theorem takes_done {Q : α → Prop} {x : α} (hab : a = b) (h : Q x) : Takes (pure x : P α) a b Q := hab ▸ takes_pure h

theorem Takes.map {g : α → β} {Q : β → Prop} (h : Takes p a b fun x => Q (g x)) : Takes (g <$> p) a b Q := by
  intro env stop tokens hstop htext hlies
  obtain ⟨x, tokens', heq, hb, hlies', hx⟩ := h env stop tokens hstop htext hlies
  refine ⟨g x, tokens', ?_, hb, hlies', hx⟩
  change (p env ⟨tokens, stop, a.offset⟩ >>= fun y => Except.ok (g y.1, y.2)) = _
  rw [heq]
  rfl

/-! ## Looking -/

theorem peek_kind {tokens : List (Token TokenKind)} {stop : Token TokenKind} {prevEnd : Nat} (hstop : stop.kind = .eof)
    (h : Lies a.offset a.ahead tokens) : (Stream.mk tokens stop prevEnd).peek.kind = headKind a.ahead := by
  generalize a.ahead = ahead at h ⊢
  cases h with
  | nil => exact hstop
  | cons ht _ => exact ht.kind

theorem takes_peek : Takes peek a a fun t => t.kind = headKind a.ahead :=
  fun _ _ tokens hstop _ hlies => ⟨_, tokens, rfl, rfl, hlies, peek_kind hstop hlies⟩

theorem takes_peekKind : Takes peekKind a a fun k => k = headKind a.ahead := takes_peek.bind fun _ ht => takes_pure ht

/-- The kind of a token further on. -/
theorem takes_peekAt {n : Nat} (h : (a.ahead[n]?).map Word.kind = some kind) :
    Takes (peekAt n) a a fun t => t.kind = kind := by
  intro env stop tokens _ _ hlies
  refine ⟨_, tokens, rfl, rfl, hlies, ?_⟩
  show ((tokens[n]?).getD stop).kind = kind
  generalize a.offset = offset at hlies
  generalize a.ahead = ahead at h hlies
  induction hlies generalizing n with
  | nil => simp at h
  | @cons offset w ws t ts ht _ ih =>
    cases n with
    | zero =>
      cases h
      exact ht.kind
    | succ n => exact ih h

theorem takes_here : Takes here a a fun n => ∀ w ws, a.ahead = w :: ws → n = byteLength (a.front ++ w.gap) := by
  intro env stop tokens _ _ hlies
  refine ⟨_, tokens, rfl, rfl, hlies, ?_⟩
  intro w ws heq
  rw [heq] at hlies
  cases hlies with
  | @cons _ _ _ t _ ht _ =>
    show t.span.start = _
    rw [ht.span, Text.byteLength_append]
    rfl

theorem takes_prevEnd : Takes ParseM.prevEnd a a fun n => n = a.offset :=
  fun _ _ tokens _ _ hlies => ⟨_, tokens, rfl, rfl, hlies, rfl⟩

theorem takes_lineOf (offset : Nat) : Takes (lineOf offset) a a fun _ => True :=
  fun _ _ tokens _ _ hlies => ⟨_, tokens, rfl, rfl, hlies, trivial⟩

theorem takes_at {b : Bool} (h : decide (headKind a.ahead = kind) = b) : Takes (at_ kind) a a fun x => x = b :=
  takes_peekKind.bind fun _ hk => takes_pure (hk ▸ h)

theorem read_bind (f : ParseEnv → P α) (env : ParseEnv) (s : Stream TokenKind) :
    (MonadReader.read >>= f) env s = f env env s := rfl

theorem get_bind (f : Stream TokenKind → P α) (env : ParseEnv) (s : Stream TokenKind) : (get >>= f) env s = f s env s :=
  rfl

/-- What has been read since a place in front of this one is the text between the two. -/
theorem takes_written {start inside : List Char} (h : a.front = start ++ inside) :
    Takes (written (byteLength start) a.offset) a a fun cs => cs = inside := by
  intro env stop tokens _ htext hlies
  refine ⟨inside, tokens, ?_, rfl, hlies, rfl⟩
  obtain ⟨more, hmore⟩ := htext
  have hslice : (Span.mk (byteLength start) a.offset).slice? env.text = some inside := by
    rw [← hmore, Place.text, Place.offset, h, Text.byteLength_append, List.append_assoc]
    exact Span.slice?_append start inside _
  unfold written
  rw [read_bind, hslice]
  rfl

/-! ## Reading -/

theorem takes_bump : Takes bump ⟨front, w :: ws⟩ ⟨front ++ w.chars, ws⟩ (w.Spells (byteLength front)) := by
  intro env stop tokens _ _ hlies
  cases hlies with
  | @cons _ _ _ t ts ht hts =>
    have hoffset : t.span.stop = byteLength (front ++ w.chars) := by
      rw [ht.span, Text.byteLength_append]
      rfl
    refine ⟨t, ts, ?_, by simp [Place.text], ?_, ht⟩
    · show Except.ok (t, Stream.mk ts stop t.span.stop) = _
      rw [hoffset]
      rfl
    · show Lies (byteLength (front ++ w.chars)) ws ts
      rw [Text.byteLength_append]
      exact hts

theorem takes_eat (h : w.kind = kind) : Takes (eat kind) ⟨front, w :: ws⟩ ⟨front ++ w.chars, ws⟩ fun x => x = true := by
  apply takes_peekKind.known
  rw [headKind_cons, if_pos h]
  exact takes_bump.bind fun _ _ => takes_pure rfl

theorem takes_not_eat (h : headKind a.ahead ≠ kind) : Takes (eat kind) a a fun x => x = false := by
  apply takes_peekKind.known
  rw [if_neg h]
  exact takes_pure rfl

theorem takes_need (h : w.kind = kind) (expected : String) :
    Takes (need kind expected) ⟨front, w :: ws⟩ ⟨front ++ w.chars, ws⟩ (w.Spells (byteLength front)) := by
  apply takes_peek.bind
  intro t ht
  rw [if_pos (ht.trans h)]
  exact takes_bump

theorem takes_optional (h : w.kind = kind) {Q : Option α → Prop}
    (hp : Takes p ⟨front ++ w.chars, ws⟩ b fun x => Q (some x)) : Takes (optional kind p) ⟨front, w :: ws⟩ b Q := by
  apply (takes_eat h).known
  exact hp.bind fun x hx => takes_pure hx

theorem takes_not_optional (h : headKind a.ahead ≠ kind) : Takes (optional kind p) a a fun x => x = none :=
  (takes_not_eat h).known (takes_pure rfl)

end Takes

end PuppetDocs.Manifest.Outline
