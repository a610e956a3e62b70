import PuppetDocs.Proofs.Source.Stream
import PuppetDocs.Ruby.Grammar.Calls

/-
  PuppetDocs.Proofs.Descent.Settles — parsers that come to an end.

  A parser that is given a reader for the rules inside it comes to an end if these do, and does
  the same under two readers that agree. `Agree` says both of two parsers at one place of the
  stream. What the two readers have to agree on is told by the tokens that are left, which are
  the last ones of a text `w`: `Settles w n` asks for agreement where fewer than `n` are left,
  `Consumes w n` for a token used up as well, and `Opens w n` is for parsers that begin with a
  token the end of the text is not.
-/

namespace PuppetDocs

namespace Stream

variable {κ : Type} {s s' s'' : Stream κ}

/-- Reading went from the first stream to the second. -/
structure Onward (s s' : Stream κ) : Prop where
  stop : s'.stop = s.stop
  suffix : s'.rest <:+ s.rest

/-- Reading went from the first stream to the second and used up a token. -/
structure Past (s s' : Stream κ) : Prop where
  stop : s'.stop = s.stop
  suffix : s'.rest <:+ s.rest
  lt : s'.rest.length < s.rest.length

theorem Onward.le (h : s.Onward s') : s'.rest.length ≤ s.rest.length := h.suffix.length_le

theorem Onward.refl (s : Stream κ) : s.Onward s := ⟨rfl, List.suffix_rfl⟩

theorem Onward.trans (h : s.Onward s') (k : s'.Onward s'') : s.Onward s'' :=
  ⟨k.stop.trans h.stop, k.suffix.trans h.suffix⟩

theorem Past.onward (h : s.Past s') : s.Onward s' := ⟨h.stop, h.suffix⟩

theorem Past.trans (h : s.Past s') (k : s'.Onward s'') : s.Past s'' :=
  ⟨k.stop.trans h.stop, k.suffix.trans h.suffix, Nat.lt_of_le_of_lt k.le h.lt⟩

theorem onward_advance (s : Stream κ) : s.Onward s.advance := by
  obtain ⟨rest, stop, prevEnd⟩ := s
  cases rest with
  | nil => exact .refl _
  | cons t rest => exact ⟨rfl, List.suffix_cons _ _⟩

/-- Only the token at the end of the text is not used up. -/
theorem past_advance (h : s.peek.kind ≠ s.stop.kind) : s.Past s.advance := by
  obtain ⟨rest, stop, prevEnd⟩ := s
  cases rest with
  | nil => exact absurd rfl h
  | cons t rest => exact ⟨rfl, List.suffix_cons _ _, Nat.lt_succ_self _⟩

theorem onward_skipWhile (p : κ → Bool) (s : Stream κ) : s.Onward (s.skipWhile p) := by
  obtain ⟨rest, stop, prevEnd⟩ := s
  induction rest generalizing prevEnd with
  | nil => exact .refl _
  | cons t rest ih =>
    rw [skipWhile_cons]
    split
    · exact (onward_advance _).trans (ih t.span.stop)
    · exact .refl _

theorem past_skipWhile {p : κ → Bool} (hp : p s.peek.kind = true) (h : s.peek.kind ≠ s.stop.kind) :
    s.Past (s.skipWhile p) := by
  obtain ⟨rest, stop, prevEnd⟩ := s
  cases rest with
  | nil => exact absurd rfl h
  | cons t rest =>
    have hkind : p t.kind = true := hp
    rw [skipWhile_cons, if_pos hkind]
    have hfirst : (Stream.mk (t :: rest) stop prevEnd).Past (Stream.mk rest stop t.span.stop) :=
      ⟨rfl, List.suffix_cons _ _, Nat.lt_succ_self _⟩
    exact hfirst.trans (onward_skipWhile p _)

end Stream

namespace Ruby

open ParseM

variable {α β : Type}

/-! ## The text that is read -/

/-- A text and its tokens. -/
structure Page where
  text : List Char
  tokens : List (Token TokenKind)

/-- The text is read where the last ones of its tokens are left, with the end of the text behind them. -/
structure Page.Holds (w : Page) (env : ParseEnv) (s : Stream TokenKind) : Prop where
  text : env.text = w.text
  stop : s.stop.kind = .eof
  suffix : s.rest <:+ w.tokens

section Page

variable {w : Page} {env : ParseEnv} {s s' : Stream TokenKind}

theorem Page.holds_rest (env : ParseEnv) (hs : s.stop.kind = .eof) : (Page.mk env.text s.rest).Holds env s :=
  ⟨rfl, hs, List.suffix_rfl⟩

theorem Page.Holds.onward (hs : w.Holds env s) (h : s.Onward s') : w.Holds env s' :=
  ⟨hs.text, h.stop ▸ hs.stop, h.suffix.trans hs.suffix⟩

theorem Page.Holds.past (hs : w.Holds env s) (h : s.Past s') : w.Holds env s' := hs.onward h.onward

/-- Whether `do` is held back does not matter. -/
theorem Page.Holds.holdDo (hs : w.Holds env s) (b : Bool) : w.Holds { env with holdDo := b } s :=
  ⟨hs.text, hs.stop, hs.suffix⟩

end Page

/-! ## Agreement at one place -/

/-- Both parsers do the same at `s`, which is to read or to refuse the text; if they end with a value, `Q` holds. -/
def Agree (p p' : P α) (env : ParseEnv) (s : Stream TokenKind) (Q : α → Stream TokenKind → Prop) : Prop :=
  p' env s = p env s ∧ (∀ e, p env s = .error e → ∃ x, e = .rejected x) ∧ Gives p env s Q

section Agree

variable {env : ParseEnv} {s : Stream TokenKind} {p p' : P α} {f f' : α → P β}

theorem Agree.mono {Q R : α → Stream TokenKind → Prop} (h : Agree p p' env s R) (hRQ : ∀ a s', R a s' → Q a s') :
    Agree p p' env s Q := ⟨h.1, h.2.1, h.2.2.mono hRQ⟩

theorem Agree.bind {Q : β → Stream TokenKind → Prop} {R : α → Stream TokenKind → Prop} (h : Agree p p' env s R)
    (hf : ∀ a s', R a s' → Agree (f a) (f' a) env s' Q) : Agree (p >>= f) (p' >>= f') env s Q := by
  obtain ⟨hsame, hends, hgives⟩ := h
  refine ⟨?_, ?_, hgives.bind fun a s' ha => (hf a s' ha).2.2⟩
  · rw [bind_eq, bind_eq, hsame]
    cases hp : p env s with
    | error e => rfl
    | ok x => exact (hf x.1 x.2 (hgives x.1 x.2 hp)).1
  · rw [bind_eq]
    cases hp : p env s with
    | error e =>
      intro e' he
      cases he
      exact hends e hp
    | ok x => exact (hf x.1 x.2 (hgives x.1 x.2 hp)).2.1

theorem Agree.ite {c : Prop} [Decidable c] {q q' : P α} {Q : α → Stream TokenKind → Prop} (h : c → Agree p p' env s Q)
    (k : ¬c → Agree q q' env s Q) : Agree (if c then p else q) (if c then p' else q') env s Q := by
  by_cases hc : c
  · rw [if_pos hc, if_pos hc]
    exact h hc
  · rw [if_neg hc, if_neg hc]
    exact k hc

theorem agree_pure {a : α} {Q : α → Stream TokenKind → Prop} (h : Q a s) : Agree (pure a) (pure a) env s Q := by
  refine ⟨rfl, ?_, gives_pure.mpr h⟩
  intro e he
  cases he

theorem agree_fail {fault : Fault} {offset : Nat} {Q : α → Stream TokenKind → Prop} :
    Agree (fail fault offset) (fail fault offset) env s Q := by
  refine ⟨rfl, ?_, gives_fail⟩
  intro e he
  cases he
  exact ⟨_, rfl⟩

theorem agree_peek {f f' : Token TokenKind → P α} {Q : α → Stream TokenKind → Prop} :
    Agree (peek >>= f) (peek >>= f') env s Q ↔ Agree (f s.peek) (f' s.peek) env s Q := Iff.rfl

theorem agree_peekKind {f f' : TokenKind → P α} {Q : α → Stream TokenKind → Prop} :
    Agree (peekKind >>= f) (peekKind >>= f') env s Q ↔ Agree (f s.peek.kind) (f' s.peek.kind) env s Q := Iff.rfl

theorem agree_here {f f' : Nat → P α} {Q : α → Stream TokenKind → Prop} :
    Agree (here >>= f) (here >>= f') env s Q ↔ Agree (f s.peek.span.start) (f' s.peek.span.start) env s Q := Iff.rfl

theorem agree_atAny {kinds : List TokenKind} {f f' : Bool → P α} {Q : α → Stream TokenKind → Prop} :
    Agree (atAny kinds >>= f) (atAny kinds >>= f') env s Q ↔
      Agree (f (kinds.contains s.peek.kind)) (f' (kinds.contains s.peek.kind)) env s Q := Iff.rfl

theorem agree_at {kind : TokenKind} {f f' : Bool → P α} {Q : α → Stream TokenKind → Prop} :
    Agree (at_ kind >>= f) (at_ kind >>= f') env s Q ↔
      Agree (f (decide (s.peek.kind = kind))) (f' (decide (s.peek.kind = kind))) env s Q := Iff.rfl

theorem agree_get {f f' : Stream TokenKind → P α} {Q : α → Stream TokenKind → Prop} :
    Agree (get >>= f) (get >>= f') env s Q ↔ Agree (f s) (f' s) env s Q := Iff.rfl

theorem agree_set {s₁ : Stream TokenKind} {f f' : PUnit → P α} {Q : α → Stream TokenKind → Prop} :
    Agree (set s₁ >>= f) (set s₁ >>= f') env s Q ↔ Agree (f ⟨⟩) (f' ⟨⟩) env s₁ Q := Iff.rfl

theorem agree_read {f f' : ParseEnv → P α} {Q : α → Stream TokenKind → Prop} :
    Agree (read >>= f) (read >>= f') env s Q ↔ Agree (f env) (f' env) env s Q := Iff.rfl

end Agree

/-! ## Agreement over all short streams -/

/-- The parsers agree wherever fewer than `n` tokens are left. -/
def Settles (w : Page) (n : Nat) (p p' : P α) : Prop :=
  ∀ env s, w.Holds env s → s.rest.length < n → Agree p p' env s fun _ s' => s.Onward s'

/-- The parsers agree wherever fewer than `n` tokens are left, and use up one of them. -/
def Consumes (w : Page) (n : Nat) (p p' : P α) : Prop :=
  ∀ env s, w.Holds env s → s.rest.length < n → Agree p p' env s fun _ s' => s.Past s'

/-- The parsers agree, and use up a token, wherever fewer than `n` are left and one is. -/
def Opens (w : Page) (n : Nat) (p p' : P α) : Prop :=
  ∀ env s, w.Holds env s → s.rest.length < n → s.peek.kind ≠ .eof → Agree p p' env s fun _ s' => s.Past s'

section Settles

variable {w : Page} {n : Nat} {p p' q q' : P α} {f f' : α → P β}

theorem Settles.bind (h : Settles w n p p') (hf : ∀ a, Settles w n (f a) (f' a)) : Settles w n (p >>= f) (p' >>= f') := by
  intro env s hs hn
  refine (h env s hs hn).bind fun a s' hs' => ?_
  exact (hf a env s' (hs.onward hs') (Nat.lt_of_le_of_lt hs'.le hn)).mono fun b s'' hs'' => hs'.trans hs''

theorem Settles.ite {c : Prop} [Decidable c] (h : c → Settles w n p p') (k : ¬c → Settles w n q q') :
    Settles w n (if c then p else q) (if c then p' else q') :=
  fun env s hs hn => .ite (fun hc => h hc env s hs hn) (fun hc => k hc env s hs hn)

/-- Whichever of the two is read, what is behind it goes on. -/
theorem Settles.ite_bind {c : Prop} [Decidable c] (h : Settles w n p p') (k : Settles w n q q')
    (hf : ∀ a, Settles w n (f a) (f' a)) :
    Settles w n (if c then p >>= f else q >>= f) (if c then p' >>= f' else q' >>= f') :=
  .ite (fun _ => h.bind hf) (fun _ => k.bind hf)

/-- What may be passed over in front leaves no more than before. -/
theorem Settles.pass_ite {c : Prop} [Decidable c] {r r' : P β} (h : Settles w n p p') (k : Settles w n r r') :
    Settles w n (if c then p >>= fun _ => r else r) (if c then p' >>= fun _ => r' else r') :=
  .ite (fun _ => h.bind fun _ => k) (fun _ => k)

theorem Settles.map {g : α → β} (h : Settles w n p p') : Settles w n (g <$> p) (g <$> p') := by
  have hmap : ∀ r : P α, g <$> r = r >>= fun a => pure (g a) := fun r => (bind_pure_comp g r).symm
  rw [hmap, hmap]
  refine h.bind fun a env s _ _ => agree_pure (.refl s)

theorem Settles.nested (h : Settles w n p p') : Settles w n (nested p) (nested p') :=
  fun env s hs hn => h { env with holdDo := false } s (hs.holdDo false) hn

theorem Settles.withoutDo (h : Settles w n p p') : Settles w n (withoutDo p) (withoutDo p') :=
  fun env s hs hn => h { env with holdDo := true } s (hs.holdDo true) hn

theorem Consumes.settles (h : Consumes w n p p') : Settles w n p p' :=
  fun env s hs hn => (h env s hs hn).mono fun _ _ hs' => hs'.onward

/-- Behind a token that is used up, fewer tokens are left to agree on. -/
theorem Consumes.bind (h : Consumes w (n + 1) p p') (hf : ∀ a, Settles w n (f a) (f' a)) :
    Consumes w (n + 1) (p >>= f) (p' >>= f') := by
  intro env s hs hn
  refine (h env s hs hn).bind fun a s' hs' => ?_
  have hlt := hs'.lt
  exact (hf a env s' (hs.past hs') (by omega)).mono fun b s'' hs'' => hs'.trans hs''

theorem Opens.bind (h : Opens w (n + 1) p p') (hf : ∀ a, Settles w n (f a) (f' a)) :
    Opens w (n + 1) (p >>= f) (p' >>= f') := by
  intro env s hs hn hk
  refine (h env s hs hn hk).bind fun a s' hs' => ?_
  have hlt := hs'.lt
  exact (hf a env s' (hs.past hs') (by omega)).mono fun b s'' hs'' => hs'.trans hs''

theorem Opens.onward {env : ParseEnv} {s : Stream TokenKind} (h : Opens w n p p') (hs : w.Holds env s)
    (hn : s.rest.length < n) (hk : s.peek.kind ≠ .eof) : Agree p p' env s fun _ s' => s.Onward s' :=
  (h env s hs hn hk).mono fun _ _ hs' => hs'.onward

theorem settles_pure {a : α} : Settles w n (pure a) (pure a) := fun _ s _ _ => agree_pure (.refl s)

theorem settles_fail {fault : Fault} {offset : Nat} : Settles w n (fail fault offset : P α) (fail fault offset) :=
  fun _ _ _ _ => agree_fail

theorem settles_bump : Settles w n bump bump := by
  intro env s _ _
  refine ⟨rfl, ?_, gives_bump.mpr (gives_pure.mpr s.onward_advance)⟩
  intro e he
  cases he

theorem opens_bump : Opens w n bump bump := by
  intro env s hs _ hk
  refine ⟨rfl, ?_, gives_bump.mpr (gives_pure.mpr (s.past_advance (hs.stop.symm ▸ hk)))⟩
  intro e he
  cases he

/-! ## Tools -/

/-- The parser looks at the stream, which it leaves as it is, and always has an answer. -/
def Sees (p : P α) : Prop := ∀ env s, ∃ a, p env s = .ok (a, s)

theorem Sees.agree (h : Sees p) (env : ParseEnv) (s : Stream TokenKind) : Agree p p env s fun _ s' => s' = s := by
  obtain ⟨a, ha⟩ := h env s
  refine ⟨rfl, ?_, ?_⟩
  · rw [ha]
    intro e he
    cases he
  · intro b s' hb
    rw [ha] at hb
    cases hb
    rfl

theorem agree_look {env : ParseEnv} {s : Stream TokenKind} {Q : β → Stream TokenKind → Prop} (h : Sees p)
    (hf : ∀ a, Agree (f a) (f' a) env s Q) : Agree (p >>= f) (p >>= f') env s Q := by
  refine (h.agree env s).bind fun a s' hs' => ?_
  rw [hs']
  exact hf a

theorem Settles.look (h : Sees p) (hf : ∀ a, Settles w n (f a) (f' a)) : Settles w n (p >>= f) (p >>= f') :=
  fun env s hs hn => agree_look h fun a => hf a env s hs hn

theorem Consumes.look (h : Sees p) (hf : ∀ a, Consumes w n (f a) (f' a)) : Consumes w n (p >>= f) (p >>= f') :=
  fun env s hs hn => agree_look h fun a => hf a env s hs hn

theorem Sees.settles (h : Sees p) : Settles w n p p := by
  intro env s _ _
  refine (h.agree env s).mono fun _ s' hs' => ?_
  rw [hs']
  exact .refl s

theorem sees_peek : Sees peek := fun _ _ => ⟨_, rfl⟩

theorem sees_peekAt (i : Nat) : Sees (peekAt i) := fun _ _ => ⟨_, rfl⟩

theorem sees_peekKind : Sees peekKind := fun _ _ => ⟨_, rfl⟩

theorem sees_here : Sees here := fun _ _ => ⟨_, rfl⟩

theorem sees_prevEnd : Sees prevEnd := fun _ _ => ⟨_, rfl⟩

theorem sees_lineOf (offset : Nat) : Sees (lineOf offset) := fun _ _ => ⟨_, rfl⟩

theorem sees_at (kind : TokenKind) : Sees (at_ kind) := fun _ _ => ⟨_, rfl⟩

theorem sees_atAny (kinds : List TokenKind) : Sees (atAny kinds) := fun _ _ => ⟨_, rfl⟩

theorem sees_parenAt (i : Nat) : Sees (parenAt i) := fun _ _ => ⟨_, rfl⟩

theorem sees_colonAt (i : Nat) : Sees (colonAt i) := fun _ _ => ⟨_, rfl⟩

theorem sees_commandArgStarts : Sees commandArgStarts := fun _ _ => ⟨_, rfl⟩

theorem sees_lineGoesOn : Sees lineGoesOn := fun _ _ => ⟨_, rfl⟩

theorem sees_mkNode (kind : NodeKind Node) (start : Nat) : Sees (mkNode kind start) := fun _ _ => ⟨_, rfl⟩

theorem sees_read : Sees (read : P ParseEnv) := fun _ _ => ⟨_, rfl⟩

/-- Where one of `kinds` stands, it may be used up. -/
theorem settles_atAny {kinds : List TokenKind} (hk : TokenKind.eof ∉ kinds) {q q' : P β} {r r' : P β}
    (h : Opens w n q q') (k : Settles w n r r') :
    Settles w n (atAny kinds >>= fun c => if c then q else r) (atAny kinds >>= fun c => if c then q' else r') := by
  intro env s hs hn
  rw [agree_atAny]
  refine .ite (fun hc => ?_) (fun _ => k env s hs hn)
  refine h.onward hs hn ?_
  intro he
  rw [he] at hc
  exact hk (List.contains_iff_mem.mp hc)

theorem settles_skipWhile (p : TokenKind → Bool) : Settles w n (skipWhile p) (skipWhile p) := by
  intro env s _ _
  refine ⟨rfl, ?_, ?_⟩
  · intro e he
    cases he
  · intro a s' h
    cases h
    exact s.onward_skipWhile p

theorem settles_skipNewlines : Settles w n skipNewlines skipNewlines := settles_skipWhile _

theorem settles_skipTerminators : Settles w n skipTerminators skipTerminators := settles_skipWhile _

theorem settles_need (kind : TokenKind) (expected : String) : Settles w n (need kind expected) (need kind expected) := by
  refine sees_peek.settles.bind fun t => ?_
  exact .ite (fun _ => settles_bump) (fun _ => settles_fail)

theorem settles_needEnd : Settles w n needEnd needEnd := (settles_need _ _).bind fun _ => settles_pure

theorem settles_eat (kind : TokenKind) : Settles w n (eat kind) (eat kind) := by
  refine sees_peekKind.settles.bind fun k => ?_
  exact .ite (fun _ => settles_bump.bind fun _ => settles_pure) (fun _ => settles_pure)

/-- Behind a token that was there and is used up, fewer tokens are left to agree on. -/
theorem settles_eat_bind {kind : TokenKind} (hk : kind ≠ .eof) {f f' : Bool → P β}
    (hfound : Settles w n (f true) (f' true)) (hmissing : Settles w (n + 1) (f false) (f' false)) :
    Settles w (n + 1) (eat kind >>= f) (eat kind >>= f') := by
  intro env s hs hn
  unfold eat
  rw [bind_assoc, bind_assoc, agree_peekKind]
  by_cases h : s.peek.kind = kind
  · rw [if_pos h, bind_assoc, bind_assoc]
    refine (opens_bump.bind (fun _ => ?_) env s hs hn (h ▸ hk)).mono fun _ _ hs' => hs'.onward
    rw [pure_bind, pure_bind]
    exact hfound
  · rw [if_neg h, pure_bind, pure_bind]
    exact hmissing env s hs hn

end Settles

end Ruby

end PuppetDocs
