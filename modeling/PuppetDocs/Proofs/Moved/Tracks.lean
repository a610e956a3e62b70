import PuppetDocs.Proofs.Moved.Tree
import PuppetDocs.Proofs.Source.Ends
import PuppetDocs.Proofs.Source.Stream

/-
  PuppetDocs.Proofs.Moved.Tracks — one parser behind another, some bytes further on.

  The tokens of a text may stand in a second text too, in new places and some lines further
  down. What is read of them in the first text is read in the second, moved: `Tracks R p p'` says that
  where `p` succeeds on tokens of the first text, `p'` succeeds on the moved ones, `R` holds of
  the two values, and what is left is moved as well. Where `p` fails, it blames a token of the
  first text, in a way that the `Relocation` allows.

  Parsers that stand at different places of their texts never look at what is in front of them,
  so `Tracks` says nothing of the tokens that were read before.
-/

namespace PuppetDocs

/-- The token in its new place. -/
def Token.move {κ : Type} (t : Token κ) (place : Nat → Nat) : Token κ := { t with span := t.span.move place }

theorem Token.move_kind {κ : Type} (t : Token κ) (place : Nat → Nat) : (t.move place).kind = t.kind := rfl

/-- The stream of the tokens in their new places. -/
def Stream.move {κ : Type} (s : Stream κ) (place : Nat → Nat) : Stream κ where
  rest := s.rest.map (·.move place)
  stop := s.stop.move place
  prevEnd := place s.prevEnd

namespace Stream

variable {κ : Type}

theorem move_rest (s : Stream κ) (place : Nat → Nat) : (s.move place).rest = s.rest.map (·.move place) := rfl

@[simp] theorem move_peek (s : Stream κ) (place : Nat → Nat) : (s.move place).peek = s.peek.move place := by
  obtain ⟨rest, stop, prevEnd⟩ := s
  cases rest <;> rfl

@[simp] theorem move_peekAt (s : Stream κ) (place : Nat → Nat) (n : Nat) : (s.move place).peekAt n = (s.peekAt n).move place := by
  obtain ⟨rest, stop, prevEnd⟩ := s
  simp only [move, peekAt, List.getElem?_map]
  cases rest[n]? <;> rfl

@[simp] theorem move_advance (s : Stream κ) (place : Nat → Nat) : (s.move place).advance = s.advance.move place := by
  obtain ⟨rest, stop, prevEnd⟩ := s
  cases rest <;> rfl

@[simp] theorem move_skipWhile (p : κ → Bool) (s : Stream κ) (place : Nat → Nat) :
    (s.move place).skipWhile p = (s.skipWhile p).move place := by
  obtain ⟨rest, stop, prevEnd⟩ := s
  induction rest generalizing prevEnd with
  | nil => rfl
  | cons t rest ih =>
    have hcons : (Stream.mk (t :: rest) stop prevEnd).move place =
        ⟨t.move place :: rest.map (·.move place), stop.move place, place prevEnd⟩ := rfl
    rw [hcons, skipWhile_cons, skipWhile_cons, Token.move_kind]
    split
    · exact ih t.span.stop
    · rfl

end Stream

namespace Ruby

open ParseM

/-- A text with the last ones of its tokens, and a second text in which `place` says where what stands there begins
and ends, and which lines are `drop` lines further down; `Refused` holds of the failures that may be reported at one of the tokens. -/
structure Relocation where
  text : List Char
  text' : List Char
  lines : LineIndex
  lines' : LineIndex
  tokens : List (Token TokenKind)
  stop : Token TokenKind
  place : Nat → Nat
  drop : Nat
  Refused : ParseFailure → Prop
  mono : Monotone place
  line_eq : ∀ k, lines'.line (place k) = drop + lines.line k
  slice_eq : ∀ t ∈ tokens ++ [stop], ∀ u ∈ tokens ++ [stop],
    (Span.mk (place t.span.start) (place u.span.stop)).slice text' =
      (Span.mk t.span.start u.span.stop).slice text
  /-- The colon behind a key can be left out. -/
  stop_eq : ∀ t ∈ tokens ++ [stop], place t.span.stop - 1 = place (t.span.stop - 1)
  /-- The colon in front of a symbol can be left out. -/
  start_eq : ∀ t ∈ tokens ++ [stop], place t.span.start + 1 = place (t.span.start + 1)
  refuses : ∀ t ∈ tokens ++ [stop], ∀ fault : Fault, fault.Blames t → Refused (.rejected (fault.at lines t.span.start))
  exhausted : Refused .exhausted

namespace Relocation

/-- The first parser reads `s` in the first text, and the second one the same tokens in the second text. -/
structure Holds (w : Relocation) (env env' : ParseEnv) (s : Stream TokenKind) : Prop where
  text : env.text = w.text
  text' : env'.text = w.text'
  lines : env.lines = w.lines
  lines' : env'.lines = w.lines'
  holdDo : env'.holdDo = env.holdDo
  stop : s.stop = w.stop
  suffix : s.rest <:+ w.tokens

/-- The tokens, and the one at the end of the text. -/
def page (w : Relocation) : List (Token TokenKind) := w.tokens ++ [w.stop]

variable {w : Relocation} {env env' : ParseEnv} {s : Stream TokenKind}

theorem Holds.peek_mem (h : w.Holds env env' s) : s.peek ∈ w.page := by
  obtain ⟨rest, stop, prevEnd⟩ := s
  have hstop : stop = w.stop := h.stop
  cases rest with
  | nil => exact List.mem_append_right _ (List.mem_singleton.mpr hstop)
  | cons t rest => exact List.mem_append_left _ (h.suffix.subset List.mem_cons_self)

theorem Holds.peekAt_mem (h : w.Holds env env' s) (n : Nat) : s.peekAt n ∈ w.page := by
  obtain ⟨rest, stop, prevEnd⟩ := s
  have hstop : stop = w.stop := h.stop
  unfold Stream.peekAt
  dsimp only
  cases hget : rest[n]? with
  | none => exact List.mem_append_right _ (List.mem_singleton.mpr hstop)
  | some t => exact List.mem_append_left _ (h.suffix.subset (List.mem_of_getElem? hget))

/-- The tokens left are some of those that were left before. -/
theorem Holds.move {s' : Stream TokenKind} (h : w.Holds env env' s) (hstop : s'.stop = s.stop)
    (hsuffix : s'.rest <:+ s.rest) : w.Holds env env' s' :=
  ⟨h.text, h.text', h.lines, h.lines', h.holdDo, hstop.trans h.stop, hsuffix.trans h.suffix⟩

theorem Holds.advance (h : w.Holds env env' s) : w.Holds env env' s.advance := by
  obtain ⟨rest, stop, prevEnd⟩ := s
  cases rest with
  | nil => exact h
  | cons t rest => exact h.move rfl (List.suffix_cons t rest)

theorem Holds.skipWhile (h : w.Holds env env' s) (p : TokenKind → Bool) : w.Holds env env' (s.skipWhile p) := by
  obtain ⟨rest, stop, prevEnd⟩ := s
  induction rest generalizing prevEnd with
  | nil => exact h
  | cons t rest ih =>
    rw [Stream.skipWhile_cons]
    split
    · exact ih t.span.stop (h.move rfl (List.suffix_cons t rest))
    · exact h

end Relocation

/-! ## Tracking -/

/-- If `p` succeeds at `s`, then `p'` does on the moved tokens, and `R` holds of their values; if it fails, the
failure is allowed. -/
def TracksAt (w : Relocation) {α : Type} (p p' : P α) (R : α → α → Prop) (env env' : ParseEnv)
    (s : Stream TokenKind) : Prop :=
  (∀ e, p env s = .error e → w.Refused e) ∧ ∀ a s₁, p env s = .ok (a, s₁) →
    ∃ a', p' env' (s.move w.place) = .ok (a', s₁.move w.place) ∧ R a a' ∧ w.Holds env env' s₁

/-- `p'` does on the tokens of the second text what `p` does on those of the first, wherever it may stand. -/
def Tracks (w : Relocation) {α : Type} (p p' : P α) (R : α → α → Prop) : Prop :=
  ∀ env env' s, w.Holds env env' s → TracksAt w p p' R env env' s

variable {w : Relocation} {α β : Type} {p p' q q' : P α} {R : α → α → Prop}

theorem Tracks.bind {f f' : α → P β} {Q : β → β → Prop} (h : Tracks w p p' R)
    (hf : ∀ a a', R a a' → Tracks w (f a) (f' a') Q) : Tracks w (p >>= f) (p' >>= f') Q := by
  intro env env' s hs
  obtain ⟨hfails, hreads⟩ := h env env' s hs
  constructor
  · intro e he
    rw [bind_eq] at he
    cases hp : p env s with
    | error e' =>
      rw [hp] at he
      cases he
      exact hfails e hp
    | ok x =>
      rw [hp] at he
      obtain ⟨a', -, ha, hs'⟩ := hreads x.1 x.2 hp
      exact (hf x.1 a' ha env env' x.2 hs').1 e he
  · intro b s₁ hb
    rw [bind_eq] at hb
    cases hp : p env s with
    | error e =>
      rw [hp] at hb
      cases hb
    | ok x =>
      rw [hp] at hb
      obtain ⟨a', hp', ha, hs'⟩ := hreads x.1 x.2 hp
      obtain ⟨b', hb', hrest⟩ := (hf x.1 a' ha env env' x.2 hs').2 b s₁ hb
      refine ⟨b', ?_, hrest⟩
      rw [bind_eq, hp']
      exact hb'

theorem Tracks.ite {c : Prop} [Decidable c] (h : c → Tracks w p p' R) (k : ¬c → Tracks w q q' R) :
    Tracks w (if c then p else q) (if c then p' else q') R := by
  split
  · exact h ‹_›
  · exact k ‹_›

/-- Whichever of the two is read, what is behind it goes on. -/
theorem Tracks.ite_bind {f f' : α → P β} {Q : β → β → Prop} {c : Prop} [Decidable c] (h : Tracks w p p' R)
    (k : Tracks w q q' R) (hf : ∀ a a', R a a' → Tracks w (f a) (f' a') Q) :
    Tracks w (if c then p >>= f else q >>= f) (if c then p' >>= f' else q' >>= f') Q :=
  .ite (fun _ => h.bind hf) (fun _ => k.bind hf)

/-- What may be passed over in front does not matter. -/
theorem Tracks.pass_ite {r r' : P β} {S : α → α → Prop} {Q : β → β → Prop} {c : Prop} [Decidable c]
    (h : Tracks w p p' S) (k : Tracks w r r' Q) :
    Tracks w (if c then p >>= fun _ => r else r) (if c then p' >>= fun _ => r' else r') Q :=
  .ite (fun _ => h.bind fun _ _ _ => k) (fun _ => k)

theorem tracksAt_get {f f' : Stream TokenKind → P α} {env env' : ParseEnv} {s : Stream TokenKind} :
    TracksAt w (get >>= f) (get >>= f') R env env' s ↔ TracksAt w (f s) (f' (s.move w.place)) R env env' s := Iff.rfl

/-- The tokens left are set to some of those that were left before. -/
theorem tracksAt_set {f f' : PUnit → P α} {env env' : ParseEnv} {s s₁ : Stream TokenKind} :
    TracksAt w (set s₁ >>= f) (set (s₁.move w.place) >>= f') R env env' s ↔
      TracksAt w (f ⟨⟩) (f' ⟨⟩) R env env' s₁ := Iff.rfl

theorem tracksAt_read {f f' : ParseEnv → P α} {env env' : ParseEnv} {s : Stream TokenKind} :
    TracksAt w (read >>= f) (read >>= f') R env env' s ↔ TracksAt w (f env) (f' env') R env env' s := Iff.rfl

theorem tracks_pure {a a' : α} (h : R a a') : Tracks w (pure a) (pure a') R := by
  intro env env' s hs
  refine ⟨nofun, fun b s₁ hb => ?_⟩
  cases hb
  exact ⟨a', rfl, h, hs⟩

theorem Tracks.map {f f' : α → β} {Q : β → β → Prop} (h : Tracks w p p' R) (hf : ∀ a a', R a a' → Q (f a) (f' a')) :
    Tracks w (f <$> p) (f' <$> p') Q := by
  have hmap : ∀ (g : α → β) (r : P α), g <$> r = r >>= fun a => pure (g a) := fun g r => (bind_pure_comp g r).symm
  rw [hmap, hmap]
  exact h.bind fun a a' ha => tracks_pure (hf a a' ha)

theorem Tracks.nested (h : Tracks w p p' R) : Tracks w (nested p) (nested p') R := by
  intro env env' s hs
  have hinner : w.Holds { env with holdDo := false } { env' with holdDo := false } s :=
    ⟨hs.text, hs.text', hs.lines, hs.lines', rfl, hs.stop, hs.suffix⟩
  refine ⟨(h _ _ s hinner).1, fun a s₁ ha => ?_⟩
  obtain ⟨a', ha', hR, hs'⟩ := (h _ _ s hinner).2 a s₁ ha
  exact ⟨a', ha', hR, hs.text, hs.text', hs.lines, hs.lines', hs.holdDo, hs'.stop, hs'.suffix⟩

theorem Tracks.withoutDo (h : Tracks w p p' R) : Tracks w (withoutDo p) (withoutDo p') R := by
  intro env env' s hs
  have hinner : w.Holds { env with holdDo := true } { env' with holdDo := true } s :=
    ⟨hs.text, hs.text', hs.lines, hs.lines', rfl, hs.stop, hs.suffix⟩
  refine ⟨(h _ _ s hinner).1, fun a s₁ ha => ?_⟩
  obtain ⟨a', ha', hR, hs'⟩ := (h _ _ s hinner).2 a s₁ ha
  exact ⟨a', ha', hR, hs.text, hs.text', hs.lines, hs.lines', hs.holdDo, hs'.stop, hs'.suffix⟩

/-- Where the parser gives up, a token is blamed, and it does not matter what the other one does. -/
theorem tracks_fail {t : Token TokenKind} (ht : t ∈ w.page) {fault : Fault} (h : fault.Blames t) :
    Tracks w (fail fault t.span.start) p' R := by
  intro env env' s hs
  constructor
  · intro e he
    cases he
    rw [hs.lines]
    exact w.refuses t ht fault h
  · intro a s₁ ha
    cases ha

/-! ## Looking -/

/-- The first parser leaves the stream as it is, and the second does what it does, moved. -/
theorem tracks_look (h : ∀ env env' s, w.Holds env env' s → ∃ a a', p env s = .ok (a, s) ∧
    p' env' (s.move w.place) = .ok (a', s.move w.place) ∧ R a a') : Tracks w p p' R := by
  intro env env' s hs
  obtain ⟨a, a', hp, hp', hR⟩ := h env env' s hs
  unfold TracksAt
  rw [hp]
  refine ⟨nofun, fun b s₁ hb => ?_⟩
  cases hb
  exact ⟨a', hp', hR, hs⟩

/-- A token of the first text and the same token of the second. -/
def Moved (w : Relocation) (t t' : Token TokenKind) : Prop := t ∈ w.page ∧ t' = t.move w.place

/-- The start of a token of the first text, and that of the same token of the second. -/
def StartOf (w : Relocation) (k k' : Nat) : Prop := (∃ t ∈ w.page, k = t.span.start) ∧ k' = w.place k

theorem tracks_peek : Tracks w peek peek (Moved w) :=
  tracks_look fun _ _ s hs => ⟨s.peek, _, rfl, rfl, hs.peek_mem, s.move_peek _⟩

theorem tracks_peekAt (n : Nat) : Tracks w (peekAt n) (peekAt n) (Moved w) :=
  tracks_look fun _ _ s hs => ⟨s.peekAt n, _, rfl, rfl, hs.peekAt_mem n, s.move_peekAt _ n⟩

theorem tracks_peekKind : Tracks w peekKind peekKind fun k k' => k' = k := by
  refine tracks_peek.bind ?_
  rintro t _ ⟨-, rfl⟩
  exact tracks_pure rfl

theorem tracks_here : Tracks w here here (StartOf w) := by
  refine tracks_peek.bind ?_
  rintro t _ ⟨ht, rfl⟩
  exact tracks_pure ⟨⟨t, ht, rfl⟩, rfl⟩

theorem tracks_prevEnd : Tracks w ParseM.prevEnd ParseM.prevEnd fun k k' => k' = w.place k :=
  tracks_look fun _ _ s _ => ⟨s.prevEnd, _, rfl, rfl, rfl⟩

theorem tracks_lineOf (k : Nat) : Tracks w (lineOf k) (lineOf (w.place k)) fun l l' => l' = w.drop + l := by
  refine tracks_look fun env env' _ hs => ⟨env.lines.line k, env'.lines.line (w.place k), rfl, rfl, ?_⟩
  rw [hs.lines, hs.lines', w.line_eq]

theorem tracks_holdDo : Tracks w read read fun env env' => env'.holdDo = env.holdDo :=
  tracks_look fun env env' _ hs => ⟨env, env', rfl, rfl, hs.holdDo⟩

theorem tracks_at (kind : TokenKind) : Tracks w (at_ kind) (at_ kind) fun b b' => b' = b := by
  refine tracks_peekKind.bind ?_
  rintro k _ rfl
  exact tracks_pure rfl

theorem tracks_atAny (kinds : List TokenKind) : Tracks w (atAny kinds) (atAny kinds) fun b b' => b' = b := by
  refine tracks_peekKind.bind ?_
  rintro k _ rfl
  exact tracks_pure rfl

theorem tracks_parenAt (n : Nat) : Tracks w (parenAt n) (parenAt n) fun b b' => b' = b := by
  refine (tracks_peekAt n).bind ?_
  rintro t _ ⟨-, rfl⟩
  exact tracks_pure rfl

theorem tracks_colonAt (n : Nat) : Tracks w (colonAt n) (colonAt n) fun b b' => b' = b := by
  refine (tracks_peekAt n).bind ?_
  rintro t _ ⟨-, rfl⟩
  exact tracks_pure rfl

theorem tracks_commandArgStarts : Tracks w commandArgStarts commandArgStarts fun b b' => b' = b := by
  refine tracks_peek.bind ?_
  rintro t _ ⟨-, rfl⟩
  refine (tracks_peekAt 1).bind ?_
  rintro u _ ⟨-, rfl⟩
  exact tracks_pure rfl

theorem tracks_lineGoesOn : Tracks w lineGoesOn lineGoesOn fun b b' => b' = b := by
  refine tracks_look fun _ _ s _ => ⟨_, _, rfl, rfl, ?_⟩
  rw [Stream.move_skipWhile, Stream.move_peek, Token.move_kind]

/-! ## Reading -/

theorem tracks_bump : Tracks w bump bump (Moved w) := by
  intro env env' s hs
  refine ⟨nofun, fun t s₁ ht => ?_⟩
  cases ht
  refine ⟨s.peek.move w.place, ?_, ⟨hs.peek_mem, rfl⟩, hs.advance⟩
  rw [← s.move_peek, ← s.move_advance]
  rfl

theorem tracks_skipWhile (q : TokenKind → Bool) : Tracks w (skipWhile q) (skipWhile q) fun _ _ => True := by
  intro env env' s hs
  refine ⟨nofun, fun a s₁ ha => ?_⟩
  cases ha
  refine ⟨⟨⟩, ?_, trivial, hs.skipWhile q⟩
  rw [← s.move_skipWhile]
  rfl

theorem tracks_skipNewlines : Tracks w skipNewlines skipNewlines fun _ _ => True := tracks_skipWhile _

theorem tracks_skipTerminators : Tracks w skipTerminators skipTerminators fun _ _ => True := tracks_skipWhile _

theorem tracks_eat (kind : TokenKind) : Tracks w (eat kind) (eat kind) fun b b' => b' = b := by
  refine tracks_peekKind.bind ?_
  rintro k _ rfl
  refine .ite (fun _ => ?_) (fun _ => tracks_pure rfl)
  exact tracks_bump.bind fun _ _ _ => tracks_pure rfl

theorem tracks_need (kind : TokenKind) (expected : String) :
    Tracks w (need kind expected) (need kind expected) (Moved w) := by
  refine tracks_peek.bind ?_
  rintro t _ ⟨ht, rfl⟩
  exact .ite (fun _ => tracks_bump) (fun _ => tracks_fail ht (blames_misplaced _ t expected))

theorem tracks_needEnd : Tracks w needEnd needEnd fun _ _ => True :=
  (tracks_need _ _).bind fun _ _ _ => tracks_pure trivial

/-! ## Nodes -/

/-- The node of the second text is that of the first one, moved. -/
abbrev MovedNode (w : Relocation) (n n' : Node) : Prop := n' = n.move w.place w.drop

abbrev MovedNodes (w : Relocation) (ns ns' : List Node) : Prop := ns' = ns.map (·.move w.place w.drop)

abbrev MovedParams (w : Relocation) (ps ps' : List (Param Node)) : Prop :=
  ps' = ps.map (relocateParam (·.move w.place) (w.drop + ·))

theorem tracks_mkNode {kind kind' : NodeKind Node} {start start' : Nat}
    (hkind : kind' = relocateKind (·.move w.place) (w.drop + ·) kind) (hstart : start' = w.place start) :
    Tracks w (mkNode kind start) (mkNode kind' start') (MovedNode w) := by
  subst hkind hstart
  refine tracks_prevEnd.bind ?_
  rintro k _ rfl
  refine (tracks_lineOf start).bind ?_
  rintro line _ rfl
  refine tracks_pure ?_
  simp only [MovedNode, Node.relocate, Span.move, w.mono.map_max]

theorem tracks_leaf {kind kind' : NodeKind Node} (hkind : kind' = relocateKind (·.move w.place) (w.drop + ·) kind) :
    Tracks w (leaf kind) (leaf kind') (MovedNode w) := by
  subst hkind
  refine tracks_bump.bind ?_
  rintro t _ ⟨-, rfl⟩
  refine (tracks_lineOf t.span.start).bind ?_
  rintro line _ rfl
  exact tracks_pure (by simp [MovedNode, Node.relocate, Token.move])

/-- The same rule in its new place: the node it goes on with has moved. -/
def Rule.move (place : Nat → Nat) (l : Nat) : {α : Type} → Rule α → Rule α
  | _, .modifiers start n => .modifiers (place start) (n.move place l)
  | _, .joined start lhs => .joined (place start) (lhs.move place l)
  | _, .operators min start lhs => .operators min (place start) (lhs.move place l)
  | _, .trailers start n => .trailers (place start) (n.move place l)
  | _, rule => rule

/-- What is read by the rule in the second text is what is read in the first, moved. -/
def Rule.Moved (w : Relocation) : {α : Type} → Rule α → α → α → Prop
  | _, .statements _ | _, .body | _, .statement | _, .modifiers .. | _, .sentence | _, .joined .. | _, .negation
  | _, .expr | _, .ternary | _, .binary _ | _, .operators .. | _, .unary | _, .primary | _, .trailers .. | _, .arg =>
    MovedNode w
  | _, .items _ | _, .rescues | _, .rescueTypes | _, .args _ | _, .moreArgs | _, .forTargets | _, .elsifs | _, .whens
  | _, .undefNames => MovedNodes w
  | _, .params _ => MovedParams w

/-- What one reader reads, the other one reads further on. -/
def TracksAll (w : Relocation) (one other : Reader) : Prop :=
  ∀ {α : Type} (rule : Rule α), Tracks w (one rule) (other (rule.move w.place w.drop)) (rule.Moved w)

end Ruby

end PuppetDocs
