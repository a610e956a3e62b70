import PuppetDocs.Proofs.Source.Stream

/-
  PuppetDocs.Proofs.Source.Ends — reasoning about parsers that may fail.

  `p.Ends E env s Q` says of the parser `p` that it fails only in ways that `E` allows, and that
  `Q` holds of its value and of the stream behind it if it does not fail. Like `Gives`, it is
  taken apart one bind at a time.

  A parser refuses a text at the token that it cannot use or that lacks its partner. The fault
  then names the text of that token, unless the parser had come to the end (`Fault.Blames`).
-/

namespace PuppetDocs

namespace ParseM

variable {κ α β : Type} {E : ParseFailure → Prop} {env : ParseEnv} {s : Stream κ}

/-- The parser fails as `E` allows, or `Q` holds of its value and the stream behind it. -/
def Ends (E : ParseFailure → Prop) (p : ParseM κ α) (env : ParseEnv) (s : Stream κ) (Q : α → Stream κ → Prop) : Prop :=
  (∀ e, p env s = .error e → E e) ∧ Gives p env s Q

variable {Q : α → Stream κ → Prop}

theorem Ends.mono {p : ParseM κ α} {R : α → Stream κ → Prop} (h : Ends E p env s R) (hRQ : ∀ a s', R a s' → Q a s') :
    Ends E p env s Q := ⟨h.1, h.2.mono hRQ⟩

theorem Ends.bind {p : ParseM κ α} {f : α → ParseM κ β} {R : α → Stream κ → Prop} {Q : β → Stream κ → Prop}
    (h : Ends E p env s R) (hf : ∀ a s', R a s' → Ends E (f a) env s' Q) : Ends E (p >>= f) env s Q := by
  refine ⟨?_, h.2.bind fun a s' ha => (hf a s' ha).2⟩
  intro e he
  rw [bind_eq] at he
  cases hp : p env s with
  | error e' =>
    rw [hp] at he
    cases he
    exact h.1 e hp
  | ok x =>
    rw [hp] at he
    exact (hf x.1 x.2 (h.2 x.1 x.2 hp)).1 e he

theorem ends_pure {a : α} (h : Q a s) : Ends E (pure a) env s Q := by
  refine ⟨?_, gives_pure.mpr h⟩
  intro e he
  cases he

theorem ends_throw {e : ParseFailure} (h : E e) : Ends E (throw e : ParseM κ α) env s Q := by
  refine ⟨?_, gives_throw⟩
  intro e' he
  cases he
  exact h

theorem ends_fail {fault : Fault} {offset : Nat} (h : E (.rejected (fault.at env.lines offset))) :
    Ends E (fail fault offset) env s Q := by
  refine ⟨?_, gives_fail⟩
  intro e he
  cases he
  exact h

theorem Ends.ite {c : Prop} [Decidable c] {p q : ParseM κ α} (hp : c → Ends E p env s Q) (hq : ¬c → Ends E q env s Q) :
    Ends E (if c then p else q) env s Q := by
  split
  · exact hp ‹_›
  · exact hq ‹_›

theorem ends_map {p : ParseM κ α} {g : α → β} {Q : β → Stream κ → Prop} (h : Ends E p env s fun a s' => Q (g a) s') :
    Ends E (g <$> p) env s Q := by
  have hmap : g <$> p = p >>= fun a => pure (g a) := (bind_pure_comp g p).symm
  rw [hmap]
  exact h.bind fun a s' ha => ends_pure ha

/-! ## Looking -/

theorem ends_peek {f : Token κ → ParseM κ α} : Ends E (peek >>= f) env s Q ↔ Ends E (f s.peek) env s Q := Iff.rfl

theorem ends_peekKind {f : κ → ParseM κ α} :
    Ends E (peekKind >>= f) env s Q ↔ Ends E (f s.peek.kind) env s Q := Iff.rfl

theorem ends_here {f : Nat → ParseM κ α} :
    Ends E (here >>= f) env s Q ↔ Ends E (f s.peek.span.start) env s Q := Iff.rfl

theorem ends_prevEnd {f : Nat → ParseM κ α} : Ends E (prevEnd >>= f) env s Q ↔ Ends E (f s.prevEnd) env s Q :=
  Iff.rfl

theorem ends_lineOf {n : Nat} {f : Nat → ParseM κ α} :
    Ends E (lineOf n >>= f) env s Q ↔ Ends E (f (env.lines.line n)) env s Q := Iff.rfl

theorem ends_at [DecidableEq κ] {kind : κ} {f : Bool → ParseM κ α} :
    Ends E (at_ kind >>= f) env s Q ↔ Ends E (f (decide (s.peek.kind = kind))) env s Q := Iff.rfl

theorem ends_get {f : Stream κ → ParseM κ α} : Ends E (get >>= f) env s Q ↔ Ends E (f s) env s Q := Iff.rfl

theorem ends_set {s' : Stream κ} {f : PUnit → ParseM κ α} :
    Ends E (set s' >>= f) env s Q ↔ Ends E (f ⟨⟩) env s' Q := Iff.rfl

theorem ends_read {f : ParseEnv → ParseM κ α} : Ends E (read >>= f) env s Q ↔ Ends E (f env) env s Q := Iff.rfl

theorem ends_bump {f : Token κ → ParseM κ α} :
    Ends E (bump >>= f) env s Q ↔ Ends E (f s.peek) env s.advance Q := Iff.rfl

end ParseM

/-! ## The tokens that parsers refuse -/

variable {κ : Type}

/-- The fault may be reported at the token: if it names a lexeme, it is this one. -/
def Fault.Blames (t : Token κ) : Fault → Prop
  | .unexpectedEnd _ => True
  | .unexpected found _ => found = t.text
  | .unbalanced lexeme => lexeme = t.text
  | .unterminatedString | .unterminatedHeredoc _ | .unterminatedRegex | .unterminatedComment => False

theorem blames_unexpectedEnd (t : Token κ) (expected : String) : (Fault.unexpectedEnd expected).Blames t := trivial

theorem blames_unexpected (t : Token κ) (expected : String) : (Fault.unexpected t.text expected).Blames t := rfl

theorem blames_unbalanced (t : Token κ) : (Fault.unbalanced t.text).Blames t := rfl

theorem blames_misplaced [DecidableEq κ] (eof : κ) (t : Token κ) (expected : String) :
    (ParseM.misplaced eof t expected).Blames t := by
  unfold ParseM.misplaced
  split
  · exact blames_unexpectedEnd t expected
  · exact blames_unexpected t expected

end PuppetDocs
