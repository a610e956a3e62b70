import PuppetDocs.Source.Stream

/-
  PuppetDocs.Proofs.Source.Stream — reasoning about parsers one bind at a time.

  `p.Gives env s Q` says that if the parser `p` ends with a value, then `Q` holds of the value
  and of the stream behind it. A parser written with `do` is taken apart with `gives_bind` and
  the rules of the tools it begins with; nothing below refers to how a parser is represented.
-/

namespace PuppetDocs

namespace Stream

variable {κ : Type}

/-- Of the stream it began with, the loop keeps the stop token only. -/
theorem skipWhile_go_congr (p : κ → Bool) {s s' : Stream κ} (h : s.stop = s'.stop) (rest : List (Token κ)) (e : Nat) :
    skipWhile.go p s rest e = skipWhile.go p s' rest e := by
  induction rest generalizing e with
  | nil => simp [skipWhile.go, h]
  | cons t rest ih =>
    simp only [skipWhile.go, h]
    split
    · exact ih _
    · rfl

/-- The stream behind the leading tokens that satisfy `p`, one token at a time. -/
theorem skipWhile_cons (p : κ → Bool) (t : Token κ) (rest : List (Token κ)) (stop : Token κ) (prevEnd : Nat) :
    (Stream.mk (t :: rest) stop prevEnd).skipWhile p =
      if p t.kind then (Stream.mk rest stop t.span.stop).skipWhile p else Stream.mk (t :: rest) stop prevEnd := by
  simp only [skipWhile, skipWhile.go]
  split
  · refine skipWhile_go_congr p ?_ _ _
    rfl
  · rfl

@[simp] theorem skipWhile_nil (p : κ → Bool) (stop : Token κ) (prevEnd : Nat) :
    (Stream.mk [] stop prevEnd).skipWhile p = Stream.mk [] stop prevEnd := rfl

end Stream

namespace ParseM

variable {κ α β : Type}

/-- If the parser ends with a value, `Q` holds of the value and the stream behind it. -/
def Gives (p : ParseM κ α) (env : ParseEnv) (s : Stream κ) (Q : α → Stream κ → Prop) : Prop :=
  ∀ a s', p env s = .ok (a, s') → Q a s'

variable {env : ParseEnv} {s : Stream κ} {Q : α → Stream κ → Prop}

theorem bind_eq (p : ParseM κ α) (f : α → ParseM κ β) (env : ParseEnv) (s : Stream κ) :
    (p >>= f) env s = match p env s with
      | .ok (a, s') => f a env s'
      | .error e => .error e := by
  change (p env s >>= fun x => f x.1 env x.2) = _
  cases p env s <;> rfl

theorem gives_bind {p : ParseM κ α} {f : α → ParseM κ β} {Q : β → Stream κ → Prop} :
    Gives (p >>= f) env s Q ↔ Gives p env s fun a s' => Gives (f a) env s' Q := by
  constructor
  · intro h a s' hp b s'' hf
    refine h b s'' ?_
    rw [bind_eq, hp]
    exact hf
  · intro h b s'' hb
    rw [bind_eq] at hb
    cases hp : p env s with
    | error e => rw [hp] at hb; cases hb
    | ok x =>
      rw [hp] at hb
      exact h x.1 x.2 hp b s'' hb

theorem Gives.mono {p : ParseM κ α} {R : α → Stream κ → Prop} (h : Gives p env s R) (hRQ : ∀ a s', R a s' → Q a s') :
    Gives p env s Q := fun a s' hp => hRQ a s' (h a s' hp)

/-- What is known behind `p` is what the rest may use. -/
theorem Gives.bind {p : ParseM κ α} {f : α → ParseM κ β} {R : α → Stream κ → Prop} {Q : β → Stream κ → Prop}
    (h : Gives p env s R) (hf : ∀ a s', R a s' → Gives (f a) env s' Q) : Gives (p >>= f) env s Q :=
  gives_bind.mpr (h.mono hf)

@[simp] theorem gives_pure {a : α} : Gives (pure a) env s Q ↔ Q a s := by
  constructor
  · intro h
    exact h a s rfl
  · intro h b s' hb
    cases hb
    exact h

theorem gives_map {p : ParseM κ α} {g : α → β} {Q : β → Stream κ → Prop} :
    Gives (g <$> p) env s Q ↔ Gives p env s fun a s' => Q (g a) s' := by
  have hmap : (g <$> p) env s = match p env s with
      | .ok (a, s') => .ok (g a, s')
      | .error e => .error e := by
    change (p env s >>= fun x => .ok (g x.1, x.2)) = _
    cases p env s <;> rfl
  constructor
  · intro h a s' hp
    refine h (g a) s' ?_
    rw [hmap, hp]
  · intro h b s' hb
    rw [hmap] at hb
    cases hp : p env s with
    | error e => rw [hp] at hb; cases hb
    | ok x =>
      rw [hp] at hb
      cases hb
      exact h x.1 x.2 hp

theorem gives_fail {fault : Fault} {offset : Nat} : Gives (fail fault offset) env s Q := by
  intro a s' h
  cases h

theorem gives_throw {e : ParseFailure} : Gives (throw e) env s Q := by
  intro a s' h
  cases h

/-! ## Looking -/

/-- The parser reads nothing. -/
def Looks (p : ParseM κ α) : Prop := ∀ env s, Gives p env s fun _ s' => s' = s

theorem gives_look {p : ParseM κ α} {f : α → ParseM κ β} {Q : β → Stream κ → Prop} (hp : Looks p)
    (hf : ∀ a, Gives (f a) env s Q) : Gives (p >>= f) env s Q :=
  (hp env s).bind fun a _ hs => hs ▸ hf a

theorem Looks.bind {p : ParseM κ α} {f : α → ParseM κ β} (hp : Looks p) (hf : ∀ a, Looks (f a)) : Looks (p >>= f) := by
  intro env s
  refine (hp env s).bind fun a s' hs => ?_
  subst hs
  exact hf a env s'

theorem Looks.pure (a : α) : Looks (pure a : ParseM κ α) := fun _ _ => gives_pure.mpr rfl

theorem looks_peek : Looks (peek : ParseM κ (Token κ)) := by
  intro env s a s' h
  cases h
  rfl

theorem looks_peekAt (n : Nat) : Looks (peekAt n : ParseM κ (Token κ)) := by
  intro env s a s' h
  cases h
  rfl

theorem looks_peekKind : Looks (peekKind : ParseM κ κ) := looks_peek.bind fun _ => .pure _

theorem looks_at [DecidableEq κ] (kind : κ) : Looks (at_ kind : ParseM κ Bool) := looks_peekKind.bind fun _ => .pure _

theorem looks_here : Looks (here : ParseM κ Nat) := looks_peek.bind fun _ => .pure _

theorem looks_prevEnd : Looks (prevEnd : ParseM κ Nat) := by
  intro env s a s' h
  cases h
  rfl

theorem looks_lineOf (offset : Nat) : Looks (lineOf offset : ParseM κ Nat) := by
  intro env s a s' h
  cases h
  rfl

@[simp] theorem gives_peek {f : Token κ → ParseM κ α} : Gives (peek >>= f) env s Q ↔ Gives (f s.peek) env s Q := Iff.rfl

theorem gives_peekAt {n : Nat} {f : Token κ → ParseM κ α} :
    Gives (peekAt n >>= f) env s Q ↔ Gives (f (s.peekAt n)) env s Q := Iff.rfl

@[simp] theorem gives_here {f : Nat → ParseM κ α} : Gives (here >>= f) env s Q ↔ Gives (f s.peek.span.start) env s Q :=
  Iff.rfl

@[simp] theorem gives_prevEnd {f : Nat → ParseM κ α} : Gives (prevEnd >>= f) env s Q ↔ Gives (f s.prevEnd) env s Q :=
  Iff.rfl

@[simp] theorem gives_peekKind {f : κ → ParseM κ α} : Gives (peekKind >>= f) env s Q ↔ Gives (f s.peek.kind) env s Q :=
  Iff.rfl

@[simp] theorem gives_at [DecidableEq κ] {kind : κ} {f : Bool → ParseM κ α} :
    Gives (at_ kind >>= f) env s Q ↔ Gives (f (decide (s.peek.kind = kind))) env s Q := Iff.rfl

@[simp] theorem gives_lineOf {n : Nat} {f : Nat → ParseM κ α} :
    Gives (lineOf n >>= f) env s Q ↔ Gives (f (env.lines.line n)) env s Q := Iff.rfl

@[simp] theorem gives_get {f : Stream κ → ParseM κ α} : Gives (get >>= f) env s Q ↔ Gives (f s) env s Q := Iff.rfl

@[simp] theorem gives_set {s' : Stream κ} {f : PUnit → ParseM κ α} :
    Gives (set s' >>= f) env s Q ↔ Gives (f ⟨⟩) env s' Q := Iff.rfl

@[simp] theorem gives_read {f : ParseEnv → ParseM κ α} : Gives (read >>= f) env s Q ↔ Gives (f env) env s Q := Iff.rfl

@[simp] theorem gives_bump {f : Token κ → ParseM κ α} :
    Gives (bump >>= f) env s Q ↔ Gives (f s.peek) env s.advance Q := Iff.rfl

@[simp] theorem gives_withReader {p : ParseM κ α} {g : ParseEnv → ParseEnv} :
    Gives (withReader g p) env s Q ↔ Gives p (g env) s Q := Iff.rfl

/-- What follows a token that may be there. -/
theorem gives_eat_bind [DecidableEq κ] {kind : κ} {f : Bool → ParseM κ α} {Q : α → Stream κ → Prop} :
    Gives (eat kind >>= f) env s Q ↔
      if s.peek.kind = kind then Gives (f true) env s.advance Q else Gives (f false) env s Q := by
  unfold eat
  rw [gives_bind, gives_peekKind]
  split
  · rw [gives_bump, gives_pure]
  · rw [gives_pure]

end ParseM

end PuppetDocs
