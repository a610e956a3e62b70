import PuppetDocs.Proofs.Brackets.Nesting
import PuppetDocs.Proofs.Source.Stream

/-
  PuppetDocs.Proofs.Brackets.Tidy — parsers that use up nested tokens.

  Tokens are tidy if they are nested but for some in lax places (`Tidy`). `Tidies` says of a
  parser that whatever it uses up is tidy, wherever it stands. Parsers one behind the other are
  tidy if each is; `Shuts` is said of what goes on behind an opening bracket up to the bracket
  that closes it and further.
-/

namespace PuppetDocs

variable {κ : Type}

/-! ## Tokens used up -/

/-- Reading came from the first stream to the second by using up the tokens `used`. -/
structure Stream.Uses (s : Stream κ) (used : List (Token κ)) (s' : Stream κ) : Prop where
  stop : s'.stop = s.stop
  rest : s.rest = used ++ s'.rest

namespace Stream.Uses

variable {s s' s'' : Stream κ} {used more : List (Token κ)}

theorem refl (s : Stream κ) : s.Uses [] s := ⟨rfl, rfl⟩

theorem trans (h : s.Uses used s') (k : s'.Uses more s'') : s.Uses (used ++ more) s'' :=
  ⟨k.stop.trans h.stop, by rw [h.rest, k.rest, List.append_assoc]⟩

/-- Only the token at the end of the text is not used up. -/
theorem advance (h : s.peek.kind ≠ s.stop.kind) : s.Uses [s.peek] s.advance := by
  obtain ⟨rest, stop, prevEnd⟩ := s
  cases rest with
  | nil => exact absurd rfl h
  | cons t rest => exact ⟨rfl, rfl⟩

theorem advance_any (s : Stream κ) : s.Uses [s.peek] s.advance ∨ s.Uses [] s.advance := by
  obtain ⟨rest, stop, prevEnd⟩ := s
  cases rest with
  | nil => exact .inr ⟨rfl, rfl⟩
  | cons t rest => exact .inl ⟨rfl, rfl⟩

/-- All tokens are used up if what comes next is like none of them. -/
theorem all (h : s.Uses used s') (hnone : ∀ t ∈ s.rest, t.kind ≠ s'.peek.kind) : s.rest = used := by
  cases hrest : s'.rest with
  | nil => rw [h.rest, hrest, List.append_nil]
  | cons t rest =>
    have hpeek : s'.peek = t := by simp [Stream.peek, hrest]
    have hmem : t ∈ s.rest := by simp [h.rest, hrest]
    exact absurd (congrArg Token.kind hpeek.symm) (hnone t hmem)

end Stream.Uses

namespace ParseM

variable [DecidableEq κ] {env : ParseEnv} {s : Stream κ} {kind : κ}

/-- A token that has to be there is used up. -/
theorem gives_expect {eof : κ} {expected : String} (hkind : kind ≠ s.stop.kind) :
    Gives (expect eof kind expected) env s fun t s' => t.kind = kind ∧ s.Uses [t] s' := by
  unfold expect
  rw [gives_peek]
  split
  · next hpeek =>
    rw [← bind_pure bump, gives_bump, gives_pure]
    exact ⟨hpeek, .advance (by rw [hpeek]; exact hkind)⟩
  · exact gives_fail

/-- A token that may be there is used up if it is. -/
theorem gives_eat (hkind : kind ≠ s.stop.kind) :
    Gives (eat kind) env s fun found s' => if found then ∃ t, t.kind = kind ∧ s.Uses [t] s' else s' = s := by
  unfold eat
  rw [gives_peekKind]
  split
  · next hpeek =>
    rw [gives_bump, gives_pure]
    exact ⟨s.peek, hpeek, .advance (by rw [hpeek]; exact hkind)⟩
  · exact gives_pure.mpr rfl

end ParseM

variable [Bracketed κ] {Lax : List (Token κ) → Token κ → Prop}

/-- The tokens, which stand behind `before`, are nested but for some in lax places. -/
def Tidy (Lax : List (Token κ) → Token κ → Prop) (before ts : List (Token κ)) : Prop :=
  ∃ kept, Spares Lax before ts kept ∧ Nested kept

namespace Tidy

variable {before ts us : List (Token κ)} {t u : Token κ} {b : Bracket}

theorem of_nested (h : Nested ts) (before : List (Token κ)) : Tidy Lax before ts := ⟨ts, .refl before ts, h⟩

theorem nil (before : List (Token κ)) : Tidy Lax before [] := of_nested .nil before

theorem single (h : t.side = .plain) (before : List (Token κ)) : Tidy Lax before [t] := of_nested (.single h) before

/-- A token in a lax place may be a bracket. -/
theorem spare (h : Lax before t) : Tidy Lax before [t] := ⟨[], .spare h (.nil _), .nil⟩

theorem append (h : Tidy Lax before ts) (k : Tidy Lax (before ++ ts) us) : Tidy Lax before (ts ++ us) := by
  obtain ⟨kept, hspares, hnested⟩ := h
  obtain ⟨kept', hspares', hnested'⟩ := k
  exact ⟨kept ++ kept', hspares.append hspares', hnested.append hnested'⟩

theorem spare_nested (h : Lax before t) (hts : Nested ts) : Tidy Lax before (t :: ts) :=
  (spare h).append (of_nested hts _)

theorem group (ht : t.side = .opens b) (h : Tidy Lax (before ++ [t]) ts) (hu : u.side = .closes b) :
    Tidy Lax before (t :: ts ++ [u]) := by
  obtain ⟨kept, hspares, hnested⟩ := h
  refine ⟨t :: kept ++ [u], ?_, hnested.group ht hu⟩
  rw [List.cons_append]
  exact .keep (hspares.append (.refl _ [u]))

end Tidy

namespace ParseM

variable {α β : Type} {env : ParseEnv} {s : Stream κ} {before : List (Token κ)}

/-- What the parser uses up behind `before` is tidy. -/
def Tidies (Lax : List (Token κ) → Token κ → Prop) (before : List (Token κ)) (p : ParseM κ α) (env : ParseEnv)
    (s : Stream κ) : Prop :=
  Gives p env s fun _ s' => ∃ used, s.Uses used s' ∧ Tidy Lax before used

/-- What is known of the tokens used up first may be used for those behind them. -/
theorem tidies_bind {p : ParseM κ α} {f : α → ParseM κ β} {R : α → List (Token κ) → Stream κ → Prop}
    (h : Gives p env s fun a s' => ∃ used, s.Uses used s' ∧ Tidy Lax before used ∧ R a used s')
    (hf : ∀ a used s', s.Uses used s' → R a used s' → Tidies Lax (before ++ used) (f a) env s') :
    Tidies Lax before (p >>= f) env s :=
  h.bind fun a s' ⟨used, huses, htidy, hR⟩ => (hf a used s' huses hR).mono fun _ _ ⟨more, hmore, hmoreTidy⟩ =>
    ⟨used ++ more, huses.trans hmore, htidy.append hmoreTidy⟩

theorem Tidies.bind {p : ParseM κ α} {f : α → ParseM κ β} (h : Tidies Lax before p env s)
    (hf : ∀ a used s', s.Uses used s' → Tidies Lax (before ++ used) (f a) env s') : Tidies Lax before (p >>= f) env s :=
  Gives.bind h fun a s' ⟨used, huses, htidy⟩ => (hf a used s' huses).mono fun _ _ ⟨more, hmore, hmoreTidy⟩ =>
    ⟨used ++ more, huses.trans hmore, htidy.append hmoreTidy⟩

/-- What has been used up before counts as well. -/
theorem Tidies.after {p : ParseM κ α} {s' : Stream κ} {used : List (Token κ)} (h : Tidies Lax (before ++ used) p env s')
    (huses : s.Uses used s') (htidy : Tidy Lax before used) :
    Gives p env s' fun _ s'' => ∃ used, s.Uses used s'' ∧ Tidy Lax before used := by
  refine Gives.mono h ?_
  rintro _ s'' ⟨more, hmore, hmoreTidy⟩
  exact ⟨used ++ more, huses.trans hmore, htidy.append hmoreTidy⟩

theorem tidies_pure (a : α) : Tidies Lax before (pure a : ParseM κ α) env s :=
  gives_pure.mpr ⟨[], .refl s, .nil before⟩

theorem tidies_fail {fault : Fault} {offset : Nat} : Tidies Lax before (fail fault offset : ParseM κ α) env s :=
  gives_fail

theorem Tidies.ite {c : Prop} [Decidable c] {p q : ParseM κ α} (hp : c → Tidies Lax before p env s)
    (hq : ¬c → Tidies Lax before q env s) : Tidies Lax before (if c then p else q) env s := by
  split
  · exact hp ‹_›
  · exact hq ‹_›

theorem tidies_look {p : ParseM κ α} {f : α → ParseM κ β} (hp : Looks p) (hf : ∀ a, Tidies Lax before (f a) env s) :
    Tidies Lax before (p >>= f) env s := gives_look hp hf

theorem tidies_peek {f : Token κ → ParseM κ α} :
    Tidies Lax before (peek >>= f) env s ↔ Tidies Lax before (f s.peek) env s := Iff.rfl

theorem tidies_here {f : Nat → ParseM κ α} :
    Tidies Lax before (here >>= f) env s ↔ Tidies Lax before (f s.peek.span.start) env s := Iff.rfl

theorem tidies_peekKind {f : κ → ParseM κ α} :
    Tidies Lax before (peekKind >>= f) env s ↔ Tidies Lax before (f s.peek.kind) env s := Iff.rfl

theorem tidies_at [DecidableEq κ] {kind : κ} {f : Bool → ParseM κ α} :
    Tidies Lax before (at_ kind >>= f) env s ↔ Tidies Lax before (f (decide (s.peek.kind = kind))) env s := Iff.rfl

/-- A token that is no bracket may be used up anywhere. -/
theorem tidies_bump {f : Token κ → ParseM κ α} (h : s.peek.side = .plain)
    (hf : ∀ used, s.Uses used s.advance → Tidies Lax (before ++ used) (f s.peek) env s.advance) :
    Tidies Lax before (bump >>= f) env s := by
  have hused : ∃ used, s.Uses used s.advance ∧ Tidy Lax before used := by
    rcases Stream.Uses.advance_any s with huses | huses
    · exact ⟨_, huses, .single h before⟩
    · exact ⟨_, huses, .nil before⟩
  obtain ⟨used, huses, htidy⟩ := hused
  refine gives_bump.mpr ((hf used huses).mono fun _ _ ⟨more, hmore, hmoreTidy⟩ => ?_)
  exact ⟨used ++ more, huses.trans hmore, htidy.append hmoreTidy⟩

/-! ## Brackets around parsers -/

variable {b : Bracket}

/-- What the parser uses up behind `before` closes the bracket `b` and is tidy but for that. -/
def Shuts (Lax : List (Token κ) → Token κ → Prop) (b : Bracket) (before : List (Token κ)) (p : ParseM κ α)
    (env : ParseEnv) (s : Stream κ) : Prop :=
  Gives p env s fun _ s' => ∃ used kept, s.Uses used s' ∧ Spares Lax before used kept ∧ nest [b] kept = some []

theorem tidies_opens {f : Token κ → ParseM κ α} (hpeek : s.peek.kind ≠ s.stop.kind) (hside : s.peek.side = .opens b)
    (hf : Shuts Lax b (before ++ [s.peek]) (f s.peek) env s.advance) : Tidies Lax before (bump >>= f) env s := by
  refine gives_bump.mpr (hf.mono ?_)
  rintro _ s' ⟨used, kept, huses, hspares, hnest⟩
  exact ⟨s.peek :: used, (Stream.Uses.advance hpeek).trans huses, s.peek :: kept, .keep hspares, (nest_opens hside).trans hnest⟩

theorem tidies_expect [DecidableEq κ] {eof kind : κ} {expected : String} {f : Token κ → ParseM κ α}
    (hkind : kind ≠ s.stop.kind) (hside : Bracketed.side kind = .opens b)
    (hf : ∀ t s', s.Uses [t] s' → Shuts Lax b (before ++ [t]) (f t) env s') :
    Tidies Lax before (expect eof kind expected >>= f) env s := by
  refine (gives_expect hkind).bind ?_
  rintro t s' ⟨ht, huses⟩
  refine (hf t s' huses).mono ?_
  rintro _ s'' ⟨used, kept, hused, hspares, hnest⟩
  have hopen : t.side = .opens b := by rw [Token.side, ht, hside]
  exact ⟨[t] ++ used, huses.trans hused, t :: kept, .keep hspares, (nest_opens hopen).trans hnest⟩

theorem Tidies.shuts {p : ParseM κ α} {f : α → ParseM κ β} (h : Tidies Lax before p env s)
    (hf : ∀ a used s', s.Uses used s' → Shuts Lax b (before ++ used) (f a) env s') : Shuts Lax b before (p >>= f) env s := by
  refine Gives.bind h ?_
  rintro a s' ⟨used, huses, kept, hspares, hnested⟩
  refine (hf a used s' huses).mono ?_
  rintro _ s'' ⟨more, kept', hmore, hspares', hnest⟩
  refine ⟨used ++ more, kept ++ kept', huses.trans hmore, hspares.append hspares', ?_⟩
  rw [nest_append, hnested.nest]
  exact hnest

theorem shuts_expect [DecidableEq κ] {eof kind : κ} {expected : String} {f : Token κ → ParseM κ α}
    (hkind : kind ≠ s.stop.kind) (hside : Bracketed.side kind = .closes b)
    (hf : ∀ t s', s.Uses [t] s' → Tidies Lax (before ++ [t]) (f t) env s') :
    Shuts Lax b before (expect eof kind expected >>= f) env s := by
  refine (gives_expect hkind).bind ?_
  rintro t s' ⟨ht, huses⟩
  refine (hf t s' huses).mono ?_
  rintro _ s'' ⟨more, hmore, kept, hspares, hnested⟩
  have hclose : t.side = .closes b := by rw [Token.side, ht, hside]
  exact ⟨[t] ++ more, t :: kept, huses.trans hmore, .keep hspares, (nest_closes hclose).trans hnested⟩

end ParseM

end PuppetDocs
