import PuppetDocs.Manifest.Parse
import PuppetDocs.Proofs.Brackets.Nesting

/-
  PuppetDocs.Proofs.Manifest.Groups — what bracketed groups and the heads of definitions consist of.

  A group that ends has closed every bracket opened in it (`group_closed`), and tokens that close
  what they open are passed over in it (`group_passes`). A definition is read only where its
  keyword and name, or the keyword, name and `=` of a type alias, are the next tokens
  (`definitionFollows_eq`).
-/

namespace PuppetDocs.Manifest

open ParseM

/-- The side on which a token stands, and the bracket that it is. -/
def TokenKind.side : TokenKind → Side
  | .lparen => .opens .round
  | .rparen => .closes .round
  | .lbracket => .opens .square
  | .rbracket => .closes .square
  | .lbrace => .opens .curly
  | .rbrace => .closes .curly
  | _ => .plain

instance : Bracketed TokenKind := ⟨TokenKind.side⟩

/-- The bracket that a token opens, if it opens one. -/
def TokenKind.bracket? (k : TokenKind) : Option Bracket :=
  match k.side with
  | .opens b => some b
  | _ => none

/-- The brackets that are opened by these tokens. -/
def brackets (open_ : List (Token TokenKind)) : List Bracket := open_.filterMap (·.kind.bracket?)

theorem side_opening {t : Token TokenKind} (h : isOpening t.kind = true) :
    ∃ b, t.side = .opens b ∧ ∀ open_, brackets (t :: open_) = b :: brackets open_ := by
  obtain ⟨kind, text, span, spaced⟩ := t
  cases kind <;> first | exact ⟨_, rfl, fun _ => rfl⟩ | cases h

theorem side_closes {t u : Token TokenKind} (h : closes t.kind u.kind = true) :
    ∃ b, u.side = .closes b ∧ ∀ open_, brackets (t :: open_) = b :: brackets open_ := by
  obtain ⟨kind, text, span, spaced⟩ := t
  obtain ⟨kind', text', span', spaced'⟩ := u
  cases kind <;> first
    | cases h
    | cases kind' <;> first | exact ⟨_, rfl, fun _ => rfl⟩ | cases h

theorem side_plain {t : Token TokenKind} (hopening : isOpening t.kind = false) (hclosing : isClosing t.kind = false) :
    t.side = .plain := by
  obtain ⟨kind, text, span, spaced⟩ := t
  cases kind <;> first | rfl | (cases hopening; done) | cases hclosing

theorem closing_cases {kind : TokenKind} (h : isClosing kind = true) (hparen : kind ≠ .rparen) :
    kind = .rbracket ∨ kind = .rbrace := by
  cases kind <;> first | (cases h; done) | simp at hparen ⊢

theorem side_closing {t : Token TokenKind} (h : isClosing t.kind = true) :
    ∃ b, t.side = .closes b ∧ ∀ o : Token TokenKind, o.side = .opens b → closes o.kind t.kind = true := by
  obtain ⟨kind, text, span, spaced⟩ := t
  cases kind <;> first
    | (cases h; done)
    | refine ⟨_, rfl, fun o ho => ?_⟩
      obtain ⟨kind', text', span', spaced'⟩ := o
      cases kind' <;> first | rfl | cases ho

theorem closing_of_closes {o c : TokenKind} (h : closes o c = true) : isOpening c = false ∧ isClosing c = true := by
  unfold closes at h
  split at h
  · exact ⟨rfl, rfl⟩
  · exact ⟨rfl, rfl⟩
  · exact ⟨rfl, rfl⟩
  · cases h

section Group

variable {t last : Token TokenKind} {outer rest : List (Token TokenKind)}

theorem group_opening (h : isOpening t.kind = true) : group last outer (t :: rest) = group t (last :: outer) rest := by
  simp [group, h]

theorem group_plain (h : isOpening t.kind = false ∧ isClosing t.kind = false) :
    group last outer (t :: rest) = group last outer rest := by
  simp [group, h.1, h.2]

theorem group_closing {l : Token TokenKind} (h : closes last.kind t.kind = true) :
    group last (l :: outer) (t :: rest) = group l outer rest := by
  simp [group, closing_of_closes h, h]

theorem group_closed_here (h : closes last.kind t.kind = true) :
    group last [] (t :: rest) = .closed rest t.span.stop := by
  simp [group, closing_of_closes h, h]

end Group

/-- A group that ends is a run of tokens that closes all its brackets with its last one. -/
theorem group_closed {last : Token TokenKind} {outer ts rest : List (Token TokenKind)} {stop : Nat}
    (h : group last outer ts = .closed rest stop) :
    ∃ inside closer, ts = inside ++ [closer] ++ rest ∧ stop = closer.span.stop ∧
      nest (brackets (last :: outer)) (inside ++ [closer]) = some [] := by
  induction ts generalizing last outer with
  | nil => cases h
  | cons t ts ih =>
    unfold group at h
    split at h
    · next hopening =>
      obtain ⟨inside, closer, rfl, hstop, hnest⟩ := ih h
      obtain ⟨b, hside, hbrackets⟩ := side_opening hopening
      refine ⟨t :: inside, closer, by simp, hstop, ?_⟩
      rw [List.cons_append, nest_opens hside, ← hbrackets]
      exact hnest
    split at h
    · split at h
      · next hcloses =>
        obtain ⟨b, hside, hbrackets⟩ := side_closes hcloses
        rw [hbrackets]
        cases outer with
        | nil =>
          cases h
          exact ⟨[], t, by simp, rfl, nest_closes hside⟩
        | cons l outer =>
          obtain ⟨inside, closer, rfl, hstop, hnest⟩ := ih h
          refine ⟨t :: inside, closer, by simp, hstop, ?_⟩
          rw [List.cons_append, nest_closes hside]
          exact hnest
      · cases h
    · next hopening hclosing =>
      obtain ⟨inside, closer, rfl, hstop, hnest⟩ := ih h
      refine ⟨t :: inside, closer, by simp, hstop, ?_⟩
      rw [List.cons_append, nest_plain (side_plain (by simpa using hopening) (by simpa using hclosing))]
      exact hnest

/-- Tokens that close the brackets `opened` and their own are passed over while the brackets further out stay open. -/
theorem group_opened {last top : Token TokenKind} {opened outer under ts : List (Token TokenKind)}
    (more : List (Token TokenKind)) (hopened : ∀ o ∈ opened, isOpening o.kind = true)
    (h : nest (brackets opened) ts = some []) (hall : opened ++ last :: outer = top :: under) :
    group top under (ts ++ more) = group last outer more := by
  induction ts generalizing opened top under with
  | nil =>
    cases opened with
    | nil =>
      cases hall
      rfl
    | cons o opened =>
      obtain ⟨b, -, hbrackets⟩ := side_opening (hopened o List.mem_cons_self)
      rw [hbrackets] at h
      cases h
  | cons t ts ih =>
    rw [List.cons_append]
    by_cases hopening : isOpening t.kind = true
    · obtain ⟨b, hside, hbrackets⟩ := side_opening hopening
      rw [group_opening hopening]
      refine ih (List.forall_mem_cons.mpr ⟨hopening, hopened⟩) ?_ (congrArg (t :: ·) hall)
      rw [hbrackets, ← nest_opens hside]
      exact h
    by_cases hclosing : isClosing t.kind = true
    · obtain ⟨b, hside, hcloses⟩ := side_closing hclosing
      rw [nest_cons, hside] at h
      cases opened with
      | nil => cases h
      | cons o opened =>
        obtain ⟨l, below, hbelow⟩ : ∃ l below, opened ++ last :: outer = l :: below := by
          cases opened <;> exact ⟨_, _, rfl⟩
        rw [List.cons_append, hbelow] at hall
        obtain ⟨rfl, rfl⟩ := List.cons.inj hall
        obtain ⟨b', hopens, hbrackets⟩ := side_opening (hopened o List.mem_cons_self)
        rw [hbrackets] at h
        dsimp only at h
        split at h
        · next hb =>
          rw [group_closing (hcloses o (by rw [hopens, hb]))]
          exact ih (fun u hu => hopened u (List.mem_cons_of_mem _ hu)) h hbelow
        · cases h
    · have hplain : isOpening t.kind = false ∧ isClosing t.kind = false := by simpa using And.intro hopening hclosing
      rw [group_plain hplain]
      rw [nest_plain (side_plain hplain.1 hplain.2)] at h
      exact ih hopened h hall

theorem group_passes {last : Token TokenKind} {outer ts : List (Token TokenKind)} (h : Nested ts)
    (more : List (Token TokenKind)) : group last outer (ts ++ more) = group last outer more :=
  group_opened more (List.forall_mem_nil _) h rfl

/-! ## Heads of definitions -/

/-- The keyword of a definition that has a body. -/
def TokenKind.opensBody : TokenKind → Bool
  | .classKw | .defineKw | .functionKw | .planKw => true
  | _ => false

theorem opensBody_spec {t : Token TokenKind} (h : t.kind.opensBody = true) : kindOf t.kind ≠ .typeAlias ∧ t.side = .plain := by
  obtain ⟨kind, text, span, spaced⟩ := t
  cases kind <;> first | (cases h; done) | exact ⟨nofun, rfl⟩

/-- The tokens begin with the head of a definition. -/
inductive Heads : List (Token TokenKind) → Prop
  | body {keyword name : Token TokenKind} {rest : List (Token TokenKind)} :
      keyword.kind.opensBody = true → name.kind = .name → Heads (keyword :: name :: rest)
  | alias_ {keyword name assign : Token TokenKind} {rest : List (Token TokenKind)} :
      keyword.kind = .typeKw → name.kind = .typeName → assign.kind = .assign → Heads (keyword :: name :: assign :: rest)

theorem Heads.keyword {ts : List (Token TokenKind)} (h : Heads ts) :
    ∃ keyword rest, ts = keyword :: rest ∧ (kindOf keyword.kind = .typeAlias → keyword.kind = .typeKw) := by
  cases h with
  | body hkind => exact ⟨_, _, rfl, fun hkindOf => absurd hkindOf (opensBody_spec hkind).1⟩
  | alias_ hkind => exact ⟨_, _, rfl, fun _ => hkind⟩

section Heads

variable {s : Stream TokenKind} {kind : TokenKind}

/-- A kind that is not the end's is that of a token that is left. -/
theorem rest_of_peek (hstop : s.stop.kind = .eof) (hpeek : s.peek.kind = kind) (hkind : kind ≠ .eof) :
    ∃ t rest, s.rest = t :: rest ∧ t.kind = kind := by
  obtain ⟨rest, stop, prevEnd⟩ := s
  cases rest with
  | nil => exact absurd (hpeek.symm.trans hstop) hkind
  | cons t rest => exact ⟨t, rest, rfl, hpeek⟩

theorem rest_of_peekAt {n : Nat} (hstop : s.stop.kind = .eof) (hpeek : (s.peekAt n).kind = kind) (hkind : kind ≠ .eof) :
    ∃ t, s.rest[n]? = some t ∧ t.kind = kind := by
  unfold Stream.peekAt at hpeek
  cases hn : s.rest[n]? with
  | none =>
    rw [hn] at hpeek
    exact absurd (hpeek.symm.trans hstop) hkind
  | some t =>
    rw [hn] at hpeek
    exact ⟨t, rfl, hpeek⟩

theorem heads_of_body (hstop : s.stop.kind = .eof) (hkind : s.peek.kind.opensBody = true)
    (hname : (s.peekAt 1).kind = .name) : Heads s.rest := by
  obtain ⟨keyword, rest, hrest, hkeyword⟩ := rest_of_peek hstop rfl (by rintro he; rw [he] at hkind; cases hkind)
  obtain ⟨name, hget, hname⟩ := rest_of_peekAt hstop hname (by decide)
  rw [hrest] at hget ⊢
  rcases rest with _ | ⟨t, rest⟩
  · cases hget
  · cases hget
    exact .body (hkeyword ▸ hkind) hname

theorem heads_of_alias (hstop : s.stop.kind = .eof) (hkind : s.peek.kind = .typeKw)
    (hname : (s.peekAt 1).kind = .typeName) (hassign : (s.peekAt 2).kind = .assign) : Heads s.rest := by
  obtain ⟨keyword, rest, hrest, hkeyword⟩ := rest_of_peek hstop hkind (by decide)
  obtain ⟨name, hget, hname⟩ := rest_of_peekAt hstop hname (by decide)
  obtain ⟨assign, hget', hassign⟩ := rest_of_peekAt hstop hassign (by decide)
  rw [hrest] at hget hget' ⊢
  rcases rest with _ | ⟨t, _ | ⟨u, rest⟩⟩
  · cases hget
  · cases hget'
  · cases hget
    cases hget'
    exact .alias_ hkeyword hname hassign

/-- The next tokens are looked at, and nothing is read. -/
theorem definitionFollows_eq (env : ParseEnv) (hstop : s.stop.kind = .eof) :
    ∃ follows, definitionFollows s.peek.kind env s = .ok (follows, s) ∧ (follows = true → Heads s.rest) := by
  generalize hk : s.peek.kind = kind
  cases kind
  case classKw | defineKw | functionKw | planKw =>
    exact ⟨_, rfl, fun h => heads_of_body hstop (by rw [hk]; rfl) (of_decide_eq_true h)⟩
  case typeKw => exact ⟨_, rfl, fun h => heads_of_alias hstop hk (of_decide_eq_true h).1 (of_decide_eq_true h).2⟩
  all_goals exact ⟨false, rfl, fun h => nomatch h⟩

end Heads

end PuppetDocs.Manifest
