import PuppetDocs.Proofs.Brackets.Balanced

/-
  PuppetDocs.Proofs.Brackets.Params — parameter lists keep brackets balanced but for lax places.

  A list is read one parameter at a time. `Within` is what holds between two of them: which
  tokens have been used up, that they are tidy, and that they are what `Passed` says of the
  list up to the next token. So a token that is passed over stands in a lax place, whatever
  it is, and the rest of the list may ask for the same again.
-/

namespace PuppetDocs.Ruby

open ParseM

/-! ## Groups in parentheses -/

theorem parensEnd_cons (depth : Nat) (t : Token TokenKind) (rest : List (Token TokenKind)) :
    parensEnd (depth + 1) (t :: rest) =
      if t.kind = .lparen then parensEnd (depth + 2) rest
      else if t.kind = .rparen then if depth = 0 then some (rest, t.span.stop) else parensEnd depth rest
      else parensEnd (depth + 1) rest := by
  cases depth <;> rfl

/-- In a group only the parentheses count; all else in it stands in lax places. -/
theorem parensEnd_closed {ts rest : List (Token TokenKind)} {depth stop : Nat} {before : List (Token TokenKind)}
    (h : parensEnd (depth + 1) ts = some (rest, stop))
    (hlax : ∀ inside t, parensEnd (depth + 1) inside = none → t.kind ≠ .lparen → t.kind ≠ .rparen → Lax (before ++ inside) t) :
    ∃ group kept, ts = group ++ rest ∧ Spares Lax before group kept ∧
      nest (List.replicate (depth + 1) .round) kept = some [] := by
  induction ts generalizing depth before with
  | nil => cases h
  | cons t ts ih =>
    -- What is lax behind `before` is so behind the token too, if it leaves `depth'` parentheses open.
    have hnext : ∀ depth', (∀ inside, parensEnd depth' inside = none → parensEnd (depth + 1) (t :: inside) = none) →
        ∀ inside u, parensEnd depth' inside = none → u.kind ≠ .lparen → u.kind ≠ .rparen → Lax (before ++ [t] ++ inside) u := by
      intro depth' hdepth inside u hinside hleft hright
      simpa using hlax (t :: inside) u (hdepth inside hinside) hleft hright
    rw [parensEnd_cons] at h
    split at h
    · next hleft =>
      obtain ⟨group, kept, rfl, hspares, hnest⟩ :=
        ih h (hnext _ fun inside hinside => by rw [parensEnd_cons, if_pos hleft, hinside])
      exact ⟨t :: group, t :: kept, rfl, .keep hspares, (nest_opens (side_of_kind hleft)).trans hnest⟩
    next hleft =>
    split at h
    · next hright =>
      cases depth with
      | zero =>
        cases h
        exact ⟨[t], [t], rfl, .refl _ _, nest_closes (side_of_kind hright)⟩
      | succ depth =>
        obtain ⟨group, kept, rfl, hspares, hnest⟩ :=
          ih h (hnext _ fun inside hinside => by rw [parensEnd_cons, if_neg hleft, if_pos hright]; exact hinside)
        exact ⟨t :: group, t :: kept, rfl, .keep hspares, (nest_closes (side_of_kind hright)).trans hnest⟩
    · next hright =>
      obtain ⟨group, kept, rfl, hspares, hnest⟩ :=
        ih h (hnext _ fun inside hinside => by rw [parensEnd_cons, if_neg hleft, if_neg hright, hinside])
      have ht : Lax (before ++ []) t := hlax [] t rfl hleft hright
      rw [List.append_nil] at ht
      exact ⟨t :: group, kept, rfl, .spare ht hspares, hnest⟩

/-! ## One parameter -/

/-- One parameter has been read, whose first token was the next one. -/
def TakesParam (closers : List TokenKind) (before : List (Token TokenKind)) (s s' : Stream TokenKind) : Prop :=
  ∃ more, s.Uses (s.peek :: more) s' ∧ ParamTokens closers s.peek more s'.peek ∧ Tidy Lax before (s.peek :: more)

/-- The next token is used up, unless it is the end of the text. -/
theorem uses_peek {s : Stream TokenKind} (hs : s.stop.kind = .eof) (hpeek : s.peek.kind ≠ .eof) :
    s.Uses [s.peek] s.advance :=
  .advance (by rwa [hs])

section Param

variable {closers : List TokenKind} {env : ParseEnv} {s : Stream TokenKind} {ts before : List (Token TokenKind)}
  (front : List (Token TokenKind))

theorem takes_sigilParam (hs : s.stop.kind = .eof) (hsigil : s.peek.kind ∈ sigils) (kind : ParamKind) :
    Gives (sigilParam kind) env s fun _ s' => TakesParam closers before s s' := by
  have hsigils : ∀ kind ∈ sigils, kind.side = .plain ∧ kind ≠ .eof := by decide
  obtain ⟨hplain, hne⟩ : s.peek.side = .plain ∧ s.peek.kind ≠ .eof := hsigils _ hsigil
  have h₁ := uses_peek hs hne
  unfold sigilParam
  rw [gives_bump, gives_at]
  split
  · next hname =>
    have hname : s.advance.peek.kind = .ident := of_decide_eq_true hname
    have h₂ := uses_peek (h₁.stop ▸ hs) (by rw [hname]; decide)
    have hnested : Nested ([s.peek] ++ [s.advance.peek]) := (Nested.single hplain).append (.single (side_of_kind hname))
    rw [bind_assoc, gives_bump, pure_bind, gives_pure]
    exact ⟨[s.advance.peek], h₁.trans h₂, .named hsigil hname, .of_nested hnested before⟩
  · next hname =>
    rw [pure_bind, gives_pure]
    exact ⟨[], h₁, .sigil hsigil (by simpa using hname), .single hplain before⟩

/-- The brackets of a destructuring parameter are matched if they are round. -/
theorem takes_groupParam (hs : s.stop.kind = .eof) (hpassed : Passed closers ts s.peek) (hparen : s.peek.kind = .lparen)
    (start : Nat) : Gives (groupParam start) env s fun _ s' => TakesParam closers (front ++ ts) s s' := by
  have h₁ := uses_peek hs (by rw [hparen]; decide)
  have hlax : ∀ inside t, parensEnd 1 inside = none → t.kind ≠ .lparen → t.kind ≠ .rparen →
      Lax (front ++ ts ++ [s.peek] ++ inside) t := by
    intro inside t hinside hleft hright
    have hgrouped : Lax (front ++ ts ++ s.peek :: inside) t := .grouped hpassed hparen hinside hleft hright
    simpa using hgrouped
  unfold groupParam
  rw [gives_bump, gives_get]
  split
  · exact gives_fail
  · next rest stop hgroup =>
    rw [gives_set, gives_read, gives_pure]
    obtain ⟨group, kept, hrest, hspares, hnest⟩ := parensEnd_closed hgroup hlax
    rw [hrest] at hgroup
    refine ⟨group, ⟨h₁.stop, by rw [h₁.rest, hrest]; rfl⟩, .group hparen hgroup, s.peek :: kept, .keep hspares, ?_⟩
    exact (nest_opens (side_of_kind hparen)).trans hnest

variable {self : Reader} (h : Balances self)
include h

theorem gives_value (hs : s.stop.kind = .eof) {rule : Rule Node} (hrule : rule = .unary ∨ rule = .ternary)
    (before : List (Token TokenKind)) :
    Gives (self rule) env s fun _ s' => ∃ used, s.Uses used s' ∧ IsValue used ∧ Tidy Lax before used := by
  intro n s' hn
  have hparams : rule.isParams = false := by rcases hrule with rfl | rfl <;> rfl
  obtain ⟨used, huses, htidy⟩ := h.rule rule hparams env s before hs n s' hn
  exact ⟨used, huses, h.value hrule hn huses, htidy⟩

theorem takes_readParam (hs : s.stop.kind = .eof) (hpassed : Passed closers ts s.peek)
    (hgoes : s.peek.kind ∉ TokenKind.eof :: closers) :
    Gives (readParam self closers) env s fun _ s' => TakesParam closers (front ++ ts) s s' := by
  rw [List.mem_cons, not_or] at hgoes
  have h₁ := uses_peek hs hgoes.1
  have hs₁ : s.advance.stop.kind = .eof := h₁.stop ▸ hs
  unfold readParam
  rw [gives_peekKind]
  split
  · next hk => exact gives_map.mpr (takes_sigilParam hs (by rw [hk]; decide) _)
  · next hk => exact gives_map.mpr (takes_sigilParam hs (by rw [hk]; decide) _)
  · next hk => exact gives_map.mpr (takes_sigilParam hs (by rw [hk]; decide) _)
  · next hk =>
    rw [gives_bump, gives_atAny]
    split
    · next hbare => exact gives_pure.mpr ⟨[], h₁, .keyword hk (List.contains_iff_mem.mp hbare), .single (side_of_kind hk) _⟩
    · refine (gives_value h hs₁ (.inl rfl) (front ++ ts ++ [s.peek])).bind ?_
      rintro value s₂ ⟨used, h₂, hvalue, htidy⟩
      exact gives_pure.mpr ⟨used, h₁.trans h₂, .keywordValue hk hvalue, (Tidy.single (side_of_kind hk) _).append htidy⟩
  · next hk =>
    have hname : Tidy Lax (front ++ ts) [s.peek] := .single (side_of_kind hk) _
    rw [gives_bump, gives_eat_bind]
    split
    · next hassign =>
      have h₂ := uses_peek hs₁ (by rw [hassign]; decide)
      have hs₂ : s.advance.advance.stop.kind = .eof := h₂.stop ▸ hs₁
      have hhead : Tidy Lax (front ++ ts) ([s.peek] ++ [s.advance.peek]) := hname.append (.single (side_of_kind hassign) _)
      -- Both kinds of value are read alike.
      have hvalue : ∀ rule : Rule Node, rule = .unary ∨ rule = .ternary → Gives (do
          let value ← self rule
          return some (s.peek.text, .optional, some value) : P (Option (String × ParamKind × Option Node)))
          env s.advance.advance fun _ s' => TakesParam closers (front ++ ts) s s' := by
        intro rule hrule
        refine (gives_value h hs₂ hrule (front ++ ts ++ ([s.peek] ++ [s.advance.peek]))).bind ?_
        rintro value s₃ ⟨used, h₃, hvalue, htidy⟩
        exact gives_pure.mpr ⟨s.advance.peek :: used, (h₁.trans h₂).trans h₃, .optional hk hassign hvalue, hhead.append htidy⟩
      rw [if_pos rfl]
      split
      · exact hvalue .ternary (.inr rfl)
      · exact hvalue .unary (.inl rfl)
    · next hassign =>
      rw [if_neg (by decide), gives_pure]
      exact ⟨[], h₁, .required hk hassign, hname⟩
  · next hk =>
    rw [gives_here]
    exact (takes_groupParam front hs hpassed hk _).bind fun _ s' htakes => gives_pure.mpr htakes
  · next hstar hdouble hamp hlabel hident hparen =>
    -- Nothing more is asked of this token, so it may be a bracket.
    have hskipped : Skipped closers s.peek := by
      simp only [Skipped, sigils, List.mem_append, List.mem_cons, List.not_mem_nil, or_false, not_or]
      exact ⟨⟨hgoes.2, hstar, hdouble, hamp⟩, hlabel, hident, hparen⟩
    rw [gives_bump, gives_pure]
    exact ⟨[], h₁, .skipped hskipped, .spare (.param hpassed hskipped)⟩

end Param

/-! ## Lists -/

section List

variable {α : Type} {closers : List TokenKind} {env : ParseEnv} {s : Stream TokenKind}
  {ts : List (Token TokenKind)} {Q : α → Stream TokenKind → Prop}

theorem Passed.skipAll {used rest : List (Token TokenKind)} {stop : Token TokenKind}
    (h : Passed closers ts ((used ++ rest).headD stop)) (hused : ∀ t ∈ used, Skipped closers t) :
    Passed closers (ts ++ used) (rest.headD stop) := by
  induction used generalizing ts with
  | nil => simpa using h
  | cons t used ih =>
    obtain ⟨ht, hused⟩ := List.forall_mem_cons.mp hused
    have hnext := ih (h.skip ht ((used ++ rest).headD stop)) hused
    rwa [List.append_assoc] at hnext

/-- Only in parentheses does a list go on in the next line. -/
theorem gives_skipLines (env : ParseEnv) (hpassed : Passed closers ts s.peek) (hparen : closers.contains .rparen = true) :
    closers = [.rparen] ∧ Gives skipNewlines env s fun _ s' =>
      ∃ used, s.Uses used s' ∧ Nested used ∧ Passed closers (ts ++ used) s'.peek := by
  obtain rfl : closers = [.rparen] := by
    have hmem := hpassed.closers_mem
    simp only [List.mem_cons, List.not_mem_nil, or_false] at hmem
    rcases hmem with rfl | rfl | rfl | rfl <;> first | rfl | exact absurd hparen (by decide)
  refine ⟨rfl, fun _ s' hs' => ?_⟩
  cases hs'
  obtain ⟨used, huses, hused⟩ := uses_skipWhile isNewline s
  have hnewline : ∀ t ∈ used, t.kind = .newline := by
    intro t ht
    have := hused t ht
    cases hk : t.kind <;> rw [hk] at this <;> first | rfl | cases this
  have hpeek : s.peek = (used ++ (s.skipWhile isNewline).rest).headD s.stop := by rw [← huses.rest]; rfl
  rw [hpeek] at hpassed
  have hpassed' := hpassed.skipAll fun t ht => skipped_terminator (.inl (hnewline t ht))
  rw [← huses.stop] at hpassed'
  exact ⟨used, huses, nested_plain fun t ht => side_of_kind (hnewline t ht), hpassed'⟩

/-- A comma or semicolon that may stand behind a parameter; the semicolon is used up even if it ends the list. -/
theorem gives_separator {p : P α} (hs : s.stop.kind = .eof) (hpassed : Passed closers ts s.peek)
    (hsemicolon : s.peek.kind = .semicolon → ∀ next, Passed closers (ts ++ [s.peek]) next)
    (hp : ∀ used s', s.Uses used s' → Nested used → Passed closers (ts ++ used) s'.peek → Gives p env s' Q) :
    Gives (do
      if !(← eat .comma) then
        let _ ← eat .semicolon
      p) env s Q := by
  have hnone : Gives p env s Q := hp [] s (.refl s) .nil (by simpa using hpassed)
  rw [gives_eat_bind]
  split
  · next hcomma =>
    have huses := uses_peek hs (by rw [hcomma]; decide)
    exact hp _ _ huses (.single (side_of_kind hcomma)) (hpassed.skip (hpassed.skipped_comma hcomma) _)
  · dsimp only
    rw [if_pos Bool.not_false, gives_eat_bind]
    split
    · next hsemi =>
      have huses := uses_peek hs (by rw [hsemi]; decide)
      exact hp _ _ huses (.single (side_of_kind hsemi)) (hsemicolon hsemi _)
    · exact hnone

/-- A list from a parameter or its end on. -/
theorem tidies_listFrom {self : Reader} (h : Balances self) (front : List (Token TokenKind)) (hs : s.stop.kind = .eof)
    (hpassed : Passed closers ts s.peek) :
    Tidies Lax (front ++ ts) (do
      if ← atAny (.eof :: closers) then return []
      else
        let start ← here
        let found ← readParam self closers
        let stop ← prevEnd
        if closers.contains .rparen then skipNewlines
        if !(← eat .comma) then
          let _ ← eat .semicolon
        let rest ← self (.params closers)
        match found with
        | some (name, kind, default?) => return { name, kind, default?, span := ⟨start, stop⟩ } :: rest
        | none => return rest) env s := by
  rw [tidies_atAny]
  refine Tidies.ite (fun _ => tidies_pure _) fun hopen => ?_
  have hgoes : s.peek.kind ∉ TokenKind.eof :: closers := fun hmem => hopen (List.contains_iff_mem.mpr hmem)
  rw [tidies_here]
  refine (takes_readParam front h hs hpassed hgoes).bind ?_
  rintro found s₁ ⟨more, h₁, hparam, htidy⟩
  have hs₁ : s₁.stop.kind = .eof := h₁.stop ▸ hs
  have hpassed₁ : Passed closers (ts ++ s.peek :: more) s₁.peek := .param hpassed hparam
  -- Behind the parameter and whatever separates it from the next one.
  have hrest : ∀ used s₂, s₁.Uses used s₂ → Nested used → Passed closers (ts ++ s.peek :: more ++ used) s₂.peek →
      Gives (do
        let rest ← self (.params closers)
        match found with
        | some (name, kind, default?) => return { name, kind, default?, span := ⟨s.peek.span.start, s₁.prevEnd⟩ } :: rest
        | none => return rest : P (List (Param Node))) env s₂ fun _ s' =>
          ∃ used, s.Uses used s' ∧ Tidy Lax (front ++ ts) used := by
    intro used s₂ h₂ hnested hpassed₂
    refine Gives.bind (h.params front (h₂.stop ▸ hs₁) hpassed₂) ?_
    rintro rest s₃ ⟨last, h₃, htidy'⟩
    have hall : Tidy Lax (front ++ ts) (s.peek :: more ++ used ++ last) :=
      (htidy.append (.of_nested hnested _)).append (by simpa using htidy')
    split <;> exact gives_pure.mpr ⟨_, (h₁.trans h₂).trans h₃, hall⟩
  rw [gives_prevEnd]
  by_cases hparen : closers.contains .rparen = true
  · rw [if_pos hparen]
    obtain ⟨rfl, hlines⟩ := gives_skipLines env hpassed₁ hparen
    refine hlines.bind ?_
    rintro _ s₂ ⟨lines, h₂, hnested, hpassed₂⟩
    refine gives_separator (h₂.stop ▸ hs₁) hpassed₂ (fun hsemi => hpassed₂.skip (skipped_terminator (.inr hsemi))) ?_
    intro used s₃ h₃ hnested' hpassed₃
    exact hrest (lines ++ used) s₃ (h₂.trans h₃) (hnested.append hnested') (by simpa using hpassed₃)
  · rw [if_neg hparen]
    exact gives_separator hs₁ hpassed₁ (fun hsemi _ => .semicolon hpassed hparam hsemi) hrest

theorem tidies_params {self : Reader} (h : Balances self) (front : List (Token TokenKind)) (hs : s.stop.kind = .eof) (hpassed : Passed closers ts s.peek) :
    Tidies Lax (front ++ ts) (readParams self closers) env s := by
  unfold readParams
  dsimp only
  by_cases hparen : closers.contains .rparen = true
  · rw [if_pos hparen]
    obtain ⟨-, hlines⟩ := gives_skipLines env hpassed hparen
    refine Gives.bind hlines ?_
    rintro _ s₁ ⟨lines, h₁, hnested, hpassed₁⟩
    have hs₁ : s₁.stop.kind = .eof := h₁.stop ▸ hs
    refine Tidies.after ?_ h₁ (.of_nested hnested _)
    rw [List.append_assoc]
    exact tidies_listFrom h front hs₁ hpassed₁
  · rw [if_neg hparen]
    exact tidies_listFrom h front hs hpassed

end List

end PuppetDocs.Ruby
