import PuppetDocs.Proofs.Manifest.Brackets

/-
  PuppetDocs.Proofs.Manifest.Laminar.Items — which tokens make which definitions.

  `Items` derives definitions from tokens. A token is passed over and opens or closes its
  bracket; a definition begins only where no bracket is open. A definition with a body is its
  head, a brace, items up to the brace that closes this one, and that brace; since the items in
  between close whatever they open, no other brace can be meant. The head takes any token for a
  parent and for a return type, also a bracket, and then this bracket is none of the body.

  What the reader of manifests gives is derived from the tokens it uses up: if the rules inside a
  rule keep to this, the rule does (`step_derives`). The parameters of a head are known from
  `Balances` already.
-/

namespace PuppetDocs.Manifest

open ParseM

/-! ## Derivations -/

/-- A type is any token, with or without a group in square brackets behind it. -/
inductive IsType : List (Token TokenKind) → Prop
  | bare (t : Token TokenKind) : IsType [t]
  | group {t opener closer : Token TokenKind} {inside : List (Token TokenKind)} : opener.kind = .lbracket → Nested inside →
      closer.kind = .rbracket → IsType (t :: opener :: inside ++ [closer])

/-- The keyword `inherits` with the token behind it, or nothing. -/
def Inherits (ts : List (Token TokenKind)) : Prop := ts = [] ∨ ∃ keyword parent, ts = [keyword, parent] ∧ keyword.kind = .inheritsKw

/-- The sign `>>` with the type behind it, or nothing. -/
def Returns (ts : List (Token TokenKind)) : Prop := ts = [] ∨ ∃ arrow type, ts = arrow :: type ∧ arrow.kind = .returnArrow ∧ IsType type

/-- What stands between the keyword of a definition with a body and the brace that opens the body. -/
inductive Head (keyword : Token TokenKind) : List (Token TokenKind) → Prop
  | mk {header parent result : List (Token TokenKind)} : Header (keyword :: header) → Inherits parent → Returns result →
      Head keyword (header ++ parent ++ result)

/-- Behind tokens that leave the brackets `open_` open, these tokens make these definitions, and close all brackets. -/
inductive Items : List Bracket → List (Token TokenKind) → List Definition → Prop
  | nil : Items [] [] []
  | pass {open_ open' : List Bracket} {t : Token TokenKind} {ts : List (Token TokenKind)} {ds : List Definition} :
      nest open_ [t] = some open' → Items open' ts ds → Items open_ (t :: ts) ds
  | alias_ {keyword name assign : Token TokenKind} {type ts : List (Token TokenKind)} {d : Definition}
      {ds : List Definition} : keyword.kind = .typeKw → name.kind = .typeName → assign.kind = .assign →
      IsType type ∨ type = [] ∧ ts = [] → d.kind = .typeAlias → d.nested = [] →
      d.span = ⟨keyword.span.start, ((assign :: type).getLast (by simp)).span.stop⟩ → Items [] ts ds →
      Items [] (keyword :: name :: assign :: type ++ ts) (d :: ds)
  | body {keyword brace close : Token TokenKind} {head inside ts : List (Token TokenKind)} {d : Definition}
      {ds : List Definition} : Head keyword head → kindOf keyword.kind = d.kind → brace.kind = .lbrace →
      Items [] inside d.nested → close.kind = .rbrace → d.span = ⟨keyword.span.start, close.span.stop⟩ → Items [] ts ds →
      Items [] (keyword :: head ++ brace :: inside ++ close :: ts) (d :: ds)

/-- The tokens make the definition in front of any others. -/
def Makes (used : List (Token TokenKind)) (atEnd : Prop) (d : Definition) : Prop :=
  ∀ ts ds, (atEnd → ts = []) → Items [] ts ds → Items [] (used ++ ts) (d :: ds)

/-! ## Groups and types -/

/-- A group ends with the bracket that closes the one it begins with. -/
theorem group_nested {opener last : Token TokenKind} {inner outer ts rest : List (Token TokenKind)} {stop : Nat}
    (hopen : last :: outer = inner ++ [opener]) (h : group last outer ts = .closed rest stop) :
    ∃ inside closer, ts = inside ++ closer :: rest ∧ stop = closer.span.stop ∧
      closes opener.kind closer.kind = true ∧ nest (brackets inner) inside = some [] := by
  induction ts generalizing last outer inner with
  | nil => cases h
  | cons t ts ih =>
    unfold group at h
    split at h
    · next hopening =>
      obtain ⟨b, hside, hbrackets⟩ := side_opening hopening
      have hdeeper : t :: last :: outer = (t :: inner) ++ [opener] := by rw [hopen]; rfl
      obtain ⟨inside, closer, rfl, hstop, hcloses, hnest⟩ := ih hdeeper h
      refine ⟨t :: inside, closer, rfl, hstop, hcloses, ?_⟩
      rw [nest_opens hside, ← hbrackets]
      exact hnest
    split at h
    · split at h
      · next hcloses =>
        cases outer with
        | nil =>
          cases h
          rcases inner with _ | ⟨u, inner⟩
          · obtain ⟨rfl, -⟩ := List.cons.inj hopen
            exact ⟨[], t, rfl, rfl, hcloses, rfl⟩
          · simp at hopen
        | cons l outer =>
          rcases inner with _ | ⟨u, inner⟩
          · simp at hopen
          obtain ⟨rfl, houter⟩ := List.cons.inj hopen
          obtain ⟨b, hside, hbrackets⟩ := side_closes hcloses
          obtain ⟨inside, closer, rfl, hstop, hcloser, hnest⟩ := ih houter (show group l outer ts = _ from h)
          refine ⟨t :: inside, closer, rfl, hstop, hcloser, ?_⟩
          rw [hbrackets, nest_closes hside]
          exact hnest
      · cases h
    · next hopening hclosing =>
      obtain ⟨inside, closer, rfl, hstop, hcloses, hnest⟩ := ih hopen h
      refine ⟨t :: inside, closer, rfl, hstop, hcloses, ?_⟩
      rw [nest_plain (side_plain (by simpa using hopening) (by simpa using hclosing))]
      exact hnest

theorem closes_square {kind kind' : TokenKind} (h : closes kind kind' = true) (hkind : kind = .lbracket) :
    kind' = .rbracket := by
  subst hkind
  cases kind' <;> first | rfl | cases h

section Tools

variable {α : Type} {env : ParseEnv} {s : Stream TokenKind}

/-- A token that has to be there is the one read last. -/
theorem gives_need_end (hstop : s.stop.kind = .eof) {kind : TokenKind} (hkind : kind ≠ .eof) (expected : String) :
    Gives (need kind expected) env s fun t s' =>
      t.kind = kind ∧ s.Uses [t] s' ∧ s.rest ≠ [] ∧ s'.prevEnd = t.span.stop := by
  unfold need expect
  rw [gives_peek]
  split
  · next hpeek =>
    obtain ⟨t, rest, hrest, -⟩ := rest_of_peek hstop hpeek hkind
    rw [← bind_pure bump, gives_bump, gives_pure]
    refine ⟨hpeek, .advance (by rw [hpeek, hstop]; exact hkind), by rw [hrest]; simp, ?_⟩
    simp [Stream.advance, Stream.peek, hrest]
  · exact gives_fail

/-- A type and its end, or nothing at the end of the text. -/
theorem gives_type (hstop : s.stop.kind = .eof) :
    Gives readType env s fun _ s' => ∃ used, s.Uses used s' ∧
      (used = [] ∧ s'.rest = [] ∧ s'.prevEnd = s.prevEnd ∨
        IsType used ∧ s'.prevEnd = (used.getLast?.map (·.span.stop)).getD 0) := by
  -- The text of the type is looked up without reading on.
  have hwritten : ∀ (start : Nat) (s₁ : Stream TokenKind) {Q : Stream TokenKind → Prop}, Q s₁ →
      Gives (do return String.ofList (← written start (← prevEnd)) : P String) env s₁ fun _ s' => Q s' := by
    intro start s₁ Q hQ
    rw [gives_prevEnd]
    exact gives_look (looks_written _ _) fun _ => gives_pure.mpr hQ
  unfold readType
  rw [gives_bump, gives_at]
  dsimp only
  obtain ⟨_ | ⟨t, rest⟩, stop, prevEnd⟩ := s
  · have hend : (Stream.advance ⟨[], stop, prevEnd⟩).peek.kind = .eof := hstop
    rw [hend, if_neg (by decide)]
    exact hwritten _ _ ⟨[], .refl _, .inl ⟨rfl, rfl, rfl⟩⟩
  have h₁ : (Stream.mk (t :: rest) stop prevEnd).Uses [t] ⟨rest, stop, t.span.stop⟩ := ⟨rfl, rfl⟩
  split
  · next hbracket =>
    have hkind : (Stream.mk rest stop t.span.stop).peek.kind = .lbracket := of_decide_eq_true hbracket
    have hstop' : (Stream.mk rest stop t.span.stop).stop.kind = .eof := hstop
    obtain ⟨opener, inner, (rfl : rest = _), hopener⟩ := rest_of_peek hstop' hkind (by decide)
    unfold skipGroup
    rw [bind_assoc, gives_bump, bind_assoc, gives_get]
    split
    · next rest' stop' hgroup =>
      obtain ⟨inside, closer, hinside, rfl, hcloses, hnested⟩ := group_nested (List.nil_append _).symm hgroup
      have hcloser : closer.kind = .rbracket := closes_square (show closes opener.kind closer.kind = true from hcloses) hopener
      rw [gives_set]
      have hinner : inner = inside ++ closer :: rest' := hinside
      refine hwritten _ _ ⟨t :: opener :: inside ++ [closer], ⟨rfl, by simp [hinner]⟩, .inr ⟨.group hopener hnested hcloser, ?_⟩⟩
      rw [List.getLast?_concat]
      rfl
    · exact gives_bind.mpr gives_fail
    · exact gives_bind.mpr gives_fail
  · exact hwritten _ _ ⟨[t], h₁, .inr ⟨.bare t, rfl⟩⟩

theorem gives_inherits (hstop : s.stop.kind = .eof) :
    Gives (optional .inheritsKw (do return (← bump).text)) env s fun _ s' =>
      ∃ used, s.Uses used s' ∧ (Inherits used ∨ s'.rest = []) := by
  unfold optional
  refine (gives_eat (by rw [hstop]; decide)).bind fun found s₁ h₁ => ?_
  cases found with
  | false =>
    rw [if_neg (by decide)] at h₁
    subst h₁
    exact gives_pure.mpr ⟨[], .refl _, .inl (.inl rfl)⟩
  | true =>
    obtain ⟨keyword, hkeyword, h₁⟩ := h₁
    simp only [if_true]
    rw [bind_assoc, gives_bump, gives_bind, gives_pure, gives_pure]
    obtain ⟨_ | ⟨t, rest⟩, stop, prevEnd⟩ := s₁
    · exact ⟨[keyword], h₁, .inr rfl⟩
    · exact ⟨[keyword] ++ [t], h₁.trans ⟨rfl, rfl⟩, .inl (.inr ⟨keyword, t, rfl, hkeyword⟩)⟩

theorem gives_returns (hstop : s.stop.kind = .eof) :
    Gives (optional .returnArrow readType) env s fun _ s' => ∃ used, s.Uses used s' ∧ (Returns used ∨ s'.rest = []) := by
  unfold optional
  refine (gives_eat (by rw [hstop]; decide)).bind fun found s₁ h₁ => ?_
  cases found with
  | false =>
    rw [if_neg (by decide)] at h₁
    subst h₁
    exact gives_pure.mpr ⟨[], .refl _, .inl (.inl rfl)⟩
  | true =>
    obtain ⟨arrow, harrow, h₁⟩ := h₁
    simp only [if_true]
    refine (gives_type (by rw [h₁.stop, hstop])).bind fun type s₂ ⟨used, h₂, hused⟩ => gives_pure.mpr ?_
    refine ⟨[arrow] ++ used, h₁.trans h₂, ?_⟩
    rcases hused with ⟨-, hrest, -⟩ | ⟨htype, -⟩
    · exact .inr hrest
    · exact .inl (.inr ⟨arrow, used, rfl, harrow, htype⟩)

end Tools

/-! ## Rules -/

/-- What is derived of the tokens that a rule has used up, up to the second stream. -/
def Rule.Derived (used : List (Token TokenKind)) (s' : Stream TokenKind) : {α : Type} → Rule α → α → Prop
  | _, .items _ open_, ds => Items (brackets open_) used ds
  | _, .definition, d => Makes used (s'.rest = []) d
  | _, _, _ => True

/-- What a rule gives is derived from the tokens it uses up. -/
def Derives (self : Reader) : Prop :=
  ∀ {α : Type} (rule : Rule α) (env : ParseEnv) (s : Stream TokenKind) (before : List (Token TokenKind)),
    s.stop.kind = .eof → rule.Asks before s →
    Gives (self rule) env s fun a s' => ∃ used, s.Uses used s' ∧ rule.Derived used s' a

section Rules

variable {self : Reader} {env : ParseEnv} {s : Stream TokenKind}

theorem derives_items (hself : Derives self) (hstop : s.stop.kind = .eof) (opener : Option (Token TokenKind))
    (open_ : List (Token TokenKind)) :
    Gives (readItems self opener open_) env s fun ds s' => ∃ used, s.Uses used s' ∧ Items (brackets open_) used ds := by
  -- Items behind the next token, which changes what is open to `open'`.
  have hpass : s.peek.kind ≠ .eof → ∀ open', nest (brackets open_) [s.peek] = some (brackets open') →
      Gives (self (.items opener open')) env s.advance fun ds s' =>
        ∃ used, s.Uses used s' ∧ Items (brackets open_) used ds := by
    intro hpeek open' hnest
    have huses := Stream.Uses.advance (s := s) (by rwa [hstop])
    refine (hself (.items opener open') env s.advance [] (by rw [huses.stop, hstop]) trivial).mono ?_
    rintro ds s' ⟨used, hused, hitems⟩
    exact ⟨[s.peek] ++ used, huses.trans hused, .pass hnest hitems⟩
  have hdone : open_ = [] → ∃ used, s.Uses used s ∧ Items (brackets open_) used [] := by
    rintro rfl
    exact ⟨[], .refl s, .nil⟩
  unfold readItems
  rw [gives_peek]
  split
  · split
    · exact gives_fail
    · next hnone =>
      refine gives_pure.mpr (hdone ?_)
      cases open_ with
      | nil => rfl
      | cons last outer => simp at hnone
  next heof =>
  split
  · next hopening =>
    obtain ⟨b, hside, hbrackets⟩ := side_opening hopening
    rw [gives_bump]
    exact hpass heof _ (by rw [nest_opens hside, hbrackets]; rfl)
  next hopening =>
  split
  · split
    · split
      · next hcloses =>
        obtain ⟨b, hside, hbrackets⟩ := side_closes hcloses
        rw [gives_bump]
        exact hpass heof _ (by rw [hbrackets, nest_closes hside]; rfl)
      · exact gives_fail
    · split
      · exact gives_pure.mpr (hdone rfl)
      · exact gives_fail
  next hclosing =>
  have hplain : s.peek.side = .plain := side_plain (by simpa using hopening) (by simpa using hclosing)
  obtain ⟨follows, hfollows, hheads⟩ := definitionFollows_eq env hstop
  have hlook : Gives (definitionFollows s.peek.kind) env s fun found s' => s' = s ∧ (found = true → Heads s.rest) := by
    intro found s' h
    rw [hfollows] at h
    cases h
    exact ⟨rfl, hheads⟩
  refine hlook.bind fun found s₁ ⟨hs₁, hheads⟩ => ?_
  rw [hs₁]
  split
  · next hfound =>
    obtain ⟨hempty, hfound⟩ := Bool.and_eq_true_iff.mp hfound
    obtain rfl := List.isEmpty_iff.mp hempty
    refine (hself .definition env s [] hstop (hheads hfound)).bind fun d s₂ ⟨used, hused, hmakes⟩ => ?_
    refine (hself (.items opener []) env s₂ [] (by rw [hused.stop, hstop]) trivial).bind ?_
    rintro ds s₃ ⟨more, hmore, hitems⟩
    refine gives_pure.mpr ⟨used ++ more, hused.trans hmore, hmakes more ds (fun hend => ?_) hitems⟩
    exact (List.append_eq_nil_iff.mp (hmore.rest.symm.trans hend)).1
  · rw [gives_bump]
    exact hpass heof _ (nest_plain hplain)

theorem derives_alias (hstop : s.stop.kind = .eof) {keyword : Token TokenKind} (hkeyword : keyword.kind = .typeKw)
    (line : Nat) :
    Gives (readAlias keyword.span.start line) env s fun d s' =>
      ∃ used, s.Uses used s' ∧ Makes ([keyword] ++ used) (s'.rest = []) d := by
  unfold readAlias
  refine Gives.bind (gives_need hstop (by decide) _) fun name s₁ ⟨hname, h₁⟩ => ?_
  have hstop₁ : s₁.stop.kind = .eof := by rw [h₁.stop, hstop]
  refine Gives.bind (gives_need_end hstop₁ (by decide) _) fun assign s₂ ⟨hassign, h₂, _, hend⟩ => ?_
  have hstop₂ : s₂.stop.kind = .eof := by rw [h₂.stop, hstop₁]
  refine Gives.bind (gives_type hstop₂) fun aliased s₃ ⟨type, h₃, htype⟩ => ?_
  rw [gives_prevEnd, gives_pure]
  refine ⟨[name] ++ [assign] ++ type, (h₁.trans h₂).trans h₃, fun ts ds hts hitems => ?_⟩
  have hmake : ∀ d : Definition, d.kind = .typeAlias → d.nested = [] → (IsType type ∨ type = [] ∧ ts = []) →
      d.span = ⟨keyword.span.start, ((assign :: type).getLast (by simp)).span.stop⟩ →
      Items [] ([keyword] ++ ([name] ++ [assign] ++ type) ++ ts) (d :: ds) :=
    fun d hkind hnested ht hspan => .alias_ hkeyword hname hassign ht hkind hnested hspan hitems
  rcases htype with ⟨rfl, hrest, hprev⟩ | ⟨htype, hprev⟩
  · exact hmake _ rfl rfl (.inr ⟨rfl, hts hrest⟩) (by rw [hprev, hend]; rfl)
  · refine hmake _ rfl rfl (.inl htype) ?_
    have hne : type ≠ [] := by
      rintro rfl
      cases htype
    rw [hprev, List.getLast_cons hne, List.getLast?_eq_some_getLast hne]
    rfl

/-- A definition from behind its parameters on. -/
theorem derives_body (hself : Derives self) (hstop : s.stop.kind = .eof) {keyword : Token TokenKind}
    {header : List (Token TokenKind)} (hheader : Header (keyword :: header)) (name : String) (params : List Parameter)
    (line : Nat) :
    Gives (do
      let parent ← optional .inheritsKw (do return (← bump).text)
      let returnType ← optional .returnArrow readType
      let brace ← need .lbrace "'\x7b'"
      let nested ← self (.items (some brace) [])
      let _ ← need .rbrace "'\x7d'"
      return {
        kind := kindOf keyword.kind, name, params, parent, returnType, span := ⟨keyword.span.start, ← prevEnd⟩, line
        nested } : P Definition) env s fun d s' =>
      ∃ used, s.Uses used s' ∧ Makes ([keyword] ++ header ++ used) (s'.rest = []) d := by
  refine (gives_inherits hstop).bind fun parent s₁ ⟨inherits, h₁, hinherits⟩ => ?_
  have hstop₁ : s₁.stop.kind = .eof := by rw [h₁.stop, hstop]
  refine (gives_returns hstop₁).bind fun returnType s₂ ⟨returns, h₂, hreturns⟩ => ?_
  have hstop₂ : s₂.stop.kind = .eof := by rw [h₂.stop, hstop₁]
  refine Gives.bind (gives_need_end hstop₂ (by decide) _) fun brace s₃ ⟨hbrace, h₃, hmore, _⟩ => ?_
  have hstop₃ : s₃.stop.kind = .eof := by rw [h₃.stop, hstop₂]
  refine (hself (.items (some brace) []) env s₃ [] hstop₃ trivial).bind fun nested s₄ ⟨inside, h₄, hinside⟩ => ?_
  refine Gives.bind (gives_need_end (by rw [h₄.stop, hstop₃]) (by decide) _) fun close s₅ ⟨hclose, h₅, _, hend⟩ => ?_
  rw [gives_prevEnd, gives_pure]
  -- There is a brace behind the head, so its last part is not cut off by the end of the text.
  have hreturns := hreturns.resolve_right hmore
  have hinherits : Inherits inherits := by
    refine hinherits.resolve_right fun hnone => hmore ?_
    have := h₂.rest
    rw [hnone] at this
    exact (List.append_eq_nil_iff.mp this.symm).2
  refine ⟨inherits ++ returns ++ [brace] ++ inside ++ [close], (((h₁.trans h₂).trans h₃).trans h₄).trans h₅, ?_⟩
  intro ts ds _ hitems
  have hmake := Items.body (d := {
    kind := kindOf keyword.kind, name, params, parent, returnType, span := ⟨keyword.span.start, s₅.prevEnd⟩, line
    nested }) (.mk hheader hinherits hreturns) rfl hbrace hinside hclose (by rw [hend]) hitems
  simpa using hmake

theorem derives_definition (hself : Derives self) (hparams : Balances self) (hstop : s.stop.kind = .eof)
    (hheads : Heads s.rest) :
    Gives (readDefinition self) env s fun d s' => ∃ used, s.Uses used s' ∧ Makes used (s'.rest = []) d := by
  obtain ⟨keyword, rest, hrest, hkeyword⟩ : ∃ keyword rest, s.rest = keyword :: rest ∧
      (keyword.kind.opensBody = true ∨ keyword.kind = .typeKw) := by
    generalize s.rest = ts at hheads
    cases hheads with
    | body hkind => exact ⟨_, _, rfl, .inl hkind⟩
    | alias_ hkind => exact ⟨_, _, rfl, .inr hkind⟩
  have hpeek : s.peek = keyword := by simp [Stream.peek, hrest]
  have h₁ : s.Uses [keyword] s.advance := ⟨by simp [Stream.advance, hrest], by simp [Stream.advance, hrest]⟩
  have hstop₁ : s.advance.stop.kind = .eof := by rw [h₁.stop, hstop]
  unfold readDefinition
  refine gives_bump.mpr ?_
  rw [hpeek]
  dsimp only
  rw [gives_lineOf]
  rcases hkeyword with hbody | halias
  · rw [if_neg (opensBody_spec hbody).1]
    refine (gives_need hstop₁ (by decide) _).bind ?_
    rintro name s₂ ⟨hname, h₂⟩
    have hstop₂ : s₂.stop.kind = .eof := by rw [h₂.stop, hstop₁]
    rw [gives_at]
    split
    · next hparen =>
      have hparen : s₂.peek.kind = .lparen := of_decide_eq_true hparen
      have h₃ : s₂.Uses [s₂.peek] s₂.advance := .advance (by rw [hparen, hstop₂]; decide)
      have hopened : Opened [keyword, name, s₂.peek] := .mk hbody hname hparen
      have hasks : Rule.params.Asks [keyword, name, s₂.peek] s₂.advance := ⟨[], _, [], by simp, hopened, .nil⟩
      rw [gives_bind, gives_bump]
      refine (hparams .params env s₂.advance _ (by rw [h₃.stop, hstop₂]) hasks).mono ?_
      rintro params s₄ ⟨_, h₄, ps, close, rfl, hps, hclose, -⟩
      have huses : s.Uses ([keyword, name, s₂.peek] ++ ps ++ [close]) s₄ := by
        simpa using ((h₁.trans h₂).trans h₃).trans h₄
      have hheader : Header (keyword :: (name :: s₂.peek :: ps ++ [close])) := by
        simpa using Header.params hopened hps hclose
      refine (derives_body hself (by rw [huses.stop, hstop]) hheader _ _ _).mono ?_
      rintro d s' ⟨used, hused, hmakes⟩
      exact ⟨_, huses.trans hused, by simpa using hmakes⟩
    · rw [gives_bind, gives_pure]
      refine (derives_body hself hstop₂ (.bare hbody hname) _ _ _).mono ?_
      rintro d s' ⟨used, hused, hmakes⟩
      exact ⟨_, (h₁.trans h₂).trans hused, hmakes⟩
  · rw [if_pos (by rw [halias]; rfl)]
    refine (derives_alias hstop₁ halias _).mono ?_
    rintro d s' ⟨used, hused, hmakes⟩
    exact ⟨_, h₁.trans hused, hmakes⟩

theorem step_derives (hself : Derives self) (hbalances : Balances self) : Derives (Rule.step self) := by
  intro α rule env s before hstop hasks
  cases rule with
  | items opener open_ => exact derives_items hself hstop opener open_
  | definition => exact derives_definition hself hbalances hstop hasks
  | params | defaultValue =>
    refine (step_balances hbalances _ env s before hstop hasks).mono ?_
    rintro _ s' ⟨used, huses, -⟩
    exact ⟨used, huses, trivial⟩

end Rules

theorem run_derives (depth : Nat) : Derives (Rule.run depth) := by
  induction depth with
  | zero => exact fun _ _ _ _ _ _ => gives_throw
  | succ depth ih => exact step_derives ih (run_balances depth)

/-- The definitions of a text are made of all its tokens. -/
theorem parse_items {text : List Char} {ds : List Definition} {comments : List Comment} {found : Scanned TokenKind}
    (hparse : Manifest.parse text = .ok (ds, comments)) (hscan : scan text = .ok found) : Items [] found.tokens ds := by
  obtain ⟨found', s', hscan', -, hrun⟩ := parse_ok hparse
  obtain rfl : found' = found := by
    rw [hscan] at hscan'
    exact (Except.ok.inj hscan').symm
  obtain ⟨hrow, hend⟩ := scan_inRow hscan
  have hstop : found'.stop.kind = .eof := by rw [hend]
  obtain ⟨used, huses, -, heof⟩ := run_balances _ (.items none []) _ _ [] hstop trivial ds s' hrun
  obtain ⟨used', huses', hitems⟩ := run_derives _ (.items none []) _ _ [] hstop trivial ds s' hrun
  -- No token of the text is its end, so all have been read.
  have hall : found'.tokens = used' := huses'.all fun t ht => by
    rw [heof rfl]
    exact hrow.kind (List.mem_reverse.mpr ht)
  rw [hall]
  exact hitems

end PuppetDocs.Manifest
