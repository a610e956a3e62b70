import PuppetDocs.Proofs.Brackets.Tidy
import PuppetDocs.Proofs.Manifest.Groups
import PuppetDocs.Proofs.Manifest.Order

/-
  PuppetDocs.Proofs.Manifest.Brackets — how far a manifest keeps its brackets balanced.

  The reader of manifests matches the brackets of bodies, of groups and of everything outside
  definitions. It takes the token in four places without looking at it: the parent behind
  `inherits`, the type behind `>>`, the type of an alias, and whatever is neither a comma nor a
  round or opening bracket in a default value. These places are `Lax`, told by the tokens in
  front of them. The tokens of a text that is accepted are nested but for some in lax places
  (`parse_tidy`), so that they are nested where no bracket stands in one (`parse_nested`), and a
  stray bracket in such a place is not reported (`parse_not_nested`).
-/

namespace PuppetDocs.Manifest

open ParseM

/-! ## Places where any token is taken -/

/-- At most one token, which is of this kind. -/
def Maybe (kind : TokenKind) (ts : List (Token TokenKind)) : Prop := ts = [] ∨ ∃ t, ts = [t] ∧ t.kind = kind

/-- A type with its parameters, or nothing. -/
def Typed (ts : List (Token TokenKind)) : Prop := ts = [] ∨ ∃ t group, ts = t :: group ∧ t.kind = .typeName ∧ Nested group

/-- As much of a default value as has been read: groups, and tokens that do not end it. -/
inductive Value : List (Token TokenKind) → Prop
  | nil : Value []
  | token {t : Token TokenKind} {value : List (Token TokenKind)} :
      t.kind ≠ .comma → t.kind ≠ .rparen → isOpening t.kind = false → Value value → Value (t :: value)
  | group {group value : List (Token TokenKind)} : Nested group → Value value → Value (group ++ value)

/-- What stands in front of the default value of a parameter. -/
inductive Begun : List (Token TokenKind) → Prop
  | mk {type star : List (Token TokenKind)} {name assign : Token TokenKind} : Typed type → Maybe .star star →
      name.kind = .variable → assign.kind = .assign → Begun (type ++ star ++ [name, assign])

/-- Parameters, with the commas between them. -/
inductive Params : List (Token TokenKind) → Prop
  | nil : Params []
  | required {type star comma params : List (Token TokenKind)} {name : Token TokenKind} : Typed type → Maybe .star star →
      name.kind = .variable → Maybe .comma comma → Params params → Params (type ++ star ++ [name] ++ comma ++ params)
  | optional {begun value comma params : List (Token TokenKind)} : Begun begun → Value value → Maybe .comma comma →
      Params params → Params (begun ++ value ++ comma ++ params)

/-- The head of a definition with a body, up to the parenthesis that opens its parameters. -/
inductive Opened : List (Token TokenKind) → Prop
  | mk {keyword name paren : Token TokenKind} : keyword.kind.opensBody = true → name.kind = .name → paren.kind = .lparen →
      Opened [keyword, name, paren]

/-- The head of a definition with a body, with its parameters. -/
inductive Header : List (Token TokenKind) → Prop
  | bare {keyword name : Token TokenKind} : keyword.kind.opensBody = true → name.kind = .name → Header [keyword, name]
  | params {opened params : List (Token TokenKind)} {close : Token TokenKind} : Opened opened → Params params →
      close.kind = .rparen → Header (opened ++ params ++ [close])

/-- The keyword `inherits` and the token behind it, or nothing. -/
inductive Parent : List (Token TokenKind) → Prop
  | none : Parent []
  | some {inherits : Token TokenKind} {name : List (Token TokenKind)} : inherits.kind = .inheritsKw → name.length ≤ 1 →
      Parent (inherits :: name)

/-- The places where the reader takes a token without looking for brackets. -/
inductive Lax : List (Token TokenKind) → Token TokenKind → Prop
  | parent {front header : List (Token TokenKind)} {inherits t : Token TokenKind} : Header header →
      inherits.kind = .inheritsKw → Lax (front ++ header ++ [inherits]) t
  | result {front header parent : List (Token TokenKind)} {arrow t : Token TokenKind} : Header header → Parent parent →
      arrow.kind = .returnArrow → Lax (front ++ header ++ parent ++ [arrow]) t
  | aliased {front : List (Token TokenKind)} {keyword name assign t : Token TokenKind} : keyword.kind = .typeKw →
      name.kind = .typeName → assign.kind = .assign → Lax (front ++ [keyword, name, assign]) t
  | default {front opened params begun value : List (Token TokenKind)} {t : Token TokenKind} : Opened opened →
      Params params → Begun begun → Value value → t.kind = .rbracket ∨ t.kind = .rbrace →
      Lax (front ++ opened ++ params ++ begun ++ value) t

/-- Every lax place stands behind one of four kinds of tokens. -/
theorem Lax.behind {before : List (Token TokenKind)} {t : Token TokenKind} (h : Lax before t) :
    ∃ u ∈ before, u.kind ∈ [.inheritsKw, .returnArrow, .assign, .lparen] := by
  cases h with
  | @parent _ _ inherits _ _ hinherits => exact ⟨inherits, by simp, by simp [hinherits]⟩
  | @result _ _ _ arrow _ _ _ harrow => exact ⟨arrow, by simp, by simp [harrow]⟩
  | @aliased _ _ _ assign _ _ _ hassign => exact ⟨assign, by simp, by simp [hassign]⟩
  | default hopened =>
    obtain @⟨keyword, name, paren, -, -, hparen⟩ := hopened
    exact ⟨paren, by simp, by simp [hparen]⟩

theorem Value.append {v w : List (Token TokenKind)} (hv : Value v) (hw : Value w) : Value (v ++ w) := by
  induction hv with
  | nil => exact hw
  | token hcomma hparen hopening _ ih => exact .token hcomma hparen hopening ih
  | group hgroup _ ih =>
    rw [List.append_assoc]
    exact .group hgroup ih

theorem Params.append {ps qs : List (Token TokenKind)} (hp : Params ps) (hq : Params qs) : Params (ps ++ qs) := by
  induction hp with
  | nil => exact hq
  | required htype hstar hname hcomma _ ih =>
    rw [List.append_assoc]
    exact .required htype hstar hname hcomma ih
  | optional hbegun hvalue hcomma _ ih =>
    rw [List.append_assoc]
    exact .optional hbegun hvalue hcomma ih

/-! ## Tools -/

section Tools

variable {α : Type} {env : ParseEnv} {s : Stream TokenKind} {before : List (Token TokenKind)}

theorem side_of_kind {t : Token TokenKind} {kind : TokenKind} (h : t.kind = kind) : t.side = kind.side := by
  rw [← h]
  rfl

theorem nested_maybe {kind : TokenKind} (hkind : kind.side = .plain) {ts : List (Token TokenKind)} (h : Maybe kind ts) :
    Nested ts := by
  rcases h with rfl | ⟨t, rfl, ht⟩
  · exact .nil
  · exact .single ((side_of_kind ht).trans hkind)

theorem gives_need (hstop : s.stop.kind = .eof) {kind : TokenKind} (hkind : kind ≠ .eof) (expected : String) :
    Gives (need kind expected) env s fun t s' => t.kind = kind ∧ s.Uses [t] s' :=
  gives_expect (by rwa [hstop])

/-- A token that may be there. -/
theorem gives_maybe (hstop : s.stop.kind = .eof) {kind : TokenKind} (hkind : kind ≠ .eof) :
    Gives (eat kind) env s fun _ s' => ∃ used, s.Uses used s' ∧ Maybe kind used := by
  refine (gives_eat (by rwa [hstop])).mono fun found s' h => ?_
  cases found with
  | false =>
    rw [if_neg (by decide)] at h
    subst h
    exact ⟨[], .refl _, .inl rfl⟩
  | true =>
    obtain ⟨t, ht, huses⟩ := h
    exact ⟨[t], huses, .inr ⟨t, rfl, ht⟩⟩

/-- A group is closed by its last token. -/
theorem gives_skipGroup (hstop : s.stop.kind = .eof) (hopening : isOpening s.peek.kind = true) :
    Gives skipGroup env s fun _ s' => ∃ used, s.Uses used s' ∧ Nested used := by
  have hne : s.peek.kind ≠ s.stop.kind := by
    rw [hstop]
    intro he
    rw [he] at hopening
    cases hopening
  have huses := Stream.Uses.advance hne
  obtain ⟨b, hside, hbrackets⟩ := side_opening hopening
  unfold skipGroup
  rw [gives_bump, gives_get]
  split
  · next rest stop hgroup =>
    obtain ⟨inside, closer, hinside, -, hnest⟩ := group_closed hgroup
    rw [← bind_pure (set _), gives_set, gives_pure]
    refine ⟨s.peek :: (inside ++ [closer]), ⟨huses.stop, ?_⟩, ?_⟩
    · rw [huses.rest, hinside]
      rfl
    · rw [Nested, nest_opens hside, ← hnest, hbrackets]
      rfl
  · exact gives_fail
  · exact gives_fail

/-- A type is the next token, whatever it is, and a group behind it. -/
theorem gives_readType (hstop : s.stop.kind = .eof) :
    Gives readType env s fun _ s' =>
      ∃ used, s.Uses used s' ∧ (used = [] ∨ ∃ group, used = s.peek :: group ∧ Nested group) := by
  -- The text of the type is looked up without reading on.
  have hwritten : ∀ (start : Nat) (s₁ : Stream TokenKind) {Q : Stream TokenKind → Prop}, Q s₁ →
      Gives (do return String.ofList (← written start (← prevEnd)) : P String) env s₁ fun _ s' => Q s' := by
    intro start s₁ Q hQ
    rw [gives_prevEnd]
    exact gives_look (looks_written _ _) fun _ => gives_pure.mpr hQ
  unfold readType
  rw [gives_bump, gives_at]
  dsimp only
  cases hrest : s.rest with
  | nil =>
    have hsame : s.advance = s := by simp only [Stream.advance, hrest]
    have hpeek : s.peek = s.stop := by simp [Stream.peek, hrest]
    rw [hsame, if_neg (by rw [hpeek, hstop]; decide)]
    exact hwritten _ _ ⟨[], .refl s, .inl rfl⟩
  | cons t rest =>
    have huses : s.Uses [s.peek] s.advance := by
      rcases Stream.Uses.advance_any s with huses | huses
      · exact huses
      · have := huses.rest
        simp [Stream.advance, hrest] at this
    split
    · next hbracket =>
      have hopening : isOpening s.advance.peek.kind = true := by rw [of_decide_eq_true hbracket]; rfl
      refine (gives_skipGroup (by rw [huses.stop, hstop]) hopening).bind ?_
      rintro _ s₂ ⟨group, hgroup, hnested⟩
      exact hwritten _ _ ⟨_, huses.trans hgroup, .inr ⟨group, rfl, hnested⟩⟩
    · exact hwritten _ _ ⟨_, huses, .inr ⟨[], rfl, .nil⟩⟩

end Tools

/-! ## Rules -/

/-- The tokens close the brackets `open_` and all that they open, but for some in lax places. -/
def Closes (before open_ used : List (Token TokenKind)) : Prop :=
  ∃ kept, Spares Lax before used kept ∧ nest (brackets open_) kept = some []

/-- What a rule has to know of the tokens around it. -/
def Rule.Asks (before : List (Token TokenKind)) (s : Stream TokenKind) : {α : Type} → Rule α → Prop
  | _, .items _ _ => True
  | _, .definition => Heads s.rest
  | _, .params => ∃ front opened params, before = front ++ opened ++ params ∧ Opened opened ∧ Params params
  | _, .defaultValue _ => ∃ front opened params begun value, before = front ++ opened ++ params ++ begun ++ value ∧
      Opened opened ∧ Params params ∧ Begun begun ∧ Value value

/-- What is known of the tokens that a rule has used up. -/
def Rule.Yields (before used : List (Token TokenKind)) (s' : Stream TokenKind) : {α : Type} → Rule α → Prop
  | _, .items opener open_ => Closes before open_ used ∧ (opener = none → s'.peek.kind = .eof)
  | _, .definition => Tidy Lax before used
  | _, .params => ∃ params close, used = params ++ [close] ∧ Params params ∧ close.kind = .rparen ∧ Tidy Lax before params
  | _, .defaultValue _ => Value used ∧ Tidy Lax before used

/-- Every rule keeps the brackets balanced but for those in lax places. -/
def Balances (self : Reader) : Prop :=
  ∀ {α : Type} (rule : Rule α) (env : ParseEnv) (s : Stream TokenKind) (before : List (Token TokenKind)),
    s.stop.kind = .eof → rule.Asks before s →
    Gives (self rule) env s fun _ s' => ∃ used, s.Uses used s' ∧ rule.Yields before used s'

section Rules

variable {self : Reader} {env : ParseEnv} {s : Stream TokenKind} {before : List (Token TokenKind)}

/-- Items behind a token, which changes what is open to `open_'`. -/
theorem closes_next (hself : Balances self) (hstop : s.stop.kind = .eof) (hpeek : s.peek.kind ≠ .eof)
    (opener : Option (Token TokenKind)) {open_ open_' : List (Token TokenKind)}
    (hnest : ∀ kept, nest (brackets open_) (s.peek :: kept) = nest (brackets open_') kept) :
    Gives (self (.items opener open_')) env s.advance fun _ s' =>
      ∃ used, s.Uses used s' ∧ (Rule.items opener open_).Yields before used s' := by
  have huses := Stream.Uses.advance (s := s) (by rwa [hstop])
  refine (hself (.items opener open_') env s.advance (before ++ [s.peek]) (by rw [huses.stop, hstop]) trivial).mono ?_
  rintro _ s' ⟨used, hused, ⟨kept, hspares, hkept⟩, hend⟩
  exact ⟨s.peek :: used, huses.trans hused, ⟨s.peek :: kept, .keep hspares, (hnest kept).trans hkept⟩, hend⟩

theorem balances_items (hself : Balances self) (hstop : s.stop.kind = .eof) (opener : Option (Token TokenKind))
    (open_ : List (Token TokenKind)) :
    Gives (readItems self opener open_) env s fun _ s' =>
      ∃ used, s.Uses used s' ∧ (Rule.items opener open_).Yields before used s' := by
  -- Nothing is read, and nothing is open.
  have hend : open_ = [] → (opener = none → s.peek.kind = .eof) →
      ∃ used, s.Uses used s ∧ (Rule.items opener open_).Yields before used s := by
    rintro rfl heof
    exact ⟨[], .refl s, ⟨[], .nil before, rfl⟩, heof⟩
  unfold readItems
  rw [gives_peek]
  split
  · next heof =>
    split
    · exact gives_fail
    · next hnone =>
      refine gives_pure.mpr (hend ?_ fun _ => heof)
      cases open_ with
      | nil => rfl
      | cons last outer => simp at hnone
  next heof =>
  split
  · next hopening =>
    obtain ⟨b, hside, hbrackets⟩ := side_opening hopening
    rw [gives_bump]
    exact closes_next hself hstop heof opener fun kept => by rw [nest_opens hside, hbrackets]
  next hopening =>
  split
  · split
    · split
      · next hcloses =>
        obtain ⟨b, hside, hbrackets⟩ := side_closes hcloses
        rw [gives_bump]
        exact closes_next hself hstop heof opener fun kept => by rw [hbrackets, nest_closes hside]
      · exact gives_fail
    · split
      · next hopener =>
        refine gives_pure.mpr (hend rfl fun hnone => ?_)
        rw [hnone] at hopener
        cases hopener
      · exact gives_fail
  next hclosing =>
  have hplain : s.peek.side = .plain := side_plain (by simpa using hopening) (by simpa using hclosing)
  obtain ⟨follows, hfollows, hheads⟩ := definitionFollows_eq env hstop
  have hlook : Gives (definitionFollows s.peek.kind) env s fun found s' => s' = s ∧ (found = true → Heads s.rest) := by
    intro found s' h
    rw [hfollows] at h
    cases h
    exact ⟨rfl, hheads⟩
  refine hlook.bind fun found s₁ ⟨hs₁, hheads⟩ => ?_
  rw [hs₁]
  split
  · next hfound =>
    have hheads : Heads s.rest := hheads (Bool.and_eq_true_iff.mp hfound).2
    refine (hself .definition env s before hstop hheads).bind fun d s₂ ⟨used, hused, kept, hspares, hnested⟩ => ?_
    refine (hself (.items opener open_) env s₂ (before ++ used) (by rw [hused.stop, hstop]) trivial).bind ?_
    rintro ds s₃ ⟨more, hmore, ⟨kept', hspares', hnest⟩, hend⟩
    refine gives_pure.mpr ⟨used ++ more, hused.trans hmore, ⟨kept ++ kept', hspares.append hspares', ?_⟩, hend⟩
    rw [nest_append, hnested.nest]
    exact hnest
  · rw [gives_bump]
    exact closes_next hself hstop heof opener fun kept => nest_plain hplain

/-- The type of an alias is in a lax place, and all else about it is in order. -/
theorem tidies_alias (hstop : s.stop.kind = .eof) {keyword : Token TokenKind} (hkeyword : keyword.kind = .typeKw)
    (start line : Nat) : Tidies Lax (before ++ [keyword]) (readAlias start line) env s := by
  unfold readAlias
  refine Gives.bind (gives_need hstop (by decide) _) fun name s₁ ⟨hname, h₁⟩ => ?_
  have hstop₁ : s₁.stop.kind = .eof := by rw [h₁.stop, hstop]
  refine Gives.bind (gives_need hstop₁ (by decide) _) fun assign s₂ ⟨hassign, h₂⟩ => ?_
  have hstop₂ : s₂.stop.kind = .eof := by rw [h₂.stop, hstop₁]
  refine Gives.bind (gives_readType hstop₂) fun aliased s₃ ⟨used, h₃, hused⟩ => ?_
  rw [gives_prevEnd, gives_pure]
  refine ⟨[name] ++ [assign] ++ used, (h₁.trans h₂).trans h₃, ?_⟩
  have hhead : Nested ([name] ++ [assign]) := (Nested.single (side_of_kind hname)).append (.single (side_of_kind hassign))
  refine (Tidy.of_nested hhead _).append ?_
  rcases hused with rfl | ⟨group, rfl, hgroup⟩
  · exact .nil _
  · have hlax : Lax (before ++ [keyword, name, assign]) s₂.peek := .aliased hkeyword hname hassign
    exact .spare_nested (by simpa using hlax) hgroup

theorem gives_parent (hstop : s.stop.kind = .eof) {header : List (Token TokenKind)} (hheader : Header header) :
    Gives (optional .inheritsKw (do return (← bump).text)) env s fun _ s' =>
      ∃ used, s.Uses used s' ∧ Tidy Lax (before ++ header) used ∧ Parent used := by
  unfold optional
  refine (gives_eat (by rw [hstop]; decide)).bind fun found s₁ h₁ => ?_
  cases found with
  | false =>
    rw [if_neg (by decide)] at h₁
    subst h₁
    exact gives_pure.mpr ⟨[], .refl _, .nil _, .none⟩
  | true =>
    obtain ⟨inherits, hinherits, h₁⟩ := h₁
    have hplain : Nested [inherits] := .single (side_of_kind hinherits)
    simp only [if_true]
    rw [bind_assoc, gives_bump, gives_bind, gives_pure, gives_pure]
    rcases Stream.Uses.advance_any s₁ with h₂ | h₂
    · refine ⟨[inherits] ++ [s₁.peek], h₁.trans h₂, (Tidy.of_nested hplain _).append (.spare ?_), .some hinherits (by simp)⟩
      exact .parent hheader hinherits
    · exact ⟨[inherits] ++ [], h₁.trans h₂, (Tidy.of_nested hplain _).append (.nil _), .some hinherits (by simp)⟩

theorem tidies_result (hstop : s.stop.kind = .eof) {header parent : List (Token TokenKind)} (hheader : Header header)
    (hparent : Parent parent) : Tidies Lax (before ++ header ++ parent) (optional .returnArrow readType) env s := by
  unfold optional
  refine Gives.bind (gives_eat (by rw [hstop]; decide)) fun found s₁ h₁ => ?_
  cases found with
  | false =>
    rw [if_neg (by decide)] at h₁
    subst h₁
    exact gives_pure.mpr ⟨[], .refl _, .nil _⟩
  | true =>
    obtain ⟨arrow, harrow, h₁⟩ := h₁
    have hplain : Nested [arrow] := .single (side_of_kind harrow)
    simp only [if_true]
    refine Gives.bind (gives_readType (by rw [h₁.stop, hstop])) fun type s₂ ⟨used, h₂, hused⟩ => gives_pure.mpr ?_
    refine ⟨[arrow] ++ used, h₁.trans h₂, (Tidy.of_nested hplain _).append ?_⟩
    rcases hused with rfl | ⟨group, rfl, hgroup⟩
    · exact .nil _
    · exact .spare_nested (.result hheader hparent harrow) hgroup

/-- A definition from behind its parameters on; its parent and its return type are in lax places. -/
theorem tidies_body (hself : Balances self) (hstop : s.stop.kind = .eof) {header : List (Token TokenKind)}
    (hheader : Header header) (kind : DefinitionKind) (name : String) (params : List Parameter) (start line : Nat) :
    Tidies Lax (before ++ header) (do
      let parent ← optional .inheritsKw (do return (← bump).text)
      let returnType ← optional .returnArrow readType
      let brace ← need .lbrace "'\x7b'"
      let nested ← self (.items (some brace) [])
      let _ ← need .rbrace "'\x7d'"
      return { kind, name, params, parent, returnType, span := ⟨start, ← prevEnd⟩, line, nested } : P Definition)
      env s := by
  refine tidies_bind (gives_parent hstop hheader) fun parent used s₁ h₁ hparent => ?_
  have hstop₁ : s₁.stop.kind = .eof := by rw [h₁.stop, hstop]
  refine (tidies_result hstop₁ hheader hparent).bind fun returnType used' s₂ h₂ => ?_
  have hstop₂ : s₂.stop.kind = .eof := by rw [h₂.stop, hstop₁]
  refine Gives.bind (gives_need hstop₂ (by decide) _) fun brace s₃ ⟨hbrace, h₃⟩ => ?_
  have hstop₃ : s₃.stop.kind = .eof := by rw [h₃.stop, hstop₂]
  refine (hself (.items (some brace) []) env s₃ (before ++ header ++ used ++ used' ++ [brace]) hstop₃ trivial).bind ?_
  intro nested s₄ ⟨inside, h₄, hinside, _⟩
  refine Gives.bind (gives_need (by rw [h₄.stop, hstop₃]) (by decide) _) fun close s₅ ⟨hclose, h₅⟩ => ?_
  rw [gives_prevEnd, gives_pure]
  exact ⟨brace :: inside ++ [close], (h₃.trans h₄).trans h₅,
    Tidy.group (side_of_kind hbrace) hinside (side_of_kind hclose)⟩

theorem tidies_definition (hself : Balances self) (hstop : s.stop.kind = .eof) (hheads : Heads s.rest) :
    Tidies Lax before (readDefinition self) env s := by
  obtain ⟨keyword, rest, hrest, hkeyword⟩ : ∃ keyword rest, s.rest = keyword :: rest ∧
      (keyword.kind.opensBody = true ∨ keyword.kind = .typeKw) := by
    generalize s.rest = ts at hheads
    cases hheads with
    | body hkind => exact ⟨_, _, rfl, .inl hkind⟩
    | alias_ hkind => exact ⟨_, _, rfl, .inr hkind⟩
  have hpeek : s.peek = keyword := by simp [Stream.peek, hrest]
  have h₁ : s.Uses [keyword] s.advance := ⟨by simp [Stream.advance, hrest], by simp [Stream.advance, hrest]⟩
  have hstop₁ : s.advance.stop.kind = .eof := by rw [h₁.stop, hstop]
  unfold readDefinition
  refine gives_bump.mpr ?_
  rw [hpeek]
  dsimp only
  rw [gives_lineOf]
  rcases hkeyword with hbody | halias
  · obtain ⟨hkind, hplain⟩ := opensBody_spec hbody
    rw [if_neg hkind]
    refine (gives_need hstop₁ (by decide) _).bind ?_
    rintro name s₂ ⟨hname, h₂⟩
    have hstop₂ : s₂.stop.kind = .eof := by rw [h₂.stop, hstop₁]
    have hhead : Nested ([keyword] ++ [name]) := (Nested.single hplain).append (.single (side_of_kind hname))
    rw [gives_at]
    split
    · next hparen =>
      have hparen : s₂.peek.kind = .lparen := of_decide_eq_true hparen
      have h₃ : s₂.Uses [s₂.peek] s₂.advance := .advance (by rw [hparen, hstop₂]; decide)
      have hopened : Opened [keyword, name, s₂.peek] := .mk hbody hname hparen
      have hasks : Rule.params.Asks (before ++ [keyword, name, s₂.peek]) s₂.advance :=
        ⟨before, _, [], by simp, hopened, .nil⟩
      rw [gives_bind, gives_bump]
      refine (hself .params env s₂.advance _ (by rw [h₃.stop, hstop₂]) hasks).mono ?_
      rintro params s₄ ⟨_, h₄, ps, close, rfl, hparams, hclose, htidy⟩
      have huses : s.Uses ([keyword, name, s₂.peek] ++ ps ++ [close]) s₄ := by
        simpa using ((h₁.trans h₂).trans h₃).trans h₄
      have hstop₄ : s₄.stop.kind = .eof := by rw [huses.stop, hstop]
      refine Tidies.after (tidies_body hself hstop₄ (.params hopened hparams hclose) _ _ _ _ _) huses ?_
      have hgroup : Tidy Lax (before ++ [keyword, name]) (s₂.peek :: ps ++ [close]) :=
        .group (side_of_kind hparen) (by simpa using htidy) (side_of_kind hclose)
      exact (Tidy.of_nested hhead before).append hgroup
    · rw [gives_bind, gives_pure]
      exact (tidies_body hself hstop₂ (.bare hbody hname) _ _ _ _ _).after (h₁.trans h₂) (.of_nested hhead before)
  · rw [if_pos (by rw [halias]; rfl)]
    exact (tidies_alias hstop₁ halias _ _).after h₁ (.single (side_of_kind halias) before)

/-! ## Parameters -/

theorem balances_default (hself : Balances self) (hstop : s.stop.kind = .eof) (start : Nat)
    (hasks : (Rule.defaultValue start).Asks before s) :
    Gives (readDefault self start) env s fun _ s' => ∃ used, s.Uses used s' ∧ Value used ∧ Tidy Lax before used := by
  obtain ⟨front, opened, params, begun, value, rfl, hopened, hparams, hbegun, hvalue⟩ := hasks
  generalize hbefore : front ++ opened ++ params ++ begun ++ value = before
  -- The rest of the value, behind what continues it.
  have hrest : ∀ used s₁, s.Uses used s₁ → Value used → Tidy Lax before used →
      Gives (self (.defaultValue start)) env s₁ fun _ s' => ∃ used, s.Uses used s' ∧ Value used ∧ Tidy Lax before used := by
    intro used s₁ huses hused htidy
    have hasks : (Rule.defaultValue start).Asks (before ++ used) s₁ :=
      ⟨front, opened, params, begun, value ++ used, by simp [← hbefore], hopened, hparams, hbegun, hvalue.append hused⟩
    refine (hself (.defaultValue start) env s₁ _ (by rw [huses.stop, hstop]) hasks).mono ?_
    rintro _ s' ⟨more, hmore, hvalue', htidy'⟩
    exact ⟨used ++ more, huses.trans hmore, hused.append hvalue', htidy.append htidy'⟩
  unfold readDefault
  rw [gives_peekKind]
  split
  · rw [gives_prevEnd]
    exact gives_look (looks_written _ _) fun _ => gives_pure.mpr ⟨[], .refl s, .nil, .nil before⟩
  next hend =>
  split
  · next hopening =>
    refine (gives_skipGroup hstop hopening).bind fun _ s₁ ⟨group, huses, hgroup⟩ => ?_
    have hvalue' : Value (group ++ []) := .group hgroup .nil
    rw [List.append_nil] at hvalue'
    exact hrest group s₁ huses hvalue' (.of_nested hgroup before)
  next hopening =>
  split
  · exact gives_fail
  next heof =>
  have huses := Stream.Uses.advance (s := s) (by rwa [hstop])
  rw [not_or] at hend
  rw [gives_bump]
  refine hrest [s.peek] s.advance huses (.token hend.1 hend.2 (by simpa using hopening) .nil) ?_
  by_cases hclosing : isClosing s.peek.kind = true
  · -- A closing bracket that is not round, at the top level of the value.
    refine .spare ?_
    rw [← hbefore]
    exact .default hopened hparams hbegun hvalue (closing_cases hclosing hend.2)
  · exact .single (side_plain (by simpa using hopening) (by simpa using hclosing)) before

/-- A parameter with the comma that may stand behind it. -/
def IsParam (used : List (Token TokenKind)) : Prop := ∀ comma, Maybe .comma comma → Params (used ++ comma)

/-- The default value of a parameter begins behind the `=`. -/
theorem balances_optional (hself : Balances self) (hstop : s.stop.kind = .eof) (front : List (Token TokenKind))
    {opened params type star : List (Token TokenKind)} {name : Token TokenKind}
    (hopened : Opened opened) (hparams : Params params) (htype : Typed type) (hstar : Maybe .star star)
    (hname : name.kind = .variable) :
    Gives (optional .assign (do self (.defaultValue (← here)) : P String)) env s fun _ s' =>
      ∃ used, s.Uses used s' ∧ Tidy Lax (front ++ opened ++ params ++ (type ++ star ++ [name])) used ∧
        IsParam (type ++ star ++ [name] ++ used) := by
  unfold optional
  refine (gives_eat (by rw [hstop]; decide)).bind fun found s₁ h₁ => ?_
  cases found with
  | false =>
    rw [if_neg (by decide)] at h₁
    subst h₁
    refine gives_pure.mpr ⟨[], .refl _, .nil _, fun comma hcomma => ?_⟩
    simpa using Params.required htype hstar hname hcomma .nil
  | true =>
    obtain ⟨assign, hassign, h₁⟩ := h₁
    have hbegun : Begun (type ++ star ++ [name, assign]) := .mk htype hstar hname hassign
    have hasks : (Rule.defaultValue s₁.peek.span.start).Asks
        (front ++ opened ++ params ++ (type ++ star ++ [name, assign])) s₁ :=
      ⟨front, opened, params, _, [], by simp, hopened, hparams, hbegun, .nil⟩
    simp only [if_true]
    rw [bind_assoc, gives_here]
    refine (hself (.defaultValue _) env s₁ _ (by rw [h₁.stop, hstop]) hasks).bind ?_
    rintro text s₂ ⟨value, h₂, hvalue, htidy⟩
    refine gives_pure.mpr ⟨[assign] ++ value, h₁.trans h₂, ?_, fun comma hcomma => ?_⟩
    · exact (Tidy.single (side_of_kind hassign) _).append (by simpa using htidy)
    · simpa using Params.optional hbegun hvalue hcomma .nil

theorem balances_param (hself : Balances self) (hstop : s.stop.kind = .eof) (front : List (Token TokenKind))
    {opened params : List (Token TokenKind)} (hopened : Opened opened) (hparams : Params params) :
    Gives (readParam self) env s fun _ s' =>
      ∃ used, s.Uses used s' ∧ Tidy Lax (front ++ opened ++ params) used ∧ IsParam used := by
  -- From behind the type on.
  have hrest : ∀ (type? : Option String) (type : List (Token TokenKind)) (s₁ : Stream TokenKind), s.Uses type s₁ →
      Typed type → Nested type →
      Gives (do
        let capturesRest ← eat .star
        let variable_ ← need .variable "parameter name"
        let default? ← optional .assign (do self (.defaultValue (← here)))
        return {
          name := String.ofList (variable_.text.toList.drop 1), type?, default?, capturesRest
          line := env.lines.line s.peek.span.start } : P Parameter) env s₁ fun _ s' =>
        ∃ used, s.Uses used s' ∧ Tidy Lax (front ++ opened ++ params) used ∧ IsParam used := by
    intro type? type s₁ h₁ htype hnested
    have hstop₁ : s₁.stop.kind = .eof := by rw [h₁.stop, hstop]
    refine (gives_maybe hstop₁ (by decide)).bind fun capturesRest s₂ ⟨star, h₂, hstar⟩ => ?_
    have hstop₂ : s₂.stop.kind = .eof := by rw [h₂.stop, hstop₁]
    refine (gives_need hstop₂ (by decide) _).bind fun name s₃ ⟨hname, h₃⟩ => ?_
    have hstop₃ : s₃.stop.kind = .eof := by rw [h₃.stop, hstop₂]
    refine (balances_optional hself hstop₃ front hopened hparams htype hstar hname).bind ?_
    rintro default? s₄ ⟨value, h₄, htidy, hparam⟩
    refine gives_pure.mpr ⟨type ++ star ++ [name] ++ value, ((h₁.trans h₂).trans h₃).trans h₄, ?_, hparam⟩
    have hhead : Nested (type ++ star ++ [name]) :=
      (hnested.append (nested_maybe rfl hstar)).append (.single (side_of_kind hname))
    exact (Tidy.of_nested hhead _).append htidy
  unfold readParam
  rw [gives_here, gives_lineOf, gives_at]
  dsimp only
  split
  · next htype =>
    have htype : s.peek.kind = .typeName := of_decide_eq_true htype
    have hread : Gives (some <$> readType) env s fun _ s' =>
        ∃ used, s.Uses used s' ∧ (used = [] ∨ ∃ group, used = s.peek :: group ∧ Nested group) :=
      gives_map.mpr (gives_readType hstop)
    refine hread.bind fun type? s₁ ⟨used, h₁, hused⟩ => ?_
    rcases hused with rfl | ⟨group, rfl, hgroup⟩
    · exact hrest type? [] s₁ h₁ (.inl rfl) .nil
    · have hnested : Nested ([s.peek] ++ group) := (Nested.single (side_of_kind htype)).append hgroup
      exact hrest type? _ s₁ h₁ (.inr ⟨_, _, rfl, htype, hgroup⟩) hnested
  · exact gives_bind.mpr (gives_pure.mpr (hrest none [] s (.refl s) (.inl rfl) .nil))

theorem balances_params (hself : Balances self) (hstop : s.stop.kind = .eof) (hasks : Rule.params.Asks before s) :
    Gives (readParams self) env s fun _ s' => ∃ used, s.Uses used s' ∧ Rule.params.Yields before used s' := by
  obtain ⟨front, opened, params, rfl, hopened, hparams⟩ := hasks
  unfold readParams
  refine (gives_eat (by rw [hstop]; decide)).bind fun done s₁ h₁ => ?_
  cases done with
  | true =>
    obtain ⟨close, hclose, h₁⟩ := h₁
    exact gives_pure.mpr ⟨[close], h₁, [], close, rfl, .nil, hclose, .nil _⟩
  | false =>
    rw [if_neg (by decide)] at h₁ ⊢
    subst h₁
    refine (balances_param hself hstop front hopened hparams).bind fun p s₂ ⟨param, h₂, htidy, hparam⟩ => ?_
    have hstop₂ : s₂.stop.kind = .eof := by rw [h₂.stop, hstop]
    refine (gives_maybe hstop₂ (by decide)).bind fun found s₃ ⟨comma, h₃, hcomma⟩ => ?_
    have hparams' : Params (params ++ (param ++ comma)) := hparams.append (hparam comma hcomma)
    have hasks : Rule.params.Asks (front ++ opened ++ params ++ (param ++ comma)) s₃ :=
      ⟨front, opened, _, by simp, hopened, hparams'⟩
    rw [gives_at]
    dsimp only
    split
    · rw [gives_peek]
      exact gives_bind.mpr gives_fail
    · refine (hself .params env s₃ _ (by rw [h₃.stop, hstop₂]) hasks).bind ?_
      rintro ps s₄ ⟨_, h₄, rest, close, rfl, hrest, hclose, htidy'⟩
      refine gives_pure.mpr ⟨param ++ comma ++ (rest ++ [close]), (h₂.trans h₃).trans h₄, ?_⟩
      refine ⟨param ++ comma ++ rest, close, by simp, (hparam comma hcomma).append hrest, hclose, ?_⟩
      exact (htidy.append (.of_nested (nested_maybe rfl hcomma) _)).append (by simpa using htidy')

theorem step_balances (hself : Balances self) : Balances (Rule.step self) := by
  intro α rule env s before hstop hasks
  cases rule with
  | items opener open_ => exact balances_items hself hstop opener open_
  | definition => exact tidies_definition hself hstop hasks
  | params => exact balances_params hself hstop hasks
  | defaultValue start => exact balances_default hself hstop start hasks

end Rules

theorem run_balances (depth : Nat) : Balances (Rule.run depth) := by
  induction depth with
  | zero => exact fun _ _ _ _ _ _ => gives_throw
  | succ depth ih => exact step_balances ih

/-! ## Texts -/

/-- The tokens of a text that is accepted are nested but for some in lax places. -/
theorem parse_tidy {text : List Char} {ds : List Definition} {comments : List Comment} {found : Scanned TokenKind}
    (hparse : Manifest.parse text = .ok (ds, comments)) (hscan : scan text = .ok found) : Tidy Lax [] found.tokens := by
  obtain ⟨found', s', hscan', -, hrun⟩ := parse_ok hparse
  obtain rfl : found' = found := by
    rw [hscan] at hscan'
    exact (Except.ok.inj hscan').symm
  have hstop : found'.stop.kind = .eof := by rw [(scan_inRow hscan).2]
  obtain ⟨used, huses, hcloses, hend⟩ := run_balances _ (.items none []) _ _ [] hstop trivial ds s' hrun
  -- No token of the text is its end, so all have been read.
  have hall : found'.tokens = used := huses.all fun t ht => by
    rw [hend rfl]
    exact (scan_inRow hscan).1.kind (List.mem_reverse.mpr ht)
  rw [hall]
  exact hcloses

/-- The tokens of a text that is accepted are nested if no bracket stands in a lax place. -/
theorem parse_nested {text : List Char} {ds : List Definition} {comments : List Comment} {found : Scanned TokenKind}
    (hparse : Manifest.parse text = .ok (ds, comments)) (hscan : scan text = .ok found)
    (hlax : ∀ before t behind, found.tokens = before ++ t :: behind → Lax before t → t.side = .plain) :
    Nested found.tokens := by
  obtain ⟨kept, hspares, hnested⟩ := parse_tidy hparse hscan
  rw [Nested, ← hspares.nest_eq fun front t behind hts ht => hlax front t behind hts ht]
  exact hnested

theorem parse_nested_class :
    ∃ ds comments found, Manifest.parse "class a { b[1] }".toList = .ok (ds, comments) ∧
      scan "class a { b[1] }".toList = .ok found ∧
      (∀ before t behind, found.tokens = before ++ t :: behind → Lax before t → t.side = .plain) ∧
      Nested found.tokens := by
  have hok : (Manifest.parse "class a { b[1] }".toList).isOk = true := by decide +kernel
  have hkinds : (match scan "class a { b[1] }".toList with
      | .ok found => found.tokens.all fun t => t.kind ∉ [.inheritsKw, .returnArrow, .assign, .lparen]
      | .error _ => false) = true := by decide +kernel
  rcases hparse : Manifest.parse "class a { b[1] }".toList with _ | ⟨ds, comments⟩
  · rw [hparse] at hok
    cases hok
  rcases hscan : scan "class a { b[1] }".toList with _ | found
  · rw [hscan] at hkinds
    cases hkinds
  simp only [hscan, List.all_eq_true, decide_eq_true_eq] at hkinds
  have hlax : ∀ before t behind, found.tokens = before ++ t :: behind → Lax before t → t.side = .plain := by
    intro before t behind htokens ht
    obtain ⟨u, hu, hkind⟩ := ht.behind
    exact absurd hkind (hkinds u (by rw [htokens]; exact List.mem_append_left _ hu))
  exact ⟨ds, comments, found, rfl, rfl, hlax, parse_nested hparse hscan hlax⟩

/-- The bracket that stands in the place of a type is not reported. -/
theorem parse_not_nested :
    ¬∀ text ds comments found, Manifest.parse text = .ok (ds, comments) → scan text = .ok found → Nested found.tokens := by
  intro h
  have hok : (Manifest.parse "type A = ]".toList).isOk = true := by decide +kernel
  have hnest : (match scan "type A = ]".toList with
      | .ok found => nest [] found.tokens == none
      | .error _ => false) = true := by decide +kernel
  rcases hparse : Manifest.parse "type A = ]".toList with _ | ⟨ds, comments⟩
  · rw [hparse] at hok
    cases hok
  rcases hscan : scan "type A = ]".toList with _ | found
  · rw [hscan] at hnest
    cases hnest
  have hnested : nest [] found.tokens = some [] := h _ ds comments found hparse hscan
  simp only [hscan, hnested] at hnest
  cases hnest

end PuppetDocs.Manifest
