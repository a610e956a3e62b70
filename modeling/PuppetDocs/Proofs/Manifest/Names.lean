import PuppetDocs.Proofs.Manifest.Brackets
import PuppetDocs.Proofs.Manifest.Order

/-
  PuppetDocs.Proofs.Manifest.Names — where the names of a definition come from.

  A definition is called what a token says, and so is each of its parameters; only a type alias
  is called by a type name, and it has no parameters (`Definition.Named`). Every rule takes the
  names it gives from the tokens it is read from if the rules inside it do (`step_names`), so the
  names in an accepted manifest are tokens of it (`parse_named`).
-/

namespace PuppetDocs.Manifest

open ParseM

/-- The parameter is called like a variable among the tokens, without its sigil. -/
def Parameter.Named (ts : List (Token TokenKind)) (p : Parameter) : Prop :=
  ∃ t ∈ ts, t.kind = .variable ∧ p.name = String.ofList (t.text.toList.drop 1)

structure Definition.Named (ts : List (Token TokenKind)) (d : Definition) : Prop where
  name : d.kind ≠ .typeAlias → ∃ t ∈ ts, t.kind = .name ∧ d.name = unrooted t.text
  params : ∀ p ∈ d.params, p.Named ts
  alias_ : d.kind = .typeAlias → d.params = []

section Named

variable {ts ts' : List (Token TokenKind)}

theorem Parameter.Named.mono {p : Parameter} (h : p.Named ts) (hsub : ts ⊆ ts') : p.Named ts' := by
  obtain ⟨t, ht, hname⟩ := h
  exact ⟨t, hsub ht, hname⟩

theorem Definition.Named.mono {d : Definition} (h : d.Named ts) (hsub : ts ⊆ ts') : d.Named ts' where
  name := fun hkind => by
    obtain ⟨t, ht, hname⟩ := h.name hkind
    exact ⟨t, hsub ht, hname⟩
  params := fun p hp => (h.params p hp).mono hsub
  alias_ := h.alias_

end Named

/-! ## Rules -/

/-- What the names are called by that a rule gives. -/
def Rule.Names (ts : List (Token TokenKind)) : {α : Type} → Rule α → α → Prop
  | _, .items _ _, ds => ∀ d ∈ flattenAll ds, d.Named ts
  | _, .definition, d => ∀ e ∈ flattenAll [d], e.Named ts
  | _, .params, ps => ∀ p ∈ ps, p.Named ts
  | _, .defaultValue _, _ => True

theorem Rule.Names.mono {α : Type} {rule : Rule α} {a : α} {ts ts' : List (Token TokenKind)} (h : rule.Names ts a)
    (hsub : ts ⊆ ts') : rule.Names ts' a := by
  cases rule with
  | items | definition => exact fun d hd => (h d hd).mono hsub
  | params => exact fun p hp => (h p hp).mono hsub
  | defaultValue => trivial

/-- Every rule uses up tokens, and takes its names from them. -/
def Calls (self : Reader) : Prop :=
  ∀ {α : Type} (rule : Rule α) (env : ParseEnv) (s : Stream TokenKind), s.stop.kind = .eof →
    Gives (self rule) env s fun a s' => s.Follows s' ∧ rule.Names s.rest a

section Rules

variable {self : Reader} {env : ParseEnv} {s s₁ : Stream TokenKind}

/-- What is read behind tokens that were used up is called by tokens that were there before them. -/
theorem names_after {α : Type} (hself : Calls self) (hstop : s.stop.kind = .eof) (h₁ : s.Follows s₁) (rule : Rule α) :
    Gives (self rule) env s₁ fun a s' => s.Follows s' ∧ rule.Names s.rest a := by
  refine (hself rule env s₁ (by rw [h₁.stop, hstop])).mono fun a s' h => ?_
  exact ⟨h₁.trans h.1, h.2.mono h₁.rest.subset⟩

/-- A token that has to be there is one of those that are left. -/
theorem gives_need_mem (hstop : s.stop.kind = .eof) (h₁ : s.Follows s₁) {kind : TokenKind} (hkind : kind ≠ .eof)
    (expected : String) :
    Gives (need kind expected) env s₁ fun t s' => s.Follows s' ∧ t ∈ s.rest ∧ t.kind = kind := by
  refine (gives_need (by rw [h₁.stop, hstop]) hkind expected).mono fun t s' h => ?_
  have hrest : s₁.rest = t :: s'.rest := h.2.rest
  have hfollows : s₁.Follows s' := ⟨h.2.stop, hrest ▸ List.suffix_cons t _⟩
  exact ⟨h₁.trans hfollows, h₁.rest.subset (hrest ▸ List.mem_cons_self), h.1⟩

theorem names_items (hself : Calls self) (hstop : s.stop.kind = .eof) (opener : Option (Token TokenKind))
    (open_ : List (Token TokenKind)) :
    Gives (readItems self opener open_) env s fun ds s' => s.Follows s' ∧ ∀ d ∈ flattenAll ds, d.Named s.rest := by
  have hnone : s.Follows s ∧ ∀ d ∈ flattenAll [], d.Named s.rest := ⟨.refl s, by simp⟩
  have hrest : ∀ (open' : List (Token TokenKind)), Gives (self (.items opener open')) env s.advance fun ds s' =>
      s.Follows s' ∧ ∀ d ∈ flattenAll ds, d.Named s.rest :=
    fun open' => names_after hself hstop s.follows_advance (.items opener open')
  unfold readItems
  rw [gives_peek]
  split
  · split
    · exact gives_fail
    · exact gives_pure.mpr hnone
  split
  · rw [gives_bump]
    exact hrest _
  split
  · split
    · split
      · rw [gives_bump]
        exact hrest _
      · exact gives_fail
    · split
      · exact gives_pure.mpr hnone
      · exact gives_fail
  · refine gives_look (looks_definitionFollows _) fun follows => ?_
    split
    · refine (hself .definition env s hstop).bind fun d s₁ hd => ?_
      refine (names_after hself hstop hd.1 (.items opener open_)).bind fun ds s₂ hds => gives_pure.mpr ⟨hds.1, ?_⟩
      have hall : flattenAll (d :: ds) = flattenAll [d] ++ flattenAll ds := by simp [flattenAll_cons]
      rw [hall]
      exact List.forall_mem_append.mpr ⟨hd.2, hds.2⟩
    · rw [gives_bump]
      exact hrest _

theorem names_alias (h₁ : s.Follows s₁) (start line : Nat) :
    Gives (readAlias start line) env s₁ fun d s' => s.Follows s' ∧ ∀ e ∈ flattenAll [d], e.Named s.rest := by
  unfold readAlias
  refine (passes_need _ _ env s₁).bind fun name s₂ h₂ => ?_
  refine (passes_need _ _ env s₂).bind fun _ s₃ h₃ => ?_
  refine (passes_readType env s₃).bind fun aliased s₄ h₄ => ?_
  rw [gives_prevEnd]
  refine gives_pure.mpr ⟨h₁.trans (h₂.trans (h₃.trans h₄)), ?_⟩
  simp only [flattenAll_cons, flattenAll_nil, List.append_nil, List.forall_mem_singleton]
  exact ⟨fun hkind => absurd rfl hkind, nofun, fun _ => rfl⟩

/-- A definition from behind its parameters on, if it is no alias. -/
theorem names_body (hself : Calls self) (hstop : s.stop.kind = .eof) (h₁ : s.Follows s₁) {kind : DefinitionKind}
    (hkind : kind ≠ .typeAlias) {name : Token TokenKind} (hname : name ∈ s.rest ∧ name.kind = .name)
    {params : List Parameter} (hparams : ∀ p ∈ params, p.Named s.rest) (start line : Nat) :
    Gives (do
      let parent ← optional .inheritsKw (do return (← bump).text)
      let returnType ← optional .returnArrow readType
      let brace ← need .lbrace "'\x7b'"
      let nested ← self (.items (some brace) [])
      let _ ← need .rbrace "'\x7d'"
      return {
        kind, name := unrooted name.text, params, parent, returnType, span := ⟨start, ← prevEnd⟩, line, nested })
      env s₁ fun d s' => s.Follows s' ∧ ∀ e ∈ flattenAll [d], e.Named s.rest := by
  have hparent : Passes (do return (← bump).text : P String) := passes_bump.bind fun t => .pure t.text
  refine (gives_optional _ fun s' _ => hparent env s').bind fun parent s₂ h₂ => ?_
  refine (gives_optional _ fun s' _ => passes_readType env s').bind fun returnType s₃ h₃ => ?_
  refine (passes_need _ _ env s₃).bind fun brace s₄ h₄ => ?_
  have hopen : s.Follows s₄ := h₁.trans (h₂.trans (h₃.trans h₄))
  refine (names_after hself hstop hopen (.items (some brace) [])).bind fun nested s₅ h₅ => ?_
  refine (passes_need _ _ env s₅).bind fun _ s₆ h₆ => ?_
  rw [gives_prevEnd]
  refine gives_pure.mpr ⟨h₅.1.trans h₆, ?_⟩
  rw [flattenAll_cons, flattenAll_nil, List.append_nil]
  refine List.forall_mem_cons.mpr ⟨⟨fun _ => ⟨name, hname.1, hname.2, rfl⟩, hparams, fun he => absurd he hkind⟩, ?_⟩
  exact h₅.2

theorem names_definition (hself : Calls self) (hstop : s.stop.kind = .eof) :
    Gives (readDefinition self) env s fun d s' => s.Follows s' ∧ ∀ e ∈ flattenAll [d], e.Named s.rest := by
  unfold readDefinition
  rw [gives_bump]
  dsimp only
  rw [gives_lineOf]
  split
  · exact names_alias s.follows_advance _ _
  · next hkind =>
    refine (gives_need_mem hstop s.follows_advance (by decide) _).bind fun name s₁ ⟨h₁, hname⟩ => ?_
    rw [gives_at]
    split
    · rw [gives_bind, gives_bump]
      refine (names_after hself hstop (h₁.trans s₁.follows_advance) .params).mono fun params s₂ h₂ => ?_
      exact names_body hself hstop h₂.1 hkind hname h₂.2 _ _
    · have hnone : ∀ p ∈ [], Parameter.Named s.rest p := nofun
      rw [gives_bind, gives_pure]
      exact names_body hself hstop h₁ hkind hname hnone _ _

theorem names_default (hself : Calls self) (hstop : s.stop.kind = .eof) (start : Nat) :
    Gives (readDefault self start) env s fun _ s' => s.Follows s' ∧ True := by
  unfold readDefault
  rw [gives_peekKind]
  split
  · rw [gives_prevEnd]
    exact gives_look (looks_written _ _) fun _ => gives_pure.mpr ⟨.refl s, trivial⟩
  split
  · exact (passes_skipGroup env s).bind fun _ s₁ h₁ => names_after hself hstop h₁ (.defaultValue start)
  split
  · exact gives_fail
  · rw [gives_bump]
    exact names_after hself hstop s.follows_advance (.defaultValue start)

theorem names_param (hself : Calls self) (hstop : s.stop.kind = .eof) (h₁ : s.Follows s₁) :
    Gives (readParam self) env s₁ fun p s' => s.Follows s' ∧ p.Named s.rest := by
  have hdefault : ∀ s₂, s.Follows s₂ →
      Gives (do self (.defaultValue (← here)) : P String) env s₂ fun _ s' => s₂.Follows s' := by
    intro s₂ h₂
    rw [gives_here]
    exact (hself (.defaultValue _) env s₂ (by rw [h₂.stop, hstop])).mono fun _ _ h => h.1
  -- A parameter from behind its type on.
  have hrest : ∀ (line : Nat) (type? : Option String) (s₂ : Stream TokenKind), s.Follows s₂ →
      Gives (do
        let capturesRest ← eat .star
        let variable_ ← need .variable "parameter name"
        let default? ← optional .assign (do self (.defaultValue (← here)))
        return {
          name := String.ofList (variable_.text.toList.drop 1), type?, default?, capturesRest, line } : P Parameter)
        env s₂ fun p s' => s.Follows s' ∧ p.Named s.rest := by
    intro line type? s₂ h₂
    refine (passes_eat _ env s₂).bind fun capturesRest s₃ h₃ => ?_
    refine (gives_need_mem hstop (h₂.trans h₃) (by decide) _).bind fun variable_ s₄ ⟨h₄, hmem, hkind⟩ => ?_
    refine (gives_optional _ fun s' h' => hdefault s' (h₄.trans h')).bind fun default? s₅ h₅ => ?_
    exact gives_pure.mpr ⟨h₄.trans h₅, variable_, hmem, hkind, rfl⟩
  unfold readParam
  rw [gives_here, gives_lineOf, gives_at]
  dsimp only
  split
  · have htype : Gives (some <$> readType) env s₁ fun _ s' => s₁.Follows s' := gives_map.mpr (passes_readType env s₁)
    exact htype.bind fun type? s₂ h₂ => hrest _ type? s₂ (h₁.trans h₂)
  · exact gives_bind.mpr (gives_pure.mpr (hrest _ none s₁ h₁))

theorem names_params (hself : Calls self) (hstop : s.stop.kind = .eof) :
    Gives (readParams self) env s fun ps s' => s.Follows s' ∧ ∀ p ∈ ps, p.Named s.rest := by
  unfold readParams
  refine (passes_eat _ env s).bind fun done s₁ h₁ => ?_
  split
  · exact gives_pure.mpr ⟨h₁, nofun⟩
  · refine (names_param hself hstop h₁).bind fun p s₂ h₂ => ?_
    refine (passes_eat _ env s₂).bind fun comma s₃ h₃ => ?_
    rw [gives_at]
    dsimp only
    split
    · rw [gives_peek]
      exact gives_bind.mpr gives_fail
    · refine (names_after hself hstop (h₂.1.trans h₃) .params).bind fun ps s₄ h₄ => gives_pure.mpr ⟨h₄.1, ?_⟩
      exact List.forall_mem_cons.mpr ⟨h₂.2, h₄.2⟩

theorem step_names (hself : Calls self) : Calls (Rule.step self) := by
  intro α rule env s hstop
  cases rule with
  | items opener open_ => exact names_items hself hstop opener open_
  | definition => exact names_definition hself hstop
  | params => exact names_params hself hstop
  | defaultValue start => exact names_default hself hstop start

end Rules

theorem run_names (depth : Nat) : Calls (Rule.run depth) := by
  induction depth with
  | zero => exact fun _ _ _ _ => gives_throw
  | succ depth ih => exact step_names ih

/-- The definitions of a text are called by its tokens, and so are their parameters. -/
theorem parse_named {text : List Char} {ds : List Definition} {comments : List Comment} {found : Scanned TokenKind}
    (hparse : Manifest.parse text = .ok (ds, comments)) (hscan : scan text = .ok found) :
    ∀ d ∈ flattenAll ds, d.Named found.tokens := by
  obtain ⟨found', s', hscan', -, hitems⟩ := parse_ok hparse
  obtain rfl : found' = found := by
    rw [hscan] at hscan'
    exact (Except.ok.inj hscan').symm
  have hstop : found'.stop.kind = .eof := by rw [(scan_inRow hscan).2]
  exact (run_names _ (.items none []) _ _ hstop ds s' hitems).2

end PuppetDocs.Manifest
