import PuppetDocs.Proofs.Findings.Notes

/-
  PuppetDocs.Proofs.Findings.Switches — what the settings that switch warnings off change.

  Two settings switch off notes about what is not documented, one those about objects without
  a description and one those about parameters without a tag. With a switch off a declaration
  is read to the same value, or fails with the same problem, and what is noted on the way is
  what is noted with all switches on, but for the notes with the code of the switch
  (`hushed_findings`). Hiding notes goes through every way to put readings together, so there
  is a lemma for each reading, from those two that ask for a setting up.
-/

namespace PuppetDocs

open Ruby

/-! ## Switches -/

namespace Settings

/-- The settings with everything reported. -/
def loud (s : Settings) : Settings :=
  { s with warnMissingDocs := true, warnMissingParamDocs := true, coloredDiagnostics := true }

/-- The settings switch diagnostics of this code off. -/
def silences (s : Settings) : Code → Bool
  | .missingDocstring => !s.warnMissingDocs
  | .missingParamDoc => !s.warnMissingParamDocs
  | _ => false

/-- The settings switch this diagnostic off. -/
def hides (s : Settings) (d : Diagnostic) : Bool :=
  !s.warnMissingDocs && d.hasCode .missingDocstring || !s.warnMissingParamDocs && d.hasCode .missingParamDoc

end Settings

namespace Settings

variable (s : Settings)

theorem hides_eq {d : Diagnostic} {code : Code} (h : d.code = some code.text) : s.hides d = s.silences code := by
  cases code <;> simp [hides, silences, Diagnostic.hasCode_eq h]

theorem hides_warningAt (code : Code) (file : String) (line : Nat) (message : String) :
    s.hides (.warningAt code file line message) = s.silences code := s.hides_eq rfl

theorem hides_problem (p : Problem) : s.hides p.toDiagnostic = false := by
  have code : p.toDiagnostic.code = some p.code.text := by cases p <;> rfl
  rw [s.hides_eq code]
  cases p <;> rfl

end Settings

/-! ## Hiding notes -/

namespace Noted

variable {α β : Type} {hide : Diagnostic → Bool}

/-- The same reading, with some of its notes hidden. -/
def without (hide : Diagnostic → Bool) (x : Noted α) : Noted α := { x with notes := x.notes.filter (!hide ·) }

theorem without_pure (a : α) : (pure a : Noted α).without hide = pure a := rfl

theorem without_bind {x y : Noted α} {f g : α → Noted β} (hx : x.without hide = y)
    (hf : ∀ a, (f a).without hide = g a) : (x >>= f).without hide = y >>= g := by
  subst hx
  obtain rfl : (fun a => (f a).without hide) = g := funext hf
  exact congrArg (Noted.mk _) (List.filter_append _ _)

theorem without_map {x y : Noted α} (hx : x.without hide = y) (g : α → β) : (g <$> x).without hide = g <$> y :=
  without_bind hx fun _ => rfl

theorem without_mapM {f g : α → Noted β} (h : ∀ a, (f a).without hide = g a) (as : List α) :
    (as.mapM f).without hide = as.mapM g := by
  induction as with
  | nil => rfl
  | cons a as ih =>
    rw [List.mapM_cons, List.mapM_cons]
    exact without_bind (h a) fun b => without_bind ih fun bs => without_pure (b :: bs)

theorem without_foldlM {f g : β → α → Noted β} (h : ∀ b a, (f b a).without hide = g b a) (as : List α) (b : β) :
    (as.foldlM f b).without hide = as.foldlM g b := by
  induction as generalizing b with
  | nil => rfl
  | cons a as ih =>
    rw [List.foldlM_cons, List.foldlM_cons]
    exact without_bind (h b a) ih

theorem without_forM {f g : α → Noted Unit} (h : ∀ a, (f a).without hide = g a) (as : List α) :
    (as.forM f).without hide = as.forM g := by
  induction as with
  | nil => rfl
  | cons a as ih => exact without_bind (h a) fun _ => ih

/-- A note that is not hidden, made on a condition before the rest of a reading. -/
theorem without_guarded {c : Prop} [Decidable c] {note : Noted PUnit} {f g : PUnit → Noted β}
    (hnote : note.without hide = note) (hf : (f ⟨⟩).without hide = g ⟨⟩) :
    (if c then note >>= f else f ⟨⟩).without hide = if c then note >>= g else g ⟨⟩ := by
  by_cases hc : c
  · rw [if_pos hc, if_pos hc]
    exact without_bind hnote fun _ => hf
  · rw [if_neg hc, if_neg hc]
    exact hf

theorem without_ofResult {e e' : Except Problem (Noted α)} (shown : ∀ p : Problem, hide p.toDiagnostic = false)
    (he : e.map (without hide) = e') : (ofResult e).without hide = ofResult e' := by
  subst he
  cases e with
  | error p =>
    refine without_bind ?_ fun _ => rfl
    simp [without, note, shown]
  | ok x => exact without_map rfl some

end Noted

/-- What a reading may fail of beforehand is not touched. -/
theorem except_map_bind {ε α β γ : Type} {e : Except ε α} {k : α → Except ε β} {k' : α → Except ε γ} {w : β → γ}
    (h : ∀ a, (k a).map w = k' a) : (e >>= k).map w = e >>= k' := by
  cases e with
  | error p => rfl
  | ok a => exact h a

open Noted

namespace Context

/-- The same file, with everything reported. -/
def loud (ctx : Context) : Context := { ctx with settings := ctx.settings.loud }

@[simp] theorem loud_tree (ctx : Context) : ctx.loud.tree = ctx.tree := rfl

variable {ctx : Context}

/-! ## Documentation -/

theorem hushed_warn (code : Code) (line : Nat) (message : String) :
    (ctx.loud.warn code line message).without ctx.settings.hides =
      if ctx.settings.silences code then pure () else ctx.warn code line message := by
  have hides := ctx.settings.hides_warningAt code ctx.tree.path line message
  cases h : ctx.settings.silences code <;> simp [without, warn, note, loud, hides, h]
  rfl

/-- A note with a code that is never switched off. -/
theorem hushed_kept {code : Code} (shown : ctx.settings.silences code = false) (line : Nat) (message : String) :
    (ctx.loud.warn code line message).without ctx.settings.hides = ctx.warn code line message := by
  rw [hushed_warn, shown]
  rfl

theorem hushed_noteMissing (subject : String) (line : Nat) :
    (ctx.loud.noteMissing subject line).without ctx.settings.hides = ctx.noteMissing subject line := by
  refine (hushed_warn .missingDocstring line _).trans ?_
  unfold noteMissing
  cases h : ctx.settings.warnMissingDocs <;> simp [Settings.silences, h]
  rfl

theorem hushed_docText (search : DocSearch) (subject : String) (line : Nat) :
    (ctx.loud.docText search subject line).without ctx.settings.hides = ctx.docText search subject line := by
  cases search with
  | found text _ => exact without_pure text
  | unresolvable at_ => exact without_bind (hushed_kept rfl at_ _) fun _ => without_pure ""
  | notFound => exact without_bind (hushed_noteMissing subject line) fun _ => without_pure ""

theorem hushed_docstring (search : DocSearch) (subject : String) (line : Nat) :
    (ctx.loud.docstring search subject line).without ctx.settings.hides = ctx.docstring search subject line :=
  without_bind (hushed_docText search subject line) fun _ => without_pure _

theorem hushed_commentDocstring (line : Nat) (subject : String) :
    (ctx.loud.commentDocstring line subject).without ctx.settings.hides = ctx.commentDocstring line subject := by
  unfold commentDocstring
  rw [loud_tree]
  cases ctx.tree.blockBefore line with
  | some block => exact without_pure _
  | none => exact without_bind (hushed_noteMissing subject line) fun _ => without_pure _

/-! ## Attributes and features -/

theorem hushed_attributeStatement (a : Attribute) (statement : Node) :
    (ctx.loud.attributeStatement a statement).without ctx.settings.hides = ctx.attributeStatement a statement := by
  unfold attributeStatement
  split
  · rfl
  · split
    · rfl
    · split
      case h_3 =>
        split
        · rfl
        · exact without_bind (hushed_kept rfl _ _) fun _ => without_pure a
      all_goals rfl

theorem hushed_attributeBody (a : Attribute) (statements : List Node) :
    (ctx.loud.attributeBody a statements).without ctx.settings.hides = ctx.attributeBody a statements :=
  without_foldlM hushed_attributeStatement statements a

theorem hushed_declaredAttribute (statement : Node) (call : Call Node) (kind : AttributeKind) (typeName : String) :
    (ctx.loud.declaredAttribute statement call kind typeName).map (without ctx.settings.hides) =
      ctx.declaredAttribute statement call kind typeName :=
  except_map_bind fun _ => congrArg Except.ok <|
    without_bind (hushed_docText _ _ _) fun _ => hushed_attributeBody _ _

theorem hushed_ensure (call : Option (Call Node)) (typeName : String) :
    (ctx.loud.ensure call typeName).without ctx.settings.hides = ctx.ensure call typeName := by
  unfold ensure
  split
  · rfl
  · next block _ =>
    have body : ∀ docstring : String,
        (ctx.loud.attributeBody { name := "ensure", docstring } block.body.statements).without ctx.settings.hides =
          ctx.attributeBody { name := "ensure", docstring } block.body.statements :=
      fun _ => hushed_attributeBody _ _
    dsimp only
    cases findDocstring block.body with
    | notFound => exact without_bind (without_pure _) fun _ => without_bind (body _) fun _ => without_pure _
    | found text line => exact without_bind (hushed_docText _ _ _) fun _ => without_bind (body _) fun _ => without_pure _
    | unresolvable line => exact without_bind (hushed_docText _ _ _) fun _ => without_bind (body _) fun _ => without_pure _

theorem hushed_feature (statement : Node) (call : Call Node) :
    (ctx.loud.feature statement call).map (without ctx.settings.hides) = ctx.feature statement call := by
  refine except_map_bind fun _ => congrArg Except.ok ?_
  dsimp only
  cases call.positional[1]? with
  | some value => exact without_bind (hushed_docText _ _ _) fun _ => without_pure _
  | none => exact without_bind (without_pure "") fun _ => without_pure _

theorem hushed_typeItem (typeName : String) (statement : Node) :
    (ctx.loud.typeItem typeName statement).without ctx.settings.hides = ctx.typeItem typeName statement := by
  unfold typeItem
  split
  · exact without_bind (without_ofResult ctx.settings.hides_problem (hushed_declaredAttribute _ _ _ _))
      fun _ => without_pure _
  · exact without_bind (without_ofResult ctx.settings.hides_problem (hushed_declaredAttribute _ _ _ _))
      fun _ => without_pure _
  · exact without_bind (hushed_ensure _ _) fun _ => without_pure _
  · exact without_bind (without_ofResult ctx.settings.hides_problem (hushed_feature _ _)) fun _ => without_pure _
  · exact without_pure none

theorem hushed_typeStatement (typeName : String) (t : OpenType) (statement : Node) :
    (ctx.loud.typeStatement typeName t statement).without ctx.settings.hides = ctx.typeStatement typeName t statement := by
  refine without_bind (hushed_typeItem typeName statement) fun item => ?_
  cases item with
  | none => exact without_pure t
  | some item => exact without_pure (t.add item)

/-! ## Bindings and attributes of hashes -/

theorem hushed_malformed (line : Nat) (message : String) :
    (ctx.loud.malformed line message).without ctx.settings.hides = ctx.malformed line message := hushed_kept rfl line _

theorem hushed_bindings (method : String) (pair? : Node → Option (Node × Node)) (entries : List Node) :
    (ctx.loud.bindings method pair? entries).without ctx.settings.hides = ctx.bindings method pair? entries := by
  refine without_bind (without_mapM (fun entry => ?_) entries) fun _ => without_pure _
  cases pair? entry with
  | some pair => exact without_pure _
  | none => exact without_bind (hushed_malformed _ _) fun _ => without_pure []

theorem hushed_mapping (statement : Node) (call : Call Node) :
    (ctx.loud.mapping statement call).without ctx.settings.hides = ctx.mapping statement call := by
  unfold mapping
  split
  · exact without_bind (hushed_malformed _ _) fun _ => without_pure []
  · next first extra _ =>
    refine without_guarded (hushed_malformed _ _) ?_
    dsimp only
    split
    · exact hushed_bindings _ _ _
    · exact hushed_bindings _ _ _
    · exact without_bind (hushed_malformed _ _) fun _ => without_pure []

theorem hushed_providerStatement (p : Provider) (statement : Node) :
    (ctx.loud.providerStatement p statement).without ctx.settings.hides = ctx.providerStatement p statement := by
  unfold providerStatement
  split
  case h_4 | h_5 => rfl
  all_goals exact without_bind (hushed_mapping _ _) fun _ => without_pure _

theorem hushed_apiAttribute (typeName : String) (key definition : Node) :
    (ctx.loud.apiAttribute typeName key definition).without ctx.settings.hides =
      ctx.apiAttribute typeName key definition :=
  without_bind (hushed_docText _ _ _) fun _ => without_pure _

theorem hushed_apiAttributes (typeName : String) (entries : List Node) :
    (ctx.loud.apiAttributes typeName entries).without ctx.settings.hides = ctx.apiAttributes typeName entries := by
  refine without_bind (without_mapM (fun entry => ?_) entries) fun _ => without_pure _
  split
  · exact without_bind (hushed_apiAttribute _ _ _) fun _ => without_pure _
  · exact without_bind (hushed_kept rfl _ _) fun _ => without_pure []

/-! ## Constructs -/

section Constructs

variable (statement : Node) (call : Call Node)

theorem hushed_resourceType :
    (ctx.loud.resourceType statement call).map (without ctx.settings.hides) = ctx.resourceType statement call :=
  except_map_bind fun name => congrArg Except.ok <|
    without_bind (hushed_docstring _ _ _) fun _ =>
      without_bind (without_foldlM (hushed_typeStatement name) _ _) fun _ => without_pure _

theorem hushed_typeExtension (kind : AttributeKind) (typeCall : Call Node) :
    (ctx.loud.typeExtension statement kind typeCall call).map (without ctx.settings.hides) =
      ctx.typeExtension statement kind typeCall call := by
  refine except_map_bind fun typeName => ?_
  have declared : (ctx.loud.declaredAttribute statement call kind typeName).map (without ctx.settings.hides) =
      ctx.declaredAttribute statement call kind typeName := hushed_declaredAttribute statement call kind typeName
  rw [← declared]
  cases ctx.loud.declaredAttribute statement call kind typeName with
  | error p => rfl
  | ok declared => exact congrArg Except.ok (without_bind rfl fun _ => without_pure _)

theorem hushed_provider (typeCall : Call Node) :
    (ctx.loud.provider statement typeCall call).map (without ctx.settings.hides) =
      ctx.provider statement typeCall call :=
  except_map_bind fun _ => except_map_bind fun _ => congrArg Except.ok <|
    without_bind (hushed_docstring _ _ _) fun _ =>
      without_bind (without_foldlM hushed_providerStatement _ _) fun _ => without_pure _

theorem hushed_function4x :
    (ctx.loud.function4x statement call).map (without ctx.settings.hides) = ctx.function4x statement call :=
  except_map_bind fun _ => congrArg Except.ok <| without_bind (hushed_commentDocstring _ _) fun _ => without_pure _

theorem hushed_function3x :
    (ctx.loud.function3x statement call).map (without ctx.settings.hides) = ctx.function3x statement call :=
  except_map_bind fun _ => congrArg Except.ok <| without_bind (hushed_docstring _ _ _) fun _ => without_pure _

theorem hushed_dataType :
    (ctx.loud.dataType statement call).map (without ctx.settings.hides) = ctx.dataType statement call :=
  except_map_bind fun _ => congrArg Except.ok <| without_bind (hushed_commentDocstring _ _) fun _ => without_pure _

theorem hushed_apiType :
    (ctx.loud.apiType statement call).map (without ctx.settings.hides) = ctx.apiType statement call := by
  refine except_map_bind fun name => congrArg Except.ok (without_bind (hushed_docstring _ _ _) fun _ => ?_)
  dsimp only
  split
  · exact without_bind (hushed_apiAttributes _ _) fun _ => without_pure _
  · exact without_bind (hushed_kept rfl _ _) fun _ => without_bind (without_pure _) fun _ => without_pure _
  · exact without_pure _

theorem hushed_findingOf (construct : Construct) :
    (ctx.loud.findingOf statement construct).map (without ctx.settings.hides) = ctx.findingOf statement construct := by
  cases construct with
  | resourceType call => exact hushed_resourceType statement call
  | extension kind typeCall call => exact hushed_typeExtension statement call kind typeCall
  | provider typeCall call => exact hushed_provider statement call typeCall
  | function4x call => exact hushed_function4x statement call
  | function3x call => exact hushed_function3x statement call
  | dataType call => exact hushed_dataType statement call
  | apiType call => exact hushed_apiType statement call

end Constructs

/-! ## Manifests -/

section Manifests

open Manifest (Definition Parameter)

theorem hushed_documentedParam (docstring : Docstring) (p : Parameter) :
    (ctx.loud.documentedParam docstring p).without ctx.settings.hides = ctx.documentedParam docstring p := by
  unfold documentedParam
  cases h : (docstring.param? p.name).map Tag.text with
  | some text => rfl
  | none =>
    refine (without_bind (hushed_warn .missingParamDoc p.line _) fun _ => without_pure _).trans ?_
    cases hs : ctx.settings.warnMissingParamDocs <;> simp [Settings.silences, hs]
    rfl

theorem hushed_unmatchedTag (d : Definition) (t : Tag) :
    (ctx.loud.unmatchedTag d t).without ctx.settings.hides = ctx.unmatchedTag d t := by
  unfold unmatchedTag
  split
  · rfl
  · split
    · rfl
    · exact hushed_kept rfl _ _

theorem hushed_documentedParams (d : Definition) (docstring : Docstring) :
    (ctx.loud.documentedParams d docstring).without ctx.settings.hides = ctx.documentedParams d docstring :=
  without_bind (without_mapM (hushed_documentedParam docstring) d.params) fun _ =>
    without_bind (without_forM (hushed_unmatchedTag d) docstring.params) fun _ => without_pure _

theorem hushed_definition (d : Definition) :
    (ctx.loud.definition d).without ctx.settings.hides = ctx.definition d := by
  refine without_bind (hushed_commentDocstring _ _) fun docstring => ?_
  split
  case h_5 => rfl
  all_goals exact without_bind (hushed_documentedParams d docstring) fun _ => without_pure _

end Manifests

theorem hushed_findings (ctx : Context) :
    ctx.loud.findings.map (Except.map (without ctx.settings.hides)) = ctx.findings := by
  unfold findings
  rw [loud_tree]
  cases ctx.tree.root with
  | ruby program =>
    rw [List.map_map]
    exact List.map_congr_left fun c _ => hushed_findingOf c.1 c.2
  | puppet definitions =>
    rw [List.map_map]
    exact List.map_congr_left fun d _ => congrArg Except.ok (without_bind (hushed_definition d) fun _ => without_pure _)

end Context

end PuppetDocs
