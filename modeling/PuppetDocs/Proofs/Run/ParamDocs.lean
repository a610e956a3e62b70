import PuppetDocs.Proofs.Findings.Visibility
import PuppetDocs.Proofs.Manifest.Names
import PuppetDocs.Proofs.Run.Places

/-
  PuppetDocs.Proofs.Run.ParamDocs — the parameters of definitions and the tags that document them.

  Reading a definition notes a warning for each of its parameters that no `@param` tag of its
  comment block names, and one for each tag that names none of its parameters, in their order
  (`definition_missing`, `definition_astray`); a parameter gets the text of the first tag that
  names it. A file is read definition by definition, the nested ones included, so the warnings of
  a manifest are those of its definitions (`addSource_paramDocs`).

  Type aliases are the exception: they have no parameters, and the tags above them are never
  compared with any, so that a `@param` tag above an alias goes unnoticed (`alias_tag_unnoticed`).
-/

namespace PuppetDocs

open Manifest (Definition Parameter flattenAll)

/-! ## Tags and parameters -/

namespace SyntaxTree

variable (tree : SyntaxTree) (d : Definition)

/-- The `@param` tags in the comment block of a definition. -/
def paramTags : List Tag := (Docstring.parse (tree.textAbove d.line)).params

/-- The parameters that no tag names. -/
def untagged : List Parameter := d.params.filter fun p => (tree.paramTags d).all fun t => t.subject ≠ some p.name

/-- What the tags name that is no parameter, a tag after the other. -/
def astray : List String :=
  ((tree.paramTags d).filterMap Tag.subject).filter fun name => d.params.all fun p => p.name ≠ name

/-- A parameter with the text of the first tag that names it. -/
def described (p : Parameter) : PuppetParam where
  name := p.name
  type? := p.type?
  default? := p.default?
  docstring := ((tree.paramTags d).find? (·.subject == some p.name)).map Tag.text

/-- The object is called like the definition, and has its parameters if it is of a kind that keeps them. -/
inductive Registers : CodeObject → Prop
  | class_ {o : PuppetClass} : d.kind = .class_ → o.name = d.name → o.parameters = d.params.map (tree.described d) →
      Registers (.class_ o)
  | definedType {o : DefinedType} : d.kind = .definedType → o.name = d.name →
      o.parameters = d.params.map (tree.described d) → Registers (.definedType o)
  | plan {o : Plan} : d.kind = .plan → o.name = d.name → o.parameters = d.params.map (tree.described d) →
      Registers (.plan o)
  | function {o : Function} : d.kind = .function → o.name = d.name → Registers (.function o)
  | typeAlias {o : DataTypeAlias} : d.kind = .typeAlias → o.name = d.name → Registers (.dataTypeAlias o)

end SyntaxTree

/-- The warning about a parameter without a tag. -/
def missingTag (path : String) (p : Parameter) : Diagnostic :=
  .warningAt .missingParamDoc path p.line
    ("Missing @param tag for parameter '" ++ p.name ++ "' near " ++ (Location.mk path p.line).text ++ ".")

/-- The warning about a tag without a parameter. -/
def strayTag (path : String) (d : Definition) (name : String) : Diagnostic :=
  .warningAt .unknownParamDoc path d.line
    ("The @param tag for parameter '" ++ name ++ "' has no matching parameter" ++ " at " ++ (Location.mk path d.line).text ++
      ".")

/-! ## Notes with a code -/

theorem filter_warningAt {α : Type} {f : α → Diagnostic} {code : Code}
    (hf : ∀ a, ∃ file line message, f a = .warningAt code file line message) (as : List α) (other : Code) :
    (as.map f).filter (·.hasCode other) = if code = other then as.map f else [] := by
  have hcode : ∀ d ∈ as.map f, d.hasCode other = decide (code = other) := by
    intro d hd
    obtain ⟨a, -, rfl⟩ := List.mem_map.mp hd
    obtain ⟨file, line, message, ha⟩ := hf a
    rw [ha]
    exact Diagnostic.hasCode_eq rfl other
  rw [List.filter_congr hcode]
  by_cases he : code = other <;> simp [he]

theorem filter_missingTag (path : String) (ps : List Parameter) (code : Code) :
    (ps.map (missingTag path)).filter (·.hasCode code) = if .missingParamDoc = code then ps.map (missingTag path) else [] :=
  filter_warningAt (fun _ => ⟨_, _, _, rfl⟩) ps code

theorem filter_strayTag (path : String) (d : Definition) (names : List String) (code : Code) :
    (names.map (strayTag path d)).filter (·.hasCode code) =
      if .unknownParamDoc = code then names.map (strayTag path d) else [] :=
  filter_warningAt (fun _ => ⟨_, _, _, rfl⟩) names code

theorem Noted.forM_notes {α : Type} (f : α → Noted Unit) (as : List α) :
    (as.forM f).notes = as.flatMap fun a => (f a).notes := by
  induction as with
  | nil => rfl
  | cons a as ih =>
    rw [List.flatMap_cons, ← ih]
    rfl

/-! ## One definition -/

namespace Context

variable {ctx : Context} {d : Definition}

theorem commentDocstring_params (ctx : Context) (line : Nat) (subject : String) :
    (ctx.commentDocstring line subject).value.params = (Docstring.parse (ctx.tree.textAbove line)).params := by
  rw [commentDocstring_value]
  unfold Docstring.params Docstring.tagsNamed
  rw [Docstring.markPublic_tags]
  split
  · rfl
  · rw [List.filter_append]
    exact List.append_nil _

theorem commentDocstring_coded (line : Nat) (subject : String) {code : Code} (hcode : .missingDocstring ≠ code) :
    (ctx.commentDocstring line subject).coded code = [] := by
  unfold commentDocstring
  split
  · rfl
  · unfold noteMissing
    rw [Noted.bind_coded, Noted.pure_coded, List.append_nil]
    split
    · have hnote : (Diagnostic.warningAt .missingDocstring ctx.tree.path line
          (ctx.placed ("Missing a description for " ++ subject) line)).hasCode code = false := by
        rw [Diagnostic.hasCode_eq rfl, decide_eq_false hcode]
      exact List.filter_eq_nil_iff.mpr fun note h => by rw [List.mem_singleton.mp h, hnote]; nofun
    · rfl

theorem param?_eq_none {docstring : Docstring} {p : Parameter} :
    (docstring.param? p.name).isNone = docstring.params.all fun t => t.subject ≠ some p.name := by
  rw [Docstring.param?, Bool.eq_iff_iff, Option.isNone_iff_eq_none, List.find?_eq_none, List.all_eq_true]
  simp

/-- A parameter without a tag is noted if that is asked for. -/
theorem documentedParam_notes (hwarn : ctx.settings.warnMissingParamDocs = true) (docstring : Docstring) (p : Parameter) :
    (ctx.documentedParam docstring p).notes =
      if docstring.params.all fun t => t.subject ≠ some p.name then [missingTag ctx.tree.path p] else [] := by
  rw [← param?_eq_none]
  unfold documentedParam
  simp only [Option.isNone_map, hwarn, Bool.and_true]
  split <;> rfl

theorem unmatchedTag_notes (t : Tag) :
    (ctx.unmatchedTag d t).notes =
      (t.subject.toList.filter fun name => d.params.all fun p => p.name ≠ name).map (strayTag ctx.tree.path d) := by
  unfold unmatchedTag
  cases t.subject with
  | none => rfl
  | some name =>
    dsimp only
    by_cases h : d.params.any (·.name == name) = true
    · rw [if_pos h]
      have hnot : (d.params.all fun p => p.name ≠ name) = false := by
        rw [← Bool.not_eq_true, List.all_eq_true]
        obtain ⟨p, hp, hname⟩ := List.any_eq_true.mp h
        exact fun hall => of_decide_eq_true (hall p hp) (beq_iff_eq.mp hname)
      simp only [Option.toList_some, List.filter_singleton, hnot]
      rfl
    · rw [if_neg h]
      have hall : (d.params.all fun p => p.name ≠ name) = true := by
        rw [List.all_eq_true]
        exact fun p hp => decide_eq_true fun hname => h (List.any_eq_true.mpr ⟨p, hp, beq_iff_eq.mpr hname⟩)
      simp only [Option.toList_some, List.filter_singleton, hall]
      rfl

theorem documentedParams_value {docstring : Docstring} (htags : docstring.params = ctx.tree.paramTags d) :
    (ctx.documentedParams d docstring).value = d.params.map (ctx.tree.described d) := by
  have hparam : ∀ p, (ctx.documentedParam docstring p).value = ctx.tree.described d p := by
    intro p
    have hfirst : docstring.param? p.name = (ctx.tree.paramTags d).find? (·.subject == some p.name) := by
      rw [Docstring.param?, htags]
    unfold documentedParam
    dsimp only
    split <;> simp only [Noted.bind_value, Noted.pure_value, SyntaxTree.described, hfirst]
  rw [documentedParams, Noted.bind_value, Noted.bind_value, Noted.pure_value, Noted.mapM_value, funext hparam]

/-- What is noted of the parameters, then what is noted of the tags. -/
theorem documentedParams_notes (hwarn : ctx.settings.warnMissingParamDocs = true) {docstring : Docstring}
    (htags : docstring.params = ctx.tree.paramTags d) :
    (ctx.documentedParams d docstring).notes =
      (ctx.tree.untagged d).map (missingTag ctx.tree.path) ++ (ctx.tree.astray d).map (strayTag ctx.tree.path d) := by
  have hparams : (d.params.flatMap fun p => (ctx.documentedParam docstring p).notes) =
      (ctx.tree.untagged d).map (missingTag ctx.tree.path) := by
    unfold SyntaxTree.untagged
    rw [← htags]
    induction d.params with
    | nil => rfl
    | cons p ps ih =>
      rw [List.flatMap_cons, ih, documentedParam_notes hwarn, List.filter_cons]
      split <;> rfl
  have htags' : (docstring.params.flatMap fun t => (ctx.unmatchedTag d t).notes) =
      (ctx.tree.astray d).map (strayTag ctx.tree.path d) := by
    unfold SyntaxTree.astray
    rw [htags]
    induction ctx.tree.paramTags d with
    | nil => rfl
    | cons t ts ih =>
      rw [List.flatMap_cons, ih, unmatchedTag_notes, ← List.map_append, ← List.filter_append, List.filterMap_cons]
      cases t.subject <;> rfl
  rw [documentedParams, Noted.bind_notes, Noted.bind_notes, Noted.mapM_notes, Noted.forM_notes, hparams, htags']
  exact congrArg _ (List.append_nil _)

/-- The notes about the parameters of a definition and about its tags. -/
def paramNotes (ctx : Context) (d : Definition) : List Diagnostic :=
  if d.kind = .typeAlias then []
  else (ctx.tree.untagged d).map (missingTag ctx.tree.path) ++ (ctx.tree.astray d).map (strayTag ctx.tree.path d)

theorem filter_missing (halias : d.kind = .typeAlias → ctx.tree.untagged d = []) :
    (ctx.paramNotes d).filter (·.hasCode .missingParamDoc) = (ctx.tree.untagged d).map (missingTag ctx.tree.path) := by
  unfold paramNotes
  split
  · next hkind => rw [halias hkind, List.map_nil, List.filter_nil]
  · rw [List.filter_append, filter_missingTag, filter_strayTag, if_pos rfl, if_neg (by decide), List.append_nil]

theorem filter_astray :
    (ctx.paramNotes d).filter (·.hasCode .unknownParamDoc) =
      if d.kind = .typeAlias then [] else (ctx.tree.astray d).map (strayTag ctx.tree.path d) := by
  unfold paramNotes
  split
  · rfl
  · rw [List.filter_append, filter_missingTag, filter_strayTag, if_neg (by decide), if_pos rfl, List.nil_append]

theorem definition_coded (hwarn : ctx.settings.warnMissingParamDocs = true) {code : Code}
    (hcode : .missingDocstring ≠ code) :
    (ctx.definition d).coded code = (ctx.paramNotes d).filter (·.hasCode code) := by
  unfold definition paramNotes
  rw [Noted.bind_coded, commentDocstring_coded _ _ hcode, List.nil_append]
  have htags := ctx.commentDocstring_params d.line ("Puppet " ++ d.kind.noun ++ " '" ++ d.name ++ "'")
  generalize (ctx.commentDocstring d.line _).value = docstring at htags ⊢
  have hparams : (ctx.documentedParams d docstring).coded code =
      ((ctx.tree.untagged d).map (missingTag ctx.tree.path) ++
        (ctx.tree.astray d).map (strayTag ctx.tree.path d)).filter (·.hasCode code) := by
    rw [Noted.coded, documentedParams_notes hwarn htags]
  split
  case h_5 hkind =>
    rw [if_pos hkind]
    rfl
  all_goals
    next hkind =>
      rw [if_neg (by rw [hkind]; decide), Noted.bind_coded, Noted.pure_coded, List.append_nil]
      exact hparams

theorem definition_registers (ctx : Context) (d : Definition) : ctx.tree.Registers d (ctx.definition d).value := by
  unfold definition
  rw [Noted.bind_value]
  have htags := ctx.commentDocstring_params d.line ("Puppet " ++ d.kind.noun ++ " '" ++ d.name ++ "'")
  generalize (ctx.commentDocstring d.line _).value = docstring at htags ⊢
  have hparams := documentedParams_value htags
  split
  · next hkind => exact .class_ hkind rfl hparams
  · next hkind => exact .definedType hkind rfl hparams
  · next hkind => exact .plan hkind rfl hparams
  · next hkind => exact .function hkind rfl
  · next hkind => exact .typeAlias hkind rfl

end Context

/-! ## A manifest -/

/-- What is reported with a code while findings are collected, if it is not that a name is used twice. -/
theorem collected_coded {code : Code} (hcode : .duplicateName ≠ code) (fs : List Finding) :
    (Collected.ofFindings fs).notes.filter (·.hasCode code) =
      fs.flatMap fun
        | .ok x => x.coded code
        | .error p => [p.toDiagnostic].filter (·.hasCode code) := by
  have hkeep : ∀ (c : Collected) (x : Found),
      (c.keep x).notes.filter (·.hasCode code) = c.notes.filter (·.hasCode code) := by
    intro c x
    have hproblems : ((c.registry.record x).2.map Problem.toDiagnostic).filter (·.hasCode code) = [] := by
      refine List.filter_eq_nil_iff.mpr fun d hd => ?_
      obtain ⟨p, hp, rfl⟩ := List.mem_map.mp hd
      obtain ⟨o, -, rfl⟩ := record_problems hp
      have htext : (Registry.duplicate o).toDiagnostic.code = some Code.duplicateName.text := rfl
      rw [Diagnostic.hasCode_eq htext, decide_eq_false hcode]
      nofun
    have hnotes : (c.keep x).notes = c.notes ++ (c.registry.record x).2.map Problem.toDiagnostic := rfl
    rw [hnotes, List.filter_append, hproblems, List.append_nil]
  have hfold : ∀ c : Collected, (fs.foldl Collected.add c).notes.filter (·.hasCode code) =
      c.notes.filter (·.hasCode code) ++ fs.flatMap fun
        | .ok x => x.coded code
        | .error p => [p.toDiagnostic].filter (·.hasCode code) := by
    induction fs with
    | nil => exact fun c => (List.append_nil _).symm
    | cons f fs ih =>
      intro c
      rw [List.foldl_cons, ih, List.flatMap_cons, ← List.append_assoc]
      congr 1
      cases f with
      | ok x =>
        rw [Collected.add, hkeep]
        exact List.filter_append ..
      | error p => exact List.filter_append ..
  exact hfold {}

open Registry

/-- The findings of a manifest are its definitions. -/
theorem puppet_findings {ctx : Context} {ds : List Definition} (hroot : ctx.tree.root = .puppet ds) :
    ctx.findings = (flattenAll ds).map fun d => .ok (do return .object (← ctx.definition d)) := by
  unfold Context.findings
  rw [hroot]

section Manifest

variable {ctx : Context} (ds : List Definition)

theorem definitions_coded (hwarn : ctx.settings.warnMissingParamDocs = true) {code : Code}
    (hmissing : .missingDocstring ≠ code) (hduplicate : .duplicateName ≠ code) :
    (Collected.ofFindings (ds.map fun d => .ok (do return .object (← ctx.definition d)))).notes.filter (·.hasCode code) =
      ds.flatMap fun d => (ctx.paramNotes d).filter (·.hasCode code) := by
  rw [collected_coded hduplicate, List.flatMap_map]
  refine List.flatMap_congr fun d _ => ?_
  dsimp only
  rw [Noted.bind_coded, Noted.pure_coded, List.append_nil, Context.definition_coded hwarn hmissing]

theorem definitions_found :
    foundValues (ds.map fun d => .ok (do return .object (← ctx.definition d))) =
      ds.map fun d => .object (ctx.definition d).value := by
  induction ds with
  | nil => rfl
  | cons d ds ih => exact congrArg (_ :: ·) ih

theorem objectsOf_map (os : List CodeObject) : objectsOf (os.map .object) = os ∧ extensionsOf (os.map .object) = [] := by
  induction os with
  | nil => exact ⟨rfl, rfl⟩
  | cons o os ih => exact ⟨congrArg (o :: ·) ih.1, ih.2⟩

end Manifest

/-- The problems of objects that are left out say that a name is used twice. -/
theorem filter_duplicates {code : Code} (hcode : .duplicateName ≠ code) (os : List CodeObject) :
    ((os.map duplicate).map Problem.toDiagnostic).filter (·.hasCode code) = [] := by
  refine List.filter_eq_nil_iff.mpr fun d hd => ?_
  obtain ⟨p, hp, rfl⟩ := List.mem_map.mp hd
  obtain ⟨o, -, rfl⟩ := List.mem_map.mp hp
  have htext : (duplicate o).toDiagnostic.code = some Code.duplicateName.text := rfl
  rw [Diagnostic.hasCode_eq htext, decide_eq_false hcode]
  nofun

/-- The run after a manifest. -/
theorem Run.addTree_definitions (r : Run) {tree : SyntaxTree} {ds : List Definition} (hroot : tree.root = .puppet ds)
    (hwarn : r.settings.warnMissingParamDocs = true) :
    ∃ objects reported,
      List.Forall₂ tree.Registers (flattenAll ds) objects ∧
      r.addTree tree =
        { settings := r.settings
          registry := ⟨r.registry.entries ++ (kept r.registry.keys objects).map keyed, r.registry.extensions⟩
          diagnostics := r.diagnostics ++ reported } ∧
      ∀ code, .missingDocstring ≠ code → .duplicateName ≠ code →
        reported.filter (·.hasCode code) =
          (flattenAll ds).flatMap fun d => (Context.paramNotes ⟨tree, r.settings⟩ d).filter (·.hasCode code) := by
  let ctx : Context := ⟨tree, r.settings⟩
  let objects := (flattenAll ds).map fun d => (ctx.definition d).value
  have hfindings : ctx.findings = (flattenAll ds).map fun d => .ok (do return .object (← ctx.definition d)) :=
    puppet_findings hroot
  have hfound : foundValues ctx.findings = objects.map .object := by
    rw [hfindings, definitions_found]
    exact (List.map_map ..).symm
  refine ⟨objects, (Collected.ofFindings ctx.findings).notes ++ ((rejected r.registry.keys
    (Collected.ofFindings ctx.findings).registry.objects).map duplicate).map Problem.toDiagnostic, ?_, ?_, ?_⟩
  · rw [List.forall₂_map_right_iff, List.forall₂_same]
    exact fun d _ => ctx.definition_registers d
  · have hobjects : (kept r.registry.keys (Collected.ofFindings ctx.findings).registry.objects) =
        kept r.registry.keys objects := by
      rw [collected_registry, objects_keyed, hfound, (objectsOf_map objects).1]
      exact kept_kept (List.nil_subset _) _
    have hextensions : (Collected.ofFindings ctx.findings).registry.extensions = [] := by
      rw [collected_registry, hfound, (objectsOf_map objects).2]
    simp only [Run.addTree, Run.report, merge_eq]
    rw [hobjects, hextensions, List.append_nil]
  · intro code hmissing hduplicate
    rw [List.filter_append, filter_duplicates hduplicate, List.append_nil, hfindings]
    exact definitions_coded _ hwarn hmissing hduplicate

/-- A manifest that is read with warnings about parameters: every parameter that no tag in the comment block of its
definition names is reported once, and no other; every tag with a subject that is no parameter is reported once, but for
the tags above type aliases; and of the objects of its definitions the first under each key that is new is registered,
a class, a defined type or a plan with the parameters that are declared, each with the text of its first tag. -/
theorem addSource_paramDocs (r : Run) {path text : String} {tree : SyntaxTree}
    (hgrammar : r.settings.grammarFor path = some .puppet) (hwarn : r.settings.warnMissingParamDocs = true)
    (hparse : SyntaxTree.parse path text .puppet = .ok tree) :
    ∃ ds objects reported,
      tree.root = .puppet ds ∧
      List.Forall₂ tree.Registers (flattenAll ds) objects ∧
      (r.addSource path text).1 =
        { settings := r.settings
          registry := ⟨r.registry.entries ++ (kept r.registry.keys objects).map keyed, r.registry.extensions⟩
          diagnostics := r.diagnostics ++ reported } ∧
      reported.filter (·.hasCode .missingParamDoc) =
        ((flattenAll ds).flatMap fun d => (tree.untagged d).map (missingTag path)) ∧
      reported.filter (·.hasCode .unknownParamDoc) =
        ((flattenAll ds).flatMap fun d => if d.kind = .typeAlias then [] else (tree.astray d).map (strayTag path d)) := by
  obtain ⟨ds, comments, found, hmanifest, hscan, htree⟩ : ∃ ds comments found,
      Manifest.parse text.toList = .ok (ds, comments) ∧ Manifest.scan text.toList = .ok found ∧
        tree = ⟨path, text.toList, .puppet ds, comments⟩ := by
    simp only [SyntaxTree.parse, bind, Except.bind, pure, Except.pure] at hparse
    cases hmanifest : Manifest.parse text.toList with
    | error e => simp [hmanifest] at hparse
    | ok parsed =>
      obtain ⟨found, -, hscan, -⟩ := Manifest.parse_ok hmanifest
      simp only [hmanifest, Except.ok.injEq] at hparse
      exact ⟨parsed.1, parsed.2, found, rfl, hscan, hparse.symm⟩
  have hroot : tree.root = .puppet ds := by rw [htree]
  have hpath : tree.path = path := by rw [htree]
  have hadd : (r.addSource path text).1 = r.addTree tree := by
    unfold Run.addSource
    simp only [hgrammar, hparse]
  obtain ⟨objects, reported, hobjects, hrun, hcoded⟩ := r.addTree_definitions hroot hwarn
  refine ⟨ds, objects, reported, hroot, hobjects, hadd.trans hrun, ?_, ?_⟩
  · rw [hcoded _ (by decide) (by decide)]
    refine List.flatMap_congr fun d hd => ?_
    rw [Context.filter_missing, hpath]
    -- An alias has no parameters, so none that is missing a tag.
    intro hkind
    rw [SyntaxTree.untagged, (Manifest.parse_named hmanifest hscan d hd).alias_ hkind, List.filter_nil]
  · rw [hcoded _ (by decide) (by decide)]
    refine List.flatMap_congr fun d _ => ?_
    rw [Context.filter_astray, hpath]

/-- A class that documents one of its parameters and one that it does not have, with a defined type inside it. -/
def partlyDocumented : String :=
  "# A.\n# @param x X.\n# @param z Z.\nclass a($x, $y) \x7b\n  # B.\n  define b($w) \x7b\x7d\n\x7d\n"

theorem addSource_paramDocs_nested :
    ∃ tree ds, SyntaxTree.parse "a.pp" partlyDocumented .puppet = .ok tree ∧ tree.root = .puppet ds ∧
      (Run.addSource {} "a.pp" partlyDocumented).1.diagnostics.filter (·.hasCode .missingParamDoc) =
        ((flattenAll ds).flatMap fun d => (tree.untagged d).map (missingTag "a.pp")) ∧
      ((flattenAll ds).flatMap tree.untagged).map Parameter.name = ["y", "w"] ∧
      (Run.addSource {} "a.pp" partlyDocumented).1.diagnostics.filter (·.hasCode .unknownParamDoc) =
        ((flattenAll ds).flatMap fun d => if d.kind = .typeAlias then [] else (tree.astray d).map (strayTag "a.pp" d)) ∧
      (flattenAll ds).flatMap tree.astray = ["z"] := by
  have hdocs : (SyntaxTree.parse "a.pp" partlyDocumented .puppet).toOption.map (fun tree =>
      match tree.root with
      | .puppet ds => (((flattenAll ds).flatMap tree.untagged).map Parameter.name, (flattenAll ds).flatMap tree.astray)
      | .ruby _ => ([], [])) = some (["y", "w"], ["z"]) := by decide +kernel
  cases htree : SyntaxTree.parse "a.pp" partlyDocumented .puppet with
  | error e =>
    rw [htree] at hdocs
    cases hdocs
  | ok tree =>
    obtain ⟨ds, objects, reported, hroot, -, hrun, hmissing, hastray⟩ :=
      addSource_paramDocs {} (by decide +kernel) rfl htree
    rw [htree] at hdocs
    simp only [Except.toOption, Option.map_some, hroot, Option.some.injEq, Prod.mk.injEq] at hdocs
    refine ⟨tree, ds, rfl, hroot, ?_, hdocs.1, ?_, hdocs.2⟩
    · rw [hrun]
      exact hmissing
    · rw [hrun]
      exact hastray

/-- A type alias with a tag above it that cannot name a parameter. -/
def documentedAlias : String := "# A.\n# @param x X.\ntype A = Integer\n"

theorem alias_tag_unnoticed :
    ∃ tree ds, SyntaxTree.parse "a.pp" documentedAlias .puppet = .ok tree ∧ tree.root = .puppet ds ∧
      (flattenAll ds).flatMap tree.astray = ["x"] ∧ (Run.addSource {} "a.pp" documentedAlias).1.diagnostics = [] := by
  have hdocs : (SyntaxTree.parse "a.pp" documentedAlias .puppet).toOption.map (fun tree =>
      match tree.root with
      | .puppet ds => (flattenAll ds).flatMap tree.astray
      | .ruby _ => []) = some ["x"] := by decide +kernel
  have hreports : (Run.addSource {} "a.pp" documentedAlias).1.diagnostics = [] := by decide +kernel
  cases htree : SyntaxTree.parse "a.pp" documentedAlias .puppet with
  | error e =>
    rw [htree] at hdocs
    cases hdocs
  | ok tree =>
    rw [htree] at hdocs
    cases hroot : tree.root with
    | ruby program =>
      simp [Except.toOption, hroot] at hdocs
    | puppet ds =>
      simp only [Except.toOption, Option.map_some, hroot, Option.some.injEq] at hdocs
      exact ⟨tree, ds, rfl, hroot, hdocs, hreports⟩

end PuppetDocs
