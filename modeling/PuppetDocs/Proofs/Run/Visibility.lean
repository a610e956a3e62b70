import PuppetDocs.Proofs.Findings.Visibility
import PuppetDocs.Proofs.Registry.History
import PuppetDocs.Proofs.Run.Places
import PuppetDocs.Proofs.Run.Reordering
import PuppetDocs.Proofs.Run.Steps

/-
  PuppetDocs.Proofs.Run.Visibility — every object of a run says who it is for.

  What a registry of a run holds was declared in one of the trees of the run and has grown
  since, or is a stub for a type that one of them extends (`Documented`). Taking over a tree
  and finishing keep that (`Documents`), and neither changes a docstring, so all objects in all
  states have the docstrings they were declared with: what their text says, with a tag for who
  they are for (`objects_state_visibility`).
-/

namespace PuppetDocs

open Registry

theorem CodeObject.Grows.docstring {o o' : CodeObject} (h : o.Grows o') : o'.docstring = o.docstring := by
  cases h with
  | same => rfl
  | type h =>
    have rest := congrArg ResourceType.docstring h.rest
    exact rest

/-- An object that these trees declare or extend, as it is in a registry, and what documents it. -/
inductive Documented (settings : Settings) (trees : List SyntaxTree) : CodeObject → Docstring → Prop
  | declared {tree : SyntaxTree} {declared o : CodeObject} {text : String} :
      tree ∈ trees → tree.Declares settings declared text → declared.Grows o → Documented settings trees o (.parse text)
  | extended {tree : SyntaxTree} {e : TypeExtension} {o : CodeObject} :
      tree ∈ trees → .extension e ∈ foundIn settings tree → (stub e).Grows o → Documented settings trees o {}

section Documented

variable {settings : Settings} {trees : List SyntaxTree} {o : CodeObject} {d : Docstring}

theorem Documented.grows (h : Documented settings trees o d) {o' : CodeObject} (grown : o.Grows o') :
    Documented settings trees o' d := by
  cases h with
  | declared tree declares before => exact .declared tree declares (before.trans grown)
  | extended tree waits before => exact .extended tree waits (before.trans grown)

theorem Documented.docstring (h : Documented settings trees o d) : o.docstring = d.markPublic := by
  cases h with
  | declared _ declares grown => rw [grown.docstring, declares.docstring]
  | extended _ _ grown => exact grown.docstring

end Documented

/-- A registry that holds nothing but what these trees declare and extend. -/
structure Documents (settings : Settings) (trees : List SyntaxTree) (r : Registry) : Prop where
  valid : r.Valid
  objects : ∀ o ∈ r.objects, ∃ d, Documented settings trees o d
  extensions : ∀ e ∈ r.extensions, ∃ tree ∈ trees, .extension e ∈ foundIn settings tree

namespace Documents

variable {settings : Settings} {trees : List SyntaxTree} {r : Registry}

theorem empty : Documents settings trees {} where
  valid := valid_empty
  objects := nofun
  extensions := nofun

theorem found_of_mem_objectsOf {fs : List Found} {o : CodeObject} (h : o ∈ objectsOf fs) : .object o ∈ fs := by
  obtain ⟨found, hfound, ho⟩ := List.mem_filterMap.1 h
  cases found with
  | object o' =>
    cases ho
    exact hfound
  | extension e => cases ho

theorem found_of_mem_extensionsOf {fs : List Found} {e : TypeExtension} (h : e ∈ extensionsOf fs) :
    .extension e ∈ fs := by
  obtain ⟨found, hfound, he⟩ := List.mem_filterMap.1 h
  cases found with
  | object o => cases he
  | extension e' =>
    cases he
    exact hfound

/-- Taking over a tree brings in objects that the tree declares. -/
theorem fill (h : Documents settings trees r) {tree : SyntaxTree} (htree : tree ∈ trees) :
    Documents settings trees (r.fill (foundIn settings tree)).1 := by
  refine ⟨valid_fill r h.valid _, ?_, ?_⟩
  · intro o ho
    rw [fill_eq, Registry.objects, List.map_append, List.map_map] at ho
    rcases List.mem_append.1 ho with ho | ho
    · exact h.objects o ho
    · have hkept : o ∈ kept r.keys (objectsOf (foundIn settings tree)) := by simpa [Function.comp_def, keyed] using ho
      have hfound := found_of_mem_objectsOf ((kept_sublist _ _).subset hkept)
      obtain ⟨text, declares⟩ := SyntaxTree.declares_of_found hfound
      exact ⟨.parse text, .declared htree declares (.same o)⟩
  · intro e he
    rw [fill_eq] at he
    rcases List.mem_append.1 he with he | he
    · exact h.extensions e he
    · exact ⟨tree, htree, found_of_mem_extensionsOf he⟩

/-- The end of a run lets types grow and brings in stubs for types that are extended. -/
theorem finalize (h : Documents settings trees r) : Documents settings trees r.finalize.1 := by
  refine ⟨h.valid.finalize, ?_, nofun⟩
  intro o ho
  rw [finalize_eq h.valid.own, Registry.objects, mapTypes, List.map_map] at ho
  obtain ⟨entry, hentry, rfl⟩ := List.mem_map.1 ho
  have grown := entry.2.grows_complete r
  rcases List.mem_append.1 hentry with hentry | hentry
  · obtain ⟨d, hd⟩ := h.objects entry.2 (List.mem_map_of_mem hentry)
    exact ⟨d, hd.grows grown⟩
  · obtain ⟨e, he, rfl⟩ := List.mem_map.1 hentry
    obtain ⟨tree, htree, hfound⟩ := h.extensions e (List.mem_of_find?_eq_some (find?_firstUndeclared he))
    exact ⟨{}, .extended htree hfound grown⟩

end Documents

namespace Run

variable {settings : Settings} {trees : List SyntaxTree}

theorem documents_step {r : Run} (hsettings : r.settings = settings) (h : Documents settings trees r.registry)
    {step : Step} (htree : ∀ tree, step.tree? settings = some tree → tree ∈ trees) :
    Documents settings trees (r.step step).1.registry := by
  by_cases hfinish : step = .finish
  · subst hfinish
    exact h.finalize
  · rw [step_registry r hfinish, hsettings, Step.found]
    cases hstep : step.tree? settings with
    | none => exact h
    | some tree =>
      rw [Option.toList_some, List.flatMap_singleton]
      exact h.fill (htree tree hstep)

theorem documents_steps {r : Run} (hsettings : r.settings = settings) (h : Documents settings trees r.registry)
    {steps : List Step} (htrees : ∀ step ∈ steps, ∀ tree, step.tree? settings = some tree → tree ∈ trees) :
    Documents settings trees (r.steps steps).1.registry := by
  have hkeeps : ∀ r : Run, ∀ step ∈ steps, r.settings = settings ∧ Documents settings trees r.registry →
      (r.step step).1.settings = settings ∧ Documents settings trees (r.step step).1.registry := by
    rintro r step hstep ⟨hsettings, h⟩
    exact ⟨(step_settings r step).trans hsettings, documents_step hsettings h (htrees step hstep)⟩
  exact (steps_keep hkeeps ⟨hsettings, h⟩).2

/-- In every state of a run, finished or not, every object has a tag that states who it is for. Its description is that
of the text it is documented with, and its tags are those of the text if one of them is such a tag, and else these and
behind them the one that makes it public. -/
theorem objects_state_visibility (settings : Settings) (steps : List Step) :
    ∀ o ∈ (Run.steps { settings } steps).1.registry.objects,
      ∃ d, Documented settings (steps.filterMap (·.tree? settings)) o d ∧
        o.docstring.hasTag "api" = true ∧ o.docstring.text = d.text ∧
        o.docstring.tags = if d.hasTag "api" then d.tags else d.tags ++ [{ name := "api", text? := some "public" }] := by
  intro o ho
  have htrees : ∀ step ∈ steps, ∀ tree, step.tree? settings = some tree → tree ∈ steps.filterMap (·.tree? settings) :=
    fun step hstep tree htree => List.mem_filterMap.2 ⟨step, hstep, htree⟩
  obtain ⟨d, hd⟩ := (documents_steps rfl .empty htrees).objects o ho
  refine ⟨d, hd, ?_⟩
  rw [hd.docstring]
  exact ⟨d.hasTag_markPublic, d.markPublic_text, d.markPublic_tags⟩

/-- A class for its module only. -/
def internalManifest : List Step := [.source ⟨"a.pp", "# Internal.\n# @api private\nclass a {}\n"⟩, .finish]

def internalClass : CodeObject :=
  .class_ {
    name := "a", location := ⟨"a.pp", 3⟩
    docstring := { text := "Internal.", tags := [{ name := "api", text? := some "private" }] } }

theorem objects_state_visibility_internal :
    (Run.steps {} internalManifest).1.registry.objects = [internalClass] ∧
      ∃ d, Documented {} (internalManifest.filterMap (·.tree? {})) internalClass d ∧ "Internal." = d.text := by
  have objects : (Run.steps {} internalManifest).1.registry.objects = [internalClass] := by decide +kernel
  have mem : internalClass ∈ (Run.steps {} internalManifest).1.registry.objects := by
    rw [objects]
    exact List.mem_singleton_self _
  obtain ⟨d, documented, -, text, -⟩ := objects_state_visibility {} internalManifest internalClass mem
  exact ⟨objects, d, documented, text⟩

end Run

end PuppetDocs
