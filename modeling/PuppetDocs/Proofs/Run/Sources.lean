import PuppetDocs.Proofs.Registry.Merge

/-
  PuppetDocs.Proofs.Run.Sources — a run over the texts of files.

  Every file is added to the run the same way (`Run.addSources`), and the run is finished at the
  end (`Run.ofSources`). The registry in between is that of one list of findings, the findings
  of all files in a row (`addSources_registry`); a file that is not read has none.
-/

namespace PuppetDocs

/-- A file given by its text. -/
structure SourceFile where
  path : String
  text : String
  deriving DecidableEq, Repr

/-- What a file holds that can be documented; nothing if it is skipped or refused. -/
def SourceFile.found (settings : Settings) (f : SourceFile) : List Found :=
  match settings.grammarFor f.path with
  | none => []
  | some grammar =>
    match SyntaxTree.parse f.path f.text grammar with
    | .ok tree => Registry.foundIn settings tree
    | .error _ => []

namespace Run

def addSources (r : Run) (files : List SourceFile) : Run := files.foldl (fun r f => (r.addSource f.path f.text).1) r

/-- A whole run over the texts of files. -/
def ofSources (settings : Settings) (files : List SourceFile) : Run := (addSources { settings } files).finish

@[simp] theorem addSource_settings (r : Run) (path text : String) : (r.addSource path text).1.settings = r.settings := by
  unfold addSource
  split
  · rfl
  · split <;> rfl

theorem addSources_cons (r : Run) (f : SourceFile) (files : List SourceFile) :
    r.addSources (f :: files) = (r.addSource f.path f.text).1.addSources files := rfl

theorem addSource_registry (r : Run) (f : SourceFile) :
    (r.addSource f.path f.text).1.registry = (r.registry.fill (f.found r.settings)).1 := by
  unfold addSource SourceFile.found
  cases r.settings.grammarFor f.path with
  | none => rfl
  | some grammar =>
    dsimp only
    cases SyntaxTree.parse f.path f.text grammar with
    | error e => rfl
    | ok tree =>
      have htree := Registry.addTrees_registry r [tree]
      rw [List.flatMap_singleton] at htree
      exact htree

theorem addSources_registry (r : Run) (files : List SourceFile) :
    (r.addSources files).registry = (r.registry.fill (files.flatMap (·.found r.settings))).1 := by
  induction files generalizing r with
  | nil => rfl
  | cons f files ih =>
    rw [addSources_cons, ih, addSource_settings, addSource_registry, List.flatMap_cons, Registry.fill_append]

end Run

end PuppetDocs
