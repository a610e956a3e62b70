import PuppetDocs.Proofs.Run.Rejected

/-
  PuppetDocs.Proofs.Run.Steps — a run step by step.

  A run gets the text of a file, a file to read from a disk or a file that is parsed already,
  any number of them in any order, and is finished at the end; a step that could not use its
  file gives the problem. Every other way to run over files is one of these runs
  (`addSources_eq`, `addFiles_eq`, `ofSources_eq`), so what every step keeps holds in all of
  them (`steps_keep`).
-/

namespace PuppetDocs

inductive Step where
  | source (f : SourceFile)
  | file (disk : Disk) (path : String)
  | parsed (tree : SyntaxTree)
  | finish

/-- The text of a file as a tree, if it is a source and can be parsed. -/
def Settings.tree? (settings : Settings) (path text : String) : Option SyntaxTree :=
  (settings.grammarFor path).bind fun grammar => (SyntaxTree.parse path text grammar).toOption

namespace Step

/-- The tree that a step adds to a run. -/
def tree? (settings : Settings) : Step → Option SyntaxTree
  | source f => settings.tree? f.path f.text
  | file disk path => (disk.read path).toOption.bind (settings.tree? path)
  | parsed tree => some tree
  | finish => none

/-- What the tree of a step holds that can be documented. -/
def found (settings : Settings) (step : Step) : List Found :=
  (step.tree? settings).toList.flatMap (Registry.foundIn settings)

end Step

namespace Run

def step (r : Run) : Step → Run × Option Problem
  | .source f => r.addSource f.path f.text
  | .file disk path => r.addFile disk path
  | .parsed tree => (r.addTree tree, none)
  | .finish => (r.finish, none)

/-- The run after several steps, and the problem that each of them met. -/
def steps (r : Run) : List Step → Run × List (Option Problem)
  | [] => (r, [])
  | step :: more =>
    let (r, problem) := r.step step
    let (r, problems) := r.steps more
    (r, problem :: problems)

theorem steps_append (r : Run) (some more : List Step) :
    r.steps (some ++ more) =
      (((r.steps some).1.steps more).1, (r.steps some).2 ++ ((r.steps some).1.steps more).2) := by
  induction some generalizing r with
  | nil => rfl
  | cons step some ih => simp only [List.cons_append, steps, ih]

theorem step_settings (r : Run) (step : Step) : (r.step step).1.settings = r.settings := by
  cases step with
  | source f => exact addSource_settings r f.path f.text
  | file disk path => exact addFile_settings r disk path
  | parsed tree => rfl
  | finish => rfl

/-- What every step of a run keeps is kept by the run. -/
theorem steps_keep {P : Run → Prop} {more : List Step} (keeps : ∀ r, ∀ step ∈ more, P r → P (r.step step).1) {r : Run}
    (h : P r) : P (r.steps more).1 := by
  induction more generalizing r with
  | nil => exact h
  | cons step more ih =>
    refine ih (fun r later hlater => keeps r later (List.mem_cons_of_mem step hlater)) ?_
    exact keeps r step List.mem_cons_self h

/-! ## What a step takes over -/

theorem addTree_registry (r : Run) (tree : SyntaxTree) :
    (r.addTree tree).registry = (r.registry.fill (Registry.foundIn r.settings tree)).1 := by
  have trees := Registry.addTrees_registry r [tree]
  rw [List.flatMap_singleton] at trees
  exact trees

theorem addSource_registry_of (r : Run) (path text : String) :
    (r.addSource path text).1.registry =
      (r.registry.fill ((r.settings.tree? path text).toList.flatMap (Registry.foundIn r.settings))).1 := by
  unfold addSource Settings.tree?
  cases r.settings.grammarFor path with
  | none => rfl
  | some grammar =>
    dsimp only [Option.bind_some]
    cases SyntaxTree.parse path text grammar with
    | error e => rfl
    | ok tree => simpa [Except.toOption] using addTree_registry r tree

theorem addFile_registry (r : Run) (disk : Disk) (path : String) :
    (r.addFile disk path).1.registry =
      (r.registry.fill (((disk.read path).toOption.bind (r.settings.tree? path)).toList.flatMap
        (Registry.foundIn r.settings))).1 := by
  unfold addFile
  cases hgrammar : r.settings.grammarFor path with
  | none =>
    have none (text : String) : r.settings.tree? path text = none := by rw [Settings.tree?, hgrammar, Option.bind_none]
    cases disk.read path with
    | error e => rfl
    | ok text =>
      rw [show (Except.ok text : Except ReadError String).toOption = some text from rfl, Option.bind_some, none]
      rfl
  | some grammar =>
    cases disk.read path with
    | error e => rfl
    | ok text => exact addSource_registry_of r path text

/-- A step that does not finish the run takes over what its tree holds. -/
theorem step_registry (r : Run) {step : Step} (h : step ≠ .finish) :
    (r.step step).1.registry = (r.registry.fill (step.found r.settings)).1 := by
  cases step with
  | source f => exact addSource_registry_of r f.path f.text
  | file disk path => exact addFile_registry r disk path
  | parsed tree =>
    have tree_found : Step.found r.settings (.parsed tree) =
        Registry.foundIn r.settings tree := List.flatMap_singleton _ _
    rw [tree_found]
    exact addTree_registry r tree
  | finish => exact absurd rfl h

/-! ## Runs over files -/

theorem addSources_eq (r : Run) (files : List SourceFile) : r.addSources files = (r.steps (files.map .source)).1 := by
  induction files generalizing r with
  | nil => rfl
  | cons f files ih => exact ih _

theorem addFiles_eq (r : Run) (disk : Disk) (paths : List String) :
    r.addFiles disk paths =
      let (r, problems) := r.steps (paths.map (.file disk))
      (r, problems.countP (·.isSome)) := by
  induction paths generalizing r with
  | nil => rfl
  | cons path paths ih => simp only [addFiles, ih, List.map_cons, steps, step, List.countP_cons]

theorem ofSources_eq (settings : Settings) (files : List SourceFile) :
    ofSources settings files = (steps { settings } (files.map .source ++ [.finish])).1 := by
  rw [steps_append, ← addSources_eq]
  rfl

end Run

end PuppetDocs
