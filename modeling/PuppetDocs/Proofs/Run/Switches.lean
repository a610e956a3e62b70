import PuppetDocs.Proofs.Findings.Switches
import PuppetDocs.Proofs.Run.Steps

/-
  PuppetDocs.Proofs.Run.Switches — a run does not depend on what it warns about.

  Two settings switch off notes about what is not documented, and one the colors of what is
  printed. A run with any of them off is the run with all of them on, step by step: the same
  registry, the same problems, and the same diagnostics without those that are switched off
  (`step_under`). So two runs over the same files that differ in these settings alone document
  the same (`switches_only_hide`).
-/

namespace PuppetDocs

namespace Collected

variable {hide : Diagnostic → Bool}

/-- The same findings, with some of what there is to report hidden. -/
def without (hide : Diagnostic → Bool) (c : Collected) : Collected := { c with notes := c.notes.filter (!hide ·) }

theorem report_without (c : Collected) (ds : List Diagnostic) :
    (c.without hide).report (ds.filter (!hide ·)) = (c.report ds).without hide :=
  congrArg (Collected.mk c.registry) (List.filter_append _ _).symm

variable (shown : ∀ p : Problem, hide p.toDiagnostic = false)
include shown

theorem filter_problems (ps : List Problem) :
    (ps.map Problem.toDiagnostic).filter (!hide ·) = ps.map Problem.toDiagnostic := by
  simp [List.filter_eq_self, shown]

theorem report_problems_without (c : Collected) (ps : List Problem) :
    (c.without hide).report (ps.map Problem.toDiagnostic) = (c.report (ps.map Problem.toDiagnostic)).without hide := by
  rw [← report_without, filter_problems shown]

theorem add_without (c : Collected) (f : Finding) :
    (c.without hide).add (f.map (Noted.without hide)) = (c.add f).without hide := by
  cases f with
  | error p => exact report_problems_without shown c [p]
  | ok found =>
    have notes : (c.without hide).report (found.notes.filter (!hide ·)) = (c.report found.notes).without hide :=
      report_without c found.notes
    have keep : ((c.report found.notes).without hide).keep found.value =
        ((c.report found.notes).keep found.value).without hide :=
      report_problems_without shown { c.report found.notes with registry := (c.registry.record found.value).1 } _
    change ((c.without hide).report (found.notes.filter (!hide ·))).keep found.value = _
    rw [notes, keep]
    rfl

theorem foldl_add_without (fs : List Finding) (c : Collected) :
    (fs.map (Except.map (Noted.without hide))).foldl add (c.without hide) = (fs.foldl add c).without hide := by
  induction fs generalizing c with
  | nil => rfl
  | cons f fs ih => rw [List.map_cons, List.foldl_cons, add_without shown, ih, List.foldl_cons]

end Collected

theorem Registry.applyExtensions_notes (es : Entries) (xs : List TypeExtension) :
    ∀ d ∈ (applyExtensions es xs).2, ∃ x, d = undeclared x := by
  induction xs generalizing es with
  | nil => exact fun d hd => nomatch hd
  | cons x xs ih =>
    intro d hd
    unfold applyExtensions at hd
    by_cases declared : declares es x.typeName = true
    · rw [if_pos declared] at hd
      exact ih _ d hd
    · rw [if_neg declared] at hd
      rcases List.mem_cons.1 hd with rfl | hd
      · exact ⟨x, rfl⟩
      · exact ih _ d hd

theorem Settings.hides_skipped (s : Settings) (path : String) : s.hides (Run.skipped path) = false := by
  have code : (Run.skipped path).code = some Code.unsupportedFile.text := rfl
  rw [s.hides_eq code]
  rfl

theorem Settings.hides_unreadable (s : Settings) (path : String) (e : ReadError) :
    s.hides (Run.unreadable path e) = false := by
  have code : (Run.unreadable path e).code = some Code.io.text := rfl
  rw [s.hides_eq code]
  rfl

namespace Run

/-- A run with everything reported, as it is with these settings. -/
def under (s : Settings) (r : Run) : Run :=
  { r with settings := s, diagnostics := r.diagnostics.filter (!s.hides ·) }

theorem report_under (s : Settings) (r : Run) (ds : List Diagnostic) :
    (r.under s).report (ds.filter (!s.hides ·)) = (r.report ds).under s :=
  congrArg (Run.mk s r.registry) (List.filter_append _ _).symm

/-- A diagnostic with a code that no setting switches off. -/
theorem report_shown (s : Settings) (r : Run) {d : Diagnostic} (shown : s.hides d = false) :
    (r.under s).report [d] = (r.report [d]).under s := by
  rw [← report_under]
  simp [shown]

/-! ## One step -/

section Step

variable {s : Settings} {r : Run} (all : r.settings = s.loud)
include all

theorem addTree_under (tree : SyntaxTree) : (r.under s).addTree tree = (r.addTree tree).under s := by
  have findings : Context.findings { tree, settings := s } =
      (Context.findings { tree, settings := r.settings }).map (Except.map (Noted.without s.hides)) := by
    rw [all]
    exact (Context.hushed_findings { tree, settings := s }).symm
  have collected : Collected.ofFindings (Context.findings { tree, settings := s }) =
      (Collected.ofFindings (Context.findings { tree, settings := r.settings })).without s.hides := by
    rw [findings]
    exact Collected.foldl_add_without s.hides_problem _ {}
  unfold addTree
  rw [show (r.under s).settings = s from rfl, collected]
  generalize Collected.ofFindings (Context.findings { tree, settings := r.settings }) = c
  have reported := report_under s { r with registry := (r.registry.merge c.registry).1 }
    (c.notes ++ (r.registry.merge c.registry).2.map Problem.toDiagnostic)
  rw [List.filter_append, Collected.filter_problems s.hides_problem] at reported
  exact reported

theorem grammarFor_loud (path : String) : s.grammarFor path = r.settings.grammarFor path := by
  rw [all]
  rfl

theorem addSource_under (path text : String) :
    (r.under s).addSource path text = ((r.addSource path text).1.under s, (r.addSource path text).2) := by
  have grammar : (r.under s).settings.grammarFor path = r.settings.grammarFor path := grammarFor_loud all path
  unfold addSource
  rw [grammar]
  split
  · rw [report_shown s r (s.hides_skipped path)]
  · split
    · rw [addTree_under all]
    · next e _ =>
      dsimp only
      rw [report_shown s r (s.hides_problem (.badSyntax path e))]

theorem addFile_under (disk : Disk) (path : String) :
    (r.under s).addFile disk path = ((r.addFile disk path).1.under s, (r.addFile disk path).2) := by
  have grammar : (r.under s).settings.grammarFor path = r.settings.grammarFor path := grammarFor_loud all path
  unfold addFile
  rw [grammar]
  split
  · rw [report_shown s r (s.hides_skipped path)]
  · split
    · exact addSource_under all path _
    · rw [report_shown s r (s.hides_unreadable path _)]

omit all in
theorem finish_under : (r.under s).finish = r.finish.under s := by
  have shown : r.registry.finalize.2.filter (!s.hides ·) = r.registry.finalize.2 := by
    refine List.filter_eq_self.2 fun d hd => ?_
    obtain ⟨x, rfl⟩ := Registry.applyExtensions_notes _ _ d hd
    rw [Registry.undeclared, s.hides_warningAt]
    rfl
  have reported := report_under s { r with registry := r.registry.finalize.1 } r.registry.finalize.2
  rw [shown] at reported
  exact reported

theorem step_under (step : Step) : (r.under s).step step = ((r.step step).1.under s, (r.step step).2) := by
  cases step with
  | source f => exact addSource_under all f.path f.text
  | file disk path => exact addFile_under all disk path
  | parsed tree => exact congrArg (·, none) (addTree_under all tree)
  | finish => exact congrArg (·, none) finish_under

/-- A run with some of it switched off is the run with everything reported, but for the diagnostics that are switched
off: the registry and what each step gives are the same. -/
theorem steps_under (steps : List Step) :
    (r.under s).steps steps = ((r.steps steps).1.under s, (r.steps steps).2) := by
  induction steps generalizing r with
  | nil => rfl
  | cons step steps ih => simp only [Run.steps, step_under all, ih ((step_settings r step).trans all)]

end Step

end Run

/-! ## Two runs -/

/-- What is warned about, and whether in colors. -/
structure Switches where
  docs : Bool
  params : Bool
  colored : Bool

def Settings.switched (s : Settings) (w : Switches) : Settings :=
  { s with warnMissingDocs := w.docs, warnMissingParamDocs := w.params, coloredDiagnostics := w.colored }

/-- The run of these steps from the start, with the settings switched. -/
def Settings.run (s : Settings) (w : Switches) (steps : List Step) : Run × List (Option Problem) :=
  Run.steps { settings := s.switched w } steps

theorem Settings.run_eq (s : Settings) (w : Switches) (steps : List Step) :
    s.run w steps = ((Run.steps { settings := s.loud } steps).1.under (s.switched w),
      (Run.steps { settings := s.loud } steps).2) :=
  Run.steps_under (s := s.switched w) (r := { settings := s.loud }) rfl steps

/-- For settings that differ only in what they switch off, the steps of a run give the same registry, in every state and
when it is finished, and meet the same problems. With one of the switches off, what is reported is what is reported with
it on, in the same order, without the diagnostics of the one code it is about; colors are about none. -/
theorem switches_only_hide (s : Settings) (steps : List Step) :
    (∀ w w' : Switches, (s.run w steps).1.registry = (s.run w' steps).1.registry ∧ (s.run w steps).2 = (s.run w' steps).2) ∧
      ∀ w : Switches,
        (s.run { w with docs := false } steps).1.diagnostics =
            (s.run { w with docs := true } steps).1.diagnostics.filter (!·.hasCode .missingDocstring) ∧
          (s.run { w with params := false } steps).1.diagnostics =
            (s.run { w with params := true } steps).1.diagnostics.filter (!·.hasCode .missingParamDoc) ∧
          (s.run { w with colored := false } steps).1.diagnostics =
            (s.run { w with colored := true } steps).1.diagnostics := by
  refine ⟨fun w w' => by simp only [Settings.run_eq, Run.under, and_self], fun w => ⟨?_, ?_, ?_⟩⟩
  · simp only [Settings.run_eq, Run.under, List.filter_filter]
    refine List.filter_congr fun d _ => ?_
    simp [Settings.hides, Settings.switched]
  · simp only [Settings.run_eq, Run.under, List.filter_filter]
    refine List.filter_congr fun d _ => ?_
    simp [Settings.hides, Settings.switched, Bool.and_comm]
  · simp only [Settings.run_eq, Run.under]
    rfl

end PuppetDocs
