import PuppetDocs.Proofs.Findings.Notes
import PuppetDocs.Proofs.Findings.Visits

/-
  PuppetDocs.Proofs.Findings.Outcomes — what becomes of each construct of a Ruby file.

  The statements of a file are inspected one after another, and each that is a construct has one
  of four outcomes (`Effect`): an object is registered; the object's key is taken and that is
  reported; an extension waits; or the construct cannot be documented, and a warning that says so
  is all that is left of it. The outcomes differ in how much longer they make the list of
  objects, the list of extensions and the list of duplicate names, so no two of them can be
  mistaken for each other (`Effect.unique`).
-/

namespace PuppetDocs

open Ruby

inductive Outcome where
  | registered | refused | extended | failed
  deriving DecidableEq, Repr

/-- How the construct of a statement changes what has been collected. -/
inductive Effect (path : String) (statement : Node) (before : Collected) : Outcome → Collected → Prop
  | registered {o : CodeObject} {notes : List Diagnostic} :
      o.location = ⟨path, statement.line⟩ → before.registry.contains o.key = false →
      (∀ d ∈ notes, Remark path statement.HasLine d) →
      Effect path statement before .registered
        { registry := { before.registry with entries := before.registry.entries ++ [(o.key, o)] }
          notes := before.notes ++ notes }
  | refused {o : CodeObject} {notes : List Diagnostic} :
      o.location = ⟨path, statement.line⟩ → before.registry.contains o.key = true →
      (∀ d ∈ notes, Remark path statement.HasLine d) →
      Effect path statement before .refused
        { registry := before.registry
          notes := before.notes ++ notes ++ [(Problem.duplicateName o.key path statement.line).toDiagnostic] }
  | extended {e : TypeExtension} {notes : List Diagnostic} :
      e.location = ⟨path, statement.line⟩ → (∀ d ∈ notes, Remark path statement.HasLine d) →
      Effect path statement before .extended
        { registry := { before.registry with extensions := before.registry.extensions ++ [e] }
          notes := before.notes ++ notes }
  | failed (message : String) :
      Effect path statement before .failed
        { registry := before.registry
          notes := before.notes ++ [(Problem.undocumentable message path statement.line).toDiagnostic] }

namespace Outcome

def objects : Outcome → Nat
  | registered => 1
  | _ => 0

def extensions : Outcome → Nat
  | extended => 1
  | _ => 0

def duplicates : Outcome → Nat
  | refused => 1
  | _ => 0

end Outcome

namespace Effect

variable {path : String} {statement : Node} {before after : Collected} {outcome outcome' : Outcome}

theorem countP_remarks {lines : Nat → Prop} {notes : List Diagnostic} (h : ∀ d ∈ notes, Remark path lines d) :
    notes.countP (·.hasCode .duplicateName) = 0 :=
  List.countP_eq_zero.mpr fun d hd => by simp [(h d hd).code]

/-- How many objects, extensions and reports of duplicate names an outcome adds. -/
theorem counts (h : Effect path statement before outcome after) :
    after.registry.entries.length = before.registry.entries.length + outcome.objects ∧
      after.registry.extensions.length = before.registry.extensions.length + outcome.extensions ∧
      after.notes.countP (·.hasCode .duplicateName) =
        before.notes.countP (·.hasCode .duplicateName) + outcome.duplicates := by
  cases h with
  | registered _ _ hnotes => simp [Outcome.objects, Outcome.extensions, Outcome.duplicates, countP_remarks hnotes]
  | refused _ _ hnotes =>
    have hduplicate : ∀ (key : ObjectKey) (line : Nat),
        (Problem.duplicateName key path line).toDiagnostic.hasCode .duplicateName = true := fun _ _ => rfl
    simp [Outcome.objects, Outcome.extensions, Outcome.duplicates, countP_remarks hnotes, hduplicate]
  | extended _ hnotes => simp [Outcome.objects, Outcome.extensions, Outcome.duplicates, countP_remarks hnotes]
  | failed message =>
    have hfailed : (Problem.undocumentable message path statement.line).toDiagnostic.hasCode .duplicateName = false :=
      hasCode_text .undocumentable rfl (by decide)
    simp [Outcome.objects, Outcome.extensions, Outcome.duplicates, hfailed]

/-- No two outcomes have the same effect. -/
theorem unique (h : Effect path statement before outcome after) (h' : Effect path statement before outcome' after) :
    outcome = outcome' := by
  obtain ⟨hobjects, hextensions, hduplicates⟩ := h.counts
  obtain ⟨hobjects', hextensions', hduplicates'⟩ := h'.counts
  have hsame : outcome.objects = outcome'.objects ∧ outcome.extensions = outcome'.extensions ∧
      outcome.duplicates = outcome'.duplicates := by omega
  revert hsame
  cases outcome <;> cases outcome' <;> decide

end Effect

/-! ## Findings one after another -/

namespace Context

/-- What has been collected of a file after the first `k` of its constructs. -/
def collected (ctx : Context) (k : Nat) : Collected := Collected.ofFindings (ctx.findings.take k)

theorem collected_all (ctx : Context) : ctx.collected ctx.findings.length = Collected.ofFindings ctx.findings := by
  rw [collected, List.take_length]

/-- The next finding is added to what has been collected. -/
theorem collected_succ (ctx : Context) {k : Nat} (hk : k < ctx.findings.length) :
    ctx.collected (k + 1) = (ctx.collected k).add ctx.findings[k] := by
  unfold collected Collected.ofFindings
  rw [List.take_succ_eq_append_getElem hk, List.foldl_append]
  rfl

/-- The finding of a construct has one of the outcomes. -/
theorem effect_add (ctx : Context) {statement : Node} {construct : Construct}
    (h : Construct.ofNode? statement = some construct) (before : Collected) :
    ∃ outcome, Effect ctx.tree.path statement before outcome (before.add (ctx.findingOf statement construct)) := by
  have hreads : ctx.Reads statement (·.location = ctx.location statement.line) (ctx.findingOf statement construct) :=
    reads_findingOf h
  cases hfinding : ctx.findingOf statement construct with
  | error p =>
    obtain ⟨message, rfl⟩ := hreads.fails p hfinding
    exact ⟨.failed, .failed (ctx.placed message statement.line)⟩
  | ok x =>
    have hremarks := hreads.remarks x hfinding
    have hlocation := hreads.value x hfinding
    obtain ⟨found, notes⟩ := x
    cases found with
    | extension e =>
      refine ⟨.extended, ?_⟩
      have hadd : before.add (.ok ⟨.extension e, notes⟩) =
          { registry := before.registry.addExtension e, notes := before.notes ++ notes ++ [] } := rfl
      rw [hadd, List.append_nil]
      exact .extended hlocation hremarks
    | object o =>
      by_cases hkey : before.registry.contains o.key = true
      · refine ⟨.refused, ?_⟩
        have hadd : before.add (.ok ⟨.object o, notes⟩) =
            { registry := before.registry
              notes := before.notes ++ notes ++ [(Registry.duplicate o).toDiagnostic] } := by
          simp [Collected.add, Collected.keep, Collected.report, Registry.record, Registry.register, hkey]
        have hduplicate : Registry.duplicate o = .duplicateName o.key ctx.tree.path statement.line := by
          have ho : o.location = ctx.location statement.line := hlocation
          rw [Registry.duplicate, ho]
          rfl
        rw [hadd, hduplicate]
        exact .refused hlocation hkey hremarks
      · refine ⟨.registered, ?_⟩
        have hadd : before.add (.ok ⟨.object o, notes⟩) =
            { registry := { before.registry with entries := before.registry.entries ++ [(o.key, o)] }
              notes := before.notes ++ notes } := by
          simp [Collected.add, Collected.keep, Collected.report, Registry.record, Registry.register, hkey]
        rw [hadd]
        exact .registered hlocation (by simpa using hkey) hremarks

end Context

/-- These places are those of the file that are reached, each once and in pre-order. -/
structure IsWalk (program : Node) (vs : List (Place × Node)) : Prop where
  reached : ∀ p x, (p, x) ∈ vs ↔ Visited program p x
  ordered : vs.Pairwise fun v w => v.1 < w.1
  there : ∀ v ∈ vs, program.at? v.1 = some v.2

theorem visits_isWalk (program : Node) : IsWalk program (visits program) where
  reached := fun _ _ => mem_visits
  ordered := visits_sorted program
  there := fun _ hv => (mem_visits.mp hv).at?

/-- The statements of a Ruby file are inspected in a walk of the places that are reached. Each that is a construct,
in its turn, registers one object, has one reported as a duplicate, adds one extension, or fails as undocumentable and
leaves that warning and nothing else; and it does only one of these. -/
theorem inspect_outcomes (settings : Settings) (path : String) (text : List Char) (comments : List Comment)
    (program : Node) :
    let ctx : Context := { tree := { path, text, root := .ruby program, comments }, settings }
    IsWalk program (visits program) ∧ (visits program).map Prod.snd = program.statements.flatMap inspected ∧
      constructs program = (visits program).filterMap (fun v => (Construct.ofNode? v.2).map (v.2, ·)) ∧
      ctx.collected 0 = {} ∧ ctx.collected (constructs program).length = Collected.ofFindings ctx.findings ∧
      ∀ i : Fin (constructs program).length,
        ∃! outcome, Effect path (constructs program)[i].1 (ctx.collected i) outcome (ctx.collected (i + 1)) := by
  intro ctx
  have hfindings : ctx.findings = (constructs program).map fun c => ctx.findingOf c.1 c.2 := rfl
  refine ⟨visits_isWalk program, visits_snd program, ?_, rfl, ?_, fun i => ?_⟩
  · unfold constructs
    rw [← visits_snd, List.filterMap_map]
    rfl
  · rw [← ctx.collected_all, hfindings, List.length_map]
  · have hnode : Construct.ofNode? (constructs program)[i].1 = some (constructs program)[i].2 :=
      ofNode?_of_mem_constructs (List.getElem_mem i.isLt)
    have hnext : ctx.collected (i + 1) =
        (ctx.collected i).add (ctx.findingOf (constructs program)[i].1 (constructs program)[i].2) := by
      rw [ctx.collected_succ (by simp [hfindings])]
      simp [hfindings]
    obtain ⟨outcome, heffect⟩ := ctx.effect_add hnode (ctx.collected i)
    rw [← hnext] at heffect
    exact ⟨outcome, heffect, fun _ h => h.unique heffect⟩

end PuppetDocs
