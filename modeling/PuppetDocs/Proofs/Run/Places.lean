import Mathlib.Data.List.Forall2
import PuppetDocs.Proofs.Findings.Notes
import PuppetDocs.Proofs.Findings.Visits
import PuppetDocs.Proofs.Manifest.Order
import PuppetDocs.Proofs.Registry.Merge
import PuppetDocs.Proofs.Text.Position

/-
  PuppetDocs.Proofs.Run.Places — where the objects and the diagnostics of a file stand.

  In either grammar declarations are met in the order in which they start, and a place further
  on is on no earlier line. So the findings of a file come with ascending offsets
  (`FoundInOrder`): each is placed on the line of its offset, and whatever is noted about it is
  on some line of the file. Registering and merging leave objects out but do not move any, and
  what they report is on the line of an object of the file (`addSource_places`).
-/

namespace PuppetDocs

namespace LineIndex

/-- The text has this line. -/
def Has (x : LineIndex) (line : Nat) : Prop := 1 ≤ line ∧ line ≤ x.lineCount

theorem has_line (text : List Char) (k : Nat) : (ofText text).Has ((ofText text).line k) :=
  ⟨line_pos text k, List.countP_le_length⟩

end LineIndex

/-! ## Places in a file -/

/-- A place in the file with this path and these lines. -/
structure Location.Within (path : String) (lines : LineIndex) (l : Location) : Prop where
  file : l.file = path
  line : lines.Has l.line

/-- The diagnostic is about a line of the file. -/
structure Diagnostic.Within (path : String) (lines : LineIndex) (d : Diagnostic) : Prop where
  file : d.file = some path
  line : ∃ line, d.line = some line ∧ lines.Has line

theorem Remark.within {path : String} {lines : LineIndex} {d : Diagnostic} (h : Remark path lines.Has d) :
    d.Within path lines := ⟨h.file, h.line⟩

theorem within_duplicate {path : String} {lines : LineIndex} {o : CodeObject} (h : o.location.Within path lines) :
    (Registry.duplicate o).toDiagnostic.Within path lines :=
  ⟨congrArg some h.file, ⟨o.location.line, rfl, h.line⟩⟩

theorem within_undeclared {path : String} {lines : LineIndex} {e : TypeExtension} (h : e.location.Within path lines) :
    (Registry.undeclared e).Within path lines :=
  ⟨congrArg some h.file, ⟨e.location.line, rfl, h.line⟩⟩

/-- What was found is placed on the line of the offset; what was noted, also instead of it, is on lines of the file. -/
structure FoundAt (path : String) (lines : LineIndex) (k : Nat) (f : Finding) : Prop where
  location : ∀ x, f = .ok x → x.value.location = ⟨path, lines.line k⟩
  notes : ∀ x, f = .ok x → ∀ d ∈ x.notes, d.Within path lines
  problem : ∀ p, f = .error p → p.toDiagnostic.Within path lines

/-- The findings come in the order of the text, at these offsets. -/
structure FoundInOrder (path : String) (lines : LineIndex) (ks : List Nat) (fs : List Finding) : Prop where
  sorted : ks.Pairwise (· ≤ ·)
  found : List.Forall₂ (FoundAt path lines) ks fs

theorem foundInOrder_map {β : Type} {path : String} {lines : LineIndex} {f : β → Nat} {g : β → Finding} {bs : List β}
    (hsorted : (bs.map f).Pairwise (· ≤ ·)) (hfound : ∀ b ∈ bs, FoundAt path lines (f b) (g b)) :
    FoundInOrder path lines (bs.map f) (bs.map g) := by
  refine ⟨hsorted, ?_⟩
  rw [List.forall₂_map_left_iff, List.forall₂_map_right_iff, List.forall₂_same]
  exact hfound

/-- Where the declarations of a file start, in the order in which they are met. -/
def SyntaxTree.declarationStarts (tree : SyntaxTree) : List Nat :=
  match tree.root with
  | .ruby program => (constructs program).map (·.1.span.start)
  | .puppet ds => (Manifest.flattenAll ds).map (·.span.start)

/-! ## Findings of a file -/

section Findings

open Ruby (Node)

variable {ctx : Context} {text : List Char}

/-- A construct is found at the start of its statement. -/
theorem foundAt_construct {statement : Node} {construct : Construct} (hconstruct : Construct.ofNode? statement = some construct)
    (hlines : ∀ n ∈ statement.preorder, n.line = (LineIndex.ofText text).line n.span.start) :
    FoundAt ctx.tree.path (.ofText text) statement.span.start (ctx.findingOf statement construct) := by
  have hreads : ctx.Reads statement (·.location = ctx.location statement.line) (ctx.findingOf statement construct) :=
    Context.reads_findingOf hconstruct
  have hhas : ∀ l, statement.HasLine l → (LineIndex.ofText text).Has l := by
    rintro l ⟨n, hn, rfl⟩
    rw [hlines n hn]
    exact LineIndex.has_line text _
  refine ⟨fun x hx => ?_, fun x hx d hd => ((hreads.remarks x hx d hd).mono hhas).within, fun p hp => ?_⟩
  · rw [hreads.value x hx, Context.location, hlines statement statement.mem_preorder]
  · obtain ⟨message, rfl⟩ := hreads.fails p hp
    exact (remark_undocumentable ctx (hhas _ statement.hasLine) message).within

theorem ruby_foundInOrder (ctx : Context) {program : Node} {comments : List Comment} (h : Ruby.parse text = .ok (program, comments))
    (hroot : ctx.tree.root = .ruby program) :
    FoundInOrder ctx.tree.path (.ofText text) ctx.tree.declarationStarts ctx.findings := by
  obtain ⟨lo, hi, e, hlaid⟩ := Ruby.parse_laid h
  have hfindings : ctx.findings = (constructs program).map fun c => ctx.findingOf c.1 c.2 := by
    unfold Context.findings
    rw [hroot]
  have hsublist := constructs_sublist program
  rw [hfindings, SyntaxTree.declarationStarts, hroot]
  refine foundInOrder_map (f := fun c : Node × Construct => c.1.span.start) ?_ fun c hc => ?_
  · have hsorted : (program.preorder.map (·.span.start)).Pairwise (· ≤ ·) := by simpa [Ruby.starts] using hlaid.sorted
    have hstarts := hsublist.map (·.span.start)
    rw [List.map_map] at hstarts
    exact hsorted.sublist hstarts
  · refine foundAt_construct (ofNode?_of_mem_constructs hc) fun n hn => ?_
    have hstatement : c.1 ∈ program.preorder := hsublist.subset (List.mem_map_of_mem hc)
    exact (hlaid.inPlace program List.mem_cons_self n (Node.preorder_trans hstatement hn)).line

/-- A definition is found at its start. -/
theorem foundAt_definition {d : Manifest.Definition} (hd : d.Lined (.ofText text)) :
    FoundAt ctx.tree.path (.ofText text) d.span.start (.ok (do return .object (← ctx.definition d))) := by
  have hhas : ∀ l, (∃ k, l = (LineIndex.ofText text).line k) → (LineIndex.ofText text).Has l := by
    rintro l ⟨k, rfl⟩
    exact LineIndex.has_line text k
  have hremarks : (ctx.definition d).Remarks ctx.tree.path (LineIndex.ofText text).Has :=
    Context.remarks_definition (hhas _ ⟨_, hd.line⟩) fun p hp => hhas _ (hd.params p hp)
  refine ⟨fun x hx => ?_, fun x hx n hn => ?_, fun p hp => nomatch hp⟩
  · cases hx
    rw [← hd.line]
    exact Context.definition_location ctx d
  · cases hx
    exact ((hremarks.bind fun o => Noted.remarks_pure (Found.object o)) n hn).within

theorem manifest_foundInOrder (ctx : Context) {ds : List Manifest.Definition} {comments : List Comment}
    (h : Manifest.parse text = .ok (ds, comments)) (hroot : ctx.tree.root = .puppet ds) :
    FoundInOrder ctx.tree.path (.ofText text) ctx.tree.declarationStarts ctx.findings := by
  obtain ⟨lo, hi, hplaced⟩ := Manifest.parse_placed h
  have hfindings : ctx.findings =
      (Manifest.flattenAll ds).map fun d => .ok (do return .object (← ctx.definition d)) := by
    unfold Context.findings
    rw [hroot]
  rw [hfindings, SyntaxTree.declarationStarts, hroot]
  exact foundInOrder_map hplaced.sorted fun d hd => foundAt_definition (hplaced.lined d hd)

/-- The findings of a file that is parsed come in the order of its text. -/
theorem findings_inOrder {path text : String} {grammar : Grammar} {tree : SyntaxTree}
    (h : SyntaxTree.parse path text grammar = .ok tree) (settings : Settings) :
    FoundInOrder path (.ofText text.toList) tree.declarationStarts (Context.findings { tree, settings }) := by
  cases grammar with
  | ruby =>
    simp only [SyntaxTree.parse, bind, Except.bind, pure, Except.pure] at h
    cases hparse : Ruby.parse text.toList with
    | error e => simp [hparse] at h
    | ok parsed =>
      simp only [hparse, Except.ok.injEq] at h
      subst h
      exact ruby_foundInOrder { tree := ⟨path, text.toList, .ruby parsed.1, parsed.2⟩, settings } hparse rfl
  | puppet =>
    simp only [SyntaxTree.parse, bind, Except.bind, pure, Except.pure] at h
    cases hparse : Manifest.parse text.toList with
    | error e => simp [hparse] at h
    | ok parsed =>
      simp only [hparse, Except.ok.injEq] at h
      subst h
      exact manifest_foundInOrder { tree := ⟨path, text.toList, .puppet parsed.1, parsed.2⟩, settings } hparse rfl

end Findings

/-! ## Objects and diagnostics of a file -/

namespace Registry

theorem kept_sublist (taken : List ObjectKey) (os : List CodeObject) : (kept taken os).Sublist os := by
  induction os generalizing taken with
  | nil => exact List.Sublist.refl _
  | cons o os ih =>
    rw [kept]
    split
    · exact (ih taken).cons o
    · exact (ih _).cons_cons o

theorem rejected_subset (taken : List ObjectKey) (os : List CodeObject) : rejected taken os ⊆ os := by
  induction os generalizing taken with
  | nil => exact List.nil_subset _
  | cons o os ih =>
    rw [rejected]
    split
    · exact List.cons_subset_cons o (ih taken)
    · exact List.subset_cons_of_subset o (ih _)

theorem objectsOf_sublist (fs : List Found) : ((objectsOf fs).map CodeObject.location).Sublist (fs.map Found.location) := by
  refine picked_sublist (fun x o h => ?_) fs
  cases x with
  | object o' =>
    cases h
    rfl
  | extension e => cases h

theorem extensionsOf_sublist (fs : List Found) :
    ((extensionsOf fs).map TypeExtension.location).Sublist (fs.map Found.location) := by
  refine picked_sublist (fun x e h => ?_) fs
  cases x with
  | object o => cases h
  | extension e' =>
    cases h
    rfl

end Registry

open Registry

/-- The values of findings. -/
def foundValues (fs : List Finding) : List Found := fs.filterMap fun f => f.toOption.map Noted.value

section Order

variable {path : String} {text : List Char} {lines : LineIndex} {ks : List Nat} {fs : List Finding}

/-- What is found is placed on the lines of some of the offsets, in their order. -/
theorem values_sublist (h : List.Forall₂ (FoundAt path lines) ks fs) :
    ((foundValues fs).map Found.location).Sublist (ks.map fun k => ⟨path, lines.line k⟩) := by
  induction h with
  | nil => exact List.Sublist.refl _
  | @cons k f ks fs hf _ ih =>
    cases f with
    | error p => exact ih.cons _
    | ok x =>
      have hvalue : (foundValues (.ok x :: fs)).map Found.location =
          ⟨path, lines.line k⟩ :: (foundValues fs).map Found.location :=
        congrArg (· :: (foundValues fs).map Found.location) (hf.location x rfl)
      rw [hvalue]
      exact ih.cons_cons _

theorem record_problems {r : Registry} {x : Found} {p : Problem} (h : p ∈ (r.record x).2) :
    ∃ o, x = .object o ∧ p = duplicate o := by
  cases x with
  | extension e => cases h
  | object o =>
    refine ⟨o, rfl, ?_⟩
    by_cases hkey : o.key ∈ r.keys
    · rw [record, register_taken hkey] at h
      exact List.mem_singleton.mp h
    · rw [record, register_free hkey] at h
      cases h

/-- The registry of a file holds what its findings are, the first under each key. -/
theorem collected_registry (fs : List Finding) :
    (Collected.ofFindings fs).registry =
      ⟨(kept [] (objectsOf (foundValues fs))).map keyed, extensionsOf (foundValues fs)⟩ := by
  rw [ofFindings_registry, fill_eq]
  rfl

/-- What is reported while findings are collected is about lines of the file. -/
theorem collected_within (h : List.Forall₂ (FoundAt path lines) ks fs) (hlines : ∀ k, lines.Has (lines.line k)) :
    ∀ d ∈ (Collected.ofFindings fs).notes, d.Within path lines := by
  have hfold : ∀ c : Collected, (∀ d ∈ c.notes, d.Within path lines) →
      ∀ d ∈ (fs.foldl Collected.add c).notes, d.Within path lines := by
    induction h with
    | nil => exact fun c hc => hc
    | @cons k f ks fs hf _ ih =>
      intro c hc
      rw [List.foldl_cons]
      refine ih _ fun d hd => ?_
      cases f with
      | error p =>
        rcases List.mem_append.mp hd with hd | hd
        · exact hc d hd
        · rw [List.mem_singleton.mp hd]
          exact hf.problem p rfl
      | ok x =>
        rcases List.mem_append.mp hd with hd | hd
        · rcases List.mem_append.mp hd with hd | hd
          · exact hc d hd
          · exact hf.notes x rfl d hd
        · obtain ⟨p, hp, rfl⟩ := List.mem_map.mp hd
          obtain ⟨o, ho, rfl⟩ := record_problems hp
          have hplace := hf.location x rfl
          rw [ho] at hplace
          have hwithin : (Found.object o).location.Within path lines := hplace ▸ ⟨rfl, hlines k⟩
          exact within_duplicate hwithin
  exact hfold {} fun d hd => nomatch hd

/-- What a file with these lines adds to a run, if its declarations start at these offsets. -/
structure Additions (path : String) (lines : LineIndex) (ks : List Nat) (added : Entries) (waiting : List TypeExtension)
    (reported : List Diagnostic) : Prop where
  /-- The objects are placed where some of the declarations are, in the order of the declarations. -/
  declared : (added.map (·.2.location)).Sublist (ks.map fun k => ⟨path, lines.line k⟩)
  ascending : (added.map (·.2.location.line)).Pairwise (· ≤ ·)
  objects : ∀ e ∈ added, e.2.location.Within path lines
  /-- An extension that waits is in the file, and so is what the end of the run may say about it. -/
  extensions : ∀ e ∈ waiting, e.location.Within path lines ∧ (undeclared e).Within path lines
  diagnostics : ∀ d ∈ reported, d.Within path lines

theorem FoundInOrder.additions (h : FoundInOrder path (.ofText text) ks fs) (taken : List ObjectKey) :
    Additions path (.ofText text) ks ((kept taken (objectsOf (foundValues fs))).map keyed) (extensionsOf (foundValues fs))
      ((Collected.ofFindings fs).notes ++
        ((rejected taken (Collected.ofFindings fs).registry.objects).map duplicate).map Problem.toDiagnostic) := by
  have hvalues := values_sublist h.found
  have hobjects := (objectsOf_sublist (foundValues fs)).trans hvalues
  have hplace : ∀ l ∈ ks.map fun k => Location.mk path ((LineIndex.ofText text).line k), l.Within path (.ofText text) := by
    intro l hl
    obtain ⟨k, -, rfl⟩ := List.mem_map.mp hl
    exact ⟨rfl, LineIndex.has_line text k⟩
  have hdeclared : (((kept taken (objectsOf (foundValues fs))).map keyed).map (·.2.location)).Sublist
      (ks.map fun k => ⟨path, (LineIndex.ofText text).line k⟩) := by
    rw [List.map_map]
    exact ((kept_sublist taken _).map CodeObject.location).trans hobjects
  refine ⟨hdeclared, ?_, ?_, ?_, ?_⟩
  · have hlines := hdeclared.map Location.line
    simp only [List.map_map, Function.comp_def] at hlines ⊢
    refine List.Pairwise.sublist hlines (List.pairwise_map.mpr ?_)
    exact h.sorted.imp fun hle => LineIndex.line_mono _ hle
  · intro e he
    exact hplace _ (hdeclared.subset (List.mem_map_of_mem he))
  · intro e he
    have hwithin := hplace _ (((extensionsOf_sublist (foundValues fs)).trans hvalues).subset (List.mem_map_of_mem he))
    exact ⟨hwithin, within_undeclared hwithin⟩
  · intro d hd
    rcases List.mem_append.mp hd with hd | hd
    · exact collected_within h.found (LineIndex.has_line text) d hd
    · obtain ⟨p, hp, rfl⟩ := List.mem_map.mp hd
      obtain ⟨o, ho, rfl⟩ := List.mem_map.mp hp
      have hown := rejected_subset taken _ ho
      rw [collected_registry, objects_keyed] at hown
      have hfound : o ∈ objectsOf (foundValues fs) := (kept_sublist [] _).subset hown
      exact within_duplicate (hplace _ (hobjects.subset (List.mem_map_of_mem hfound)))

end Order

/-- A file that is parsed adds its objects in the order of its declarations, which is that of its text, on lines that do
not decrease. All objects, all extensions and all that is reported are on lines of the file, under its path. -/
theorem addSource_places (r : Run) {path text : String} {grammar : Grammar} {tree : SyntaxTree}
    (hgrammar : r.settings.grammarFor path = some grammar) (hparse : SyntaxTree.parse path text grammar = .ok tree) :
    tree.declarationStarts.Pairwise (· ≤ ·) ∧
      ∃ added waiting reported,
        Additions path (.ofText text.toList) tree.declarationStarts added waiting reported ∧
        (r.addSource path text).1 =
          { settings := r.settings
            registry := ⟨r.registry.entries ++ added, r.registry.extensions ++ waiting⟩
            diagnostics := r.diagnostics ++ reported } := by
  have hfound := findings_inOrder hparse r.settings
  refine ⟨hfound.sorted, _, _, _, hfound.additions r.registry.keys, ?_⟩
  have hadd : (r.addSource path text).1 = r.addTree tree := by
    unfold Run.addSource
    simp only [hgrammar, hparse]
  rw [hadd]
  -- The first under each key of the file and then of the run is the first that is new to the run.
  simp only [Run.addTree, Run.report, merge_eq, collected_registry, objects_keyed, kept_kept (List.nil_subset _)]

/-- A class with another one inside it. -/
def nestedClasses : String := "class a \x7b\n  class b \x7b\x7d\n\x7d\n"

theorem addSource_places_nested :
    ∃ tree, SyntaxTree.parse "a.pp" nestedClasses .puppet = .ok tree ∧ tree.declarationStarts = [0, 12] ∧
      ∃ added waiting reported,
        Additions "a.pp" (.ofText nestedClasses.toList) [0, 12] added waiting reported ∧
        (Run.addSource {} "a.pp" nestedClasses).1.registry.entries = added := by
  have hparse : (SyntaxTree.parse "a.pp" nestedClasses .puppet).toOption.map SyntaxTree.declarationStarts = some [0, 12] := by
    decide +kernel
  cases htree : SyntaxTree.parse "a.pp" nestedClasses .puppet with
  | error e =>
    rw [htree] at hparse
    cases hparse
  | ok tree =>
    rw [htree] at hparse
    have hstarts : tree.declarationStarts = [0, 12] := Option.some.inj hparse
    obtain ⟨-, added, waiting, reported, hadditions, hrun⟩ := addSource_places {} (by decide +kernel) htree
    refine ⟨tree, rfl, hstarts, added, waiting, reported, hstarts ▸ hadditions, ?_⟩
    rw [hrun]
    exact List.nil_append added

end PuppetDocs
