import PuppetDocs.Proofs.Tree.Args
import PuppetDocs.Ruby.Grammar.Control
import PuppetDocs.Ruby.Grammar.Definitions

/-
  PuppetDocs.Proofs.Tree.Definitions — where control structures and definitions are laid.

  Each is one node from its keyword to what was read last; its parts are laid in the order in
  which they are read.
-/

namespace PuppetDocs.Ruby

open ParseM
open Text (byteLength)

section Definitions

variable {text : List Char} {self : Reader} (hself : Lays text self)
include hself

/-! ## Control structures -/

theorem reads_elseClause : Reads text (elseClause self) := by
  intro env s hl hs
  unfold elseClause
  refine (Got.start hs).pass (passes_eat _) fun found s' h => ?_
  split
  · refine h.next hl hself.statements fun body s' h => ?_
    exact gives_pure.mpr h
  · exact gives_pure.mpr h

theorem reads_conditional : Reads text (conditional self) := by
  intro env s hl hs
  unfold conditional
  rw [gives_bump]
  refine (Got.start hs).advance.next hl (hself .sentence) fun condition s' h => ?_
  refine h.pass (passes_eat _) fun _ s' h => ?_
  refine h.pass passes_skipTerminators fun _ s' h => ?_
  refine h.pass (passes_eat _) fun _ s' h => ?_
  refine h.next hl hself.statements fun body s' h => ?_
  refine h.next hl (hself .elsifs) fun elsifs s' h => ?_
  refine h.next hl (reads_elseClause hself) fun else_ s' h => ?_
  refine h.pass passes_needEnd fun _ s' h => ?_
  exact h.node hl (by simp [NodeKind.children]) nofun

theorem reads_elsifs : Reads text (readElsifs self) := by
  intro env s hl hs
  unfold readElsifs
  refine (Got.start hs).pass (passes_eat _) fun found s' h => ?_
  split
  · refine h.next hl (hself .sentence) fun condition s' h => ?_
    refine h.pass (passes_eat _) fun _ s' h => ?_
    refine h.next hl hself.statements fun body s' h => ?_
    refine h.next hl (hself .elsifs) fun more s' h => ?_
    exact gives_pure.mpr h
  · exact gives_pure.mpr h

theorem reads_whileLoop : Reads text (whileLoop self) := by
  intro env s hl hs
  unfold whileLoop
  rw [gives_bump]
  refine (Got.start hs).advance.next hl (Reads.withoutDo (hself .sentence)) fun condition s' h => ?_
  refine h.pass (passes_eat _) fun _ s' h => ?_
  refine h.next hl hself.statements fun body s' h => ?_
  refine h.pass passes_needEnd fun _ s' h => ?_
  exact h.node hl rfl nofun

theorem reads_forTargets : Reads text (readForTargets self) := by
  intro env s hl hs
  unfold readForTargets
  refine gives_look (looks_atAny _) fun closed => ?_
  split
  · exact gives_pure.mpr (Got.start hs)
  · refine (Got.start hs).next hl (hself .primary) fun n s' h => ?_
    refine h.pass (passes_eat _) fun _ s' h => ?_
    refine h.next hl (hself .forTargets) fun more s' h => ?_
    exact gives_pure.mpr h

theorem reads_forLoop : Reads text (forLoop self) := by
  intro env s hl hs
  unfold forLoop
  rw [gives_bump]
  refine (Got.start hs).advance.next hl (hself .forTargets) fun targets s' h => ?_
  refine h.pass (passes_need _ _) fun _ s' h => ?_
  refine h.next hl (Reads.withoutDo (hself .sentence)) fun range s' h => ?_
  refine h.pass (passes_eat _) fun _ s' h => ?_
  refine h.next hl hself.statements fun body s' h => ?_
  refine h.pass passes_needEnd fun _ s' h => ?_
  exact h.node hl (by simp [NodeKind.children]) nofun

theorem reads_whens : Reads text (readWhens self) := by
  intro env s hl hs
  unfold readWhens
  refine gives_look (looks_atAny _) fun found => ?_
  split
  · rw [gives_bump]
    refine (Got.start hs).advance.next hl (hself .arg) fun value s' h => ?_
    refine h.next hl (hself .moreArgs) fun values s' h => ?_
    refine h.pass (passes_eat _) fun _ s' h => ?_
    refine h.next hl hself.statements fun body s' h => ?_
    refine h.next hl (hself .whens) fun rest s' h => ?_
    refine gives_pure.mpr ?_
    simpa using h
  · exact gives_pure.mpr (Got.start hs)

theorem reads_caseOf : Reads text (caseOf self) := by
  intro env s hl hs
  unfold caseOf
  rw [gives_bump]
  refine gives_look (looks_atAny _) fun bare => ?_
  refine (Got.start hs).advance.next_ite hl (.nil rfl) (Reads.singleton (hself .sentence)) fun subject s' h => ?_
  refine h.pass passes_skipTerminators fun _ s' h => ?_
  refine h.next hl (hself .whens) fun whens s' h => ?_
  refine h.next hl (reads_elseClause hself) fun else_ s' h => ?_
  refine h.pass passes_needEnd fun _ s' h => ?_
  exact h.node hl (by simp [NodeKind.children]) nofun

theorem reads_beginBlock : Reads text (beginBlock self) := by
  intro env s hl hs
  unfold beginBlock
  rw [gives_bump]
  refine (Got.start hs).advance.next hl (hself .body) fun body s' h => ?_
  refine h.pass passes_needEnd fun _ s' h => ?_
  exact h.node hl rfl nofun

/-! ## Methods and lambdas -/

theorem reads_parenParams : Reads text (parenParams self) := by
  intro env s hl hs
  unfold parenParams
  rw [gives_bump]
  refine (Got.start hs).advance.next hl hself.params fun params s' h => ?_
  refine h.pass (passes_need _ _) fun _ s' h => ?_
  exact gives_pure.mpr h

theorem reads_lambda : Reads text (lambda self) := by
  intro env s hl hs
  unfold lambda
  rw [gives_bump]
  refine gives_look (looks_at _) fun paren => ?_
  refine (Got.start hs).advance.next_ite hl (reads_parenParams hself) hself.params fun params s' h => ?_
  refine h.pass (passes_eat _) fun keyword s' h => ?_
  split
  · refine h.next hl (Reads.nested (hself .body)) fun body s' h => ?_
    refine h.pass passes_needEnd fun _ s' h => ?_
    exact h.node hl rfl nofun
  · refine h.pass (passes_need _ _) fun _ s' h => ?_
    refine h.next hl hself.statements.nested fun body s' h => ?_
    refine h.pass (passes_need _ _) fun _ s' h => ?_
    exact h.node hl rfl nofun

theorem reads_methodParams : Reads text (methodParams self) := by
  intro env s hl hs
  unfold methodParams
  refine gives_look (looks_at _) fun paren => ?_
  split
  · exact reads_parenParams hself env s hl hs
  · refine gives_look (looks_atAny _) fun bare => ?_
    split
    · exact gives_pure.mpr (Got.start hs)
    · exact hself.params env s hl hs

omit hself in
theorem passes_singletonOwner : Passes text singletonOwner := by
  intro env s hs
  unfold singletonOwner
  refine gives_look (looks_atAny _) fun owner => ?_
  refine gives_look (looks_peekAt 1) fun t => ?_
  split
  · rw [gives_bump, gives_bump]
    exact gives_pure.mpr (hs.advance.trans hs.advance.sound.advance)
  · exact gives_pure.mpr (.refl hs)

omit hself in
theorem passes_definedName (start : Nat) : Passes text (definedName start) := by
  intro env s hs
  have hsetter : ∀ (name : String) s', s.Leads (byteLength text) s' → Gives (do
      let next ← peek
      if next.kind = .assign ∧ !next.spaced then
        if ← parenAt 1 then
          let _ ← bump
          return name ++ "="
        else return name
      else return name : P String) env s' fun _ s'' => s.Leads (byteLength text) s'' := by
    intro name s' h
    rw [gives_peek]
    split
    · refine gives_look (looks_parenAt 1) fun paren => ?_
      split
      · rw [gives_bump]
        exact gives_pure.mpr (h.trans h.sound.advance)
      · exact gives_pure.mpr h
    · exact gives_pure.mpr h
  unfold definedName
  rw [gives_bump]
  dsimp only
  split
  · refine (passes_need _ _ env _ hs.advance.sound).bind fun _ s' h => ?_
    exact gives_bind.mpr (gives_pure.mpr (hsetter _ s' (hs.advance.trans h)))
  · exact gives_bind.mpr gives_fail
  · exact gives_bind.mpr (gives_pure.mpr (hsetter _ _ hs.advance))

theorem reads_method : Reads text (method self) := by
  intro env s hl hs
  unfold method
  rw [gives_bump]
  refine (Got.start hs).advance.pass passes_singletonOwner fun singleton s' h => ?_
  refine h.pass (passes_definedName _) fun name s' h => ?_
  refine h.next hl (reads_methodParams hself) fun params s' h => ?_
  refine h.pass (passes_eat _) fun assigned s' h => ?_
  split
  · refine h.pass passes_skipNewlines fun _ s' h => ?_
    refine h.next hl (hself .statement) fun body s' h => ?_
    exact h.node hl rfl nofun
  · refine h.next hl (Reads.nested (hself .body)) fun body s' h => ?_
    refine h.pass passes_needEnd fun _ s' h => ?_
    exact h.node hl rfl nofun

/-! ## Classes and modules -/

theorem reads_classDefinition : Reads text (classDefinition self) := by
  intro env s hl hs
  unfold classDefinition
  rw [gives_bump, gives_peek]
  have h := (Got.start hs).advance
  split
  · rw [gives_bump]
    refine h.advance.next hl (hself .expr) fun target s' h => ?_
    refine h.next hl (Reads.nested (hself .body)) fun body s' h => ?_
    refine h.pass passes_needEnd fun _ s' h => ?_
    exact h.node hl rfl nofun
  · refine h.next hl (hself .unary) fun name s' h => ?_
    refine h.pass (passes_eat _) fun inherits s' h => ?_
    have hsuper : Reads text (some <$> self .expr) := fun env s hl hs => gives_map.mpr (hself .expr env s hl hs)
    refine h.next_ite hl hsuper (.nil rfl) fun superclass s' h => ?_
    refine h.next hl (Reads.nested (hself .body)) fun body s' h => ?_
    refine h.pass passes_needEnd fun _ s' h => ?_
    exact h.node hl rfl nofun

theorem reads_moduleDefinition : Reads text (moduleDefinition self) := by
  intro env s hl hs
  unfold moduleDefinition
  rw [gives_bump]
  refine (Got.start hs).advance.next hl (hself .unary) fun name s' h => ?_
  refine h.next hl (hself .body) fun body s' h => ?_
  refine h.pass passes_needEnd fun _ s' h => ?_
  exact h.node hl rfl nofun

end Definitions

end PuppetDocs.Ruby
