import PuppetDocs.Model.Object
import PuppetDocs.Report.Problem

/-
  PuppetDocs.Findings.Noted — what is found in a source, and what is noted on the way.

  Reading a declaration gives a value and notes about what is missing or malformed in it, in
  the order in which they come up. A finding is an object, or an attribute for a type declared
  elsewhere; a declaration that cannot be documented leaves a problem instead, and no notes.
-/

namespace PuppetDocs

structure Noted (α : Type) where
  value : α
  notes : List Diagnostic

namespace Noted

instance : Monad Noted where
  pure a := ⟨a, []⟩
  bind x f :=
    let y := f x.value
    ⟨y.value, x.notes ++ y.notes⟩

def note (d : Diagnostic) : Noted Unit := ⟨(), [d]⟩

/-- The value, or a note of why there is none. -/
def ofResult {α : Type} : Except Problem (Noted α) → Noted (Option α)
  | .ok x => some <$> x
  | .error p => do
    note p.toDiagnostic
    return none

end Noted

inductive Found where
  | object (o : CodeObject)
  | extension (e : TypeExtension)

abbrev Finding := Except Problem (Noted Found)

end PuppetDocs
