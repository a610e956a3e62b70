import PuppetDocs.Findings.ApiType
import PuppetDocs.Findings.DataType
import PuppetDocs.Findings.Function
import PuppetDocs.Findings.Inspect
import PuppetDocs.Findings.Manifest
import PuppetDocs.Findings.Provider
import PuppetDocs.Model.Registry

/-
  PuppetDocs.Findings.File — all findings of a file, collected in a registry of its own.

  Findings come in the order of the source. An object whose key the file has used before is
  reported and left out, right behind the notes about it.
-/

namespace PuppetDocs

open Ruby

namespace Context

def findingOf (ctx : Context) (statement : Node) : Construct → Finding
  | .resourceType call => ctx.resourceType statement call
  | .extension kind typeCall call => ctx.typeExtension statement kind typeCall call
  | .provider typeCall call => ctx.provider statement typeCall call
  | .function4x call => ctx.function4x statement call
  | .function3x call => ctx.function3x statement call
  | .dataType call => ctx.dataType statement call
  | .apiType call => ctx.apiType statement call

def findings (ctx : Context) : List Finding :=
  match ctx.tree.root with
  | .ruby program => (constructs program).map fun (statement, construct) => ctx.findingOf statement construct
  | .puppet definitions =>
    (Manifest.flattenAll definitions).map fun d => .ok (do return .object (← ctx.definition d))

end Context

/-- Takes over what was found. An object whose key is taken is left out, with the problem it is. -/
def Registry.record (r : Registry) : Found → Registry × List Problem
  | .object o =>
    match r.register o with
    | .ok r => (r, [])
    | .error p => (r, [p])
  | .extension e => (r.addExtension e, [])

/-- The findings of a file so far, and what there is to report about them. -/
structure Collected where
  registry : Registry := {}
  notes : List Diagnostic := []
  deriving DecidableEq, Repr

namespace Collected

def report (c : Collected) (ds : List Diagnostic) : Collected := { c with notes := c.notes ++ ds }

def keep (c : Collected) (found : Found) : Collected :=
  let (registry, problems) := c.registry.record found
  { c with registry }.report (problems.map Problem.toDiagnostic)

def add (c : Collected) : Finding → Collected
  | .ok found => (c.report found.notes).keep found.value
  | .error p => c.report [p.toDiagnostic]

def ofFindings (fs : List Finding) : Collected := fs.foldl add {}

end Collected

end PuppetDocs
