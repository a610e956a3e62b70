import PuppetDocs.Findings.Context

/-
  PuppetDocs.Findings.DataType — data types written in Ruby. The first `interface` in the block
  gives the interface.
-/

namespace PuppetDocs.Context

open Ruby

def isInterface (call : Call Node) : Bool := call.isFree && call.method == "interface"

def dataType (ctx : Context) (statement : Node) (call : Call Node) : Finding := do
  let name ← ctx.requiredName statement call
  return do
    let docstring ← ctx.commentDocstring statement.line ("Puppet data type '" ++ name ++ "'")
    let interface := (call.blockStatements.filterMap Node.call?).find? isInterface
    return .object (.dataType {
      name, docstring
      interface := (interface.bind (·.positional.head?)).map fun n => Text.trimString (ctx.source n)
      location := ctx.location statement.line })

end PuppetDocs.Context
