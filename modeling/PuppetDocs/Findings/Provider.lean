import PuppetDocs.Findings.Construct
import PuppetDocs.Findings.Context

/-
  PuppetDocs.Findings.Provider — providers.

  The statements of a provider's body say where it can be used, where it is the default, what
  it supports and which commands it runs. `confine`, `defaultfor` and `commands` take a mapping,
  written as a hash or as an array of pairs. An entry of another shape, any further argument
  and anything that is no mapping are noted and left out.
-/

namespace PuppetDocs

open Ruby

/-- The key and the value of an entry of a hash. -/
def Ruby.Node.pair? (entry : Node) : Option (Node × Node) :=
  match entry.kind with
  | .pair key value => some (key, value)
  | _ => none

/-- The key and the value of an entry of an array of pairs. -/
def Ruby.Node.arrayPair? (entry : Node) : Option (Node × Node) :=
  match entry.kind with
  | .array [key, value] => some (key, value)
  | _ => none

namespace Context

def malformed (ctx : Context) (line : Nat) (message : String) : Noted Unit :=
  ctx.warn .malformedMetadata line (ctx.placed message line)

/-- The bindings of the entries that `pair?` takes apart. -/
def bindings (ctx : Context) (method : String) (pair? : Node → Option (Node × Node)) (entries : List Node) :
    Noted (List Binding) := do
  let found ← entries.mapM fun entry =>
    match pair? entry with
    | some (key, value) => return [⟨ctx.source key, ctx.source value⟩]
    | none => do
      ctx.malformed entry.line ("Skipping malformed entry '" ++ ctx.slice entry ++ "' in '" ++ method ++ "'")
      return []
  return found.flatten

/-- The mapping that is the first argument of a call. -/
def mapping (ctx : Context) (statement : Node) (call : Call Node) : Noted (List Binding) :=
  match call.args with
  | [] => do
    ctx.malformed statement.line ("Expected a mapping argument to '" ++ call.method ++ "'")
    return []
  | first :: extra => do
    if !extra.isEmpty then
      ctx.malformed statement.line
        ("Ignoring " ++ toString extra.length ++ " extra argument(s) to '" ++ call.method ++ "'")
    match first.kind with
    | .hash entries => ctx.bindings call.method Node.pair? entries
    | .array entries => ctx.bindings call.method Node.arrayPair? entries
    | _ => do
      ctx.malformed statement.line ("Expected a hash or an array of pairs for '" ++ call.method ++
        "' but found '" ++ ctx.slice first ++ "'")
      return []

/-- What a statement in the body of a provider adds to it. -/
def providerStatement (ctx : Context) (p : Provider) (statement : Node) : Noted Provider :=
  match ProviderCall.ofNode? statement with
  | some (.confine call) => do
    return (← ctx.mapping statement call).foldl (fun p b => p.addConfine b.key b.value) p
  | some (.defaultFor call) => do
    return (← ctx.mapping statement call).foldl (fun p b => p.addDefault b.key b.value) p
  | some (.commands call) => do
    return (← ctx.mapping statement call).foldl (fun p b => p.addCommand b.key b.value) p
  | some (.features call) => return (call.args.flatMap ctx.sources).foldl .addFeature p
  | none => return p

def provider (ctx : Context) (statement : Node) (typeCall call : Call Node) : Finding := do
  let typeName ← ctx.resourceTypeName statement typeCall "provider"
  let name ← ctx.requiredName statement call
  return do
    let subject := "Puppet provider '" ++ name ++ "' (resource type '" ++ typeName ++ "')"
    let docstring ← ctx.docstring (searchBlock call) subject statement.line
    let p : Provider := { typeName, name, docstring, location := ctx.location statement.line }
    return .object (.provider (← call.blockStatements.foldlM ctx.providerStatement p))

end Context

end PuppetDocs
