import PuppetDocs.Findings.Context
import PuppetDocs.Manifest.Definition

/-
  PuppetDocs.Findings.Manifest — what a manifest declares.

  Each definition is documented by the comments right above it, and each of its parameters by
  the first `@param` tag that names it. A parameter without a tag is noted if the settings ask
  for that, and a tag that names no parameter always is. Type aliases have no parameters.
-/

namespace PuppetDocs

open Manifest

def Manifest.DefinitionKind.noun : DefinitionKind → String
  | .class_ => "class"
  | .definedType => "defined type"
  | .function => "function"
  | .typeAlias => "type alias"
  | .plan => "plan"

namespace Context

def documentedParam (ctx : Context) (docstring : Docstring) (p : Parameter) : Noted PuppetParam := do
  let text := (docstring.param? p.name).map Tag.text
  if text.isNone && ctx.settings.warnMissingParamDocs then
    ctx.warn .missingParamDoc p.line
      ("Missing @param tag for parameter '" ++ p.name ++ "' near " ++ (ctx.location p.line).text ++ ".")
  return { name := p.name, type? := p.type?, default? := p.default?, docstring := text }

/-- A note for a tag whose subject is not among the parameters. -/
def unmatchedTag (ctx : Context) (d : Definition) (t : Tag) : Noted Unit :=
  match t.subject with
  | none => pure ()
  | some name =>
    if d.params.any (·.name == name) then pure ()
    else ctx.warn .unknownParamDoc d.line
      (ctx.placed ("The @param tag for parameter '" ++ name ++ "' has no matching parameter") d.line)

def documentedParams (ctx : Context) (d : Definition) (docstring : Docstring) : Noted (List PuppetParam) := do
  let params ← d.params.mapM (ctx.documentedParam docstring)
  docstring.params.forM (ctx.unmatchedTag d)
  return params

def manifestSignature (d : Definition) : Signature where
  params := d.params.map fun p =>
    { name := p.name, type := p.type?.getD "Any", isOptional := p.default?.isSome, isRepeated := p.capturesRest }
  returnType := some (d.returnType.getD "Any")

def definition (ctx : Context) (d : Definition) : Noted CodeObject := do
  let name := d.name
  let location := ctx.location d.line
  let docstring ← ctx.commentDocstring d.line ("Puppet " ++ d.kind.noun ++ " '" ++ name ++ "'")
  match d.kind with
  | .class_ =>
    return .class_ { name, location, docstring, parameters := ← ctx.documentedParams d docstring, parent := d.parent }
  | .definedType =>
    return .definedType { name, location, docstring, parameters := ← ctx.documentedParams d docstring }
  | .plan =>
    return .plan { name, location, docstring, parameters := ← ctx.documentedParams d docstring }
  | .function =>
    let _ ← ctx.documentedParams d docstring
    return .function { name, location, docstring, functionKind := .puppet, signatures := [manifestSignature d] }
  | .typeAlias =>
    return .dataTypeAlias { name, location, docstring, aliasOf := d.aliasedType.getD "" }

end Context

end PuppetDocs
