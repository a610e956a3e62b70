import PuppetDocs.Findings.ResourceType

/-
  PuppetDocs.Findings.ApiType — resource types of the Resource API.

  A single call declares such a type by its options: `name`, `docs`, `attributes` (a hash of
  hashes) and `features`. An attribute is a parameter if its `behaviour` is `namevar`,
  `parameter` or `init_only`, and a property otherwise. The allowed values are those of an
  `Enum[...]` type, also of one inside `Optional[...]`.
-/

namespace PuppetDocs

open Ruby Text

/-- What stands between `opener` and a square bracket at the end. -/
def insideBrackets? (opener : String) (text : List Char) : Option (List Char) :=
  (after? opener.toList text).bind (before? [']'])

def isQuote (c : Char) : Bool := c == '\'' || c == '"'

def enumValues (dataType : String) : List String :=
  let text := dataType.toList
  match insideBrackets? "Enum[" (trim ((insideBrackets? "Optional[" text).getD text)) with
  | none => []
  | some values =>
    let values := (splitBy (· = ',') values).map fun v => trimMatches isQuote (trim v)
    (values.filter (!·.isEmpty)).map String.ofList

namespace Context

/-- The option of a definition under either spelling of its name. -/
def behaviour? (definition : Node) : Option String :=
  ((definition.hashValue? "behaviour").orElse fun _ => definition.hashValue? "behavior").bind Node.symbolName?

def apiKind (behaviour : Option String) : AttributeKind :=
  if behaviour = some "namevar" ∨ behaviour = some "parameter" ∨ behaviour = some "init_only" then .parameter
  else .property

def apiAttribute (ctx : Context) (typeName : String) (key definition : Node) :
    Noted (AttributeKind × Attribute) := do
  let name := ctx.source key
  let behaviour := behaviour? definition
  let dataType := (definition.hashValue? "type").map ctx.source
  let subject := "attribute '" ++ name ++ "' of Puppet resource type '" ++ typeName ++ "'"
  let docstring ← ctx.docText (searchValue (definition.hashValue? "desc")) subject key.line
  return (apiKind behaviour, {
    name, docstring, dataType
    namevar := behaviour = some "namevar"
    default? := (definition.hashValue? "default").map ctx.source
    values := ((dataType.map enumValues).getD []).foldl addOnce [] })

/-- The attributes that the entries of a hash define. -/
def apiAttributes (ctx : Context) (typeName : String) (entries : List Node) :
    Noted (List (AttributeKind × Attribute)) := do
  let found ← entries.mapM fun entry =>
    match entry.kind with
    | .pair key value => do return [← ctx.apiAttribute typeName key value]
    | _ => do
      ctx.warn .malformedMetadata entry.line ("Skipping malformed attribute '" ++ ctx.slice entry ++ "'.")
      return []
  return found.flatten

def apiTypeName (ctx : Context) (statement : Node) (call : Call Node) : Except Problem String :=
  match call.option? "name" with
  | none => .error (ctx.undocumentable statement.line "Expected a 'name' option to 'register_type'")
  | some n =>
    match n.literal? with
    | some name => .ok name
    | none => .error (ctx.undocumentable statement.line
        ("Expected a symbol or string literal for the 'name' option but found '" ++ ctx.slice n ++ "'"))

def apiType (ctx : Context) (statement : Node) (call : Call Node) : Finding := do
  let name ← ctx.apiTypeName statement call
  return do
    let docstring ← ctx.docstring (searchValue (call.option? "docs")) (resourceTypeSubject name) statement.line
    let attributes ← match (call.option? "attributes").map Node.kind with
      | some (.hash entries) => ctx.apiAttributes name entries
      | some _ => do
        ctx.warn .malformedMetadata statement.line
          ("Expected a hash of attributes for " ++ resourceTypeSubject name ++ ".")
        pure []
      | none => pure []
    let declared : ResourceType := {
      name, docstring
      location := ctx.location statement.line
      features := (((call.option? "features").map ctx.sources).getD []).map fun name => { name } }
    return .object (.resourceType (attributes.foldl (fun t a => t.addAttribute a.1 a.2) declared))

end Context

end PuppetDocs
