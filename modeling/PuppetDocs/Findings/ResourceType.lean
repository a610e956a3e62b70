import PuppetDocs.Findings.Construct
import PuppetDocs.Findings.Context

/-
  PuppetDocs.Findings.ResourceType — resource types, and attributes added to them elsewhere.

  The body of a type declares, statement by statement, parameters, properties and features, and
  with `ensurable` the property `ensure`. The last `ensurable` counts, in its place among the
  properties; a property declared under the name `ensure` overrides it wherever it stands. A
  statement without a literal name is reported and left out. The documentation of the type
  itself is not looked for inside the statements that declare attributes.
-/

namespace PuppetDocs

open Ruby

namespace Context

/-! ## Attributes -/

def attributeSubject (kind : AttributeKind) (name typeName : String) : String :=
  "Puppet resource " ++ kind.name ++ " '" ++ name ++ "' of type '" ++ typeName ++ "'"

/-- The default that a call of `defaultto` gives: its argument, or else the source of its block. -/
def defaultOf (ctx : Context) (call : Call Node) : Option String :=
  let text := match call.args.head?, call.block with
    | some value, _ => ctx.source value
    | none, some block => Text.trimString (ctx.slice block.body)
    | none, none => ""
  if text.isEmpty then none else some text

/-- What a statement in the body of an attribute adds to it. -/
def attributeStatement (ctx : Context) (a : Attribute) (statement : Node) : Noted Attribute :=
  if statement.bareWord? = some "isnamevar" then return { a with namevar := true }
  else match statement.call?.filter (·.isFree) with
    | none => return a
    | some call =>
      match call.method with
      | "newvalues" => return (call.positional.flatMap ctx.sources).foldl .addValue a
      | "newvalue" => return (call.positional.head?.map ctx.source).toList.foldl .addValue a
      | "aliasvalue" =>
        match call.positional with
        | [name, target] => return a.addAlias (ctx.source name) (ctx.source target)
        | _ => do
          ctx.warn .malformedMetadata statement.line
            ("Expected two parameters to 'aliasvalue' for attribute '" ++ a.name ++ "'.")
          return a
      | "defaultto" => return { a with default? := ctx.defaultOf call }
      | "isnamevar" => return { a with namevar := true }
      | _ => return a

def attributeBody (ctx : Context) (a : Attribute) (statements : List Node) : Noted Attribute :=
  statements.foldlM ctx.attributeStatement a

def isBoolean (call : Call Node) : Bool :=
  (call.option? "boolean").any Node.isTrue ||
    (call.option? "parent").bind Node.constPath? == some "Puppet::Parameter::Boolean"

def declaredAttribute (ctx : Context) (statement : Node) (call : Call Node) (kind : AttributeKind) (typeName : String) :
    Except Problem (Noted Attribute) := do
  let name ← ctx.requiredName statement call
  return do
    let docstring ← ctx.docText (searchBlock call) (attributeSubject kind name typeName) statement.line
    let a : Attribute := {
      name, docstring
      namevar := (call.option? "namevar").any Node.isTrue
      requiredFeatures := (call.option? "required_features").map fun n => ", ".intercalate (ctx.sources n)
      values := if isBoolean call then ["true", "false"] else [] }
    ctx.attributeBody a call.blockStatements

/-! ## The property `ensure` -/

def ensureDoc : String := "The basic property that the resource should be in."

def addPresence (a : Attribute) : Attribute :=
  { (a.addValue "present").addValue "absent" with default? := some (a.default?.getD "present") }

def isDefaultValues (statement : Node) : Bool :=
  statement.bareWord? == some "defaultvalues" ||
    statement.call?.any fun call => call.isFree && call.method == "defaultvalues"

def ensure (ctx : Context) (call : Option (Call Node)) (typeName : String) : Noted Attribute :=
  match call.bind Call.block with
  | none => return addPresence { name := "ensure", docstring := ensureDoc }
  | some block => do
    let docstring ← match findDocstring block.body with
      | .notFound => pure ensureDoc
      | search => ctx.docText search (attributeSubject .property "ensure" typeName) block.line
    let a ← ctx.attributeBody { name := "ensure", docstring } block.body.statements
    return if block.body.statements.any isDefaultValues || a.values.isEmpty then addPresence a else a

def feature (ctx : Context) (statement : Node) (call : Call Node) : Except Problem (Noted Feature) := do
  let name ← ctx.requiredName statement call
  return do
    let docstring ← match call.positional[1]? with
      | some value => ctx.docText (.ofValue value) ("feature '" ++ name ++ "'") statement.line
      | none => pure ""
    return { name, docstring, methods := ((call.option? "methods").map ctx.sources).getD [] }

end Context

/-! ## Bodies -/

inductive TypeItem where
  | parameter (a : Attribute)
  | property (a : Attribute)
  | ensure (a : Attribute)
  | feature (f : Feature)

/-- A resource type whose body is read: what it has so far, and the last `ensurable` with the number of properties that
are declared in front of it. -/
structure OpenType where
  type : ResourceType
  ensure? : Option (Nat × Attribute) := none

namespace OpenType

def add (t : OpenType) : TypeItem → OpenType
  | .parameter a => { t with type := t.type.addAttribute .parameter a }
  | .property a => { t with type := t.type.addAttribute .property a }
  | .ensure a => { t with ensure? := some (t.type.properties.length, a) }
  | .feature f => { t with type := t.type.addFeature f }

/-- The type at the end of its body, with the property of `ensurable` unless one of this name is declared. -/
def close (t : OpenType) : ResourceType :=
  match t.ensure? with
  | none => t.type
  | some (index, a) =>
    if (t.type.property? "ensure").isSome then t.type
    else { t.type with properties := t.type.properties.insertIdx (min index t.type.properties.length) a }

variable {γ : Type} (field : ResourceType → γ)

theorem add_keeps (hfield : ∀ t parameters properties features, field { t with parameters, properties, features } = field t)
    (t : OpenType) (item : TypeItem) : field (t.add item).type = field t.type := by
  cases item
  case ensure => rfl
  all_goals exact hfield t.type _ _ _

theorem close_keeps (hfield : ∀ t properties, field { t with properties } = field t) (t : OpenType) :
    field t.close = field t.type := by
  unfold close
  split
  · rfl
  · split
    · rfl
    · exact hfield t.type _

end OpenType

namespace Context

def typeItem (ctx : Context) (typeName : String) (statement : Node) : Noted (Option TypeItem) :=
  match AttributeCall.ofNode? statement with
  | some (.declare .parameter call) => do
    return (← .ofResult (ctx.declaredAttribute statement call .parameter typeName)).map .parameter
  | some (.declare .property call) => do
    return (← .ofResult (ctx.declaredAttribute statement call .property typeName)).map .property
  | some (.ensurable call) => do return some (.ensure (← ctx.ensure call typeName))
  | some (.feature call) => do return (← .ofResult (ctx.feature statement call)).map .feature
  | none => return none

def typeStatement (ctx : Context) (typeName : String) (t : OpenType) (statement : Node) : Noted OpenType := do
  match ← ctx.typeItem typeName statement with
  | some item => return t.add item
  | none => return t

/-- Declarations whose blocks document something else than the type. -/
def documentsOther (n : Node) : Bool :=
  n.call?.any fun call => call.isFree &&
    ["newparam", "newproperty", "newcheck", "newmetaparam", "ensurable"].contains call.method

def resourceTypeSubject (name : String) : String := "Puppet resource type '" ++ name ++ "'"

def resourceType (ctx : Context) (statement : Node) (call : Call Node) : Finding := do
  let name ← ctx.requiredName statement call
  return do
    let search := match call.block with
      | some block => findDocstringPruned block.body documentsOther
      | none => .notFound
    let docstring ← ctx.docstring search (resourceTypeSubject name) statement.line
    let declared : ResourceType := { name, docstring, location := ctx.location statement.line }
    let t ← call.blockStatements.foldlM (ctx.typeStatement name) { type := declared }
    return .object (.resourceType t.close)

def typeExtension (ctx : Context) (statement : Node) (kind : AttributeKind) (typeCall call : Call Node) : Finding := do
  let typeName ← ctx.resourceTypeName statement typeCall kind.name
  let declared ← ctx.declaredAttribute statement call kind typeName
  return do
    return .extension { typeName, kind, declared := ← declared, location := ctx.location statement.line }

end Context

end PuppetDocs
