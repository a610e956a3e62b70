import PuppetDocs.Json.Record
import PuppetDocs.Model.Object

/-
  PuppetDocs.Model.Json — the JSON form of documented objects, written and read.

  Each type has a writer `toJson` and a reader `ofJson?`. The fields of a record are written in
  the order in which the writer lists them; a reader names the place of each field for records
  written as arrays. An object has its kind in front of its own fields.
-/

namespace PuppetDocs

open Json

/-! ## Docstrings -/

def Tag.toJson (t : Tag) : Json :=
  .object ([("name", .string t.name)] ++ optionalField .string "text" t.text? ++
    optionalField .string "subject" t.subject ++ optionalField ofStrings "types" t.types)

def Tag.ofJson? (j : Json) : Option Tag := do
  let r ← j.record? 4
  return {
    name := ← r.required asString? 0 "name"
    text? := ← r.optional asString? 1 "text"
    subject := ← r.optional asString? 2 "subject"
    types := ← r.optional (asList? asString?) 3 "types" }

def Docstring.toJson (d : Docstring) : Json :=
  .object ([("text", .string d.text)] ++ listField Tag.toJson "tags" d.tags)

def Docstring.ofJson? (j : Json) : Option Docstring := do
  let r ← j.record? 2
  return {
    text := ← r.required asString? 0 "text"
    tags := ← r.orElse (asList? Tag.ofJson?) [] 1 "tags" }

def Location.toJson (l : Location) : Json := .object [("file", .string l.file), ("line", .ofNat l.line)]

def Location.ofJson? (j : Json) : Option Location := do
  let r ← j.record? 2
  return { file := ← r.required asString? 0 "file", line := ← r.required asNat? 1 "line" }

/-! ## Attributes and parameters -/

def Dictionary.toJson (d : Dictionary) : Json := .object (d.entries.map fun e => (e.1, .string e.2))

def Dictionary.ofJson? : Json → Option Dictionary
  | .object fields => do
    let entries ← fields.mapM fun f => f.2.asString?.map (f.1, ·)
    return .ofList entries
  | _ => none

def AttributeKind.ofName? : String → Option AttributeKind
  | "parameter" => some .parameter
  | "property" => some .property
  | _ => none

def AttributeKind.ofJson? (j : Json) : Option AttributeKind := j.asChoice?.bind ofName?

def Attribute.toJson (a : Attribute) : Json :=
  .object ([("name", .string a.name), ("docstring", .string a.docstring), ("isnamevar", .bool a.namevar)] ++
    optionalField .string "default" a.default? ++ listField .string "values" a.values ++
    (if a.aliases.isEmpty then [] else [("aliases", a.aliases.toJson)]) ++
    optionalField .string "requiredFeatures" a.requiredFeatures ++ optionalField .string "dataType" a.dataType)

def Attribute.ofJson? (j : Json) : Option Attribute := do
  let r ← j.record? 8
  return {
    name := ← r.required asString? 0 "name"
    docstring := ← r.orElse asString? "" 1 "docstring"
    namevar := ← r.orElse asBool? false 2 "isnamevar"
    default? := ← r.optional asString? 3 "default"
    values := ← r.orElse (asList? asString?) [] 4 "values"
    aliases := ← r.orElse Dictionary.ofJson? .empty 5 "aliases"
    requiredFeatures := ← r.optional asString? 6 "requiredFeatures"
    dataType := ← r.optional asString? 7 "dataType" }

def PuppetParam.toJson (p : PuppetParam) : Json :=
  .object ([("name", .string p.name)] ++ optionalField .string "typeExpr" p.type? ++
    optionalField .string "default" p.default? ++ optionalField .string "docstring" p.docstring)

def PuppetParam.ofJson? (j : Json) : Option PuppetParam := do
  let r ← j.record? 4
  return {
    name := ← r.required asString? 0 "name"
    type? := ← r.optional asString? 1 "typeExpr"
    default? := ← r.optional asString? 2 "default"
    docstring := ← r.optional asString? 3 "docstring" }

/-! ## Resource types and providers -/

def Feature.toJson (f : Feature) : Json :=
  .object ([("name", .string f.name), ("docstring", .string f.docstring)] ++ listField .string "methods" f.methods)

def Feature.ofJson? (j : Json) : Option Feature := do
  let r ← j.record? 3
  return {
    name := ← r.required asString? 0 "name"
    docstring := ← r.orElse asString? "" 1 "docstring"
    methods := ← r.orElse (asList? asString?) [] 2 "methods" }

def ResourceType.fields (t : ResourceType) : List (String × Json) :=
  [("name", .string t.name), ("location", t.location.toJson), ("docstring", t.docstring.toJson)] ++
    listField Attribute.toJson "parameters" t.parameters ++ listField Attribute.toJson "properties" t.properties ++
    listField Feature.toJson "features" t.features ++ listField .string "providers" t.providers

def ResourceType.ofRecord? (r : Record) : Option ResourceType := do
  return {
    name := ← r.required asString? 0 "name"
    location := ← r.required Location.ofJson? 1 "location"
    docstring := ← r.required Docstring.ofJson? 2 "docstring"
    parameters := ← r.orElse (asList? Attribute.ofJson?) [] 3 "parameters"
    properties := ← r.orElse (asList? Attribute.ofJson?) [] 4 "properties"
    features := ← r.orElse (asList? Feature.ofJson?) [] 5 "features"
    providers := ← r.orElse (asList? asString?) [] 6 "providers" }

/-- A binding whose parts are called `key` and `value`. -/
def Binding.toJson (key value : String) (b : Binding) : Json :=
  .object [(key, .string b.key), (value, .string b.value)]

def Binding.ofJson? (key value : String) (j : Json) : Option Binding := do
  let r ← j.record? 2
  return { key := ← r.required asString? 0 key, value := ← r.required asString? 1 value }

def Provider.fields (p : Provider) : List (String × Json) :=
  [("typeName", .string p.typeName), ("name", .string p.name), ("location", p.location.toJson),
    ("docstring", p.docstring.toJson)] ++
    listField (Binding.toJson "key" "value") "confines" p.confines ++
    listField (Binding.toJson "key" "value") "defaults" p.defaults ++ listField .string "features" p.features ++
    listField (Binding.toJson "name" "executable") "commands" p.commands

def Provider.ofRecord? (r : Record) : Option Provider := do
  return {
    typeName := ← r.required asString? 0 "typeName"
    name := ← r.required asString? 1 "name"
    location := ← r.required Location.ofJson? 2 "location"
    docstring := ← r.required Docstring.ofJson? 3 "docstring"
    confines := ← r.orElse (asList? (Binding.ofJson? "key" "value")) [] 4 "confines"
    defaults := ← r.orElse (asList? (Binding.ofJson? "key" "value")) [] 5 "defaults"
    features := ← r.orElse (asList? asString?) [] 6 "features"
    commands := ← r.orElse (asList? (Binding.ofJson? "name" "executable")) [] 7 "commands" }

/-! ## Definitions of the Puppet language -/

def PuppetClass.fields (c : PuppetClass) : List (String × Json) :=
  [("name", .string c.name), ("location", c.location.toJson), ("docstring", c.docstring.toJson)] ++
    listField PuppetParam.toJson "parameters" c.parameters ++ optionalField .string "parent" c.parent

def PuppetClass.ofRecord? (r : Record) : Option PuppetClass := do
  return {
    name := ← r.required asString? 0 "name"
    location := ← r.required Location.ofJson? 1 "location"
    docstring := ← r.required Docstring.ofJson? 2 "docstring"
    parameters := ← r.orElse (asList? PuppetParam.ofJson?) [] 3 "parameters"
    parent := ← r.optional asString? 4 "parent" }

def DefinedType.fields (d : DefinedType) : List (String × Json) :=
  [("name", .string d.name), ("location", d.location.toJson), ("docstring", d.docstring.toJson)] ++
    listField PuppetParam.toJson "parameters" d.parameters

def DefinedType.ofRecord? (r : Record) : Option DefinedType := do
  return {
    name := ← r.required asString? 0 "name"
    location := ← r.required Location.ofJson? 1 "location"
    docstring := ← r.required Docstring.ofJson? 2 "docstring"
    parameters := ← r.orElse (asList? PuppetParam.ofJson?) [] 3 "parameters" }

def Plan.fields (p : Plan) : List (String × Json) :=
  [("name", .string p.name), ("location", p.location.toJson), ("docstring", p.docstring.toJson)] ++
    listField PuppetParam.toJson "parameters" p.parameters

def Plan.ofRecord? (r : Record) : Option Plan := do
  return {
    name := ← r.required asString? 0 "name"
    location := ← r.required Location.ofJson? 1 "location"
    docstring := ← r.required Docstring.ofJson? 2 "docstring"
    parameters := ← r.orElse (asList? PuppetParam.ofJson?) [] 3 "parameters" }

def DataType.fields (d : DataType) : List (String × Json) :=
  [("name", .string d.name), ("location", d.location.toJson), ("docstring", d.docstring.toJson)] ++
    optionalField .string "interface" d.interface

def DataType.ofRecord? (r : Record) : Option DataType := do
  return {
    name := ← r.required asString? 0 "name"
    location := ← r.required Location.ofJson? 1 "location"
    docstring := ← r.required Docstring.ofJson? 2 "docstring"
    interface := ← r.optional asString? 3 "interface" }

def DataTypeAlias.fields (d : DataTypeAlias) : List (String × Json) :=
  [("name", .string d.name), ("location", d.location.toJson), ("docstring", d.docstring.toJson),
    ("aliasOf", .string d.aliasOf)]

def DataTypeAlias.ofRecord? (r : Record) : Option DataTypeAlias := do
  return {
    name := ← r.required asString? 0 "name"
    location := ← r.required Location.ofJson? 1 "location"
    docstring := ← r.required Docstring.ofJson? 2 "docstring"
    aliasOf := ← r.required asString? 3 "aliasOf" }

/-! ## Functions -/

def FunctionKind.name : FunctionKind → String
  | .puppet => "puppet"
  | .ruby4x => "ruby4x"
  | .ruby3x => "ruby3x"

def FunctionKind.ofName? : String → Option FunctionKind
  | "puppet" => some .puppet
  | "ruby4x" => some .ruby4x
  | "ruby3x" => some .ruby3x
  | _ => none

def FunctionKind.ofJson? (j : Json) : Option FunctionKind := j.asChoice?.bind ofName?

def SignatureParam.toJson (p : SignatureParam) : Json :=
  .object [("name", .string p.name), ("typeExpr", .string p.type), ("optional", .bool p.isOptional),
    ("repeated", .bool p.isRepeated)]

def SignatureParam.ofJson? (j : Json) : Option SignatureParam := do
  let r ← j.record? 4
  return {
    name := ← r.required asString? 0 "name"
    type := ← r.required asString? 1 "typeExpr"
    isOptional := ← r.orElse asBool? false 2 "optional"
    isRepeated := ← r.orElse asBool? false 3 "repeated" }

def Signature.toJson (s : Signature) : Json :=
  .object (listField SignatureParam.toJson "params" s.params ++ optionalField .string "returnType" s.returnType)

def Signature.ofJson? (j : Json) : Option Signature := do
  let r ← j.record? 2
  return {
    params := ← r.orElse (asList? SignatureParam.ofJson?) [] 0 "params"
    returnType := ← r.optional asString? 1 "returnType" }

def Function.fields (f : Function) : List (String × Json) :=
  [("name", .string f.name), ("functionKind", .string f.functionKind.name), ("location", f.location.toJson),
    ("docstring", f.docstring.toJson)] ++ listField Signature.toJson "signatures" f.signatures

def Function.ofRecord? (r : Record) : Option Function := do
  return {
    name := ← r.required asString? 0 "name"
    functionKind := ← r.required (fun j => j.asNestedChoice?.bind FunctionKind.ofName?) 1 "functionKind"
    location := ← r.required Location.ofJson? 2 "location"
    docstring := ← r.required Docstring.ofJson? 3 "docstring"
    signatures := ← r.orElse (asList? Signature.ofJson?) [] 4 "signatures" }

/-! ## Objects -/

def ObjectKind.name : ObjectKind → String
  | .resourceType => "resourceType"
  | .provider => "provider"
  | .class_ => "class"
  | .definedType => "definedType"
  | .function => "function"
  | .dataType => "dataType"
  | .dataTypeAlias => "dataTypeAlias"
  | .plan => "plan"

def ObjectKind.all : List ObjectKind :=
  [.resourceType, .provider, .class_, .definedType, .function, .dataType, .dataTypeAlias, .plan]

def ObjectKind.ofName? (name : String) : Option ObjectKind := all.find? (·.name == name)

def ObjectKind.ofJson? (j : Json) : Option ObjectKind := j.asChoice?.bind ofName?

namespace CodeObject

/-- The fields of an object without its kind. -/
def fields : CodeObject → List (String × Json)
  | resourceType o => o.fields
  | provider o => o.fields
  | class_ o => o.fields
  | definedType o => o.fields
  | function o => o.fields
  | dataType o => o.fields
  | dataTypeAlias o => o.fields
  | plan o => o.fields

def toJson (o : CodeObject) : Json := .object (("kind", .string o.kind.name) :: o.fields)

def ofRecord? (kind : ObjectKind) (r : Record) : Option CodeObject :=
  match kind with
  | .resourceType => (ResourceType.ofRecord? r).map .resourceType
  | .provider => (Provider.ofRecord? r).map .provider
  | .class_ => (PuppetClass.ofRecord? r).map .class_
  | .definedType => (DefinedType.ofRecord? r).map .definedType
  | .function => (Function.ofRecord? r).map .function
  | .dataType => (DataType.ofRecord? r).map .dataType
  | .dataTypeAlias => (DataTypeAlias.ofRecord? r).map .dataTypeAlias
  | .plan => (Plan.ofRecord? r).map .plan

/-- The number of fields of an object besides its kind. -/
def arity : ObjectKind → Nat
  | .resourceType => 7
  | .provider => 8
  | .class_ => 5
  | .definedType => 4
  | .function => 5
  | .dataType => 4
  | .dataTypeAlias => 4
  | .plan => 4

def ofJson? : Json → Option CodeObject
  | .object fields => do
    let kind ← (Record.named fields).required asString? 0 "kind"
    ofRecord? (← ObjectKind.ofName? kind) (.named fields)
  | .array (.string kind :: values) => do
    let kind ← ObjectKind.ofName? kind
    ofRecord? kind (← (Json.array values).record? (arity kind))
  | _ => none

end CodeObject

def TypeExtension.toJson (e : TypeExtension) : Json :=
  .object [("typeName", .string e.typeName), ("kind", .string e.kind.name), ("attribute", e.declared.toJson),
    ("location", e.location.toJson)]

def TypeExtension.ofJson? (j : Json) : Option TypeExtension := do
  let r ← j.record? 4
  return {
    typeName := ← r.required asString? 0 "typeName"
    kind := ← r.required AttributeKind.ofJson? 1 "kind"
    declared := ← r.required Attribute.ofJson? 2 "attribute"
    location := ← r.required Location.ofJson? 3 "location" }

end PuppetDocs
