import PuppetDocs.Docs.Docstring
import PuppetDocs.Model.Attribute

/-
  PuppetDocs.Model.Object — the documented objects of a module.

  Every object has a name, a place in the sources and a docstring. Providers are named within
  the resource type they belong to; all other objects stand in the root namespace. Kind,
  namespace and name together are the key of an object.
-/

namespace PuppetDocs

structure Location where
  file : String
  line : Nat
  deriving DecidableEq, Repr

def Location.text (l : Location) : String := l.file ++ ":" ++ toString l.line

/-! ## Resource types and providers -/

structure Feature where
  name : String
  docstring : String := ""
  /-- The methods of a provider that the feature needs. -/
  methods : List String := []
  deriving DecidableEq, Repr

structure ResourceType where
  name : String
  location : Location
  docstring : Docstring := {}
  parameters : List Attribute := []
  properties : List Attribute := []
  features : List Feature := []
  /-- The names of the providers registered for the type. -/
  providers : List String := []
  deriving DecidableEq, Repr

/-- Flags the first attribute called `name`, if there is one. -/
def flagName : List Attribute → Option (List Attribute)
  | [] => none
  | a :: as => if a.name = "name" then some ({ a with namevar := true } :: as) else (flagName as).map (a :: ·)

namespace ResourceType

def addAttribute (t : ResourceType) (kind : AttributeKind) (a : Attribute) : ResourceType :=
  match kind with
  | .parameter => { t with parameters := t.parameters ++ [a] }
  | .property => { t with properties := t.properties ++ [a] }

def addFeature (t : ResourceType) (f : Feature) : ResourceType := { t with features := t.features ++ [f] }

def addProvider (t : ResourceType) (name : String) : ResourceType :=
  { t with providers := addOnce t.providers name }

def parameter? (t : ResourceType) (name : String) : Option Attribute := t.parameters.find? (·.name == name)

def property? (t : ResourceType) (name : String) : Option Attribute := t.properties.find? (·.name == name)

def hasNamevar (t : ResourceType) : Bool := (t.properties ++ t.parameters).any Attribute.namevar

/-- Flags an attribute called `name` if none is flagged, looking among the properties first. -/
def defaultNamevar (t : ResourceType) : ResourceType :=
  if t.hasNamevar then t
  else match flagName t.properties with
    | some properties => { t with properties }
    | none =>
      match flagName t.parameters with
      | some parameters => { t with parameters }
      | none => t

/-- `defaultNamevar` flags an attribute. -/
def lacksNamevar (t : ResourceType) : Bool :=
  !t.hasNamevar && (t.properties ++ t.parameters).any (·.name == "name")

end ResourceType

/-- A fact, condition or command name with what belongs to it. -/
structure Binding where
  key : String
  value : String
  deriving DecidableEq, Repr

structure Provider where
  typeName : String
  name : String
  location : Location
  docstring : Docstring := {}
  /-- Where the provider can be used. -/
  confines : List Binding := []
  /-- Where it is the one to use. -/
  defaults : List Binding := []
  features : List String := []
  /-- The commands it runs, each under the name it calls it by. -/
  commands : List Binding := []
  deriving DecidableEq, Repr

namespace Provider

def addConfine (p : Provider) (key value : String) : Provider := { p with confines := p.confines ++ [⟨key, value⟩] }

def addDefault (p : Provider) (key value : String) : Provider := { p with defaults := p.defaults ++ [⟨key, value⟩] }

def addFeature (p : Provider) (name : String) : Provider := { p with features := addOnce p.features name }

def addCommand (p : Provider) (name executable : String) : Provider :=
  { p with commands := p.commands ++ [⟨name, executable⟩] }

end Provider

/-! ## Definitions of the Puppet language -/

structure PuppetClass where
  name : String
  location : Location
  docstring : Docstring := {}
  parameters : List PuppetParam := []
  parent : Option String := none
  deriving DecidableEq, Repr

structure DefinedType where
  name : String
  location : Location
  docstring : Docstring := {}
  parameters : List PuppetParam := []
  deriving DecidableEq, Repr

structure Plan where
  name : String
  location : Location
  docstring : Docstring := {}
  parameters : List PuppetParam := []
  deriving DecidableEq, Repr

structure DataType where
  name : String
  location : Location
  docstring : Docstring := {}
  interface : Option String := none
  deriving DecidableEq, Repr

structure DataTypeAlias where
  name : String
  location : Location
  docstring : Docstring := {}
  aliasOf : String
  deriving DecidableEq, Repr

/-! ## Functions -/

inductive FunctionKind where
  | puppet | ruby4x | ruby3x
  deriving DecidableEq, Repr

def FunctionKind.display : FunctionKind → String
  | .puppet => "Puppet Language"
  | .ruby4x => "Ruby 4.x API"
  | .ruby3x => "Ruby 3.x API"

structure SignatureParam where
  name : String
  type : String
  isOptional : Bool := false
  /-- Takes any number of arguments. -/
  isRepeated : Bool := false
  deriving DecidableEq, Repr

structure Signature where
  params : List SignatureParam := []
  returnType : Option String := none
  deriving DecidableEq, Repr

def SignatureParam.display (p : SignatureParam) : String :=
  p.type ++ (if p.isRepeated then " *$" else " $") ++ p.name ++
    (if p.isOptional && !p.isRepeated then " = undef" else "")

/-- The signature as the Puppet language writes it. -/
def Signature.display (s : Signature) (name : String) : String :=
  name ++ "(" ++ ", ".intercalate (s.params.map SignatureParam.display) ++ ")" ++
    match s.returnType with
    | some t => " >> " ++ t
    | none => ""

structure Function where
  name : String
  functionKind : FunctionKind
  location : Location
  docstring : Docstring := {}
  signatures : List Signature := []
  deriving DecidableEq, Repr

/-! ## Objects -/

inductive ObjectKind where
  | resourceType | provider | class_ | definedType | function | dataType | dataTypeAlias | plan
  deriving DecidableEq, Repr

def ObjectKind.display : ObjectKind → String
  | .resourceType => "resource type"
  | .provider => "provider"
  | .class_ => "class"
  | .definedType => "defined type"
  | .function => "function"
  | .dataType => "data type"
  | .dataTypeAlias => "data type alias"
  | .plan => "plan"

inductive CodeObject where
  | resourceType (o : ResourceType)
  | provider (o : Provider)
  | class_ (o : PuppetClass)
  | definedType (o : DefinedType)
  | function (o : Function)
  | dataType (o : DataType)
  | dataTypeAlias (o : DataTypeAlias)
  | plan (o : Plan)
  deriving DecidableEq, Repr

structure ObjectKey where
  kind : ObjectKind
  ns : String
  name : String
  deriving DecidableEq, Repr

/-- The name within its namespace, or alone in the root namespace. -/
def qualifiedName (ns name : String) : String := if ns.isEmpty then name else ns ++ "::" ++ name

namespace CodeObject

def kind : CodeObject → ObjectKind
  | resourceType _ => .resourceType
  | provider _ => .provider
  | class_ _ => .class_
  | definedType _ => .definedType
  | function _ => .function
  | dataType _ => .dataType
  | dataTypeAlias _ => .dataTypeAlias
  | plan _ => .plan

def name : CodeObject → String
  | resourceType o => o.name
  | provider o => o.name
  | class_ o => o.name
  | definedType o => o.name
  | function o => o.name
  | dataType o => o.name
  | dataTypeAlias o => o.name
  | plan o => o.name

def ns : CodeObject → String
  | provider o => o.typeName
  | _ => ""

def location : CodeObject → Location
  | resourceType o => o.location
  | provider o => o.location
  | class_ o => o.location
  | definedType o => o.location
  | function o => o.location
  | dataType o => o.location
  | dataTypeAlias o => o.location
  | plan o => o.location

def docstring : CodeObject → Docstring
  | resourceType o => o.docstring
  | provider o => o.docstring
  | class_ o => o.docstring
  | definedType o => o.docstring
  | function o => o.docstring
  | dataType o => o.docstring
  | dataTypeAlias o => o.docstring
  | plan o => o.docstring

/-- The object with its docstring changed by `f`. -/
def mapDocstring (f : Docstring → Docstring) : CodeObject → CodeObject
  | resourceType o => resourceType { o with docstring := f o.docstring }
  | provider o => provider { o with docstring := f o.docstring }
  | class_ o => class_ { o with docstring := f o.docstring }
  | definedType o => definedType { o with docstring := f o.docstring }
  | function o => function { o with docstring := f o.docstring }
  | dataType o => dataType { o with docstring := f o.docstring }
  | dataTypeAlias o => dataTypeAlias { o with docstring := f o.docstring }
  | plan o => plan { o with docstring := f o.docstring }

/-- The object with `f` done to it if it is a resource type. -/
def mapType (f : ResourceType → ResourceType) : CodeObject → CodeObject
  | resourceType o => resourceType (f o)
  | o => o

def key (o : CodeObject) : ObjectKey := ⟨o.kind, o.ns, o.name⟩

def qualified (o : CodeObject) : String := qualifiedName o.ns o.name

def asResourceType? : CodeObject → Option ResourceType
  | resourceType o => some o
  | _ => none

def asProvider? : CodeObject → Option Provider
  | provider o => some o
  | _ => none

def asClass? : CodeObject → Option PuppetClass
  | class_ o => some o
  | _ => none

def asDefinedType? : CodeObject → Option DefinedType
  | definedType o => some o
  | _ => none

def asFunction? : CodeObject → Option Function
  | function o => some o
  | _ => none

def asDataType? : CodeObject → Option DataType
  | dataType o => some o
  | _ => none

def asDataTypeAlias? : CodeObject → Option DataTypeAlias
  | dataTypeAlias o => some o
  | _ => none

def asPlan? : CodeObject → Option Plan
  | plan o => some o
  | _ => none

end CodeObject

/-- An attribute declared outside the declaration of its resource type. -/
structure TypeExtension where
  typeName : String
  kind : AttributeKind
  declared : Attribute
  location : Location
  deriving DecidableEq, Repr

end PuppetDocs
