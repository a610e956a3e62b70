import PuppetDocs.Model.Dictionary

/-
  PuppetDocs.Model.Attribute — parameters and properties of resource types, and parameters of
  classes, defined types and plans.
-/

namespace PuppetDocs

inductive AttributeKind where
  | parameter
  | property
  deriving DecidableEq, Repr

def AttributeKind.name : AttributeKind → String
  | .parameter => "parameter"
  | .property => "property"

structure Attribute where
  name : String
  docstring : String := ""
  /-- The attribute identifies the resource. -/
  namevar : Bool := false
  default? : Option String := none
  values : List String := []
  /-- Other spellings of values. -/
  aliases : Dictionary := .empty
  requiredFeatures : Option String := none
  dataType : Option String := none
  deriving DecidableEq, Repr

/-- Adds `x` to a list that holds it at most once. -/
def addOnce (xs : List String) (x : String) : List String := if xs.contains x then xs else xs ++ [x]

namespace Attribute

def addValue (a : Attribute) (value : String) : Attribute := { a with values := addOnce a.values value }

def addAlias (a : Attribute) (name target : String) : Attribute :=
  { a with aliases := a.aliases.insert name target }

end Attribute

structure PuppetParam where
  name : String
  type? : Option String := none
  default? : Option String := none
  /-- The text of the tag that documents it. -/
  docstring : Option String := none
  deriving DecidableEq, Repr

def PuppetParam.isOptional (p : PuppetParam) : Bool := p.default?.isSome

end PuppetDocs
