import PuppetDocs.Text.Span

/-
  PuppetDocs.Manifest.Definition — what a Puppet manifest declares.

  Classes, defined types, functions and plans may hold further definitions in their bodies;
  a type alias holds none. Types and default values are kept as they are written.
  `Definition.flatten` lists a definition in front of those nested in it.
-/

namespace PuppetDocs.Manifest

inductive DefinitionKind where
  | class_ | definedType | function | typeAlias | plan
  deriving DecidableEq, Repr

def DefinitionKind.keyword : DefinitionKind → String
  | .class_ => "class"
  | .definedType => "define"
  | .function => "function"
  | .typeAlias => "type"
  | .plan => "plan"

structure Parameter where
  /-- The name without its sigil. -/
  name : String
  type? : Option String
  default? : Option String
  /-- Takes all arguments that are left. -/
  capturesRest : Bool
  line : Nat
  deriving DecidableEq, Repr

structure Definition where
  kind : DefinitionKind
  name : String
  params : List Parameter := []
  parent : Option String := none
  returnType : Option String := none
  aliasedType : Option String := none
  span : Span
  line : Nat
  nested : List Definition := []

mutual

def Definition.flatten : Definition → List Definition
  | d@⟨_, _, _, _, _, _, _, _, nested⟩ => d :: flattenAll nested

def flattenAll : List Definition → List Definition
  | [] => []
  | d :: ds => d.flatten ++ flattenAll ds

end

end PuppetDocs.Manifest
