import PuppetDocs.Model.Attribute
import PuppetDocs.Ruby.Call

/-
  PuppetDocs.Findings.Construct — the Ruby statements that declare something.

  A construct is recognized by the receiver, the method and the number of arguments of a call:
  - `Puppet::Type.newtype(:t)` declares a resource type,
  - `Puppet::Type.type(:t).newparam(:p)` and `newproperty` extend one,
  - `Puppet::Type.type(:t).provide(:p)` declares a provider,
  - `Puppet::Functions.create_function(:f)` a function of the 4.x API,
  - `newfunction(:f)`, free or on `Puppet::Parser::Functions`, one of the 3.x API,
  - `Puppet::DataTypes.create_type('T')` a data type,
  - `Puppet::ResourceApi.register_type(...)` a resource type of the Resource API.

  The bodies of resource types and providers have statements of their own, recognized by the
  method of a call without receiver; a provider may also call on `self`.
-/

namespace PuppetDocs

open Ruby

inductive Construct where
  | resourceType (call : Call Node)
  | extension (kind : AttributeKind) (typeCall call : Call Node)
  | provider (typeCall call : Call Node)
  | function4x (call : Call Node)
  | function3x (call : Call Node)
  | dataType (call : Call Node)
  | apiType (call : Call Node)

namespace Construct

def name : Construct → String
  | resourceType _ => "resource type"
  | extension .. => "resource type extension"
  | provider .. => "provider"
  | function4x _ => "function (4.x API)"
  | function3x _ => "function (3.x API)"
  | dataType _ => "data type"
  | apiType _ => "resource type (Resource API)"

/-- The call `Puppet::Type.type(...)` that `call` is made on. -/
def typeCall? (call : Call Node) : Option (Call Node) :=
  (call.receiver.bind Node.call?).filter fun c =>
    c.method == "type" && c.receiverIs "Puppet::Type" && !c.args.isEmpty

def ofCall? (call : Call Node) : Option Construct :=
  match call.method with
  | "newtype" => if call.receiverIs "Puppet::Type" then some (resourceType call) else none
  | "provide" => (typeCall? call).map (provider · call)
  | "newparam" => (typeCall? call).map (extension .parameter · call)
  | "newproperty" => (typeCall? call).map (extension .property · call)
  | "create_function" => if call.receiverIs "Puppet::Functions" then some (function4x call) else none
  | "newfunction" =>
    if call.isFree || call.receiverIs "Puppet::Parser::Functions" then some (function3x call) else none
  | "create_type" => if call.receiverIs "Puppet::DataTypes" then some (dataType call) else none
  | "register_type" => if call.receiverIs "Puppet::ResourceApi" then some (apiType call) else none
  | _ => none

def ofNode? (n : Node) : Option Construct := n.call?.bind ofCall?

end Construct

/-- A statement in the body of a resource type. -/
inductive AttributeCall where
  | declare (kind : AttributeKind) (call : Call Node)
  /-- `ensurable`, with its call unless it is a bare word. -/
  | ensurable (call : Option (Call Node))
  | feature (call : Call Node)

def AttributeCall.ofNode? (n : Node) : Option AttributeCall :=
  if n.bareWord? = some "ensurable" then some (.ensurable none)
  else (n.call?.filter (·.isFree)).bind fun call =>
    match call.method with
    | "newparam" => some (.declare .parameter call)
    | "newproperty" => some (.declare .property call)
    | "ensurable" => some (.ensurable (some call))
    | "feature" => some (.feature call)
    | _ => none

/-- A statement in the body of a provider. -/
inductive ProviderCall where
  | confine (call : Call Node)
  | features (call : Call Node)
  | defaultFor (call : Call Node)
  | commands (call : Call Node)

def ProviderCall.ofNode? (n : Node) : Option ProviderCall :=
  (n.call?.filter fun call => call.receiver.all Node.isSelf).bind fun call =>
    match call.method with
    | "confine" => some (.confine call)
    | "has_feature" | "has_features" => some (.features call)
    | "defaultfor" => some (.defaultFor call)
    | "commands" => some (.commands call)
    | _ => none

end PuppetDocs
