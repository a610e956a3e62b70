import PuppetDocs.Model.Object
import PuppetDocs.Report.Problem

/-
  PuppetDocs.Model.Registry — the documented objects of a run.

  Objects stand in the order of their registration, each under its key; registering a second
  one under a key fails and keeps the first. Attributes that a file adds to a resource type wait
  as extensions until the run is finished, because the type may be declared later or never.

  `finalize` brings together what several files say:
  - every waiting extension goes to its resource type, and a type that is extended but not
    declared is added without a description, with a warning;
  - every resource type lists the providers registered for it, in the order of registration;
  - a resource type without a name variable gets its attribute called `name` as one.
-/

namespace PuppetDocs

/-- The key of the resource type called `name`. -/
def typeKey (name : String) : ObjectKey := ⟨.resourceType, "", name⟩

/-- Objects under their keys, in the order in which they were entered. -/
abbrev Entries := List (ObjectKey × CodeObject)

structure Registry where
  entries : Entries := []
  extensions : List TypeExtension := []
  deriving DecidableEq, Repr

namespace Registry

def keys (r : Registry) : List ObjectKey := r.entries.map Prod.fst

def objects (r : Registry) : List CodeObject := r.entries.map Prod.snd

def get? (r : Registry) (key : ObjectKey) : Option CodeObject := r.entries.lookup key

def contains (r : Registry) (key : ObjectKey) : Bool := (r.get? key).isSome

/-- The objects of one kind, in order. -/
def all (r : Registry) (kind : ObjectKind) : List CodeObject := r.objects.filter (·.kind = kind)

def duplicate (o : CodeObject) : Problem := .duplicateName o.key o.location.file o.location.line

def register (r : Registry) (o : CodeObject) : Except Problem Registry :=
  if r.contains o.key then .error (duplicate o) else .ok { r with entries := r.entries ++ [(o.key, o)] }

def addExtension (r : Registry) (e : TypeExtension) : Registry := { r with extensions := r.extensions ++ [e] }

/-- Registers what can be registered, and lists the problems of the rest. -/
def registerAll (r : Registry) : List CodeObject → Registry × List Problem
  | [] => (r, [])
  | o :: os =>
    match r.register o with
    | .ok r => r.registerAll os
    | .error p =>
      let (r, ps) := r.registerAll os
      (r, p :: ps)

/-- Takes over the objects and extensions of another registry, in their order. -/
def merge (r other : Registry) : Registry × List Problem :=
  let (r, ps) := r.registerAll other.objects
  ({ r with extensions := r.extensions ++ other.extensions }, ps)

/-! ## Views -/

def resourceTypes (r : Registry) : List ResourceType := (r.all .resourceType).filterMap (·.asResourceType?)

def providers (r : Registry) : List Provider := (r.all .provider).filterMap (·.asProvider?)

def resourceType? (r : Registry) (name : String) : Option ResourceType :=
  (r.get? (typeKey name)).bind (·.asResourceType?)

def provider? (r : Registry) (typeName name : String) : Option Provider :=
  (r.get? ⟨.provider, typeName, name⟩).bind (·.asProvider?)

def class? (r : Registry) (name : String) : Option PuppetClass := (r.get? ⟨.class_, "", name⟩).bind (·.asClass?)

def function? (r : Registry) (name : String) : Option Function :=
  (r.get? ⟨.function, "", name⟩).bind (·.asFunction?)

/-! ## The end of a run -/

/-- Changes the resource type that stands under the key of `name`. -/
def updateType (es : Entries) (name : String) (f : ResourceType → ResourceType) : Entries :=
  es.map fun (key, o) => (key, if key = typeKey name then o.mapType f else o)

def declares (es : Entries) (name : String) : Bool := (es.lookup (typeKey name)).isSome

/-- What stands for a type that is extended but not declared. -/
def stub (e : TypeExtension) : CodeObject :=
  .resourceType { name := e.typeName, location := e.location, docstring := ({} : Docstring).markPublic }

def undeclared (e : TypeExtension) : Diagnostic :=
  .warningAt .undeclaredType e.location.file e.location.line
    ("Resource type '" ++ e.typeName ++ "' is extended but never declared; documenting it without a description.")

def applyExtensions (es : Entries) : List TypeExtension → Entries × List Diagnostic
  | [] => (es, [])
  | x :: xs =>
    let (es, notes) :=
      if declares es x.typeName then (es, []) else (es ++ [(typeKey x.typeName, stub x)], [undeclared x])
    let (es, more) := applyExtensions (updateType es x.typeName (·.addAttribute x.kind x.declared)) xs
    (es, notes ++ more)

def linkProviders (es : Entries) : Entries :=
  (es.filterMap (·.2.asProvider?)).foldl (fun es p => updateType es p.typeName (·.addProvider p.name)) es

def defaultNamevars (es : Entries) : Entries := es.map fun (key, o) => (key, o.mapType (·.defaultNamevar))

def finalize (r : Registry) : Registry × List Diagnostic :=
  let (es, notes) := applyExtensions r.entries r.extensions
  ({ entries := defaultNamevars (linkProviders es), extensions := [] }, notes)

end Registry

end PuppetDocs
