import PuppetDocs.Json.Value

/-
  PuppetDocs.Json.Record — reading and writing records.

  A record is an object, or an array of the values of its fields in their order. A field is
  required, or optional (`null` counts as missing), or stands for a given value when missing;
  other fields are passed over. Reading fails if a required field is missing or any field has
  a value of the wrong type. On writing, optional fields without a value and lists without
  items are left out where the format says so.
-/

namespace PuppetDocs.Json

/-! ## Plain values -/

def asString? : Json → Option String
  | .string s => some s
  | _ => none

def asBool? : Json → Option Bool
  | .bool b => some b
  | _ => none

/-- A natural number of at most 64 bits. -/
def asNat? : Json → Option Nat
  | .number digits 0 => if 0 ≤ digits ∧ digits.toNat < UInt64.size then some digits.toNat else none
  | _ => none

def asList? {α : Type} (f : Json → Option α) : Json → Option (List α)
  | .array items => items.mapM f
  | _ => none

/-- The name of a choice among plain alternatives: a string, or an object that maps the name
alone to `null`. -/
def asChoice? : Json → Option String
  | .string name | .object [(name, .null)] => some name
  | _ => none

/-- A choice inside an object that is told apart by its kind; an empty object may stand for `null`. -/
def asNestedChoice? : Json → Option String
  | .object [(name, .object [])] => some name
  | j => j.asChoice?

def ofStrings (ss : List String) : Json := .array (ss.map .string)

/-! ## Records -/

inductive Record where
  | named (fields : List (String × Json))
  | positional (values : List Json)

/-- The record of `arity` fields that a value is. -/
def record? (arity : Nat) : Json → Option Record
  | .object fields => some (.named fields)
  | .array values => if values.length ≤ arity then some (.positional values) else none
  | _ => none

namespace Record

/-- The value of the field with this name and place. -/
def get? : Record → Nat → String → Option Json
  | .named fields, _, name => (fields.find? fun f => f.1 == name).map Prod.snd
  | .positional values, place, _ => values[place]?

def required {α : Type} (r : Record) (f : Json → Option α) (place : Nat) (name : String) : Option α :=
  (r.get? place name).bind f

def optional {α : Type} (r : Record) (f : Json → Option α) (place : Nat) (name : String) : Option (Option α) :=
  match r.get? place name with
  | none | some .null => some none
  | some v => (f v).map some

def orElse {α : Type} (r : Record) (f : Json → Option α) (missing : α) (place : Nat) (name : String) : Option α :=
  match r.get? place name with
  | none => some missing
  | some v => f v

/-- Every field has one of these names. -/
def onlyHas (r : Record) (names : List String) : Bool :=
  match r with
  | named fields => fields.all fun f => names.contains f.1
  | positional _ => true

end Record

/-! ## Fields -/

def optionalField {α : Type} (f : α → Json) (name : String) : Option α → List (String × Json)
  | none => []
  | some a => [(name, f a)]

def listField {α : Type} (f : α → Json) (name : String) (as : List α) : List (String × Json) :=
  if as.isEmpty then [] else [(name, .array (as.map f))]

end PuppetDocs.Json
