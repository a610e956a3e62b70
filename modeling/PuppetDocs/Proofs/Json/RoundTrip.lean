import PuppetDocs.Proofs.Json.Fields
import PuppetDocs.Model.Listing

/-
  PuppetDocs.Proofs.Json.RoundTrip — a written object reads back as itself.

  One lemma for each type, from the parts of an object up to the object: what its writer
  writes, its reader takes back (`Faithful`). A line is written as a number and read back as
  one of 64 bits; it is the only part that has to be in range, so an object is read back
  whenever its line is, and then so is the list of all objects of a registry.
-/

namespace PuppetDocs

open Json

/-! ## Dictionaries -/

theorem Dictionary.insertEntry_new {k v : String} {es : List (String × String)} (new : k ∉ es.map Prod.fst) :
    insertEntry k v es = es ++ [(k, v)] := by
  induction es with
  | nil => rfl
  | cons e es ih =>
    simp only [List.map_cons, List.mem_cons, not_or] at new
    simp [insertEntry, Ne.symm new.1, ih new.2]

theorem Dictionary.foldl_insert_new {es : List (String × String)} :
    ∀ {d : Dictionary}, ((d.entries ++ es).map Prod.fst).Nodup →
      (es.foldl (fun d e => d.insert e.1 e.2) d).entries = d.entries ++ es := by
  induction es with
  | nil => simp
  | cons e es ih =>
    intro d distinct
    have new : e.1 ∉ d.entries.map Prod.fst := by
      simp only [List.map_append, List.map_cons, List.nodup_append] at distinct
      exact fun mem => distinct.2.2 _ mem _ List.mem_cons_self rfl
    have entries : (d.insert e.1 e.2).entries = d.entries ++ [e] := insertEntry_new new
    rw [List.foldl_cons, ih (by simpa [entries] using distinct), entries]
    simp

/-- The entries of a dictionary give it back, in their order. -/
theorem Dictionary.ofList_entries (d : Dictionary) : ofList d.entries = d := by
  have entries : (ofList d.entries).entries = d.entries :=
    foldl_insert_new (d := empty) (by simpa [empty] using d.nodup)
  cases h : ofList d.entries
  cases d
  simp_all

theorem Dictionary.eq_empty {d : Dictionary} (h : d.isEmpty) : d = empty := by
  cases d
  simpa [isEmpty, empty] using h

theorem Dictionary.faithful : Faithful Dictionary.toJson Dictionary.ofJson? where
  back d := by
    have entries : (d.entries.map fun e => (e.1, Json.string e.2)).mapM
        (fun f => f.2.asString?.map (f.1, ·)) = some d.entries := mapM_of_back fun _ _ => rfl
    simp [toJson, ofJson?, entries, ofList_entries]
  present := nofun

/-! ## The parts of an object -/

theorem Tag.faithful : Faithful Tag.toJson Tag.ofJson? where
  back t := by
    simp [Tag.toJson, Tag.ofJson?, record?, faithful_string.required, faithful_string.optional (o := t.text?),
      faithful_string.optional (o := t.subject), faithful_strings.optional (o := t.types)]
  present := nofun

theorem Docstring.faithful : Faithful Docstring.toJson Docstring.ofJson? where
  back d := by
    simp [Docstring.toJson, Docstring.ofJson?, record?, faithful_string.required, Tag.faithful.items (l := d.tags)]
  present := nofun

theorem Location.ofJson?_toJson {l : Location} (h : l.line < UInt64.size) : Location.ofJson? l.toJson = some l := by
  have line := asNat?_ofNat h
  simp [Location.toJson, Location.ofJson?, record?, Record.required, asString?, line]

theorem Attribute.faithful : Faithful Attribute.toJson Attribute.ofJson? where
  back a := by
    simp [Attribute.toJson, Attribute.ofJson?, record?, faithful_string.required, faithful_string.orElse,
      faithful_bool.orElse, faithful_string.optional (o := a.default?), faithful_string.items (l := a.values),
      Dictionary.faithful.leftOut (a := a.aliases) Dictionary.eq_empty,
      faithful_string.optional (o := a.requiredFeatures), faithful_string.optional (o := a.dataType)]
  present := nofun

theorem PuppetParam.faithful : Faithful PuppetParam.toJson PuppetParam.ofJson? where
  back p := by
    simp [PuppetParam.toJson, PuppetParam.ofJson?, record?, faithful_string.required,
      faithful_string.optional (o := p.type?), faithful_string.optional (o := p.default?),
      faithful_string.optional (o := p.docstring)]
  present := nofun

theorem Feature.faithful : Faithful Feature.toJson Feature.ofJson? where
  back f := by
    simp [Feature.toJson, Feature.ofJson?, record?, faithful_string.required, faithful_string.orElse,
      faithful_string.items (l := f.methods)]
  present := nofun

theorem Binding.faithful {key value : String} (h : key ≠ value) :
    Faithful (Binding.toJson key value) (Binding.ofJson? key value) where
  back b := by
    simp [Binding.toJson, Binding.ofJson?, record?, faithful_string.required, h]
  present := nofun

theorem SignatureParam.faithful : Faithful SignatureParam.toJson SignatureParam.ofJson? where
  back p := by
    simp [SignatureParam.toJson, SignatureParam.ofJson?, record?, faithful_string.required, faithful_bool.orElse]
  present := nofun

theorem Signature.faithful : Faithful Signature.toJson Signature.ofJson? where
  back s := by
    simp [Signature.toJson, Signature.ofJson?, record?, SignatureParam.faithful.items (l := s.params),
      faithful_string.optional (o := s.returnType)]
  present := nofun

/-! ## Objects

An object is read from a record with its kind in front of its own fields. -/

theorem FunctionKind.faithful :
    Faithful (fun k : FunctionKind => .string k.name) fun j => j.asNestedChoice?.bind ofName? where
  back k := by cases k <;> rfl
  present := nofun

theorem ObjectKind.ofName?_name (k : ObjectKind) : ofName? k.name = some k := by cases k <;> decide

variable {kind : Json}

theorem ResourceType.ofRecord?_fields {t : ResourceType} (h : t.location.line < UInt64.size) :
    ofRecord? (.named (("kind", kind) :: t.fields)) = some t := by
  have location := Location.ofJson?_toJson h
  simp [ResourceType.fields, ResourceType.ofRecord?, faithful_string.required, Record.required_eq location,
    Docstring.faithful.required (a := t.docstring), Attribute.faithful.items (l := t.parameters),
    Attribute.faithful.items (l := t.properties), Feature.faithful.items (l := t.features),
    faithful_string.items (l := t.providers)]

theorem Provider.ofRecord?_fields {p : Provider} (h : p.location.line < UInt64.size) :
    ofRecord? (.named (("kind", kind) :: p.fields)) = some p := by
  have location := Location.ofJson?_toJson h
  have pairs : Faithful (Binding.toJson "key" "value") (Binding.ofJson? "key" "value") := Binding.faithful (by decide)
  have commands : Faithful (Binding.toJson "name" "executable") (Binding.ofJson? "name" "executable") :=
    Binding.faithful (by decide)
  simp [Provider.fields, Provider.ofRecord?, faithful_string.required, Record.required_eq location,
    Docstring.faithful.required (a := p.docstring), pairs.items (l := p.confines), pairs.items (l := p.defaults),
    faithful_string.items (l := p.features), commands.items (l := p.commands)]

theorem PuppetClass.ofRecord?_fields {c : PuppetClass} (h : c.location.line < UInt64.size) :
    ofRecord? (.named (("kind", kind) :: c.fields)) = some c := by
  have location := Location.ofJson?_toJson h
  simp [PuppetClass.fields, PuppetClass.ofRecord?, faithful_string.required, Record.required_eq location,
    Docstring.faithful.required (a := c.docstring), PuppetParam.faithful.items (l := c.parameters),
    faithful_string.optional (o := c.parent)]

theorem DefinedType.ofRecord?_fields {d : DefinedType} (h : d.location.line < UInt64.size) :
    ofRecord? (.named (("kind", kind) :: d.fields)) = some d := by
  have location := Location.ofJson?_toJson h
  simp [DefinedType.fields, DefinedType.ofRecord?, faithful_string.required, Record.required_eq location,
    Docstring.faithful.required (a := d.docstring), PuppetParam.faithful.items (l := d.parameters)]

theorem Plan.ofRecord?_fields {p : Plan} (h : p.location.line < UInt64.size) :
    ofRecord? (.named (("kind", kind) :: p.fields)) = some p := by
  have location := Location.ofJson?_toJson h
  simp [Plan.fields, Plan.ofRecord?, faithful_string.required, Record.required_eq location,
    Docstring.faithful.required (a := p.docstring), PuppetParam.faithful.items (l := p.parameters)]

theorem DataType.ofRecord?_fields {d : DataType} (h : d.location.line < UInt64.size) :
    ofRecord? (.named (("kind", kind) :: d.fields)) = some d := by
  have location := Location.ofJson?_toJson h
  simp [DataType.fields, DataType.ofRecord?, faithful_string.required, Record.required_eq location,
    Docstring.faithful.required (a := d.docstring), faithful_string.optional (o := d.interface)]

theorem DataTypeAlias.ofRecord?_fields {d : DataTypeAlias} (h : d.location.line < UInt64.size) :
    ofRecord? (.named (("kind", kind) :: d.fields)) = some d := by
  have location := Location.ofJson?_toJson h
  simp [DataTypeAlias.fields, DataTypeAlias.ofRecord?, faithful_string.required, Record.required_eq location,
    Docstring.faithful.required (a := d.docstring)]

theorem Function.ofRecord?_fields {f : Function} (h : f.location.line < UInt64.size) :
    ofRecord? (.named (("kind", kind) :: f.fields)) = some f := by
  have location := Location.ofJson?_toJson h
  simp [Function.fields, Function.ofRecord?, faithful_string.required,
    FunctionKind.faithful.required (a := f.functionKind), Record.required_eq location,
    Docstring.faithful.required (a := f.docstring), Signature.faithful.items (l := f.signatures)]

namespace CodeObject

theorem ofRecord?_fields {o : CodeObject} (h : o.location.line < UInt64.size) :
    ofRecord? o.kind (.named (("kind", kind) :: o.fields)) = some o := by
  cases o with
  | resourceType o => exact congrArg (Option.map _) (ResourceType.ofRecord?_fields h)
  | provider o => exact congrArg (Option.map _) (Provider.ofRecord?_fields h)
  | class_ o => exact congrArg (Option.map _) (PuppetClass.ofRecord?_fields h)
  | definedType o => exact congrArg (Option.map _) (DefinedType.ofRecord?_fields h)
  | function o => exact congrArg (Option.map _) (Function.ofRecord?_fields h)
  | dataType o => exact congrArg (Option.map _) (DataType.ofRecord?_fields h)
  | dataTypeAlias o => exact congrArg (Option.map _) (DataTypeAlias.ofRecord?_fields h)
  | plan o => exact congrArg (Option.map _) (Plan.ofRecord?_fields h)

theorem ofJson?_written {o : CodeObject} (h : o.location.line < UInt64.size) : ofJson? o.toJson = some o := by
  have kind : (Record.named (("kind", .string o.kind.name) :: o.fields)).required asString? 0 "kind" =
      some o.kind.name := faithful_string.required Record.get?_cons
  simp [toJson, ofJson?, kind, ObjectKind.ofName?_name, ofRecord?_fields h]

end CodeObject

/-- Every object with a line of 64 bits is read back from what is written for it, and the
objects of a registry, in their order, from the list of them all. -/
theorem written_objects_read_back :
    (∀ o : CodeObject, o.location.line < UInt64.size → CodeObject.ofJson? o.toJson = some o) ∧
      ∀ r : Registry, (∀ o ∈ r.objects, o.location.line < UInt64.size) →
        Registry.objectsOfJson? r.toJson = some r.objects :=
  ⟨fun _ h => CodeObject.ofJson?_written h,
    fun _ h => mapM_of_back fun o mem => CodeObject.ofJson?_written (h o mem)⟩

/-- A type whose aliases are not in alphabetical order, with a tag that has types and no text. -/
def packageType : CodeObject :=
  .resourceType {
    name := "package"
    location := ⟨"package.rb", 1⟩
    docstring := { text := "A package.", tags := [{ name := "return", types := some ["Any", "Undef"] }] }
    properties := [{ name := "ensure", aliases := .ofList [("present", "installed"), ("gone", "absent")] }] }

/-- A provider on the last line there can be. -/
def gemProvider : CodeObject :=
  .provider {
    typeName := "package", name := "gem", location := ⟨"gem.rb", UInt64.size - 1⟩
    confines := [⟨"kernel", "linux"⟩]
    commands := [⟨"gem", "/usr/bin/gem"⟩] }

theorem package_read_back :
    CodeObject.ofJson? packageType.toJson = some packageType ∧
      Registry.objectsOfJson? (Registry.toJson ⟨[(gemProvider.key, gemProvider), (packageType.key, packageType)], []⟩) =
        some [gemProvider, packageType] :=
  ⟨written_objects_read_back.1 packageType (by decide),
    written_objects_read_back.2 ⟨[(gemProvider.key, gemProvider), (packageType.key, packageType)], []⟩ (by decide)⟩

end PuppetDocs
