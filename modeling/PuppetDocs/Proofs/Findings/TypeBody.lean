import PuppetDocs.Proofs.Findings.Search

/-
  PuppetDocs.Proofs.Findings.TypeBody — what the body of a resource type declares.

  Each statement of the body is read on its own (`typeItem_reads`) and appends what it declares
  (`OpenType.foldl_appends`), so the parameters, the features and, but for `ensure`, the
  properties of a type are those of its statements in their order. Of the statements that declare
  `ensurable` the last one is kept, with the number of properties in front of it
  (`OpenType.foldl_last_ensure?`): it comes to stand where it is written, unless a property is
  named `ensure` (`Declared`).

  A declaration without a literal name is noted once (`typeItem_unnamed`) and changes nothing
  else: `type_declared` compares a body with the same without that statement. A bare word is no
  declaration, except for `ensurable`: it may as well be a variable.
-/

namespace PuppetDocs

open Ruby

/-! ## Items -/

namespace TypeItem

def parameter? : TypeItem → Option Attribute
  | parameter a => some a
  | _ => none

/-- A property that is declared under its name, and not by `ensurable`. -/
def declared? : TypeItem → Option Attribute
  | property a => some a
  | _ => none

def feature? : TypeItem → Option Feature
  | feature f => some f
  | _ => none

def isEnsure : TypeItem → Bool
  | ensure _ => true
  | _ => false

end TypeItem

namespace OpenType

variable {t : OpenType} {a : Attribute} {is before after : List TypeItem}

theorem add_parameters (t : OpenType) (i : TypeItem) :
    (t.add i).type.parameters = t.type.parameters ++ i.parameter?.toList := by
  cases i <;> simp [add, TypeItem.parameter?, ResourceType.addAttribute, ResourceType.addFeature]

theorem add_properties (t : OpenType) (i : TypeItem) :
    (t.add i).type.properties = t.type.properties ++ i.declared?.toList := by
  cases i <;> simp [add, TypeItem.declared?, ResourceType.addAttribute, ResourceType.addFeature]

theorem add_features (t : OpenType) (i : TypeItem) :
    (t.add i).type.features = t.type.features ++ i.feature?.toList := by
  cases i <;> simp [add, TypeItem.feature?, ResourceType.addAttribute, ResourceType.addFeature]

/-- What each item appends, all of them append in their order. -/
theorem foldl_appends {α : Type} (field : OpenType → List α) {read : TypeItem → Option α}
    (hadd : ∀ t i, field (t.add i) = field t ++ (read i).toList) (is : List TypeItem) (t : OpenType) :
    field (is.foldl add t) = field t ++ is.filterMap read := by
  induction is generalizing t with
  | nil => exact (List.append_nil _).symm
  | cons i is ih =>
    rw [List.foldl_cons, ih, hadd, List.append_assoc]
    cases hread : read i with
    | none => rw [List.filterMap_cons_none hread, Option.toList_none, List.nil_append]
    | some x => rw [List.filterMap_cons_some hread, Option.toList_some, List.singleton_append]

theorem add_ensure? {i : TypeItem} (h : i.isEnsure = false) : (t.add i).ensure? = t.ensure? := by
  cases i <;> first | rfl | cases h

theorem foldl_ensure? (h : ∀ i ∈ is, i.isEnsure = false) : (is.foldl add t).ensure? = t.ensure? := by
  induction is generalizing t with
  | nil => rfl
  | cons i is ih =>
    rw [List.foldl_cons, ih fun j hj => h j (List.mem_cons_of_mem i hj), add_ensure? (h i List.mem_cons_self)]

/-- Only the last `ensurable` is kept, with the number of properties in front of it. -/
theorem foldl_last_ensure? (h : ∀ i ∈ after, i.isEnsure = false) :
    ((before ++ .ensure a :: after).foldl add t).ensure? =
      some ((t.type.properties ++ before.filterMap TypeItem.declared?).length, a) := by
  rw [List.foldl_append, List.foldl_cons, foldl_ensure? h,
    ← foldl_appends (fun t : OpenType => t.type.properties) add_properties]
  rfl

theorem close_none (h : t.ensure? = none) : t.close = t.type := by rw [close, h]

theorem property?_isSome (t : ResourceType) (name : String) :
    (t.property? name).isSome = true ↔ ∃ a ∈ t.properties, a.name = name := by
  simp [ResourceType.property?]

/-- A property that is named `ensure` overrides every `ensurable`. -/
theorem close_overridden (h : ∃ a ∈ t.type.properties, a.name = "ensure") : t.close = t.type := by
  unfold close
  split
  · rfl
  · rw [if_pos ((property?_isSome t.type "ensure").mpr h)]

theorem insertIdx_middle {α : Type} (front back : List α) (x : α) :
    (front ++ back).insertIdx front.length x = front ++ x :: back := by
  induction front with
  | nil => rfl
  | cons y front ih => exact congrArg (y :: ·) ih

theorem close_ensured {front back : List Attribute} (h : t.ensure? = some (front.length, a))
    (hproperties : t.type.properties = front ++ back) (hown : ∀ b ∈ t.type.properties, b.name ≠ "ensure") :
    t.close.properties = front ++ a :: back := by
  have hplain : ¬(t.type.property? "ensure").isSome = true := by
    rw [property?_isSome]
    rintro ⟨b, hb, hname⟩
    exact hown b hb hname
  have hindex : min front.length t.type.properties.length = front.length := by
    rw [hproperties, List.length_append]
    exact Nat.min_eq_left (Nat.le_add_right _ _)
  unfold close
  rw [h]
  dsimp only
  rw [if_neg hplain, hindex, hproperties, insertIdx_middle]

/-- The same type under another docstring, at another place. -/
def relabel (docstring : Docstring) (location : Location) (t : OpenType) : OpenType :=
  { t with type := { t.type with docstring, location } }

theorem add_relabel (docstring : Docstring) (location : Location) (t : OpenType) (i : TypeItem) :
    (t.relabel docstring location).add i = (t.add i).relabel docstring location := by
  cases i <;> rfl

theorem foldl_relabel (docstring : Docstring) (location : Location) (is : List TypeItem) (t : OpenType) :
    is.foldl add (t.relabel docstring location) = (is.foldl add t).relabel docstring location :=
  List.foldl_hom (relabel docstring location) (add_relabel docstring location)

theorem close_relabel (docstring : Docstring) (location : Location) (t : OpenType) :
    (t.relabel docstring location).close = { t.close with docstring, location } := by
  have hensure : (t.relabel docstring location).ensure? = t.ensure? := rfl
  have hproperty : (t.relabel docstring location).type.property? "ensure" = t.type.property? "ensure" := rfl
  unfold close
  rw [hensure, hproperty]
  cases t.ensure? with
  | none => rfl
  | some saved =>
    dsimp only
    by_cases hown : (t.type.property? "ensure").isSome = true
    · rw [if_pos hown, if_pos hown]
      rfl
    · rw [if_neg hown, if_neg hown]
      rfl

end OpenType

/-! ## Types -/

/-- The type that a body with these items declares. -/
def ResourceType.ofItems (name : String) (docstring : Docstring) (location : Location) (is : List TypeItem) :
    ResourceType :=
  (is.foldl OpenType.add { type := { name, docstring, location } }).close

namespace ResourceType

variable {name : String} {docstring : Docstring} {location : Location} {is before after : List TypeItem} {a : Attribute}

theorem ofItems_name (is : List TypeItem) : (ofItems name docstring location is).name = name := by
  rw [ofItems, OpenType.close_keeps ResourceType.name fun _ _ => rfl]
  exact Noted.foldl_keeps (fun t : OpenType => t.type.name)
    (OpenType.add_keeps ResourceType.name fun _ _ _ _ => rfl) is _

theorem ofItems_parameters (is : List TypeItem) :
    (ofItems name docstring location is).parameters = is.filterMap TypeItem.parameter? := by
  rw [ofItems, OpenType.close_keeps ResourceType.parameters fun _ _ => rfl]
  exact OpenType.foldl_appends (fun t : OpenType => t.type.parameters) OpenType.add_parameters is _

theorem ofItems_features (is : List TypeItem) :
    (ofItems name docstring location is).features = is.filterMap TypeItem.feature? := by
  rw [ofItems, OpenType.close_keeps ResourceType.features fun _ _ => rfl]
  exact OpenType.foldl_appends (fun t : OpenType => t.type.features) OpenType.add_features is _

/-- The properties before the end of the body. -/
theorem declared_properties (is : List TypeItem) :
    (is.foldl OpenType.add { type := { name, docstring, location } }).type.properties =
      is.filterMap TypeItem.declared? :=
  OpenType.foldl_appends (fun t : OpenType => t.type.properties) OpenType.add_properties is _

theorem properties_overridden (h : ∃ a ∈ is.filterMap TypeItem.declared?, a.name = "ensure") :
    (ofItems name docstring location is).properties = is.filterMap TypeItem.declared? := by
  rw [← declared_properties is] at h ⊢
  rw [ofItems, OpenType.close_overridden h]

theorem properties_plain (h : ∀ i ∈ is, i.isEnsure = false) :
    (ofItems name docstring location is).properties = is.filterMap TypeItem.declared? := by
  rw [ofItems, OpenType.close_none (OpenType.foldl_ensure? h), declared_properties]

/-- The last `ensurable` stands where it is written. -/
theorem properties_ensured (hafter : ∀ i ∈ after, i.isEnsure = false)
    (hown : ∀ b ∈ (before ++ .ensure a :: after).filterMap TypeItem.declared?, b.name ≠ "ensure") :
    (ofItems name docstring location (before ++ .ensure a :: after)).properties =
      before.filterMap TypeItem.declared? ++ a :: after.filterMap TypeItem.declared? := by
  refine OpenType.close_ensured (OpenType.foldl_last_ensure? hafter) ?_ ?_
  · rw [declared_properties, List.filterMap_append, List.filterMap_cons_none rfl]
  · rw [declared_properties]
    exact hown

/-- What is declared does not depend on how the type is documented and where it stands. -/
theorem ofItems_relabel (docstring' : Docstring) (location' : Location) (is : List TypeItem) :
    ofItems name docstring' location' is =
      { ofItems name docstring location is with docstring := docstring', location := location' } := by
  unfold ofItems
  rw [← OpenType.close_relabel, ← OpenType.foldl_relabel]
  rfl

end ResourceType

/-! ## Statements -/

/-- The call without receiver of a method. -/
def callOf? (method : String) (s : Node) : Option (Call Node) :=
  (s.call?.filter (·.isFree)).filter fun call => call.method == method

def AttributeKind.method : AttributeKind → String
  | .parameter => "newparam"
  | .property => "newproperty"

/-- The call of `ensurable`, if it is one and not a bare word. -/
def ensurable? (s : Node) : Option (Option (Call Node)) :=
  if s.bareWord? = some "ensurable" then some none else (callOf? "ensurable" s).map some

/-- A declaration without a literal name. -/
def Unnamed (s : Node) : Prop :=
  ∃ method ∈ ["newparam", "newproperty", "feature"], ∃ call, callOf? method s = some call ∧
    call.positional.head?.bind Node.literal? = none

namespace Context

/-- The attribute that a statement declares with a literal name. -/
def declared? (ctx : Context) (kind : AttributeKind) (typeName : String) (s : Node) : Option Attribute :=
  (callOf? kind.method s).bind fun call => (ctx.declaredAttribute s call kind typeName).toOption.map Noted.value

/-- The feature that a statement declares with a literal name. -/
def feature? (ctx : Context) (s : Node) : Option Feature :=
  (callOf? "feature" s).bind fun call => (ctx.feature s call).toOption.map Noted.value

end Context

section Methods

variable {s : Node} {method other : String} {call : Call Node}

theorem callOf?_other (h : callOf? method s = some call) (hne : method ≠ other) : callOf? other s = none := by
  obtain ⟨hcall, hmethod⟩ := Option.filter_eq_some_iff.mp h
  have hmethod : call.method = method := by simpa using hmethod
  unfold callOf?
  rw [hcall, Option.filter_some, if_neg]
  simpa [hmethod] using hne

theorem callOf?_unique {call' : Call Node} (h : callOf? method s = some call) (h' : callOf? other s = some call') :
    call = call' :=
  Option.some.inj ((Option.filter_eq_some_iff.mp h).1.symm.trans (Option.filter_eq_some_iff.mp h').1)

theorem ensurable?_of_callOf? (h : callOf? method s = some call) (hne : method ≠ "ensurable") : ensurable? s = none := by
  have hnobare : ¬s.bareWord? = some "ensurable" := by
    obtain ⟨hcall, -⟩ := Option.filter_eq_some_iff.mp (Option.filter_eq_some_iff.mp h).1
    unfold Node.call? at hcall
    split at hcall
    · next c hkind => simp [Node.bareWord?, hkind]
    · cases hcall
  unfold ensurable?
  rw [if_neg hnobare, callOf?_other h hne, Option.map_none]

theorem callOf?_of_ensurable? {call : Option (Call Node)} (h : ensurable? s = some call) (hne : method ≠ "ensurable") :
    callOf? method s = none := by
  cases hcall : callOf? method s with
  | none => rfl
  | some c =>
    rw [ensurable?_of_callOf? hcall hne] at h
    cases h

/-- What a statement is taken for, by its method. -/
theorem attributeCall_method (s : Node) :
    (∃ kind call, AttributeCall.ofNode? s = some (.declare kind call) ∧ callOf? kind.method s = some call) ∨
    (∃ call, AttributeCall.ofNode? s = some (.ensurable call) ∧ ensurable? s = some call) ∨
    (∃ call, AttributeCall.ofNode? s = some (.feature call) ∧ callOf? "feature" s = some call) ∨
    (AttributeCall.ofNode? s = none ∧ ensurable? s = none ∧
      ∀ method ∈ ["newparam", "newproperty", "feature"], callOf? method s = none) := by
  unfold AttributeCall.ofNode? ensurable?
  by_cases hbare : s.bareWord? = some "ensurable"
  · rw [if_pos hbare, if_pos hbare]
    exact .inr (.inl ⟨none, rfl, rfl⟩)
  · rw [if_neg hbare, if_neg hbare]
    unfold callOf?
    cases s.call?.filter (·.isFree) with
    | none => exact .inr (.inr (.inr ⟨rfl, rfl, fun _ _ => rfl⟩))
    | some call =>
      rw [Option.bind_some]
      split
      · next hm => exact .inl ⟨.parameter, call, rfl, by simp [AttributeKind.method, hm]⟩
      · next hm => exact .inl ⟨.property, call, rfl, by simp [AttributeKind.method, hm]⟩
      · next hm => exact .inr (.inl ⟨some call, rfl, by simp [hm]⟩)
      · next hm => exact .inr (.inr (.inl ⟨call, rfl, by simp [hm]⟩))
      · next hparam hproperty hensurable hfeature =>
        exact .inr (.inr (.inr ⟨rfl, by simpa using hensurable, by simpa using ⟨hparam, hproperty, hfeature⟩⟩))

end Methods

namespace Context

/-- What is read off the item that a statement gives is what the statement declares. -/
structure ItemOf (ctx : Context) (typeName : String) (s : Node) : Prop where
  parameter : (ctx.typeItem typeName s).value.bind TypeItem.parameter? = ctx.declared? .parameter typeName s
  property : (ctx.typeItem typeName s).value.bind TypeItem.declared? = ctx.declared? .property typeName s
  feature : (ctx.typeItem typeName s).value.bind TypeItem.feature? = ctx.feature? s
  isEnsure : (ctx.typeItem typeName s).value.any TypeItem.isEnsure = (ensurable? s).isSome
  ensure : ∀ call, ensurable? s = some call →
    (ctx.typeItem typeName s).value = some (.ensure (ctx.ensure call typeName).value)

variable {ctx : Context} {typeName : String} {s : Node}

theorem ofResult_value {α : Type} (e : Except Problem (Noted α)) :
    (Noted.ofResult e).value = e.toOption.map Noted.value := by
  cases e <;> rfl

theorem declared?_none {kind : AttributeKind} (h : callOf? kind.method s = none) :
    ctx.declared? kind typeName s = none := by
  rw [declared?, h, Option.bind_none]

theorem feature?_none (h : callOf? "feature" s = none) : ctx.feature? s = none := by rw [feature?, h, Option.bind_none]

theorem typeItem_parameter {call : Call Node} (hs : AttributeCall.ofNode? s = some (.declare .parameter call))
    (hcall : callOf? "newparam" s = some call) :
    (ctx.typeItem typeName s).value = (ctx.declared? .parameter typeName s).map .parameter := by
  unfold typeItem declared?
  rw [hs, AttributeKind.method, hcall, Option.bind_some, ← ofResult_value]
  rfl

theorem typeItem_property {call : Call Node} (hs : AttributeCall.ofNode? s = some (.declare .property call))
    (hcall : callOf? "newproperty" s = some call) :
    (ctx.typeItem typeName s).value = (ctx.declared? .property typeName s).map .property := by
  unfold typeItem declared?
  rw [hs, AttributeKind.method, hcall, Option.bind_some, ← ofResult_value]
  rfl

theorem typeItem_feature {call : Call Node} (hs : AttributeCall.ofNode? s = some (.feature call))
    (hcall : callOf? "feature" s = some call) : (ctx.typeItem typeName s).value = (ctx.feature? s).map .feature := by
  unfold typeItem feature?
  rw [hs, hcall, Option.bind_some, ← ofResult_value]
  rfl

theorem typeItem_ensurable {call : Option (Call Node)} (hs : AttributeCall.ofNode? s = some (.ensurable call)) :
    (ctx.typeItem typeName s).value = some (.ensure (ctx.ensure call typeName).value) := by
  unfold typeItem
  rw [hs]
  rfl

theorem typeItem_none (hs : AttributeCall.ofNode? s = none) : ctx.typeItem typeName s = pure none := by
  unfold typeItem
  rw [hs]

theorem typeItem_reads (ctx : Context) (typeName : String) (s : Node) : ctx.ItemOf typeName s := by
  rcases attributeCall_method s with ⟨kind, call, hs, hcall⟩ | ⟨call, hs, hensurable⟩ | ⟨call, hs, hcall⟩ |
    ⟨hs, hensurable, hnone⟩
  case inl =>
    have hensurable : ensurable? s = none := ensurable?_of_callOf? hcall (by cases kind <;> decide)
    have hfeature : ctx.feature? s = none := feature?_none (callOf?_other hcall (by cases kind <;> decide))
    cases kind with
    | parameter =>
      have hitem : (ctx.typeItem typeName s).value = _ := typeItem_parameter hs hcall
      have hproperty : ctx.declared? .property typeName s = none := declared?_none (callOf?_other hcall (by decide))
      cases hparameter : ctx.declared? .parameter typeName s
      all_goals constructor <;> simp [*, TypeItem.parameter?, TypeItem.declared?, TypeItem.feature?, TypeItem.isEnsure]
    | property =>
      have hitem : (ctx.typeItem typeName s).value = _ := typeItem_property hs hcall
      have hparameter : ctx.declared? .parameter typeName s = none := declared?_none (callOf?_other hcall (by decide))
      cases hproperty : ctx.declared? .property typeName s
      all_goals constructor <;> simp [*, TypeItem.parameter?, TypeItem.declared?, TypeItem.feature?, TypeItem.isEnsure]
  case inr.inl =>
    have hitem : (ctx.typeItem typeName s).value = _ := typeItem_ensurable hs
    have hparameter : ctx.declared? .parameter typeName s = none :=
      declared?_none (callOf?_of_ensurable? hensurable (by decide))
    have hproperty : ctx.declared? .property typeName s = none :=
      declared?_none (callOf?_of_ensurable? hensurable (by decide))
    have hfeature : ctx.feature? s = none := feature?_none (callOf?_of_ensurable? hensurable (by decide))
    constructor <;> simp [*, TypeItem.parameter?, TypeItem.declared?, TypeItem.feature?, TypeItem.isEnsure]
  case inr.inr.inl =>
    have hitem : (ctx.typeItem typeName s).value = _ := typeItem_feature hs hcall
    have hensurable : ensurable? s = none := ensurable?_of_callOf? hcall (by decide)
    have hparameter : ctx.declared? .parameter typeName s = none := declared?_none (callOf?_other hcall (by decide))
    have hproperty : ctx.declared? .property typeName s = none := declared?_none (callOf?_other hcall (by decide))
    cases hfeature : ctx.feature? s
    all_goals constructor <;> simp [*, TypeItem.parameter?, TypeItem.declared?, TypeItem.feature?, TypeItem.isEnsure]
  case inr.inr.inr =>
    have hitem : (ctx.typeItem typeName s).value = none := by rw [typeItem_none hs]; rfl
    have hparameter : ctx.declared? .parameter typeName s = none := declared?_none (hnone _ (by decide))
    have hproperty : ctx.declared? .property typeName s = none := declared?_none (hnone _ (by decide))
    have hfeature : ctx.feature? s = none := feature?_none (hnone _ (by decide))
    constructor <;> simp [*]

/-! ## Names -/

theorem attributeStatement_name (a : Attribute) (s : Node) : (ctx.attributeStatement a s).value.name = a.name := by
  unfold attributeStatement
  split
  · rfl
  split
  · rfl
  split
  · exact Noted.foldl_keeps Attribute.name (g := Attribute.addValue) (fun _ _ => rfl) _ a
  · exact Noted.foldl_keeps Attribute.name (g := Attribute.addValue) (fun _ _ => rfl) _ a
  · split <;> rfl
  all_goals rfl

theorem attributeBody_name (a : Attribute) (ss : List Node) : (ctx.attributeBody a ss).value.name = a.name := by
  unfold attributeBody
  rw [Noted.foldlM_value]
  exact Noted.foldl_keeps Attribute.name attributeStatement_name ss a

/-- The literal name that a call of the method gives to what it declares. -/
def literalName? (method : String) (s : Node) : Option String :=
  (callOf? method s).bind fun call => call.positional.head?.bind Node.literal?

theorem toOption_bind {α β : Type} (e : Except Problem α) (f : α → Except Problem β) :
    (e >>= f).toOption = e.toOption.bind fun a => (f a).toOption := by
  cases e <;> rfl

/-- There is an attribute for each literal name, and it has this name. -/
theorem declared?_name (kind : AttributeKind) (typeName : String) (s : Node) :
    (ctx.declared? kind typeName s).map Attribute.name = literalName? kind.method s := by
  unfold declared? literalName?
  cases callOf? kind.method s with
  | none => rfl
  | some call =>
    rw [Option.bind_some, Option.bind_some, ← ctx.requiredName_toOption s, declaredAttribute, toOption_bind]
    cases ctx.requiredName s call with
    | error p => rfl
    | ok name => exact congrArg some (attributeBody_name _ _)

theorem feature?_name (s : Node) : (ctx.feature? s).map Feature.name = literalName? "feature" s := by
  unfold feature? literalName?
  cases callOf? "feature" s with
  | none => rfl
  | some call =>
    rw [Option.bind_some, Option.bind_some, ← ctx.requiredName_toOption s, feature, toOption_bind]
    cases ctx.requiredName s call with
    | error p => rfl
    | ok name => cases call.positional[1]? <;> rfl

theorem ensure_name (call : Option (Call Node)) (typeName : String) :
    (ctx.ensure call typeName).value.name = "ensure" := by
  unfold ensure
  split
  · rfl
  · next block hblock =>
    have hpresence : ∀ (b : Bool) (a : Attribute), (if b then addPresence a else a).name = a.name := fun b a => by
      cases b <;> rfl
    cases findDocstring block.body <;> exact (hpresence _ _).trans (attributeBody_name _ _)

/-! ## Bodies -/

/-- The items of a body, in the order of its statements. -/
def items (ctx : Context) (typeName : String) (ss : List Node) : List TypeItem :=
  ss.filterMap fun s => (ctx.typeItem typeName s).value

theorem items_parameter (ss : List Node) :
    (ctx.items typeName ss).filterMap TypeItem.parameter? = ss.filterMap (ctx.declared? .parameter typeName) := by
  unfold items
  rw [List.filterMap_filterMap]
  exact List.filterMap_congr fun s _ => (typeItem_reads ctx typeName s).parameter

theorem items_declared (ss : List Node) :
    (ctx.items typeName ss).filterMap TypeItem.declared? = ss.filterMap (ctx.declared? .property typeName) := by
  unfold items
  rw [List.filterMap_filterMap]
  exact List.filterMap_congr fun s _ => (typeItem_reads ctx typeName s).property

theorem items_feature (ss : List Node) :
    (ctx.items typeName ss).filterMap TypeItem.feature? = ss.filterMap ctx.feature? := by
  unfold items
  rw [List.filterMap_filterMap]
  exact List.filterMap_congr fun s _ => (typeItem_reads ctx typeName s).feature

theorem items_isEnsure {ss : List Node} (h : ∀ s ∈ ss, ensurable? s = none) :
    ∀ i ∈ ctx.items typeName ss, i.isEnsure = false := by
  intro i hi
  obtain ⟨s, hs, hitem⟩ := List.mem_filterMap.mp hi
  have hreads := (typeItem_reads ctx typeName s).isEnsure
  rw [hitem, h s hs, Option.any_some] at hreads
  exact hreads

/-- What a type has is what the statements of its body declare, in their order. -/
structure Declared (ctx : Context) (typeName : String) (ss : List Node) (type : ResourceType) : Prop where
  parameters : type.parameters = ss.filterMap (ctx.declared? .parameter typeName)
  features : type.features = ss.filterMap ctx.feature?
  /-- A property of the name counts, and not `ensurable`. -/
  overridden : (∃ a ∈ ss.filterMap (ctx.declared? .property typeName), a.name = "ensure") →
    type.properties = ss.filterMap (ctx.declared? .property typeName)
  /-- The last `ensurable` stands where it is written. -/
  ensured : (∀ a ∈ ss.filterMap (ctx.declared? .property typeName), a.name ≠ "ensure") →
    ∀ before s after call, ss = before ++ s :: after → ensurable? s = some call → (∀ x ∈ after, ensurable? x = none) →
      type.properties = before.filterMap (ctx.declared? .property typeName) ++
        (ctx.ensure call typeName).value :: after.filterMap (ctx.declared? .property typeName)
  plain : (∀ s ∈ ss, ensurable? s = none) → type.properties = ss.filterMap (ctx.declared? .property typeName)

theorem declared_items (docstring : Docstring) (location : Location) (ss : List Node) :
    ctx.Declared typeName ss (.ofItems typeName docstring location (ctx.items typeName ss)) where
  parameters := (ResourceType.ofItems_parameters _).trans (items_parameter ss)
  features := (ResourceType.ofItems_features _).trans (items_feature ss)
  overridden := by
    intro hown
    rw [← items_declared] at hown ⊢
    exact ResourceType.properties_overridden hown
  ensured := by
    rintro hown before s after call rfl hs hafter
    have hsplit : ctx.items typeName (before ++ s :: after) =
        ctx.items typeName before ++ .ensure (ctx.ensure call typeName).value :: ctx.items typeName after := by
      unfold items
      rw [List.filterMap_append, List.filterMap_cons, (typeItem_reads ctx typeName s).ensure call hs]
    rw [← items_declared, hsplit] at hown
    rw [hsplit, ResourceType.properties_ensured (items_isEnsure hafter) hown, items_declared, items_declared]
  plain := by
    intro hnone
    rw [ResourceType.properties_plain (items_isEnsure hnone), items_declared]

/-! ## Declarations without a name -/

/-- A declaration without a literal name gives nothing and is noted once. -/
theorem typeItem_unnamed (h : Unnamed s) (ctx : Context) (typeName : String) :
    ∃ message, ctx.typeItem typeName s = ⟨none, [(ctx.undocumentable s.line message).toDiagnostic]⟩ := by
  obtain ⟨method, hmethod, call, hcall, hname⟩ := h
  rcases attributeCall_method s with ⟨kind, call', hs, hcall'⟩ | ⟨call', hs, hensurable⟩ | ⟨call', hs, hcall'⟩ |
    ⟨-, -, hnone⟩
  · obtain rfl := callOf?_unique hcall hcall'
    obtain ⟨message, herror⟩ : ∃ message, ctx.requiredName s call = .error (ctx.undocumentable s.line message) :=
      requiredName_error hname
    have hdeclared : ctx.declaredAttribute s call kind typeName = .error (ctx.undocumentable s.line message) := by
      rw [declaredAttribute, herror]
      rfl
    refine ⟨message, ?_⟩
    unfold typeItem
    rw [hs]
    cases kind <;> simp only [hdeclared] <;> rfl
  · rw [callOf?_of_ensurable? hensurable (fun h => absurd (h ▸ hmethod) (by decide))] at hcall
    cases hcall
  · obtain rfl := callOf?_unique hcall hcall'
    obtain ⟨message, herror⟩ : ∃ message, ctx.requiredName s call = .error (ctx.undocumentable s.line message) :=
      requiredName_error hname
    have hfeature : ctx.feature s call = .error (ctx.undocumentable s.line message) := by
      rw [feature, herror]
      rfl
    refine ⟨message, ?_⟩
    unfold typeItem
    rw [hs]
    simp only [hfeature]
    rfl
  · rw [hnone method hmethod] at hcall
    cases hcall

/-! ## Resource types -/

variable {statement : Node} {call : Call Node} {name : String}

theorem typeStatement_notes (typeName : String) (t : OpenType) (s : Node) :
    (ctx.typeStatement typeName t s).notes = (ctx.typeItem typeName s).notes := by
  unfold typeStatement
  rw [Noted.bind_notes]
  cases (ctx.typeItem typeName s).value <;> exact List.append_nil _

/-- The statements of a body add their items, one after the other. -/
theorem typeStatements_value (typeName : String) (ss : List Node) (t : OpenType) :
    (ss.foldlM (ctx.typeStatement typeName) t).value = (ctx.items typeName ss).foldl OpenType.add t := by
  unfold items
  rw [Noted.foldlM_value, List.foldl_filterMap]
  refine congrArg (fun step => ss.foldl step t) (funext fun t => funext fun s => ?_)
  rw [typeStatement_value]
  cases (ctx.typeItem typeName s).value <;> rfl

/-- A resource type whose name is a literal is found, with what its statements declare. -/
theorem resourceType_ok (ctx : Context) (statement : Node)
    (hname : call.positional.head?.bind Node.literal? = some name) :
    ∃ found docstring location, ctx.resourceType statement call = .ok found ∧
      found.value = .object (.resourceType (.ofItems name docstring location (ctx.items name call.blockStatements))) ∧
      found.coded .undocumentable =
        (call.blockStatements.flatMap fun s => (ctx.typeItem name s).notes).filter (·.hasCode .undocumentable) := by
  unfold resourceType
  rw [requiredName_ok hname]
  refine ⟨_, (ctx.docstring (searchType call) (resourceTypeSubject name) statement.line).value,
    ctx.location statement.line, rfl, ?_, ?_⟩
  · rw [ResourceType.ofItems, ← typeStatements_value]
    rfl
  · rw [Noted.bind_coded, docstring_other (by decide) (by decide), List.nil_append, Noted.bind_coded, Noted.pure_coded,
      List.append_nil, Noted.coded, Noted.foldlM_notes (typeStatement_notes name)]

theorem items_unnamed (h : Unnamed s) (before after : List Node) :
    ctx.items typeName (before ++ s :: after) = ctx.items typeName (before ++ after) := by
  obtain ⟨message, hitem⟩ := typeItem_unnamed h ctx typeName
  unfold items
  rw [List.filterMap_append, List.filterMap_cons_none (by rw [hitem]), ← List.filterMap_append]

/-- A type has what the statements of its body declare with literal names, in their order, and `ensure` where the last
`ensurable` stands unless a property has this name. A declaration without a literal name is noted once and changes
nothing else. -/
theorem type_declared (ctx : Context) (statement : Node)
    (hname : call.positional.head?.bind Node.literal? = some name) :
    (∀ kind s, (ctx.declared? kind name s).map Attribute.name = literalName? kind.method s) ∧
    (∀ s, (ctx.feature? s).map Feature.name = literalName? "feature" s) ∧
    (∀ c, (ctx.ensure c name).value.name = "ensure") ∧
    ∃ found type, ctx.resourceType statement call = .ok found ∧ found.value = .object (.resourceType type) ∧
      type.name = name ∧ ctx.Declared name call.blockStatements type ∧
      ∀ (before after : List Node) (s statement' : Node) (call' : Call Node), Unnamed s →
        call.blockStatements = before ++ s :: after → call'.blockStatements = before ++ after →
        call'.positional = call.positional →
        ∃ found' type', ctx.resourceType statement' call' = .ok found' ∧
          found'.value = .object (.resourceType type') ∧ type'.parameters = type.parameters ∧
          type'.properties = type.properties ∧ type'.features = type.features ∧
          ∃ front back message, found'.coded .undocumentable = front ++ back ∧
            found.coded .undocumentable = front ++ (ctx.undocumentable s.line message).toDiagnostic :: back := by
  refine ⟨fun kind s => declared?_name kind name s, feature?_name, fun c => ensure_name c name, ?_⟩
  obtain ⟨found, docstring, location, hok, hvalue, hnotes⟩ := resourceType_ok ctx statement hname
  refine ⟨found, _, hok, hvalue, ResourceType.ofItems_name _, declared_items docstring location _, ?_⟩
  intro before after s statement' call' hs hbody hbody' hpositional
  rw [← hpositional] at hname
  obtain ⟨found', docstring', location', hok', hvalue', hnotes'⟩ := resourceType_ok ctx statement' hname
  have hitems : ctx.items name call'.blockStatements = ctx.items name call.blockStatements := by
    rw [hbody, hbody', items_unnamed hs]
  rw [hitems, ResourceType.ofItems_relabel docstring' location'] at hvalue'
  obtain ⟨message, hitem⟩ := typeItem_unnamed hs ctx name
  refine ⟨found', _, hok', hvalue', rfl, rfl, rfl,
    (before.flatMap fun s => (ctx.typeItem name s).notes).filter (·.hasCode .undocumentable),
    (after.flatMap fun s => (ctx.typeItem name s).notes).filter (·.hasCode .undocumentable), message, ?_, ?_⟩
  · rw [hnotes', hbody', List.flatMap_append, List.filter_append]
  · rw [hnotes, hbody, List.flatMap_append, List.flatMap_cons, hitem, List.filter_append, List.singleton_append,
      List.filter_cons_of_pos rfl]

end Context

def pathParameter : Node := callNode (freeCall "newparam" [textNode "path"] none)

def modeProperty : Node := callNode (freeCall "newproperty" [textNode "mode"] none)

def namelessParameter : Node := callNode (freeCall "newparam" [nodeOf .nil] none)

def fileType (body : List Node) : Call Node := freeCall "newtype" [textNode "file"] (some body)

/-- `ensurable` in front of a property, behind it a parameter without a name. -/
theorem type_declared_file :
    ∃ found type found' type',
      emptyFile.resourceType portDoc
        (fileType [pathParameter, nodeOf (.ident "ensurable"), modeProperty, namelessParameter]) = .ok found ∧
      emptyFile.resourceType portDoc (fileType [pathParameter, nodeOf (.ident "ensurable"), modeProperty]) = .ok found' ∧
      found.value = .object (.resourceType type) ∧ found'.value = .object (.resourceType type') ∧
      type.parameters.map (·.name) = ["path"] ∧ type.properties.map (·.name) = ["ensure", "mode"] ∧
      type'.properties = type.properties ∧
      (found.coded .undocumentable).length = (found'.coded .undocumentable).length + 1 := by
  have hname : (fileType [pathParameter, nodeOf (.ident "ensurable"), modeProperty, namelessParameter]).positional.head?.bind
      Node.literal? = some "file" := rfl
  obtain ⟨-, -, hensure, found, type, hok, hvalue, -, hdeclared, hnameless⟩ :=
    Context.type_declared emptyFile portDoc hname
  have hproperties := hdeclared.ensured (by decide) [pathParameter] (nodeOf (.ident "ensurable"))
    [modeProperty, namelessParameter] none rfl rfl (by decide)
  obtain ⟨found', type', hok', hvalue', -, hsame, -, front, back, message, hplain, hnotes⟩ :=
    hnameless [pathParameter, nodeOf (.ident "ensurable"), modeProperty] [] namelessParameter portDoc
      (fileType [pathParameter, nodeOf (.ident "ensurable"), modeProperty])
      ⟨"newparam", by decide, _, rfl, rfl⟩ rfl rfl rfl
  refine ⟨found, type, found', type', hok, hok', hvalue, hvalue', ?_, ?_, hsame, ?_⟩
  · rw [hdeclared.parameters]
    rfl
  · rw [hproperties, List.map_append, List.map_cons, hensure]
    rfl
  · rw [hplain, hnotes, List.length_append, List.length_append, List.length_cons, Nat.add_assoc]

end PuppetDocs
