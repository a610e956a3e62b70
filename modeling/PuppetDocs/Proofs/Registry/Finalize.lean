import PuppetDocs.Proofs.Registry.Entries

/-
  PuppetDocs.Proofs.Registry.Finalize — what the end of a run makes of a registry.

  The three passes are edits of resource types, each under its own name, behind the stubs that
  the first pass appends (`applyExtensions_eq`, `linkProviders_eq`). Together they complete every
  resource type with what the registry says about it elsewhere (`Registry.complete`), which a
  second time is nothing.
-/

namespace PuppetDocs

/-! ## What a resource type is completed to -/

def Attribute.flag (a : Attribute) : Attribute := { a with namevar := true }

/-- Flags the first attribute called `name`. -/
def flagFirst (as : List Attribute) : List Attribute := as.modify (as.findIdx fun a => a.name = "name") Attribute.flag

/-- With an attribute called `name` flagged if none is, a property before a parameter. -/
def ResourceType.withNamevar (t : ResourceType) : ResourceType :=
  if (t.properties ++ t.parameters).any Attribute.namevar then t
  else if t.properties.any fun a => a.name = "name" then { t with properties := flagFirst t.properties }
  else { t with parameters := flagFirst t.parameters }

/-- The attributes of this kind that extensions of the type called `name` declare, in order. -/
def attributesFor (xs : List TypeExtension) (name : String) (kind : AttributeKind) : List Attribute :=
  (xs.filter fun x => x.typeName = name ∧ x.kind = kind).map TypeExtension.declared

/-- The names of the providers of the type called `name`, in order. -/
def providersFor (ps : List Provider) (name : String) : List String :=
  (ps.filter fun p => p.typeName = name).map Provider.name

namespace Registry

/-- The resource type with all that is said about it elsewhere in the registry. -/
def complete (r : Registry) (t : ResourceType) : ResourceType :=
  ResourceType.withNamevar { t with
    parameters := t.parameters ++ attributesFor r.extensions t.name .parameter
    properties := t.properties ++ attributesFor r.extensions t.name .property
    providers := t.providers ++ ((providersFor r.providers t.name).filter (· ∉ t.providers)).eraseDups }

/-- The first extension of each type without a resource type, in the order of first mention. -/
def firstUndeclared (es : Entries) (xs : List TypeExtension) : List TypeExtension :=
  (xs.filter fun x => !declares es x.typeName).eraseDupsBy fun x y => x.typeName == y.typeName

end Registry

/-! ## The name variable -/

theorem flagName_eq (as : List Attribute) :
    flagName as = if as.any fun a => a.name = "name" then some (flagFirst as) else none := by
  induction as with
  | nil => rfl
  | cons a as ih =>
    by_cases h : a.name = "name"
    · simp [flagName, h, flagFirst, List.findIdx_cons, Attribute.flag]
    · rw [flagName, if_neg h, ih]
      by_cases hany : as.any fun a => a.name = "name"
      · simp [h, hany, flagFirst, List.findIdx_cons]
      · simp [h, hany]

theorem flagFirst_of_none {as : List Attribute} (h : (as.any fun a => a.name = "name") = false) :
    flagFirst as = as := by
  refine List.modify_eq_self (Nat.le_of_eq (List.findIdx_eq_length_of_false fun a ha => ?_).symm)
  simpa using List.any_eq_false.mp h a ha

theorem any_flagFirst {as : List Attribute} (h : (as.any fun a => a.name = "name") = true) :
    (flagFirst as).any Attribute.namevar = true := by
  induction as with
  | nil => cases h
  | cons a as ih =>
    by_cases ha : a.name = "name"
    · simp [flagFirst, List.findIdx_cons, ha, Attribute.flag]
    · have hrest : flagFirst (a :: as) = a :: flagFirst as := by simp [flagFirst, List.findIdx_cons, ha]
      rw [List.any_cons, decide_eq_false ha, Bool.false_or] at h
      rw [hrest, List.any_cons, ih h, Bool.or_true]

namespace ResourceType

theorem defaultNamevar_eq (t : ResourceType) : t.defaultNamevar = t.withNamevar := by
  unfold defaultNamevar withNamevar hasNamevar
  rw [flagName_eq, flagName_eq]
  by_cases hflag : (t.properties ++ t.parameters).any Attribute.namevar = true
  · rw [if_pos hflag, if_pos hflag]
  · rw [if_neg hflag, if_neg hflag]
    by_cases hproperty : (t.properties.any fun a => a.name = "name") = true
    · rw [if_pos hproperty, if_pos hproperty]
    · rw [if_neg hproperty, if_neg hproperty]
      by_cases hparameter : (t.parameters.any fun a => a.name = "name") = true
      · rw [if_pos hparameter]
      · rw [if_neg hparameter, flagFirst_of_none (Bool.eq_false_iff.mpr hparameter)]

@[simp] theorem withNamevar_name (t : ResourceType) : t.withNamevar.name = t.name := by
  unfold withNamevar
  split
  · rfl
  · split <;> rfl

@[simp] theorem withNamevar_providers (t : ResourceType) : t.withNamevar.providers = t.providers := by
  unfold withNamevar
  split
  · rfl
  · split <;> rfl

theorem withNamevar_of_flagged {t : ResourceType} (h : (t.properties ++ t.parameters).any Attribute.namevar = true) :
    t.withNamevar = t := if_pos h

theorem withNamevar_withNamevar (t : ResourceType) : t.withNamevar.withNamevar = t.withNamevar := by
  by_cases hflag : (t.properties ++ t.parameters).any Attribute.namevar = true
  · rw [withNamevar_of_flagged hflag, withNamevar_of_flagged hflag]
  · have hsame : t.withNamevar = if t.properties.any fun a => a.name = "name" then
        { t with properties := flagFirst t.properties } else { t with parameters := flagFirst t.parameters } :=
      if_neg hflag
    by_cases hproperty : (t.properties.any fun a => a.name = "name") = true
    · rw [if_pos hproperty] at hsame
      rw [hsame]
      refine withNamevar_of_flagged ?_
      rw [List.any_append, any_flagFirst hproperty, Bool.true_or]
    · rw [if_neg hproperty] at hsame
      by_cases hparameter : (t.parameters.any fun a => a.name = "name") = true
      · rw [hsame]
        refine withNamevar_of_flagged ?_
        rw [List.any_append, any_flagFirst hparameter, Bool.or_true]
      · rw [flagFirst_of_none (Bool.eq_false_iff.mpr hparameter)] at hsame
        rw [hsame, hsame]

end ResourceType

/-! ## Edits of resource types -/

/-- Does `f` to every resource type. -/
def mapTypes (f : ResourceType → ResourceType) (es : Entries) : Entries := es.map fun e => (e.1, e.2.mapType f)

/-- Does `f` to the resource type called `name`. -/
def onType (name : String) (f : ResourceType → ResourceType) (t : ResourceType) : ResourceType :=
  if t.name = name then f t else t

/-- Every object stands under its own key. -/
def Entries.Own (es : Entries) : Prop := ∀ e ∈ es, e.1 = e.2.key

@[simp] theorem CodeObject.mapType_mapType (f g : ResourceType → ResourceType) (o : CodeObject) :
    (o.mapType f).mapType g = o.mapType (g ∘ f) := by
  cases o <;> rfl

theorem CodeObject.key_mapType {f : ResourceType → ResourceType} (hf : ∀ t, (f t).name = t.name) (o : CodeObject) :
    (o.mapType f).key = o.key := by
  cases o with
  | resourceType t => exact congrArg (ObjectKey.mk .resourceType "") (hf t)
  | _ => rfl

theorem CodeObject.mapType_of_eq {f : ResourceType → ResourceType} (hf : ∀ t, f t = t) (o : CodeObject) :
    o.mapType f = o := by
  cases o with
  | resourceType t => exact congrArg CodeObject.resourceType (hf t)
  | _ => rfl

theorem mapTypes_mapTypes (f g : ResourceType → ResourceType) (es : Entries) :
    mapTypes g (mapTypes f es) = mapTypes (g ∘ f) es := by
  simp [mapTypes, Function.comp_def]

theorem mapTypes_append (f : ResourceType → ResourceType) (es es' : Entries) :
    mapTypes f (es ++ es') = mapTypes f es ++ mapTypes f es' := List.map_append

@[simp] theorem keys_mapTypes (f : ResourceType → ResourceType) (es : Entries) :
    (mapTypes f es).map Prod.fst = es.map Prod.fst := by
  simp [mapTypes]

theorem mapTypes_of_eq {f : ResourceType → ResourceType} (hf : ∀ t, f t = t) (es : Entries) : mapTypes f es = es := by
  have hentry : ∀ e : ObjectKey × CodeObject, (e.1, e.2.mapType f) = e := fun e => by rw [e.2.mapType_of_eq hf]
  simp [mapTypes, hentry]

theorem Entries.Own.mapTypes {es : Entries} (h : es.Own) {f : ResourceType → ResourceType}
    (hf : ∀ t, (f t).name = t.name) : (mapTypes f es).Own := by
  intro e he
  obtain ⟨e', he', rfl⟩ := List.mem_map.mp he
  exact (h e' he').trans (e'.2.key_mapType hf).symm

theorem name_onType {name : String} {f : ResourceType → ResourceType} (hf : ∀ t, (f t).name = t.name)
    (t : ResourceType) : (onType name f t).name = t.name := by
  unfold onType
  split
  · exact hf t
  · rfl

namespace Registry

/-- The resource type under a key is the one of that name. -/
theorem updateType_eq {es : Entries} (h : es.Own) (name : String) (f : ResourceType → ResourceType) :
    updateType es name f = mapTypes (onType name f) es := by
  refine List.map_congr_left fun e he => ?_
  obtain ⟨key, o⟩ := e
  have hkey : key = o.key := h _ he
  refine congrArg (Prod.mk key) ?_
  subst hkey
  cases o with
  | resourceType t =>
    by_cases hname : t.name = name
    · have hkey : (CodeObject.resourceType t).key = typeKey name := congrArg typeKey hname
      exact (if_pos hkey).trans (congrArg CodeObject.resourceType (if_pos hname).symm)
    · have hkey : (CodeObject.resourceType t).key ≠ typeKey name := fun he => hname (congrArg ObjectKey.name he)
      exact (if_neg hkey).trans (congrArg CodeObject.resourceType (if_neg hname).symm)
  | _ => exact ite_self _

/-! ## Extensions -/

/-- Every extension adds its attribute to the resource type if it is one of its. -/
def extend (xs : List TypeExtension) (t : ResourceType) : ResourceType :=
  xs.foldl (fun t x => onType x.typeName (fun t => t.addAttribute x.kind x.declared) t) t

theorem extend_eq (xs : List TypeExtension) (t : ResourceType) :
    extend xs t = { t with
      parameters := t.parameters ++ attributesFor xs t.name .parameter
      properties := t.properties ++ attributesFor xs t.name .property } := by
  induction xs generalizing t with
  | nil => simp [extend, attributesFor]
  | cons x xs ih =>
    have hstep : extend (x :: xs) t = extend xs (onType x.typeName (fun t => t.addAttribute x.kind x.declared) t) := rfl
    rw [hstep, ih]
    by_cases hname : t.name = x.typeName
    · cases hkind : x.kind with
      | parameter => simp [onType, hname, hkind, ResourceType.addAttribute, attributesFor]
      | property => simp [onType, hname, hkind, ResourceType.addAttribute, attributesFor]
    · have hother : x.typeName ≠ t.name := fun he => hname he.symm
      simp [onType, hname, hother, attributesFor]

theorem name_extend (xs : List TypeExtension) (t : ResourceType) : (extend xs t).name = t.name := by
  rw [extend_eq]

/-- The stub of a type, under its key. -/
def stubEntry (x : TypeExtension) : ObjectKey × CodeObject := (typeKey x.typeName, stub x)

/-- The first of each type name, once, in the order in which they come. -/
theorem firsts_spec (xs : List TypeExtension) :
    ((xs.eraseDupsBy fun x y => x.typeName == y.typeName).map TypeExtension.typeName).Nodup ∧
      (∀ name, name ∈ (xs.eraseDupsBy fun x y => x.typeName == y.typeName).map TypeExtension.typeName ↔
        name ∈ xs.map TypeExtension.typeName) ∧
      ∀ y ∈ xs.eraseDupsBy fun x y => x.typeName == y.typeName,
        xs.find? (fun x => x.typeName = y.typeName) = some y := by
  induction hlen : xs.length using Nat.strongRecOn generalizing xs with
  | _ n ih =>
    cases xs with
    | nil => simp [List.eraseDupsBy_nil]
    | cons x xs =>
      have hshort : (xs.filter fun y => decide ((y.typeName == x.typeName) = false)).length < n := by
        have := List.length_filter_le (fun y => decide ((y.typeName == x.typeName) = false)) xs
        rw [← hlen, List.length_cons]
        omega
      obtain ⟨hnodup, hmem, hfirst⟩ := ih _ hshort _ rfl
      rw [List.eraseDupsBy_cons]
      refine ⟨?_, fun name => ?_, fun y hy => ?_⟩
      · rw [List.map_cons, List.nodup_cons, hmem]
        refine ⟨?_, hnodup⟩
        simp
      · rw [List.map_cons, List.map_cons, List.mem_cons, List.mem_cons, hmem]
        by_cases hname : name = x.typeName
        · simp [hname]
        · simp only [hname, false_or, List.mem_map, List.mem_filter]
          constructor
          · rintro ⟨y, ⟨hy, -⟩, he⟩
            exact ⟨y, hy, he⟩
          · rintro ⟨y, hy, rfl⟩
            exact ⟨y, ⟨hy, by simpa using hname⟩, rfl⟩
      · rcases List.mem_cons.mp hy with rfl | hy
        · simp
        · have hfound := hfirst y hy
          have hother : ¬x.typeName = y.typeName := by
            have hin := (List.mem_filter.mp (List.mem_of_find?_eq_some hfound)).2
            intro he
            simp [he] at hin
          rw [List.find?_cons_of_neg (by simpa using hother), ← hfound, List.find?_filter]
          congr 1
          funext z
          by_cases hz : z.typeName = y.typeName
          · simp [hz, Ne.symm hother]
          · simp [hz]

@[simp] theorem firstUndeclared_nil (es : Entries) : firstUndeclared es [] = [] := rfl

/-- What stands for a type depends on the keys alone. -/
theorem firstUndeclared_congr {es es' : Entries} (h : es.map Prod.fst = es'.map Prod.fst) (xs : List TypeExtension) :
    firstUndeclared es xs = firstUndeclared es' xs := by
  have hdeclares : ∀ name, declares es name = declares es' name := by
    intro name
    rw [Bool.eq_iff_iff, declares_iff, declares_iff, h]
  simp only [firstUndeclared, hdeclares]

theorem firstUndeclared_declared {es : Entries} {x : TypeExtension} (h : declares es x.typeName = true)
    (xs : List TypeExtension) : firstUndeclared es (x :: xs) = firstUndeclared es xs := by
  simp [firstUndeclared, h]

theorem firstUndeclared_stub {es : Entries} {x : TypeExtension} (h : declares es x.typeName = false)
    (xs : List TypeExtension) :
    firstUndeclared es (x :: xs) = x :: firstUndeclared (es ++ [stubEntry x]) xs := by
  have hstub : ∀ name, declares (es ++ [stubEntry x]) name = (declares es name || decide (name = x.typeName)) := by
    intro name
    rw [Bool.eq_iff_iff, declares_iff, Bool.or_eq_true, declares_iff]
    simp [stubEntry, typeKey]
  unfold firstUndeclared
  rw [List.filter_cons_of_pos (by simp [h]), List.eraseDupsBy_cons, List.filter_filter]
  simp only [hstub]
  congr 3
  funext y
  rw [Bool.not_or, Bool.and_comm]
  by_cases hy : y.typeName = x.typeName <;> simp [hy]

theorem mem_firstUndeclared {es : Entries} {xs : List TypeExtension} {y : TypeExtension}
    (h : y ∈ firstUndeclared es xs) : declares es y.typeName = false := by
  have hfound := (firsts_spec _).2.2 y h
  simpa using (List.mem_filter.mp (List.mem_of_find?_eq_some hfound)).2

/-- The edit for one extension, with stubs for types that are not its own. -/
theorem apply_cons {es : Entries} {x : TypeExtension} (hdeclared : declares es x.typeName = true)
    (xs : List TypeExtension) :
    mapTypes (extend xs) (mapTypes (onType x.typeName fun t => t.addAttribute x.kind x.declared) es ++
        (firstUndeclared es xs).map stubEntry) =
      mapTypes (extend (x :: xs)) (es ++ (firstUndeclared es xs).map stubEntry) := by
  have hstubs : mapTypes (onType x.typeName fun t => t.addAttribute x.kind x.declared)
      ((firstUndeclared es xs).map stubEntry) = (firstUndeclared es xs).map stubEntry := by
    unfold mapTypes
    rw [List.map_map]
    refine List.map_congr_left fun y hy => ?_
    have hother : ¬y.typeName = x.typeName := by
      intro he
      have hy := mem_firstUndeclared hy
      rw [he, hdeclared] at hy
      cases hy
    exact congrArg (Prod.mk (typeKey y.typeName)) (congrArg CodeObject.resourceType (if_neg hother))
  rw [← hstubs, ← mapTypes_append, mapTypes_mapTypes, hstubs]
  rfl

theorem name_addAttribute (kind : AttributeKind) (a : Attribute) (t : ResourceType) :
    (t.addAttribute kind a).name = t.name := by
  cases kind <;> rfl

theorem applyExtensions_eq {es : Entries} (h : es.Own) (xs : List TypeExtension) :
    applyExtensions es xs =
      (mapTypes (extend xs) (es ++ (firstUndeclared es xs).map stubEntry), (firstUndeclared es xs).map undeclared) := by
  induction xs generalizing es with
  | nil => simp [applyExtensions, mapTypes_of_eq (f := extend []) (fun _ => rfl)]
  | cons x xs ih =>
    have hname : ∀ t, (onType x.typeName (fun t => t.addAttribute x.kind x.declared) t).name = t.name :=
      name_onType (name_addAttribute x.kind x.declared)
    by_cases hdeclared : declares es x.typeName = true
    · simp only [applyExtensions, if_pos hdeclared, updateType_eq h, ih (h.mapTypes hname)]
      rw [firstUndeclared_congr (keys_mapTypes _ es), apply_cons hdeclared, firstUndeclared_declared hdeclared]
      rfl
    · have hown : Entries.Own (es ++ [stubEntry x]) := by
        intro e he
        rcases List.mem_append.mp he with he | he
        · exact h e he
        · rw [List.mem_singleton.mp he]
          rfl
      have hnew : declares (es ++ [stubEntry x]) x.typeName = true := by
        rw [declares_iff]
        simp [stubEntry]
      have hentry : (typeKey x.typeName, stub x) = stubEntry x := rfl
      simp only [applyExtensions, if_neg hdeclared, hentry, updateType_eq hown, ih (hown.mapTypes hname)]
      rw [firstUndeclared_congr (keys_mapTypes _ (es ++ [stubEntry x])), apply_cons hnew,
        firstUndeclared_stub (Bool.eq_false_iff.mpr hdeclared)]
      simp

/-! ## Providers -/

/-- Every provider adds its name to the resource type if it is one of its. -/
def link (ps : List Provider) (t : ResourceType) : ResourceType :=
  ps.foldl (fun t p => onType p.typeName (fun t => t.addProvider p.name) t) t

theorem addOnce_append (xs : List String) (name : String) (names : List String) :
    addOnce xs name ++ (names.filter (· ∉ addOnce xs name)).eraseDups =
      xs ++ ((name :: names).filter (· ∉ xs)).eraseDups := by
  unfold addOnce
  by_cases h : name ∈ xs
  · rw [if_pos (List.contains_iff_mem.mpr h), List.filter_cons_of_neg (by simpa using h)]
  · rw [if_neg (fun hc => h (List.contains_iff_mem.mp hc)), List.filter_cons_of_pos (by simpa using h),
      List.eraseDups_cons, List.filter_filter, List.append_assoc]
    refine congrArg (fun rest : List String => xs ++ name :: rest.eraseDups) ?_
    refine List.filter_congr fun n _ => ?_
    by_cases hn : n = name <;> simp [hn]

/-- Adding names one after the other adds the new ones, each once. -/
theorem foldl_addOnce (names xs : List String) :
    names.foldl addOnce xs = xs ++ (names.filter (· ∉ xs)).eraseDups := by
  induction names generalizing xs with
  | nil => simp
  | cons name names ih => rw [List.foldl_cons, ih, addOnce_append]

theorem link_eq (ps : List Provider) (t : ResourceType) :
    link ps t = { t with
      providers := t.providers ++ ((providersFor ps t.name).filter (· ∉ t.providers)).eraseDups } := by
  induction ps generalizing t with
  | nil => simp [link, providersFor]
  | cons p ps ih =>
    have hstep : link (p :: ps) t = link ps (onType p.typeName (fun t => t.addProvider p.name) t) := rfl
    rw [hstep, ih]
    by_cases hname : t.name = p.typeName
    · have hmine : providersFor (p :: ps) t.name = p.name :: providersFor ps t.name := by simp [providersFor, hname]
      have hedit : onType p.typeName (fun t => t.addProvider p.name) t = t.addProvider p.name := if_pos hname
      rw [hmine, hedit, ← addOnce_append]
      rfl
    · have hother : providersFor (p :: ps) t.name = providersFor ps t.name := by
        simp [providersFor, Ne.symm hname]
      have hedit : onType p.typeName (fun t => t.addProvider p.name) t = t := if_neg hname
      rw [hother, hedit]

theorem linkAll_eq {es : Entries} (h : es.Own) (ps : List Provider) :
    ps.foldl (fun es p => updateType es p.typeName (·.addProvider p.name)) es = mapTypes (link ps) es := by
  induction ps generalizing es with
  | nil => exact (mapTypes_of_eq (fun _ => rfl) es).symm
  | cons p ps ih =>
    have hname : ∀ t, (onType p.typeName (fun t => t.addProvider p.name) t).name = t.name :=
      name_onType fun _ => rfl
    rw [List.foldl_cons, updateType_eq h, ih (h.mapTypes hname), mapTypes_mapTypes]
    rfl

theorem linkProviders_eq {es : Entries} (h : es.Own) :
    linkProviders es = mapTypes (link (es.filterMap fun e => e.2.asProvider?)) es := linkAll_eq h _

/-- Editing resource types leaves the providers. -/
theorem providers_mapTypes (f : ResourceType → ResourceType) (es : Entries) :
    ((mapTypes f es).filterMap fun e => e.2.asProvider?) = es.filterMap fun e => e.2.asProvider? := by
  unfold mapTypes
  rw [List.filterMap_map]
  refine congrArg (fun f => es.filterMap f) (funext fun e => ?_)
  obtain ⟨key, o⟩ := e
  cases o <;> rfl

theorem providers_eq (r : Registry) : r.providers = r.entries.filterMap fun e => e.2.asProvider? := by
  unfold providers all objects
  rw [List.filterMap_filter, List.filterMap_map]
  refine congrArg (fun f => r.entries.filterMap f) (funext fun e => ?_)
  obtain ⟨key, o⟩ := e
  cases o <;> rfl

/-! ## The end of a run -/

theorem complete_eq (r : Registry) (t : ResourceType) :
    r.complete t = (link r.providers (extend r.extensions t)).defaultNamevar := by
  rw [ResourceType.defaultNamevar_eq, link_eq, extend_eq]
  rfl

@[simp] theorem name_complete (r : Registry) (t : ResourceType) : (r.complete t).name = t.name :=
  ResourceType.withNamevar_name _

theorem own_stubs {es : Entries} (h : es.Own) (xs : List TypeExtension) : Entries.Own (es ++ xs.map stubEntry) := by
  intro e he
  rcases List.mem_append.mp he with he | he
  · exact h e he
  · obtain ⟨x, -, rfl⟩ := List.mem_map.mp he
    rfl

theorem providers_stubs (es : Entries) (xs : List TypeExtension) :
    ((es ++ xs.map stubEntry).filterMap fun e => e.2.asProvider?) = es.filterMap fun e => e.2.asProvider? := by
  have hnone : (xs.map stubEntry).filterMap (fun e => e.2.asProvider?) = [] := by
    rw [List.filterMap_map, List.filterMap_eq_nil_iff]
    exact fun _ _ => rfl
  rw [List.filterMap_append, hnone, List.append_nil]

/-- All passes at once: stubs are appended, and every resource type is completed. -/
theorem finalize_eq {r : Registry} (h : r.entries.Own) :
    r.finalize =
      ({ entries := mapTypes r.complete (r.entries ++ (firstUndeclared r.entries r.extensions).map stubEntry) },
        (firstUndeclared r.entries r.extensions).map undeclared) := by
  have hcomplete : r.complete = ResourceType.defaultNamevar ∘ link r.providers ∘ extend r.extensions := by
    funext t
    exact complete_eq r t
  unfold finalize
  rw [applyExtensions_eq h, hcomplete]
  dsimp only
  rw [linkProviders_eq ((own_stubs h _).mapTypes (name_extend _)), providers_mapTypes, providers_stubs, ← providers_eq,
    mapTypes_mapTypes]
  refine congrArg (fun es =>
    (({ entries := es } : Registry), (firstUndeclared r.entries r.extensions).map undeclared)) ?_
  exact mapTypes_mapTypes _ _ _

theorem keys_finalize {r : Registry} (h : r.entries.Own) :
    r.finalize.1.keys = r.keys ++ (firstUndeclared r.entries r.extensions).map fun x => typeKey x.typeName := by
  rw [finalize_eq h]
  simp only [keys, keys_mapTypes, List.map_append, List.map_map]
  rfl

theorem Valid.finalize {r : Registry} (h : r.Valid) : r.finalize.1.Valid where
  own := by
    rw [finalize_eq h.own]
    exact (own_stubs h.own _).mapTypes (name_complete r)
  nodup := by
    rw [keys_finalize h.own]
    have hnames := (firsts_spec (r.extensions.filter fun x => !declares r.entries x.typeName)).1
    refine List.nodup_append.mpr ⟨h.nodup, ?_, fun key hkey key' hkey' => ?_⟩
    · refine List.pairwise_map.mpr ((List.pairwise_map.mp hnames).imp fun hne he => ?_)
      exact hne (congrArg ObjectKey.name he)
    · obtain ⟨x, hx, rfl⟩ := List.mem_map.mp hkey'
      intro he
      have hfree := mem_firstUndeclared hx
      rw [declares_iff.mpr (he ▸ hkey)] at hfree
      cases hfree

theorem extensions_finalize (r : Registry) : r.finalize.1.extensions = [] := rfl

theorem providers_finalize {r : Registry} (h : r.entries.Own) : r.finalize.1.providers = r.providers := by
  rw [providers_eq, providers_eq, finalize_eq h, providers_mapTypes, providers_stubs]

theorem complete_of_known {r : Registry} {t : ResourceType} (hx : r.extensions = [])
    (hknown : (providersFor r.providers t.name).filter (· ∉ t.providers) = []) : r.complete t = t.withNamevar := by
  unfold complete
  rw [hx, hknown]
  simp [attributesFor]

/-- What is complete is so for a registry that has the same providers and no extensions left. -/
theorem complete_complete {r r' : Registry} (hx : r'.extensions = []) (hp : r'.providers = r.providers)
    (t : ResourceType) : r'.complete (r.complete t) = r.complete t := by
  have hlisted : ∀ name ∈ providersFor r.providers t.name, name ∈ (r.complete t).providers := by
    intro name hname
    unfold complete
    rw [ResourceType.withNamevar_providers]
    by_cases hold : name ∈ t.providers
    · exact List.mem_append_left _ hold
    · exact List.mem_append_right _ (List.mem_eraseDups.mpr (List.mem_filter.mpr ⟨hname, by simpa using hold⟩))
  have hnew : (providersFor r.providers t.name).filter (· ∉ (r.complete t).providers) = [] := by
    rw [List.filter_eq_nil_iff]
    intro name hname
    simpa using hlisted name hname
  rw [complete_of_known hx (by rw [name_complete, hp, hnew])]
  exact ResourceType.withNamevar_withNamevar _

/-- A second end of the run changes nothing. -/
theorem finalize_finalize {r : Registry} (h : r.entries.Own) : r.finalize.1.finalize = (r.finalize.1, []) := by
  have hown : r.finalize.1.entries.Own := by
    rw [finalize_eq h]
    exact (own_stubs h _).mapTypes (name_complete r)
  have hsame : mapTypes r.finalize.1.complete r.finalize.1.entries = r.finalize.1.entries := by
    have hcomplete : r.finalize.1.complete ∘ r.complete = r.complete :=
      funext (complete_complete (extensions_finalize r) (providers_finalize h))
    have hentries := congrArg (fun f : Registry × List Diagnostic => f.1.entries) (finalize_eq h)
    rw [hentries, mapTypes_mapTypes, hcomplete]
  rw [finalize_eq hown, extensions_finalize, firstUndeclared_nil, List.map_nil, List.map_nil, List.append_nil, hsame]
  rfl

theorem mem_names_firstUndeclared {es : Entries} {xs : List TypeExtension} {name : String} :
    name ∈ (firstUndeclared es xs).map TypeExtension.typeName ↔
      name ∈ xs.map TypeExtension.typeName ∧ typeKey name ∉ es.map Prod.fst := by
  unfold firstUndeclared
  rw [(firsts_spec _).2.1, List.mem_map, List.mem_map]
  constructor
  · rintro ⟨x, hx, rfl⟩
    obtain ⟨hx, hfree⟩ := List.mem_filter.mp hx
    refine ⟨⟨x, hx, rfl⟩, fun hkey => ?_⟩
    rw [declares_iff.mpr hkey] at hfree
    cases hfree
  · rintro ⟨⟨x, hx, rfl⟩, hfree⟩
    refine ⟨x, List.mem_filter.mpr ⟨hx, ?_⟩, rfl⟩
    rw [Bool.not_eq_true', Bool.eq_false_iff]
    exact fun hc => hfree (declares_iff.mp hc)

/-- The stub stands for the first extension of its type. -/
theorem find?_firstUndeclared {es : Entries} {xs : List TypeExtension} {x : TypeExtension}
    (h : x ∈ firstUndeclared es xs) : xs.find? (fun y => y.typeName = x.typeName) = some x := by
  have hfound := (firsts_spec _).2.2 x h
  have hfree := mem_firstUndeclared h
  rw [List.find?_filter] at hfound
  rw [← hfound]
  congr 1
  funext y
  by_cases hy : y.typeName = x.typeName
  · simp [hy, hfree]
  · simp [hy]

/-- What the end of a run does to a registry, and all it does: a public stub at the place of the first extension for
each type that is extended but not declared, with one warning each, behind the objects that are there; every resource
type completed, everything else and the order as before; no extensions left. A second time it does nothing. -/
theorem finalize_exact (r : Registry) (h : r.Valid) :
    let new := firstUndeclared r.entries r.extensions
    r.finalize.1.entries = (r.entries ++ new.map stubEntry).map (fun e => (e.1, e.2.mapType r.complete)) ∧
      r.finalize.1.extensions = [] ∧
      r.finalize.2 = new.map undeclared ∧
      (new.map TypeExtension.typeName).Nodup ∧
      (∀ name, name ∈ new.map TypeExtension.typeName ↔
        name ∈ r.extensions.map TypeExtension.typeName ∧ typeKey name ∉ r.keys) ∧
      (∀ x ∈ new, r.extensions.find? (fun y => y.typeName = x.typeName) = some x ∧
        (stub x).location = x.location ∧ (stub x).docstring.api = some "public" ∧
        (undeclared x).severity = .warning ∧ (undeclared x).hasCode .undeclaredType = true) ∧
      r.finalize.1.finalize = (r.finalize.1, []) := by
  intro new
  have heq := finalize_eq h.own
  refine ⟨congrArg (fun f => f.1.entries) heq, rfl, congrArg Prod.snd heq, (firsts_spec _).1,
    fun name => mem_names_firstUndeclared, fun x hx => ⟨find?_firstUndeclared hx, rfl, ?_, rfl, ?_⟩,
    finalize_finalize h.own⟩
  · rfl
  · rfl

/-- A type with a provider and extensions of its own, and extensions of a type that is not declared. -/
theorem finalize_exact_stub :
    let place : Location := { file := "a.rb", line := 1 }
    let type : CodeObject := .resourceType { name := "a", location := place, parameters := [{ name := "name" }] }
    let provider : CodeObject := .provider { typeName := "a", name := "p", location := place }
    let extend (name : String) : TypeExtension := ⟨name, .property, { name := "b" }, place⟩
    let r : Registry := ⟨[keyed type, keyed provider], [extend "b", extend "a", extend "b"]⟩
    r.Valid ∧ r.finalize.2 = [undeclared (extend "b")] ∧ r.finalize.1.finalize = (r.finalize.1, []) := by
  intro place type provider extend r
  have hvalid : r.Valid := by
    refine ⟨fun e he => ?_, ?_⟩
    · rcases List.mem_cons.mp he with rfl | he
      · rfl
      · rw [List.mem_singleton.mp he]
        rfl
    · simp [r, keys, keyed, type, provider, CodeObject.key, CodeObject.kind]
  obtain ⟨-, -, hnotes, -, -, -, hagain⟩ := finalize_exact r hvalid
  refine ⟨hvalid, hnotes.trans ?_, hagain⟩
  rfl

end Registry

end PuppetDocs
