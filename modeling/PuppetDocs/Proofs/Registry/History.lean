import PuppetDocs.Proofs.Registry.Finalize
import PuppetDocs.Proofs.Registry.Merge

/-
  PuppetDocs.Proofs.Registry.History — registries along a run.

  A registry is changed by four operations (`Op`). Each leaves the registry in order, keeps the
  keys that are there in front, and of the objects that are there changes none but resource
  types, which the end of a run lets grow. So what stands under a key is what was brought in
  under it first (`Op.Introduces`), as it has grown since.
-/

namespace PuppetDocs

/-! ## Growing -/

/-- Every attribute keeps its place, and at most its flag is set. -/
def Keeps (as bs : List Attribute) : Prop :=
  ∀ (i : Nat) (a : Attribute), as[i]? = some a → ∃ b, bs[i]? = some b ∧ (b = a ∨ b = a.flag)

/-- Attributes and provider names are added behind those that are there, or an attribute is flagged. -/
structure ResourceType.Grows (t t' : ResourceType) : Prop where
  rest : t' = { t with parameters := t'.parameters, properties := t'.properties, providers := t'.providers }
  parameters : Keeps t.parameters t'.parameters
  properties : Keeps t.properties t'.properties
  providers : t.providers <+: t'.providers

/-- Only a resource type is another object than before, and it has grown. -/
inductive CodeObject.Grows : CodeObject → CodeObject → Prop
  | same (o : CodeObject) : Grows o o
  | type {t t' : ResourceType} (h : t.Grows t') : Grows (.resourceType t) (.resourceType t')

theorem Keeps.refl (as : List Attribute) : Keeps as as := fun _ a ha => ⟨a, ha, .inl rfl⟩

theorem Keeps.trans {as bs cs : List Attribute} (h : Keeps as bs) (k : Keeps bs cs) : Keeps as cs := by
  intro i a ha
  obtain ⟨b, hb, hab⟩ := h i a ha
  obtain ⟨c, hc, hbc⟩ := k i b hb
  refine ⟨c, hc, ?_⟩
  rcases hab with rfl | rfl
  · exact hbc
  · rcases hbc with rfl | rfl
    · exact .inr rfl
    · exact .inr rfl

theorem keeps_append (as bs : List Attribute) : Keeps as (as ++ bs) := by
  intro i a ha
  obtain ⟨hi, -⟩ := List.getElem?_eq_some_iff.mp ha
  exact ⟨a, by rw [List.getElem?_append_left hi, ha], .inl rfl⟩

theorem keeps_flagFirst (as : List Attribute) : Keeps as (flagFirst as) := by
  intro i a ha
  refine ⟨if (as.findIdx fun a => a.name = "name") = i then a.flag else a, ?_, ?_⟩
  · rw [flagFirst, List.getElem?_modify, ha]
    rfl
  · split
    · exact .inr rfl
    · exact .inl rfl

namespace ResourceType

theorem Grows.refl (t : ResourceType) : t.Grows t := ⟨rfl, .refl _, .refl _, List.prefix_refl _⟩

theorem Grows.trans {t t' t'' : ResourceType} (h : t.Grows t') (k : t'.Grows t'') : t.Grows t'' where
  rest := by
    have hk := k.rest
    rw [h.rest] at hk
    exact hk
  parameters := h.parameters.trans k.parameters
  properties := h.properties.trans k.properties
  providers := h.providers.trans k.providers

theorem grows_withNamevar (t : ResourceType) : t.Grows t.withNamevar := by
  unfold withNamevar
  split
  · exact .refl t
  · split
    · exact ⟨rfl, .refl _, keeps_flagFirst _, List.prefix_refl _⟩
    · exact ⟨rfl, keeps_flagFirst _, .refl _, List.prefix_refl _⟩

theorem grows_complete (r : Registry) (t : ResourceType) : t.Grows (r.complete t) :=
  Grows.trans ⟨rfl, keeps_append _ _, keeps_append _ _, List.prefix_append _ _⟩ (grows_withNamevar _)

end ResourceType

namespace CodeObject

theorem Grows.trans {o o' o'' : CodeObject} (h : o.Grows o') (k : o'.Grows o'') : o.Grows o'' := by
  cases h with
  | same => exact k
  | type h =>
    cases k with
    | same => exact .type h
    | type k => exact .type (h.trans k)

theorem grows_complete (r : Registry) (o : CodeObject) : o.Grows (o.mapType r.complete) := by
  cases o with
  | resourceType t => exact .type (t.grows_complete r)
  | _ => exact .same _

end CodeObject

namespace Registry

/-! ## Operations -/

/-- What is done to a registry. -/
inductive Op where
  | register (o : CodeObject)
  | merge (other : Registry)
  | addExtension (x : TypeExtension)
  | finalize

/-- The registry after the operation. -/
def Op.apply (r : Registry) : Op → Registry
  | .register o =>
    match r.register o with
    | .ok r => r
    | .error _ => r
  | .merge other => (r.merge other).1
  | .addExtension x => r.addExtension x
  | .finalize => r.finalize.1

/-- A new registry after the operations. -/
def after (ops : List Op) : Registry := ops.foldl Op.apply {}

/-- The operation has an object for the key: one to register, the first of a registry to take over, or a stub. -/
def Op.Introduces (r : Registry) (key : ObjectKey) (o : CodeObject) : Op → Prop
  | .register o' => o'.key = key ∧ o = o'
  | .merge other => other.objects.find? (fun o => o.key = key) = some o
  | .addExtension _ => False
  | .finalize => ∃ x, r.extensions.find? (fun x => typeKey x.typeName = key) = some x ∧ o = stub x

theorem apply_register_free {r : Registry} {o : CodeObject} (h : o.key ∉ r.keys) :
    (Op.register o).apply r = { r with entries := r.entries ++ [(o.key, o)] } := by
  simp only [Op.apply, register_free h]

theorem apply_register_taken {r : Registry} {o : CodeObject} (h : o.key ∈ r.keys) : (Op.register o).apply r = r := by
  simp only [Op.apply, register_taken h]

theorem Valid.merge {r : Registry} (h : r.Valid) (other : Registry) : (r.merge other).1.Valid :=
  ⟨(h.registerAll other.objects).own, (h.registerAll other.objects).nodup⟩

/-- One operation leaves a registry in order. -/
theorem Valid.apply {r : Registry} (h : r.Valid) (op : Op) : (op.apply r).Valid := by
  cases op with
  | register o =>
    by_cases hkey : o.key ∈ r.keys
    · rw [apply_register_taken hkey]
      exact h
    · rw [apply_register_free hkey]
      exact h.enter hkey
  | merge other => exact h.merge other
  | addExtension x => exact ⟨h.own, h.nodup⟩
  | finalize => exact h.finalize

/-- What a run of operations leaves is in order. -/
theorem Valid.foldl {r : Registry} (h : r.Valid) (ops : List Op) : (ops.foldl Op.apply r).Valid := by
  induction ops generalizing r with
  | nil => exact h
  | cons op ops ih => exact ih (h.apply op)

/-! ## What an operation does to the entries -/

/-- The entries an operation adds. -/
def Op.added (r : Registry) : Op → Entries
  | .register o => if o.key ∈ r.keys then [] else [keyed o]
  | .merge other => (kept r.keys other.objects).map keyed
  | .addExtension _ => []
  | .finalize => (firstUndeclared r.entries r.extensions).map stubEntry

/-- What an operation makes of a resource type. -/
def Op.edit (r : Registry) : Op → ResourceType → ResourceType
  | .register _ | .merge _ | .addExtension _ => id
  | .finalize => r.complete

theorem edit_eq {r : Registry} {op : Op} (h : op ≠ .finalize) (t : ResourceType) : op.edit r t = t := by
  cases op with
  | finalize => exact absurd rfl h
  | _ => rfl

theorem grows_edit (r : Registry) (op : Op) (o : CodeObject) : o.Grows (o.mapType (op.edit r)) := by
  cases op with
  | finalize => exact o.grows_complete r
  | register | merge | addExtension =>
    have hsame : o.mapType (fun t => t) = o := o.mapType_of_eq fun _ => rfl
    exact hsame.symm ▸ .same o

/-- An operation adds entries behind those that are there, and edits resource types. -/
theorem entries_apply {r : Registry} (h : r.entries.Own) (op : Op) :
    (op.apply r).entries = mapTypes (op.edit r) (r.entries ++ op.added r) := by
  have hsame : ∀ es : Entries, mapTypes id es = es := mapTypes_of_eq fun _ => rfl
  cases op with
  | register o =>
    rw [Op.edit, hsame]
    by_cases hkey : o.key ∈ r.keys
    · rw [apply_register_taken hkey, Op.added, if_pos hkey, List.append_nil]
    · rw [apply_register_free hkey, Op.added, if_neg hkey]
      rfl
  | merge other => rw [Op.edit, hsame, Op.apply, merge_eq, Op.added]
  | addExtension x =>
    rw [Op.edit, hsame, Op.added, List.append_nil]
    rfl
  | finalize => exact congrArg (fun f => f.1.entries) (finalize_eq h)

theorem keys_apply {r : Registry} (h : r.entries.Own) (op : Op) : r.keys <+: (op.apply r).keys := by
  unfold keys
  rw [entries_apply h, keys_mapTypes, List.map_append]
  exact List.prefix_append _ _

theorem mem_kept {taken : List ObjectKey} {os : List CodeObject} {o : CodeObject} :
    o ∈ kept taken os ↔ o.key ∉ taken ∧ os.find? (fun p => p.key = o.key) = some o := by
  induction os generalizing taken with
  | nil => simp [kept]
  | cons p os ih =>
    by_cases hp : p.key ∈ taken
    · rw [kept, if_pos hp, ih]
      by_cases hkey : p.key = o.key
      · simp [← hkey, hp]
      · simp [hkey]
    · rw [kept, if_neg hp, List.mem_cons, ih]
      by_cases hkey : p.key = o.key
      · simp [← hkey, hp, eq_comm]
      · have hne : ¬o = p := fun he => hkey (he ▸ rfl)
        simp [hkey, hne, Ne.symm hkey]

theorem typeKey_inj {name name' : String} : typeKey name = typeKey name' ↔ name = name' :=
  ⟨congrArg ObjectKey.name, congrArg typeKey⟩

theorem mem_stubs {es : Entries} {xs : List TypeExtension} {key : ObjectKey} {o : CodeObject}
    (hkey : key ∉ es.map Prod.fst) :
    (key, o) ∈ (firstUndeclared es xs).map stubEntry ↔
      ∃ x, xs.find? (fun x => typeKey x.typeName = key) = some x ∧ o = stub x := by
  rw [List.mem_map]
  constructor
  · rintro ⟨x, hx, he⟩
    cases he
    refine ⟨x, ?_, rfl⟩
    simpa only [typeKey_inj] using find?_firstUndeclared hx
  · rintro ⟨x, hx, rfl⟩
    have hname : typeKey x.typeName = key := by simpa using List.find?_some hx
    subst hname
    obtain ⟨y, hy, hsame⟩ := List.mem_map.mp (mem_names_firstUndeclared.mpr
      ⟨List.mem_map_of_mem (List.mem_of_find?_eq_some hx), hkey⟩)
    have hfirst := find?_firstUndeclared hy
    simp only [typeKey_inj] at hx
    rw [hsame, hx] at hfirst
    cases hfirst
    exact ⟨x, hy, rfl⟩

/-- Under a key that is free an operation adds what it has for it. -/
theorem mem_added {r : Registry} {key : ObjectKey} (hkey : key ∉ r.keys) {o : CodeObject} {op : Op} :
    (key, o) ∈ op.added r ↔ op.Introduces r key o := by
  cases op with
  | register new =>
    by_cases hnew : new.key ∈ r.keys
    · rw [Op.added, if_pos hnew]
      refine ⟨fun hmem => absurd hmem List.not_mem_nil, fun hop => ?_⟩
      exact absurd (hop.1 ▸ hnew) hkey
    · rw [Op.added, if_neg hnew, List.mem_singleton]
      constructor
      · intro he
        exact ⟨(congrArg Prod.fst he).symm, congrArg Prod.snd he⟩
      · rintro ⟨rfl, rfl⟩
        rfl
  | merge other =>
    rw [Op.added, List.mem_map]
    constructor
    · rintro ⟨o', ho', he⟩
      cases he
      exact (mem_kept.mp ho').2
    · intro hop
      have hfound : o.key = key := by simpa using List.find?_some hop
      subst hfound
      exact ⟨o, mem_kept.mpr ⟨hkey, hop⟩, rfl⟩
  | addExtension x => exact ⟨fun hmem => absurd hmem List.not_mem_nil, fun hop => hop.elim⟩
  | finalize => exact mem_stubs hkey

/-! ## What stands under a key -/

/-- What an operation finds or adds under a key stands there behind it; only the end of a run lets it grow. -/
theorem get?_of_mem {r : Registry} (h : r.Valid) {op : Op} {key : ObjectKey} {o : CodeObject}
    (hmem : (key, o) ∈ r.entries ++ op.added r) :
    ∃ o', (op.apply r).get? key = some o' ∧ o.Grows o' ∧ (op ≠ .finalize → o' = o) := by
  refine ⟨o.mapType (op.edit r), (get?_eq_some (h.apply op).nodup).mpr ?_, grows_edit r op o,
    fun hop => o.mapType_of_eq (edit_eq hop)⟩
  rw [entries_apply h.own]
  exact List.mem_map.mpr ⟨(key, o), hmem, rfl⟩

theorem get?_apply {r : Registry} (h : r.Valid) {key : ObjectKey} {o : CodeObject} (hget : r.get? key = some o)
    (op : Op) :
    ∃ o', (op.apply r).get? key = some o' ∧ o.Grows o' ∧ (op ≠ .finalize → o' = o) :=
  get?_of_mem h (List.mem_append_left _ ((get?_eq_some h.nodup).mp hget))

theorem get?_of_introduces {r : Registry} (h : r.Valid) {key : ObjectKey} {o : CodeObject} {op : Op}
    (hfree : r.get? key = none) (hop : op.Introduces r key o) :
    ∃ o', (op.apply r).get? key = some o' ∧ o.Grows o' ∧ (op ≠ .finalize → o' = o) :=
  get?_of_mem h (List.mem_append_right _ ((mem_added (get?_eq_none.mp hfree)).mpr hop))

/-- What is new under a key was brought in by the operation. -/
theorem introduces_of_get? {r : Registry} (h : r.Valid) {key : ObjectKey} {o : CodeObject} {op : Op}
    (hfree : r.get? key = none) (hget : (op.apply r).get? key = some o) : ∃ o₀, op.Introduces r key o₀ := by
  have hmem := (get?_eq_some (h.apply op).nodup).mp hget
  have hkey : key ∉ r.keys := get?_eq_none.mp hfree
  rw [entries_apply h.own] at hmem
  obtain ⟨e, he, heq⟩ := List.mem_map.mp hmem
  cases heq
  rcases List.mem_append.mp he with he | he
  · exact absurd (List.mem_map_of_mem he) hkey
  · exact ⟨e.2, (mem_added hkey).mp he⟩

/-! ## Runs -/

/-- Along a run an object stays under its key, and grows only where the run is brought to its end. -/
theorem get?_foldl {r : Registry} (h : r.Valid) {key : ObjectKey} {o : CodeObject} (hget : r.get? key = some o)
    (ops : List Op) :
    ∃ o', (ops.foldl Op.apply r).get? key = some o' ∧ o.Grows o' ∧ (.finalize ∉ ops → o' = o) := by
  induction ops generalizing r o with
  | nil => exact ⟨o, hget, .same o, fun _ => rfl⟩
  | cons op ops ih =>
    obtain ⟨o₁, hget₁, hgrows₁, hsame₁⟩ := get?_apply h hget op
    obtain ⟨o', hget', hgrows', hsame'⟩ := ih (h.apply op) hget₁
    refine ⟨o', hget', hgrows₁.trans hgrows', fun hno => ?_⟩
    rw [List.mem_cons, not_or] at hno
    exact (hsame' hno.2).trans (hsame₁ (Ne.symm hno.1))

/-- What stands under a key at the end stood there at the start, or was brought in on the way. -/
theorem origin_foldl {r : Registry} (h : r.Valid) {key : ObjectKey} {o : CodeObject} {ops : List Op}
    (hget : (ops.foldl Op.apply r).get? key = some o) :
    (∃ o₀, r.get? key = some o₀) ∨
      ∃ before op later o₀, ops = before ++ op :: later ∧ (before.foldl Op.apply r).get? key = none ∧
        op.Introduces (before.foldl Op.apply r) key o₀ := by
  induction ops generalizing r with
  | nil => exact .inl ⟨o, hget⟩
  | cons op ops ih =>
    cases hr : r.get? key with
    | some o₀ => exact .inl ⟨o₀, rfl⟩
    | none =>
      right
      rcases ih (h.apply op) hget with ⟨o₁, hget₁⟩ | ⟨before, op', later, o₀, hsplit, hfree, hop⟩
      · obtain ⟨o₀, hop⟩ := introduces_of_get? h hr hget₁
        exact ⟨[], op, ops, o₀, rfl, hr, hop⟩
      · exact ⟨op :: before, op', later, o₀, by rw [hsplit, List.cons_append], hfree, hop⟩

/-- What an operation brings in under a free key is there from then on. -/
theorem get?_after {before : List Op} {op : Op} {key : ObjectKey} {o : CodeObject}
    (hfree : (after before).get? key = none) (hop : op.Introduces (after before) key o) (later : List Op) :
    ∃ o', (after (before ++ op :: later)).get? key = some o' ∧ o.Grows o' ∧ (.finalize ∉ op :: later → o' = o) := by
  have hvalid : (after before).Valid := valid_empty.foldl before
  obtain ⟨o₁, hget₁, hgrows₁, hsame₁⟩ := get?_of_introduces hvalid hfree hop
  obtain ⟨o', hget', hgrows', hsame'⟩ := get?_foldl (hvalid.apply op) hget₁ later
  refine ⟨o', ?_, hgrows₁.trans hgrows', fun hno => ?_⟩
  · unfold after
    rw [List.foldl_append]
    exact hget'
  · rw [List.mem_cons, not_or] at hno
    exact (hsame' hno.2).trans (hsame₁ (Ne.symm hno.1))

/-- In every registry that operations lead to, objects stand under their own keys, which are all different; what
stands under a key is what was brought in under it first, as it has grown at the ends of the run since; an object
whose key is taken is refused and nothing changes; further operations add keys at the end; and the objects of a kind
are those under the keys of that kind, in order. -/
theorem after_history (ops : List Op) :
    let r := after ops
    (∀ e ∈ r.entries, e.1 = e.2.key) ∧ r.keys.Nodup ∧
      (∀ key o, r.get? key = some o → ∃ before op later o₀, ops = before ++ op :: later ∧
        (after before).get? key = none ∧ op.Introduces (after before) key o₀ ∧ o₀.Grows o ∧
        (.finalize ∉ op :: later → o = o₀)) ∧
      (∀ before op later key o₀, ops = before ++ op :: later → (after before).get? key = none →
        op.Introduces (after before) key o₀ → ∃ o, r.get? key = some o ∧ o₀.Grows o) ∧
      (∀ o, o.key ∈ r.keys → r.register o = .error (duplicate o) ∧ (Op.register o).apply r = r) ∧
      (∀ o p, r.register o = .error p → o.key ∈ r.keys) ∧
      (∀ op : Op, r.keys <+: (op.apply r).keys) ∧
      ∀ kind, r.all kind = (r.entries.filter fun e => e.1.kind = kind).map Prod.snd := by
  intro r
  have hvalid : r.Valid := valid_empty.foldl ops
  refine ⟨hvalid.own, hvalid.nodup, fun key o hget => ?_, fun before op later key o₀ hsplit hfree hop => ?_,
    fun o hkey => ⟨register_taken hkey, apply_register_taken hkey⟩, fun o p hp => ?_, keys_apply hvalid.own,
    fun kind => ?_⟩
  · rcases origin_foldl valid_empty hget with ⟨o₀, hempty⟩ | ⟨before, op, later, o₀, hsplit, hfree, hop⟩
    · cases hempty
    · obtain ⟨o', hget', hgrows, hsame⟩ := get?_after hfree hop later
      have ho : o = o' := by
        have hget : (after ops).get? key = some o := hget
        rw [hsplit, hget'] at hget
        exact (Option.some.inj hget).symm
      subst ho
      exact ⟨before, op, later, o₀, hsplit, hfree, hop, hgrows, hsame⟩
  · obtain ⟨o, hget, hgrows, -⟩ := get?_after hfree hop later
    rw [← hsplit] at hget
    exact ⟨o, hget, hgrows⟩
  · refine Decidable.byContradiction fun hkey => ?_
    rw [register_free hkey] at hp
    cases hp
  · unfold all objects
    rw [List.filter_map]
    refine congrArg (List.map Prod.snd) (List.filter_congr fun e he => ?_)
    rw [hvalid.own e he]
    rfl

end Registry

end PuppetDocs
