import PuppetDocs.Proofs.Registry.Finalize
import PuppetDocs.Proofs.Run.Sources

/-
  PuppetDocs.Proofs.Run.Reordering — the order of files that declare different things.

  The end of a run reads three things off a registry: which keys there are, what waits for its
  types, and the providers. If two registries hold the same objects in different orders and agree
  on the extensions and on the order of the providers, the end of a run makes the same object of
  what stands under each key (`get?_finalize_perm`). Only some files have extensions or providers
  (`SourceFile.contributes`), so all others may be moved (`reorder_documents`).
-/

namespace PuppetDocs

namespace Registry

/-! ## The end of a run over the same objects in another order -/

theorem kept_eq_self {taken : List ObjectKey} {os : List CodeObject} (hfree : ∀ o ∈ os, o.key ∉ taken)
    (hnodup : (os.map CodeObject.key).Nodup) : kept taken os = os := by
  induction os generalizing taken with
  | nil => rfl
  | cons o os ih =>
    rw [List.map_cons, List.nodup_cons] at hnodup
    rw [kept, if_neg (hfree o List.mem_cons_self), ih (fun x hx hkey => ?_) hnodup.2]
    rcases List.mem_append.mp hkey with hkey | hkey
    · exact hfree x (List.mem_cons_of_mem _ hx) hkey
    · exact hnodup.1 (List.mem_singleton.mp hkey ▸ List.mem_map_of_mem hx)

theorem complete_congr {r r' : Registry} (hextensions : r'.extensions = r.extensions)
    (hproviders : r'.providers = r.providers) : r'.complete = r.complete := by
  funext t
  unfold complete
  rw [hextensions, hproviders]

theorem firstUndeclared_perm {es es' : Entries} (h : es'.Perm es) (xs : List TypeExtension) :
    firstUndeclared es' xs = firstUndeclared es xs := by
  have hdeclares : ∀ name, declares es' name = declares es name := by
    intro name
    rw [Bool.eq_iff_iff, declares_iff, declares_iff]
    exact (h.map Prod.fst).mem_iff
  simp only [firstUndeclared, hdeclares]

theorem get?_finalize_perm {r r' : Registry} (h : r.Valid) (h' : r'.Valid) (hentries : r'.entries.Perm r.entries)
    (hextensions : r'.extensions = r.extensions) (hproviders : r'.providers = r.providers) (key : ObjectKey) :
    r'.finalize.1.get? key = r.finalize.1.get? key := by
  have hperm : r'.finalize.1.entries.Perm r.finalize.1.entries := by
    rw [finalize_eq h.own, finalize_eq h'.own, complete_congr hextensions hproviders, hextensions,
      firstUndeclared_perm hentries]
    exact (hentries.append_right _).map _
  refine Option.ext fun o => ?_
  rw [get?_eq_some h'.finalize.nodup, get?_eq_some h.finalize.nodup]
  exact hperm.mem_iff

/-- A resource type that is registered is completed at the end. -/
theorem get?_finalize_type {r : Registry} (h : r.Valid) {t : ResourceType}
    (ht : (typeKey t.name, CodeObject.resourceType t) ∈ r.entries) :
    r.finalize.1.get? (typeKey t.name) = some (.resourceType (r.complete t)) := by
  rw [get?_eq_some h.finalize.nodup, finalize_eq h.own]
  exact List.mem_map_of_mem (f := fun e : ObjectKey × CodeObject => (e.1, e.2.mapType r.complete))
    (List.mem_append_left _ ht)

/-! ## Findings -/

def providersOf (fs : List Found) : List Provider := (objectsOf fs).filterMap (·.asProvider?)

/-- The registry of findings none of which repeats a key. -/
theorem fill_distinct {fs : List Found} (h : ((objectsOf fs).map CodeObject.key).Nodup) :
    (fill {} fs).1 = ⟨(objectsOf fs).map keyed, extensionsOf fs⟩ := by
  have hkept : kept (keys {}) (objectsOf fs) = objectsOf fs := kept_eq_self (fun _ _ hkey => nomatch hkey) h
  rw [fill_eq, hkept]
  rfl

theorem valid_fill (r : Registry) (h : r.Valid) (fs : List Found) : (r.fill fs).1.Valid := by
  rw [fill_eq]
  have hregistered := h.registerAll (objectsOf fs)
  rw [registerAll_eq] at hregistered
  exact ⟨hregistered.own, hregistered.nodup⟩

theorem providers_keyed (fs : List Found) :
    providers ⟨(objectsOf fs).map keyed, extensionsOf fs⟩ = providersOf fs := by
  rw [providers_eq, List.filterMap_map]
  rfl

end Registry

open Registry

/-! ## Files that contribute to types -/

/-- The finding is of consequence for a resource type declared elsewhere. -/
def Found.contributes : Found → Bool
  | .extension _ => true
  | .object o => o.asProvider?.isSome

/-- The file has type extensions or providers. -/
def SourceFile.contributes (settings : Settings) (f : SourceFile) : Bool := (f.found settings).any Found.contributes

/-- What is picked out of the findings that contribute is found in the files that contribute. -/
theorem filterMap_contributing {β : Type} {pick : Found → Option β} (hpick : ∀ x, x.contributes = false → pick x = none)
    (settings : Settings) (files : List SourceFile) :
    (files.flatMap (·.found settings)).filterMap pick =
      ((files.filter (·.contributes settings)).flatMap (·.found settings)).filterMap pick := by
  induction files with
  | nil => rfl
  | cons f files ih =>
    rw [List.flatMap_cons, List.filterMap_append, ih]
    by_cases hf : f.contributes settings = true
    · rw [List.filter_cons_of_pos hf, List.flatMap_cons, List.filterMap_append]
    · have hnone : (f.found settings).filterMap pick = [] := by
        refine List.filterMap_eq_nil_iff.mpr fun x hx => hpick x ?_
        refine Bool.eq_false_iff.mpr fun hc => hf ?_
        exact List.any_eq_true.mpr ⟨x, hx, hc⟩
      rw [List.filter_cons_of_neg hf, hnone, List.nil_append]

section Reordering

variable {settings : Settings} {files files' : List SourceFile}

/-- What the files in a row have picked out of them is the same if the contributing files are in the same order. -/
theorem filterMap_reordered {β : Type} {pick : Found → Option β} (hpick : ∀ x, x.contributes = false → pick x = none)
    (horder : files'.filter (·.contributes settings) = files.filter (·.contributes settings)) :
    (files'.flatMap (·.found settings)).filterMap pick = (files.flatMap (·.found settings)).filterMap pick := by
  rw [filterMap_contributing hpick, horder, ← filterMap_contributing hpick]

theorem extensionsOf_reordered
    (horder : files'.filter (·.contributes settings) = files.filter (·.contributes settings)) :
    extensionsOf (files'.flatMap (·.found settings)) = extensionsOf (files.flatMap (·.found settings)) := by
  refine filterMap_reordered (fun x hx => ?_) horder
  cases x with
  | object o => rfl
  | extension e => cases hx

theorem providersOf_reordered
    (horder : files'.filter (·.contributes settings) = files.filter (·.contributes settings)) :
    providersOf (files'.flatMap (·.found settings)) = providersOf (files.flatMap (·.found settings)) := by
  unfold providersOf objectsOf
  rw [List.filterMap_filterMap, List.filterMap_filterMap]
  refine filterMap_reordered (fun x hx => ?_) horder
  cases x with
  | object o => exact Option.isNone_iff_eq_none.mp (by simpa [Found.contributes] using hx)
  | extension e => cases hx

/-- Files that declare different things may come in any order in which those with type extensions or providers keep
theirs: the same object is documented under every key. A resource type has its own attributes and behind them those of
its extensions, its providers, and a name variable, wherever its file stands. -/
theorem reorder_documents (hperm : files'.Perm files)
    (horder : files'.filter (·.contributes settings) = files.filter (·.contributes settings))
    (hdistinct : ((objectsOf (files.flatMap (·.found settings))).map CodeObject.key).Nodup) :
    (∀ key, (Run.ofSources settings files').registry.get? key = (Run.ofSources settings files).registry.get? key) ∧
      ∀ t, CodeObject.resourceType t ∈ objectsOf (files.flatMap (·.found settings)) →
        (Run.ofSources settings files').registry.get? (typeKey t.name) =
          some (.resourceType (ResourceType.withNamevar { t with
            parameters := t.parameters ++ attributesFor (extensionsOf (files.flatMap (·.found settings))) t.name .parameter
            properties := t.properties ++ attributesFor (extensionsOf (files.flatMap (·.found settings))) t.name .property
            providers := t.providers ++ ((providersFor (providersOf (files.flatMap (·.found settings))) t.name).filter
              (· ∉ t.providers)).eraseDups })) := by
  -- In either order nothing is left out, so the registry before the end holds the objects that were found.
  have hobjects : (objectsOf (files'.flatMap (·.found settings))).Perm (objectsOf (files.flatMap (·.found settings))) :=
    (hperm.flatMap_right _).filterMap _
  have hregistry : ∀ fs : List SourceFile, (Run.ofSources settings fs).registry =
      (fill {} (fs.flatMap (·.found settings))).1.finalize.1 := fun fs =>
    congrArg (fun r => r.finalize.1) (Run.addSources_registry { settings } fs)
  have hfill := fill_distinct hdistinct
  have hfill' := fill_distinct ((hobjects.map CodeObject.key).nodup_iff.mpr hdistinct)
  have hvalid := valid_fill {} valid_empty (files.flatMap (·.found settings))
  have hvalid' := valid_fill {} valid_empty (files'.flatMap (·.found settings))
  rw [hfill] at hvalid
  rw [hfill'] at hvalid'
  have hsame : ∀ key, (Run.ofSources settings files').registry.get? key = (Run.ofSources settings files).registry.get? key := by
    intro key
    rw [hregistry, hregistry, hfill, hfill']
    refine get?_finalize_perm hvalid hvalid' (hobjects.map keyed) (extensionsOf_reordered horder) ?_ key
    rw [providers_keyed, providers_keyed, providersOf_reordered horder]
  refine ⟨hsame, fun t ht => ?_⟩
  rw [hsame, hregistry, hfill, get?_finalize_type hvalid (List.mem_map_of_mem (f := keyed) ht)]
  unfold complete
  rw [providers_keyed]

end Reordering

/-! ## A type declared behind what extends it -/

section Declarations

open Ruby

/-- A Ruby file that is one declaration holds what is found in that. -/
theorem found_declaration {settings : Settings} {f : SourceFile} {program statement : Node} {construct : Construct}
    {comments : List Comment} {x : Found} (hruby : settings.grammarFor f.path = some .ruby)
    (hparse : Ruby.parse f.text.toList = .ok (program, comments)) (hstatements : program.statements = [statement])
    (hconstruct : Construct.ofNode? statement = some construct)
    (hx : (Context.findingOf { tree := ⟨f.path, f.text.toList, .ruby program, comments⟩, settings } statement
      construct |>.toOption.map Noted.value) = some x) :
    f.found settings = [x] := by
  have htree : SyntaxTree.parse f.path f.text .ruby = .ok ⟨f.path, f.text.toList, .ruby program, comments⟩ := by
    simp only [SyntaxTree.parse, hparse]
    rfl
  have hconstructs : constructs program = [(statement, construct)] := by
    simp [constructs, hstatements, inspected_eq, hconstruct]
  simp only [SourceFile.found, hruby, htree, foundIn, Context.findings, hconstructs, List.map_cons, List.map_nil,
    List.filterMap_cons, hx, List.filterMap_nil]

theorem receiverIs_qualified {c : Call Node} {scope name path : String} {s s' : Span} {l l' : Nat}
    (hreceiver : c.receiver = some ⟨.const (some ⟨.const none scope, s, l⟩) name, s', l'⟩)
    (hpath : scope ++ "::" ++ name = path) : c.receiverIs path = true := by
  have hscope : (Node.mk (.const none scope) s l).constPath? = some scope := by rw [Node.constPath?]
  have hname : (Node.mk (.const (some ⟨.const none scope, s, l⟩) name) s' l').constPath? = some path := by
    rw [Node.constPath?]
    simp only [Node.isRootScope, hscope, Option.map_some, hpath, Bool.false_eq_true, if_false]
  unfold Call.receiverIs
  rw [hreceiver, Option.bind_some, hname]
  exact beq_self_eq_true (some path)

theorem typeCall?_eq_some {call c : Call Node} (hcall : call.receiver.bind Node.call? = some c)
    (hmethod : c.method = "type") (hreceiver : c.receiverIs "Puppet::Type" = true) (hargs : c.args.isEmpty = false) :
    Construct.typeCall? call = some c := by
  simp [Construct.typeCall?, hcall, hmethod, hreceiver, hargs]

def typeFile : SourceFile := ⟨"type.rb", "Puppet::Type.newtype(:a)\n"⟩

def extendingFile : SourceFile := ⟨"more.rb", "Puppet::Type.type(:a).newparam(:b)\n"⟩

theorem typeFile_shape :
    (match Ruby.parse typeFile.text.toList with
      | .ok (⟨.statements [⟨.call ⟨some ⟨.const (some ⟨.const none scope, _, _⟩) name, _, _⟩, method,
          [⟨.symbol type, _, _⟩], true, none⟩, _, _⟩], _, _⟩, []) =>
        [scope, name, method, type] == ["Puppet", "Type", "newtype", "a"]
      | _ => false) = true := by decide +kernel

theorem found_typeFile : ∃ t, typeFile.found {} = [.object (.resourceType t)] := by
  have hshape := typeFile_shape
  split at hshape
  next hparse =>
    simp only [beq_iff_eq, List.cons.injEq, and_true] at hshape
    obtain ⟨rfl, rfl, rfl, rfl⟩ := hshape
    exact ⟨_, found_declaration (by decide +kernel) hparse rfl
      (if_pos (receiverIs_qualified rfl (by decide +kernel))) rfl⟩
  next => cases hshape

theorem extendingFile_shape :
    (match Ruby.parse extendingFile.text.toList with
      | .ok (⟨.statements [⟨.call ⟨some ⟨.call ⟨some ⟨.const (some ⟨.const none scope, _, _⟩) name, _, _⟩, outer,
          [⟨.symbol type, _, _⟩], true, none⟩, _, _⟩, method, [⟨.symbol param, _, _⟩], true, none⟩, _, _⟩],
          _, _⟩, []) =>
        [scope, name, outer, type, method, param] == ["Puppet", "Type", "type", "a", "newparam", "b"]
      | _ => false) = true := by decide +kernel

theorem found_extendingFile : ∃ e, extendingFile.found {} = [.extension e] := by
  have hshape := extendingFile_shape
  split at hshape
  next hparse =>
    simp only [beq_iff_eq, List.cons.injEq, and_true] at hshape
    obtain ⟨rfl, rfl, rfl, rfl, rfl, rfl⟩ := hshape
    exact ⟨_, found_declaration (by decide +kernel) hparse rfl
      (congrArg (Option.map _) (typeCall?_eq_some rfl rfl (receiverIs_qualified rfl (by decide +kernel)) rfl)) rfl⟩
  next => cases hshape

/-- The type may come behind the file that extends it. -/
theorem reorder_documents_type_last :
    extendingFile.contributes {} = true ∧ (∃ t, CodeObject.resourceType t ∈ objectsOf (typeFile.found {})) ∧
      ∀ key, (Run.ofSources {} [extendingFile, typeFile]).registry.get? key =
        (Run.ofSources {} [typeFile, extendingFile]).registry.get? key := by
  obtain ⟨t, ht⟩ := found_typeFile
  obtain ⟨e, he⟩ := found_extendingFile
  have horder : [extendingFile, typeFile].filter (·.contributes {}) =
      [typeFile, extendingFile].filter (·.contributes {}) := by
    simp [SourceFile.contributes, ht, he, Found.contributes, CodeObject.asProvider?]
  have hdistinct : ((objectsOf ([typeFile, extendingFile].flatMap (·.found {}))).map CodeObject.key).Nodup := by
    simp [ht, he, objectsOf]
  refine ⟨?_, ⟨t, ?_⟩, (reorder_documents (.swap _ _ _) horder hdistinct).1⟩
  · simp [SourceFile.contributes, he, Found.contributes]
  · simp [ht, objectsOf]

end Declarations

end PuppetDocs
