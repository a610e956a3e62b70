import PuppetDocs.Findings.File

/-
  PuppetDocs.Proofs.Registry.Entries — what registering does to the entries.

  A registry is in order if every object stands under its own key and no key is used twice
  (`Registry.Valid`). Registering a list of objects appends those whose key is still free,
  each for the first time it comes (`kept`), and reports the others (`rejected`).
-/

namespace PuppetDocs

namespace Registry

/-- Every object stands under its own key, and no two under one. -/
structure Valid (r : Registry) : Prop where
  own : ∀ e ∈ r.entries, e.1 = e.2.key
  nodup : r.keys.Nodup

theorem valid_empty : Valid {} where
  own := by
    intro e he
    cases he
  nodup := List.nodup_nil

/-! ## Looking up -/

theorem lookup_eq_none {es : Entries} {key : ObjectKey} : es.lookup key = none ↔ key ∉ es.map Prod.fst := by
  rw [List.lookup_eq_none_iff]
  constructor
  · intro h hmem
    obtain ⟨e, he, rfl⟩ := List.mem_map.mp hmem
    simpa using h e he
  · intro h e he
    refine bne_iff_ne.mpr fun hkey => ?_
    exact h (hkey ▸ List.mem_map_of_mem he)

theorem lookup_isSome {es : Entries} {key : ObjectKey} : (es.lookup key).isSome = true ↔ key ∈ es.map Prod.fst := by
  have hnone : es.lookup key = none ↔ key ∉ es.map Prod.fst := lookup_eq_none
  cases hget : es.lookup key with
  | none => simpa using hnone.mp hget
  | some o =>
    rw [hget] at hnone
    simpa using hnone

theorem get?_eq_none {r : Registry} {key : ObjectKey} : r.get? key = none ↔ key ∉ r.keys := lookup_eq_none

theorem contains_iff {r : Registry} {key : ObjectKey} : r.contains key = true ↔ key ∈ r.keys := lookup_isSome

theorem declares_iff {es : Entries} {name : String} : declares es name = true ↔ typeKey name ∈ es.map Prod.fst :=
  lookup_isSome

/-- With keys that are used once, what is looked up is what stands under the key. -/
theorem get?_eq_some {r : Registry} (h : r.keys.Nodup) {key : ObjectKey} {o : CodeObject} :
    r.get? key = some o ↔ (key, o) ∈ r.entries := by
  unfold get?
  rw [List.lookup_eq_some_iff]
  constructor
  · rintro ⟨before, after, hsplit, -⟩
    rw [hsplit]
    exact List.mem_append_right _ List.mem_cons_self
  · intro hmem
    obtain ⟨before, after, hsplit⟩ := List.append_of_mem hmem
    refine ⟨before, after, hsplit, fun e he => bne_iff_ne.mpr fun hkey => ?_⟩
    unfold keys at h
    rw [hsplit, List.map_append, List.map_cons] at h
    exact (List.nodup_append.mp h).2.2 e.1 (List.mem_map_of_mem he) key List.mem_cons_self hkey.symm

/-! ## Registering -/

@[simp] theorem keys_enter (r : Registry) (o : CodeObject) :
    keys { r with entries := r.entries ++ [(o.key, o)] } = r.keys ++ [o.key] := by
  simp [keys]

@[simp] theorem entries_addExtension (r : Registry) (x : TypeExtension) : (r.addExtension x).entries = r.entries := rfl

@[simp] theorem keys_addExtension (r : Registry) (x : TypeExtension) : (r.addExtension x).keys = r.keys := rfl

@[simp] theorem extensions_addExtension (r : Registry) (x : TypeExtension) :
    (r.addExtension x).extensions = r.extensions ++ [x] := rfl

theorem register_free {r : Registry} {o : CodeObject} (h : o.key ∉ r.keys) :
    r.register o = .ok { r with entries := r.entries ++ [(o.key, o)] } := by
  unfold register
  rw [if_neg]
  exact fun hc => h (contains_iff.mp hc)

theorem register_taken {r : Registry} {o : CodeObject} (h : o.key ∈ r.keys) : r.register o = .error (duplicate o) := by
  unfold register
  rw [if_pos (contains_iff.mpr h)]

theorem Valid.enter {r : Registry} (h : r.Valid) {o : CodeObject} (hfree : o.key ∉ r.keys) :
    Valid { r with entries := r.entries ++ [(o.key, o)] } where
  own := by
    intro e he
    rcases List.mem_append.mp he with he | he
    · exact h.own e he
    · rw [List.mem_singleton.mp he]
  nodup := by
    rw [keys_enter]
    refine List.nodup_append.mpr ⟨h.nodup, List.pairwise_singleton _ _, fun key hkey key' hkey' => ?_⟩
    rw [List.mem_singleton.mp hkey']
    exact fun he => hfree (he ▸ hkey)

/-- The objects whose keys are not taken, each key once. -/
def kept (taken : List ObjectKey) : List CodeObject → List CodeObject
  | [] => []
  | o :: os => if o.key ∈ taken then kept taken os else o :: kept (taken ++ [o.key]) os

/-- The objects whose keys are taken, or were used by an object in front of them. -/
def rejected (taken : List ObjectKey) : List CodeObject → List CodeObject
  | [] => []
  | o :: os => if o.key ∈ taken then o :: rejected taken os else rejected (taken ++ [o.key]) os

/-- An object with the key it is registered under. -/
def keyed (o : CodeObject) : ObjectKey × CodeObject := (o.key, o)

theorem registerAll_eq (r : Registry) (os : List CodeObject) :
    r.registerAll os =
      ({ r with entries := r.entries ++ (kept r.keys os).map keyed }, (rejected r.keys os).map duplicate) := by
  induction os generalizing r with
  | nil => simp [registerAll, kept, rejected]
  | cons o os ih =>
    by_cases h : o.key ∈ r.keys
    · simp only [registerAll, register_taken h, ih, kept, rejected, if_pos h, List.map_cons]
    · simp only [registerAll, register_free h, ih, kept, rejected, if_neg h, keys_enter, List.map_cons]
      simp [keyed]

theorem Valid.registerAll {r : Registry} (h : r.Valid) (os : List CodeObject) : (r.registerAll os).1.Valid := by
  induction os generalizing r with
  | nil => exact h
  | cons o os ih =>
    by_cases hkey : o.key ∈ r.keys
    · simp only [Registry.registerAll, register_taken hkey]
      exact ih h
    · simp only [Registry.registerAll, register_free hkey]
      exact ih (h.enter hkey)

end Registry

end PuppetDocs
