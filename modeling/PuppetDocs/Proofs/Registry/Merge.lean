import PuppetDocs.Proofs.Registry.Entries
import PuppetDocs.Run.Basic

/-
  PuppetDocs.Proofs.Registry.Merge — a registry for each file, or one for all of them.

  Files that are collected on their own and merged in order leave the registry that one
  collection of everything leaves. A key used twice is noticed at different times: within a
  file when the file is collected, across files when they are merged. The problems are the
  same, one for each object that is not the first under its key.
-/

namespace PuppetDocs

namespace Registry

/-! ## What is found in files -/

/-- Takes over all that was found, in order. -/
def fill (r : Registry) : List Found → Registry × List Problem
  | [] => (r, [])
  | found :: rest =>
    let (r, problems) := r.record found
    let (r, more) := r.fill rest
    (r, problems ++ more)

/-- Collects each file in a registry of its own, and merges these in order. -/
def mergeFiles (r : Registry) : List (List Found) → Registry × List Problem
  | [] => (r, [])
  | file :: files =>
    let (alone, problems) := fill {} file
    let (r, clashes) := r.merge alone
    let (r, more) := r.mergeFiles files
    (r, problems ++ clashes ++ more)

def objectsOf (fs : List Found) : List CodeObject :=
  fs.filterMap fun
    | .object o => some o
    | .extension _ => none

def extensionsOf (fs : List Found) : List TypeExtension :=
  fs.filterMap fun
    | .object _ => none
    | .extension e => some e

@[simp] theorem objectsOf_object (o : CodeObject) (fs : List Found) :
    objectsOf (.object o :: fs) = o :: objectsOf fs := rfl

@[simp] theorem objectsOf_extension (e : TypeExtension) (fs : List Found) :
    objectsOf (.extension e :: fs) = objectsOf fs := rfl

@[simp] theorem extensionsOf_object (o : CodeObject) (fs : List Found) :
    extensionsOf (.object o :: fs) = extensionsOf fs := rfl

@[simp] theorem extensionsOf_extension (e : TypeExtension) (fs : List Found) :
    extensionsOf (.extension e :: fs) = e :: extensionsOf fs := rfl

theorem fill_eq (r : Registry) (fs : List Found) :
    r.fill fs = (⟨r.entries ++ (kept r.keys (objectsOf fs)).map keyed, r.extensions ++ extensionsOf fs⟩,
      (rejected r.keys (objectsOf fs)).map duplicate) := by
  induction fs generalizing r with
  | nil => simp [fill, objectsOf, extensionsOf, kept, rejected]
  | cons found fs ih =>
    cases found with
    | extension e => simp [fill, record, ih]
    | object o =>
      by_cases h : o.key ∈ r.keys
      · simp [fill, record, register_taken h, ih, kept, rejected, h]
      · simp [fill, record, register_free h, ih, kept, rejected, h, keyed]

theorem merge_eq (r other : Registry) :
    r.merge other = (⟨r.entries ++ (kept r.keys other.objects).map keyed, r.extensions ++ other.extensions⟩,
      (rejected r.keys other.objects).map duplicate) := by
  simp only [merge, registerAll_eq]

theorem objects_keyed (os : List CodeObject) (xs : List TypeExtension) : objects ⟨os.map keyed, xs⟩ = os := by
  unfold objects
  rw [List.map_map]
  exact List.map_id os

theorem fill_append (r : Registry) (fs gs : List Found) :
    r.fill (fs ++ gs) = (((r.fill fs).1.fill gs).1, (r.fill fs).2 ++ ((r.fill fs).1.fill gs).2) := by
  induction fs generalizing r with
  | nil => rfl
  | cons found fs ih => simp only [List.cons_append, fill, ih, List.append_assoc]

/-! ## Objects kept and rejected -/

theorem enter_subset {own taken : List ObjectKey} (h : own ⊆ taken) {key : ObjectKey} (hkey : key ∈ taken) :
    own ++ [key] ⊆ taken :=
  List.append_subset.mpr ⟨h, List.cons_subset.mpr ⟨hkey, List.nil_subset _⟩⟩

theorem enter_subset_enter {own taken : List ObjectKey} (h : own ⊆ taken) (key : ObjectKey) :
    own ++ [key] ⊆ taken ++ [key] :=
  enter_subset (List.subset_append_of_subset_left _ h) (List.mem_append_right _ List.mem_cons_self)

/-- What a file keeps on its own is kept as it would be without the file, if what it has taken is taken. -/
theorem kept_kept {own taken : List ObjectKey} (h : own ⊆ taken) (os : List CodeObject) :
    kept taken (kept own os) = kept taken os := by
  induction os generalizing own taken with
  | nil => rfl
  | cons o os ih =>
    by_cases hown : o.key ∈ own
    · simp only [kept, if_pos hown, if_pos (h hown), ih h]
    · by_cases htaken : o.key ∈ taken
      · simp only [kept, if_neg hown, if_pos htaken, ih (enter_subset h htaken)]
      · simp only [kept, if_neg hown, if_neg htaken, ih (enter_subset_enter h _)]

/-- What is rejected within a file, and then of what the file kept, is what is rejected without the file. -/
theorem rejected_kept {own taken : List ObjectKey} (h : own ⊆ taken) (os : List CodeObject) :
    (rejected own os ++ rejected taken (kept own os)).Perm (rejected taken os) := by
  induction os generalizing own taken with
  | nil => exact .refl _
  | cons o os ih =>
    by_cases hown : o.key ∈ own
    · simp only [kept, rejected, if_pos hown, if_pos (h hown), List.cons_append]
      exact (ih h).cons o
    · by_cases htaken : o.key ∈ taken
      · simp only [kept, rejected, if_neg hown, if_pos htaken]
        exact List.perm_middle.trans ((ih (enter_subset h htaken)).cons o)
      · simp only [kept, rejected, if_neg hown, if_neg htaken]
        exact ih (enter_subset_enter h _)

/-- The objects with one of their key in front of them. -/
def repeated (os : List CodeObject) : List CodeObject :=
  (os.zipIdx.filter fun p => (os.take p.2).any (·.key = p.1.key)).map Prod.fst

theorem rejected_eq (taken : List ObjectKey) (os : List CodeObject) :
    rejected taken os =
      (os.zipIdx.filter fun p => p.1.key ∈ taken || (os.take p.2).any (·.key = p.1.key)).map Prod.fst := by
  induction os generalizing taken with
  | nil => rfl
  | cons o os ih =>
    -- Behind the first object, its key counts as seen.
    have hrest : ∀ seen : List ObjectKey, (∀ key, key ∈ seen ↔ key ∈ taken ∨ o.key = key) →
        rejected seen os = ((os.zipIdx 1).filter fun p =>
          p.1.key ∈ taken || ((o :: os).take p.2).any (·.key = p.1.key)).map Prod.fst := by
      intro seen hseen
      rw [List.zipIdx_succ, List.filter_map, List.map_map, ih]
      congr 2
      funext p
      simp [hseen, Bool.or_assoc]
    rw [List.zipIdx_cons]
    by_cases h : o.key ∈ taken
    · rw [rejected, if_pos h, hrest taken fun key => ⟨.inl, fun hkey => hkey.elim id fun he => he ▸ h⟩]
      simp [h]
    · rw [rejected, if_neg h, hrest (taken ++ [o.key]) fun key => by simp [eq_comm]]
      simp [h]

/-! ## Files apart and together -/

/-- Merging what a file filled on its own does what filling with the file does. -/
theorem merge_fill (r : Registry) (file : List Found) :
    (r.merge (fill {} file).1).1 = (r.fill file).1 ∧
      ((fill {} file).2 ++ (r.merge (fill {} file).1).2).Perm (r.fill file).2 := by
  have hfile : fill {} file = (⟨(kept [] (objectsOf file)).map keyed, extensionsOf file⟩,
      (rejected [] (objectsOf file)).map duplicate) := fill_eq {} file
  rw [hfile, merge_eq, objects_keyed, fill_eq r file, kept_kept (List.nil_subset _)]
  refine ⟨rfl, ?_⟩
  rw [← List.map_append]
  exact (rejected_kept (List.nil_subset _) _).map duplicate

theorem mergeFiles_fill (r : Registry) (files : List (List Found)) :
    (r.mergeFiles files).1 = (r.fill files.flatten).1 ∧ (r.mergeFiles files).2.Perm (r.fill files.flatten).2 := by
  induction files generalizing r with
  | nil => exact ⟨rfl, .refl _⟩
  | cons file files ih =>
    obtain ⟨hfile, hproblems⟩ := merge_fill r file
    obtain ⟨hrest, hmore⟩ := ih (r.fill file).1
    simp only [mergeFiles, List.flatten_cons, fill_append, hfile]
    exact ⟨hrest, hproblems.append hmore⟩

/-- What a file holds that can be documented. -/
def foundIn (settings : Settings) (tree : SyntaxTree) : List Found :=
  (Context.findings { tree, settings }).filterMap fun f => f.toOption.map Noted.value

theorem ofFindings_registry (fs : List Finding) :
    (Collected.ofFindings fs).registry = (fill {} (fs.filterMap fun f => f.toOption.map Noted.value)).1 := by
  have hfold : ∀ c : Collected, (fs.foldl Collected.add c).registry =
      (c.registry.fill (fs.filterMap fun f => f.toOption.map Noted.value)).1 := by
    induction fs with
    | nil => exact fun _ => rfl
    | cons f fs ih =>
      intro c
      rw [List.foldl_cons, ih]
      cases f with
      | error p => rfl
      | ok found => rfl
  exact hfold {}

/-- A run over parsed files leaves the registry that takes over all their findings at once. -/
theorem addTrees_registry (r : Run) (trees : List SyntaxTree) :
    (trees.foldl Run.addTree r).registry = (r.registry.fill (trees.flatMap (foundIn r.settings))).1 := by
  induction trees generalizing r with
  | nil => rfl
  | cons tree trees ih =>
    have htree : (r.addTree tree).registry = (r.registry.fill (foundIn r.settings tree)).1 := by
      change
        (r.registry.merge (Collected.ofFindings (Context.findings { tree, settings := r.settings })).registry).1 = _
      rw [ofFindings_registry]
      exact (merge_fill r.registry (foundIn r.settings tree)).1
    rw [List.foldl_cons, ih, htree, List.flatMap_cons, fill_append]
    rfl

/-- Collecting each file on its own and merging in order leaves the objects and extensions, in their order, that one
registry for everything has, with the same problems: one for each object that is not the first under its key. -/
theorem mergeFiles_refines (files : List (List Found)) :
    (mergeFiles {} files).1 = (fill {} files.flatten).1 ∧
      (mergeFiles {} files).2.Perm (fill {} files.flatten).2 ∧
      (fill {} files.flatten).2 = (repeated (objectsOf files.flatten)).map duplicate := by
  refine ⟨(mergeFiles_fill {} files).1, (mergeFiles_fill {} files).2, ?_⟩
  have hrepeated : rejected [] (objectsOf files.flatten) = repeated (objectsOf files.flatten) := by
    rw [rejected_eq]
    simp [repeated]
  rw [fill_eq, ← hrepeated]
  rfl

end Registry

end PuppetDocs
