import Mathlib.Data.List.Forall2
import Mathlib.Data.List.Zip
import PuppetDocs.Proofs.Findings.Visibility
import PuppetDocs.Proofs.Findings.Visits

/-
  PuppetDocs.Proofs.Findings.Search — which documentation a search finds.

  A search visits nodes from a stack. It reaches the root and every node that is not pruned and
  not below a pruned one (`Reached`). Of the nodes it reaches it takes the first, in pre-order,
  that documents (`FirstDoc`, `search_among`); pre-order is the order of places.

  What is below a pruned node is never looked at, and of that node itself only that it is pruned.
  So bodies that differ only in places and inside the declarations of attributes (`AlikeBelow`) say
  the same, node for node (`AlikeBelow.saying_searched`), and give a resource type the same
  documentation (`docs_of_reached`).
-/

namespace PuppetDocs

open Ruby

/-! ## Nodes that are reached -/

/-- The node at a place to which a search comes: no node on the way to it is pruned, nor is it itself. The root is not
asked. -/
structure Reached (prune : Node → Bool) (root : Node) (p : Place) (x : Node) : Prop where
  there : root.at? p = some x
  kept : ∀ q y, q ≠ [] → q <+: p → root.at? q = some y → prune y = false

variable {prune : Node → Bool} {root n m x y : Node} {p q : Place}

theorem reached_nil : Reached prune root [] x ↔ x = root := by
  constructor
  · intro h
    exact (Option.some.inj h.there).symm
  · rintro rfl
    exact ⟨rfl, fun q y hne hq => absurd (List.prefix_nil.mp hq) hne⟩

/-- A node below the root is reached from the child that is on the way, if that child is not pruned. -/
theorem reached_cons {i : Nat} : Reached prune root (i :: p) x ↔
    ∃ child, root.children[i]? = some child ∧ prune child = false ∧ Reached prune child p x := by
  constructor
  · rintro ⟨hthere, hkept⟩
    obtain ⟨child, hchild, hthere⟩ := Option.bind_eq_some_iff.mp hthere
    have hat : ∀ q, root.at? (i :: q) = child.at? q := fun q => by rw [Node.at?, hchild, Option.bind_some]
    refine ⟨child, hchild, ?_, hthere, fun q y hne hq hy => ?_⟩
    · exact hkept [i] child (List.cons_ne_nil i []) ⟨p, rfl⟩ (hat [])
    · exact hkept (i :: q) y (List.cons_ne_nil i q) (List.cons_prefix_cons.mpr ⟨rfl, hq⟩) ((hat q).trans hy)
  · rintro ⟨child, hchild, hprune, hthere, hkept⟩
    have hat : ∀ q, root.at? (i :: q) = child.at? q := fun q => by rw [Node.at?, hchild, Option.bind_some]
    refine ⟨(hat p).trans hthere, fun q y hne hbelow hy => ?_⟩
    obtain ⟨j, q, rfl⟩ := List.exists_cons_of_ne_nil hne
    obtain ⟨rfl, hprefix⟩ := List.cons_prefix_cons.mp hbelow
    rw [hat] at hy
    cases q with
    | nil =>
      rw [← Option.some.inj hy]
      exact hprune
    | cons k q => exact hkept (k :: q) y (List.cons_ne_nil k q) hprefix hy

/-! ## Searches -/

/-- The children that are not pruned, with their places. -/
def keptChildren (prune : Node → Bool) (n : Node) : List (Place × Node) :=
  (n.children.zipIdx.filter fun v => !prune v.1).map fun v => ([v.2], v.1)

theorem mem_keptChildren {v : Place × Node} :
    v ∈ keptChildren prune n ↔ ∃ i, v.1 = [i] ∧ n.children[i]? = some v.2 ∧ prune v.2 = false := by
  simp only [keptChildren, List.mem_map, List.mem_filter, List.mem_zipIdx_iff_getElem?]
  constructor
  · rintro ⟨⟨child, i⟩, ⟨hchild, hprune⟩, rfl⟩
    exact ⟨i, rfl, hchild, by simpa using hprune⟩
  · rintro ⟨i, hplace, hchild, hprune⟩
    exact ⟨(v.2, i), ⟨hchild, by simpa using hprune⟩, Prod.ext hplace.symm rfl⟩

theorem child_of_kept {v : Place × Node} (h : v ∈ keptChildren prune n) : v.2 ∈ n.children := by
  obtain ⟨i, -, hchild, -⟩ := mem_keptChildren.mp h
  exact List.mem_of_getElem? hchild

theorem keptChildren_snd (prune : Node → Bool) (n : Node) :
    (keptChildren prune n).map Prod.snd = n.children.filter (!prune ·) := by
  have hfst : n.children.zipIdx.map Prod.fst = n.children := List.zipIdx_map_fst 0 n.children
  conv => rhs; rw [← hfst, List.filter_map]
  rw [keptChildren, List.map_map]
  rfl

theorem keptChildren_apart (prune : Node → Bool) (n : Node) :
    (keptChildren prune n).Pairwise fun v w => Apart v.1 w.1 :=
  List.pairwise_map.mpr (((zipIdx_ascending n.children).filter _).imp fun h => Apart.of_lt h [] [])

/-- `preorderPruned` with the places. -/
def searched (prune : Node → Bool) (n : Node) : List (Place × Node) :=
  ([], n) :: (keptChildren prune n).attach.flatMap fun ⟨v, _⟩ => (searched prune v.2).map (under v.1)
termination_by n
decreasing_by exact Node.sizeOf_child_lt (child_of_kept ‹_›)

theorem searched_eq (prune : Node → Bool) (n : Node) :
    searched prune n = ([], n) :: (keptChildren prune n).flatMap fun v => (searched prune v.2).map (under v.1) := by
  rw [searched, List.flatMap_subtype (g := fun v => (searched prune v.2).map (under v.1)) (fun _ _ => rfl)]
  simp

theorem searched_snd (prune : Node → Bool) (n : Node) : (searched prune n).map Prod.snd = n.preorderPruned prune := by
  induction n using Node.induction with
  | h n ih =>
    rw [searched_eq, Node.preorderPruned_eq, List.map_cons, List.map_flatMap, ← keptChildren_snd, List.flatMap_map]
    refine congrArg _ (List.flatMap_congr fun v hv => ?_)
    rw [map_under_snd, ih v.2 (child_of_kept hv)]

/-- The nodes searched are those reached. -/
theorem mem_searched : (p, x) ∈ searched prune n ↔ Reached prune n p x := by
  induction n using Node.induction generalizing p with
  | h n ih =>
    rw [searched_eq, List.mem_cons, List.mem_flatMap]
    cases p with
    | nil =>
      rw [reached_nil, Prod.mk.injEq]
      constructor
      · rintro (⟨-, hx⟩ | ⟨v, hv, hx⟩)
        · exact hx
        · obtain ⟨i, hplace, -⟩ := mem_keptChildren.mp hv
          obtain ⟨q, -, hq⟩ := mem_map_under.mp hx
          rw [hplace] at hq
          cases hq
      · intro hx
        exact .inl ⟨rfl, hx⟩
    | cons i p =>
      rw [reached_cons]
      constructor
      · rintro (hroot | ⟨v, hv, hx⟩)
        · cases hroot
        · obtain ⟨j, hplace, hchild, hprune⟩ := mem_keptChildren.mp hv
          obtain ⟨q, hq, hunder⟩ := mem_map_under.mp hx
          rw [hplace] at hunder
          cases hunder
          exact ⟨v.2, hchild, hprune, (ih v.2 (child_of_kept hv)).mp hq⟩
      · rintro ⟨child, hchild, hprune, hreached⟩
        have hv : ([i], child) ∈ keptChildren prune n := mem_keptChildren.mpr ⟨i, rfl, hchild, hprune⟩
        exact .inr ⟨([i], child), hv, mem_map_under.mpr ⟨p, (ih child (child_of_kept hv)).mpr hreached, rfl⟩⟩

/-- A search goes in pre-order, and comes to no place twice. -/
theorem searched_sorted (prune : Node → Bool) (n : Node) : (searched prune n).Pairwise fun v w => v.1 < w.1 := by
  induction n using Node.induction with
  | h n ih =>
    rw [searched_eq]
    refine List.pairwise_cons.mpr ⟨fun w hw => ?_, sorted_flatMap (keptChildren_apart prune n) fun v hv =>
      ih v.2 (child_of_kept hv)⟩
    obtain ⟨v, hv, hw⟩ := List.mem_flatMap.mp hw
    obtain ⟨w', -, rfl⟩ := List.mem_map.mp hw
    obtain ⟨i, hplace, -⟩ := mem_keptChildren.mp hv
    simp only [under, hplace]
    exact List.nil_lt_cons _ _

/-- The value of the first node, in pre-order, among those reached that document. -/
structure FirstDoc (prune : Node → Bool) (root : Node) (p : Place) (value : Node) : Prop where
  documents : ∃ x, Reached prune root p x ∧ docValue? x = some value
  first : ∀ q y, Reached prune root q y → q < p → docValue? y = none

/-- A search ends at the first node that documents, and finds nothing only if none does. -/
theorem search_among (prune : Node → Bool) (root : Node) :
    (∃ p value, FirstDoc prune root p value ∧ findDocstringPruned root prune = .ofValue value) ∨
    ((∀ p x, Reached prune root p x → docValue? x = none) ∧ findDocstringPruned root prune = .notFound) := by
  have hnodes : (root.preorderPruned prune).findSome? docValue? =
      (searched prune root).findSome? fun v => docValue? v.2 := by
    rw [← searched_snd, List.findSome?_map]
    rfl
  rw [findDocstringPruned_eq, DocSearch.among, hnodes]
  cases hfound : (searched prune root).findSome? fun v => docValue? v.2 with
  | none =>
    have hnone := List.findSome?_eq_none_iff.mp hfound
    exact .inr ⟨fun p x hx => hnone (p, x) (mem_searched.mpr hx), rfl⟩
  | some value =>
    obtain ⟨before, v, after, hsplit, hvalue, hbefore⟩ := List.findSome?_eq_some_iff.mp hfound
    have hsorted := searched_sorted prune root
    rw [hsplit] at hsorted
    refine .inl ⟨v.1, value, ⟨⟨v.2, mem_searched.mp (by rw [hsplit]; simp), hvalue⟩, fun q y hy hlt => ?_⟩, rfl⟩
    have hmem := mem_searched.mpr hy
    rw [hsplit] at hmem
    rcases List.mem_append.mp hmem with hmem | hmem
    · exact hbefore (q, y) hmem
    · -- what is searched behind the first is not in front of it
      rcases List.mem_cons.mp hmem with heq | hmem
      · rw [← heq] at hlt
        exact absurd hlt (List.lt_irrefl q)
      · have hbehind := (List.pairwise_cons.mp (List.pairwise_append.mp hsorted).2.1).1 (q, y) hmem
        exact absurd hlt (List.lt_asymm hbehind)

theorem preorderPruned_none (n : Node) : n.preorderPruned (fun _ => false) = n.preorder := by
  induction n using Node.induction with
  | h n ih =>
    have hall : n.children.filter (fun _ => !false) = n.children := List.filter_eq_self.mpr fun _ _ => rfl
    rw [Node.preorderPruned_eq, Node.preorder_eq, hall]
    exact congrArg _ (List.flatMap_congr ih)

/-! ## Trees that are alike outside declarations -/

namespace Ruby

/-- What is left of a part. -/
def blank (_ : Node) : Node := ⟨.nil, ⟨0, 0⟩, 0⟩

def Param.outline (p : Param Node) : Param Node := { p with default? := p.default?.map blank, span := ⟨0, 0⟩ }

def Block.outline (b : Block Node) : Block Node :=
  { params := b.params.map Param.outline, body := blank b.body, span := ⟨0, 0⟩, line := 0 }

def Call.outline (c : Call Node) : Call Node :=
  { c with receiver := c.receiver.map blank, args := c.args.map blank, block := c.block.map Block.outline }

def NodeKind.outline : NodeKind Node → NodeKind Node
  | .statements items => .statements (items.map blank)
  | .call c => .call c.outline
  | .assign target value => .assign (blank target) (blank value)
  | .opAssign op target value => .opAssign op (blank target) (blank value)
  | .binary op lhs rhs => .binary op (blank lhs) (blank rhs)
  | .unary op operand => .unary op (blank operand)
  | .const scope name => .const (scope.map blank) name
  | .array items => .array (items.map blank)
  | .hash entries => .hash (entries.map blank)
  | .pair key value => .pair (blank key) (blank value)
  | .splat double value => .splat double (value.map blank)
  | .blockPass value => .blockPass (value.map blank)
  | .method name singleton params body => .method name singleton (params.map Param.outline) (blank body)
  | .namespace_ keyword name superclass body =>
    .namespace_ keyword (name.map blank) (superclass.map blank) (blank body)
  | .control keyword parts => .control keyword (parts.map blank)
  | .lambda params body => .lambda (params.map Param.outline) (blank body)
  | .jump keyword args => .jump keyword (args.map blank)
  | .other parts => .other (parts.map blank)
  | leaf => leaf

/-- A node without its place, and with nothing but a blank for each of its parts. -/
def Node.outline (n : Node) : Node := ⟨n.kind.outline, ⟨0, 0⟩, 0⟩

theorem defaults_outline (params : List (Param Node)) :
    defaults (params.map Param.outline) = (defaults params).map blank := by
  simp only [defaults, List.filterMap_map, List.map_filterMap]
  rfl

theorem NodeKind.outline_children (k : NodeKind Node) : k.outline.children = k.children.map blank := by
  cases k
  case call c =>
    cases hblock : c.block <;>
      simp [outline, children, Call.outline, hblock, Block.outline, defaults_outline, Option.toList_map]
  all_goals simp [outline, children, defaults_outline, Option.toList_map]

end Ruby

open Context (documentsOther)

/-- The trees differ only in places and inside declarations that document something else than the type: each may be any
other such declaration. -/
inductive AlikeOutside : Node → Node → Prop
  | declaration {n m : Node} : documentsOther n = true → documentsOther m = true → AlikeOutside n m
  | parts {n m : Node} : n.outline = m.outline → (∀ x y, (x, y) ∈ n.children.zip m.children → AlikeOutside x y) →
      AlikeOutside n m

/-- The same of trees whose roots do not count as such declarations. -/
structure AlikeBelow (n m : Node) : Prop where
  outline : n.outline = m.outline
  parts : ∀ x y, (x, y) ∈ n.children.zip m.children → AlikeOutside x y

/-! ### What is read off an outline -/

theorem literal?_outline (n : Node) : n.outline.literal? = n.literal? := by
  unfold Node.literal? Node.outline
  cases n.kind <;> rfl

theorem isSelf_outline (n : Node) : n.outline.isSelf = n.isSelf := by
  unfold Node.isSelf Node.outline
  cases n.kind <;> rfl

theorem documentsOther_outline (n : Node) : documentsOther n.outline = documentsOther n := by
  unfold documentsOther Node.call? Node.outline
  cases n.kind
  case call c => simp [NodeKind.outline, Call.outline, Call.isFree]
  all_goals rfl

theorem AlikeBelow.children (h : AlikeBelow n m) : List.Forall₂ AlikeOutside n.children m.children := by
  refine List.forall₂_iff_zip.mpr ⟨?_, fun {x y} => h.parts x y⟩
  have hblank : n.children.map blank = m.children.map blank := by
    have hchildren := fun x : Node => NodeKind.outline_children x.kind
    unfold Node.children
    rw [← hchildren, ← hchildren]
    exact congrArg Node.children h.outline
  simpa using congrArg List.length hblank

theorem AlikeOutside.declaration_or_below (h : AlikeOutside n m) :
    (documentsOther n = true ∧ documentsOther m = true) ∨ AlikeBelow n m := by
  cases h with
  | declaration hn hm => exact .inl ⟨hn, hm⟩
  | parts houtline hparts => exact .inr ⟨houtline, hparts⟩

/-- What is read off an outline, and is the same for all declarations, is the same for trees that are alike. -/
theorem AlikeOutside.read {β : Type} {f : Node → β} (h : AlikeOutside n m) (houtline : ∀ x, f x.outline = f x)
    (hdeclaration : ∀ x y, documentsOther x = true → documentsOther y = true → f x = f y) : f n = f m := by
  rcases h.declaration_or_below with ⟨hn, hm⟩ | h
  · exact hdeclaration n m hn hm
  · rw [← houtline n, h.outline, houtline]

theorem documentsOther_call (h : documentsOther n = true) : ∃ c, n.kind = .call c ∧ c.receiver = none ∧
    c.method ∈ ["newparam", "newproperty", "newcheck", "newmetaparam", "ensurable"] := by
  unfold documentsOther Node.call? at h
  cases hkind : n.kind with
  | call c =>
    rw [hkind] at h
    simpa [Call.isFree] using h
  | _ => simp [hkind] at h

theorem AlikeOutside.documentsOther (h : AlikeOutside n m) : Context.documentsOther n = Context.documentsOther m :=
  h.read documentsOther_outline fun _ _ hx hy => hx.trans hy.symm

theorem AlikeOutside.isSelf (h : AlikeOutside n m) : n.isSelf = m.isSelf := by
  refine h.read isSelf_outline fun x y hx hy => ?_
  obtain ⟨c, hc, -⟩ := documentsOther_call hx
  obtain ⟨d, hd, -⟩ := documentsOther_call hy
  simp [Node.isSelf, hc, hd]

theorem AlikeOutside.literal? (h : AlikeOutside n m) : n.literal? = m.literal? := by
  refine h.read literal?_outline fun x y hx hy => ?_
  obtain ⟨c, hc, -⟩ := documentsOther_call hx
  obtain ⟨d, hd, -⟩ := documentsOther_call hy
  simp [Node.literal?, hc, hd]

theorem AlikeOutside.symm (h : AlikeOutside n m) : AlikeOutside m n := by
  induction h with
  | declaration hn hm => exact .declaration hm hn
  | parts houtline _ ih =>
    refine .parts houtline.symm fun x y hmem => ih y x ?_
    rw [← List.zip_swap]
    exact List.mem_map.mpr ⟨(x, y), hmem, rfl⟩

theorem AlikeBelow.symm (h : AlikeBelow n m) : AlikeBelow m n := by
  refine ⟨h.outline.symm, fun x y hmem => (h.parts y x ?_).symm⟩
  rw [← List.zip_swap]
  exact List.mem_map.mpr ⟨(x, y), hmem, rfl⟩

/-! ### Nodes that document -/

theorem assign_of_outline {target value : Node} (h : n.outline = m.outline) (hn : n.kind = .assign target value) :
    ∃ target' value', m.kind = .assign target' value' := by
  have hkind : n.kind.outline = m.kind.outline := congrArg Node.kind h
  rw [hn] at hkind
  cases hm : m.kind with
  | assign target' value' => exact ⟨target', value', rfl⟩
  | _ => simp [hm, NodeKind.outline] at hkind

theorem call_of_outline {c : Call Node} (h : n.outline = m.outline) (hn : n.kind = .call c) :
    ∃ d, m.kind = .call d ∧ c.outline = d.outline := by
  have hkind : n.kind.outline = m.kind.outline := congrArg Node.kind h
  rw [hn] at hkind
  cases hm : m.kind with
  | call d =>
    rw [hm] at hkind
    exact ⟨d, rfl, NodeKind.call.inj hkind⟩
  | _ => simp [hm, NodeKind.outline] at hkind

theorem instanceVar_of_outline {name : String} (h : n.outline = m.outline) (hn : n.kind = .instanceVar name) :
    m.kind = .instanceVar name := by
  have hkind : n.kind.outline = m.kind.outline := congrArg Node.kind h
  rw [hn] at hkind
  cases hm : m.kind with
  | instanceVar name' =>
    rw [hm] at hkind
    exact hkind.symm
  | _ => simp [hm, NodeKind.outline] at hkind

theorem Ruby.Call.of_outline {c d : Call Node} (h : c.outline = d.outline) : c.method = d.method ∧
    c.receiver.isSome = d.receiver.isSome ∧ c.args.length = d.args.length ∧ c.block.isSome = d.block.isSome := by
  have hmethod : c.outline.method = d.outline.method := congrArg Call.method h
  have hreceiver := congrArg (·.receiver.isSome) h
  have hargs := congrArg (·.args.length) h
  have hblock := congrArg (·.block.isSome) h
  simp only [Call.outline, Option.isSome_map, List.length_map] at hreceiver hargs hblock
  exact ⟨hmethod, hreceiver, hargs, hblock⟩

theorem AlikeOutside.isDocField (h : AlikeOutside n m) (hn : PuppetDocs.isDocField n = true) :
    PuppetDocs.isDocField m = true := by
  rcases h.declaration_or_below with ⟨hother, -⟩ | h
  · -- a declaration is a call of another method
    obtain ⟨c, hkind, -, hmethod⟩ := documentsOther_call hother
    simp only [PuppetDocs.isDocField, hkind, Bool.and_eq_true, beq_iff_eq] at hn
    rw [hn.1.1] at hmethod
    exact absurd hmethod (by decide)
  · unfold PuppetDocs.isDocField at hn
    split at hn
    · next name hkind => simpa only [PuppetDocs.isDocField, instanceVar_of_outline h.outline hkind] using hn
    · next c hkind =>
      obtain ⟨d, hm, houtline⟩ := call_of_outline h.outline hkind
      obtain ⟨hmethod, hreceiver, hargs, -⟩ := Call.of_outline houtline
      simp only [Bool.and_eq_true, beq_iff_eq, List.isEmpty_iff, Option.any_eq_true] at hn
      obtain ⟨⟨hdoc, hnone⟩, r, hr, hself⟩ := hn
      obtain ⟨r', hr'⟩ := Option.isSome_iff_exists.mp (hreceiver.symm.trans (by rw [hr]; rfl))
      rw [hnone, eq_comm, List.length_nil, List.length_eq_zero_iff] at hargs
      have hchildren := h.children
      simp only [Node.children, NodeKind.children, hkind, hm, hr, hr', Option.toList_some, List.cons_append,
        List.forall₂_cons] at hchildren
      have hself' : r'.isSelf = true := hchildren.1.isSelf.symm.trans hself
      simp [PuppetDocs.isDocField, hm, ← hmethod, hdoc, hargs, hr', hself']
    · cases hn

/-- If one of two nodes that are alike documents, then so does the other, with a value that is alike. -/
theorem AlikeBelow.docValue? {value : Node} (h : AlikeBelow n m) (hn : PuppetDocs.docValue? n = some value) :
    ∃ value', PuppetDocs.docValue? m = some value' ∧ AlikeOutside value value' := by
  have hchildren := h.children
  unfold PuppetDocs.docValue? at hn
  split at hn
  · next target v hkind =>
    obtain ⟨target', value', hm⟩ := assign_of_outline h.outline hkind
    simp only [Node.children, NodeKind.children, hkind, hm, List.forall₂_cons] at hchildren
    obtain ⟨htarget, hvalue, -⟩ := hchildren
    obtain ⟨hfield, hv⟩ := Option.ite_none_right_eq_some.mp hn
    cases hv
    exact ⟨value', by simp [PuppetDocs.docValue?, hm, htarget.isDocField hfield], hvalue⟩
  · next c hkind =>
    obtain ⟨d, hm, houtline⟩ := call_of_outline h.outline hkind
    obtain ⟨hmethod, hreceiver, hargs, hblock⟩ := Call.of_outline houtline
    obtain ⟨hdesc, hn⟩ := Option.ite_none_right_eq_some.mp hn
    split at hn
    · next v hc hnone =>
      cases hn
      rw [hc, eq_comm, List.length_singleton, List.length_eq_one_iff] at hargs
      rw [hnone, eq_comm, Option.isSome_none, Option.isSome_eq_false_iff, Option.isNone_iff_eq_none] at hblock
      obtain ⟨value', hd⟩ := hargs
      rw [hmethod] at hdesc
      refine ⟨value', by simp [PuppetDocs.docValue?, hm, hdesc, hd, hblock], ?_⟩
      -- the value stands behind the receiver, if there is one
      cases hr : c.receiver <;> cases hr' : d.receiver <;>
        simp_all [Node.children, NodeKind.children]
    · cases hn
  · cases hn

/-! ## What is found in trees that are alike -/

/-- What a node says as documentation: nothing, or a value with its text if it is a literal. -/
def saying (n : Node) : Option (Option String) := (docValue? n).map Node.literal?

theorem AlikeBelow.saying (h : AlikeBelow n m) : PuppetDocs.saying n = PuppetDocs.saying m := by
  unfold PuppetDocs.saying
  -- the values may differ, but then they are declarations, and these are no literals
  cases hn : PuppetDocs.docValue? n with
  | some value =>
    obtain ⟨value', hm, hvalue⟩ := h.docValue? hn
    rw [hm, Option.map_some, Option.map_some, hvalue.literal?]
  | none =>
    cases hm : PuppetDocs.docValue? m with
    | none => rfl
    | some value =>
      obtain ⟨value', hn', -⟩ := h.symm.docValue? hm
      rw [hn] at hn'
      cases hn'

theorem saying_children {ns ms : List Node} (h : List.Forall₂ AlikeOutside ns ms)
    (ih : ∀ x y, (x, y) ∈ ns.zip ms → documentsOther x = false →
      (x.preorderPruned documentsOther).map saying = (y.preorderPruned documentsOther).map saying) :
    ((ns.filter (!documentsOther ·)).flatMap (·.preorderPruned documentsOther)).map saying =
      ((ms.filter (!documentsOther ·)).flatMap (·.preorderPruned documentsOther)).map saying := by
  induction h with
  | nil => rfl
  | @cons x y ns ms hxy _ ihrest =>
    have hrest := ihrest fun x y hmem => ih x y (List.mem_cons_of_mem _ hmem)
    cases hx : documentsOther x with
    | true =>
      have hy : documentsOther y = true := hxy.documentsOther.symm.trans hx
      rw [List.filter_cons_of_neg (by simp [hx]), List.filter_cons_of_neg (by simp [hy]), hrest]
    | false =>
      have hy : documentsOther y = false := hxy.documentsOther.symm.trans hx
      rw [List.filter_cons_of_pos (by simp [hx]), List.filter_cons_of_pos (by simp [hy]), List.flatMap_cons,
        List.flatMap_cons, List.map_append, List.map_append, ih x y List.mem_cons_self hx, hrest]

theorem AlikeBelow.saying_searched (h : AlikeBelow n m)
    (ih : ∀ x y, (x, y) ∈ n.children.zip m.children → documentsOther x = false →
      (x.preorderPruned documentsOther).map PuppetDocs.saying = (y.preorderPruned documentsOther).map PuppetDocs.saying) :
    (n.preorderPruned documentsOther).map PuppetDocs.saying =
      (m.preorderPruned documentsOther).map PuppetDocs.saying := by
  rw [Node.preorderPruned_eq, Node.preorderPruned_eq, List.map_cons, List.map_cons, h.saying,
    saying_children h.children ih]

/-- Trees that are alike say the same, node for node, as far as they are searched. -/
theorem AlikeOutside.saying_searched (h : AlikeOutside n m) (hn : Context.documentsOther n = false) :
    (n.preorderPruned Context.documentsOther).map saying = (m.preorderPruned Context.documentsOther).map saying := by
  induction h with
  | declaration hother _ =>
    rw [hn] at hother
    cases hother
  | parts houtline hparts ih => exact AlikeBelow.saying_searched ⟨houtline, hparts⟩ ih

/-- What a search tells, but for the line: nothing, or a value with its text if it is a literal. -/
def DocSearch.reading : DocSearch → Option (Option String)
  | found text _ => some (some text)
  | unresolvable _ => some none
  | notFound => none

theorem reading_ofValue (value : Node) :
    (DocSearch.ofValue value).reading = some (value.literal?.map Docs.scrubString) := by
  unfold DocSearch.ofValue
  cases value.literal? <;> rfl

theorem reading_among (ns : List Node) :
    (DocSearch.among ns).reading = ((ns.map saying).findSome? id).map (Option.map Docs.scrubString) := by
  have hfirst : (ns.map saying).findSome? id = (ns.findSome? docValue?).map Node.literal? := by
    rw [List.findSome?_map, List.map_findSome?]
    rfl
  unfold DocSearch.among
  rw [hfirst]
  cases ns.findSome? docValue? with
  | none => rfl
  | some value => exact reading_ofValue value

theorem text_reading (search : DocSearch) : search.text = (search.reading.bind id).getD "" := by
  cases search <;> rfl

/-- A search of bodies that are alike tells the same. -/
theorem AlikeBelow.search (h : AlikeBelow n m) :
    (findDocstringPruned n documentsOther).reading = (findDocstringPruned m documentsOther).reading := by
  rw [findDocstringPruned_eq, findDocstringPruned_eq, reading_among, reading_among,
    h.saying_searched fun x y hmem => (h.parts x y hmem).saying_searched]

theorem AlikeOutside.refl (n : Node) : AlikeOutside n n := by
  induction n using Node.induction with
  | h n ih =>
    refine .parts rfl fun x y hmem => ?_
    obtain ⟨i, hi⟩ := List.mem_iff_getElem?.mp hmem
    rw [List.getElem?_zip_eq_some] at hi
    obtain rfl : x = y := Option.some.inj (hi.1.symm.trans hi.2)
    exact ih x (List.mem_of_getElem? hi.1)

/-! ## The documentation of a resource type -/

/-- What is read as a resource type is one, with the docstring that is found in its block. -/
theorem type_of_resourceType {ctx : Context} {statement : Node} {call : Call Node} {found : Noted Found}
    (h : ctx.resourceType statement call = .ok found) :
    ∃ type : ResourceType, found.value = .object (.resourceType type) ∧
      type.docstring = (Docstring.parse (searchType call).text).markPublic := by
  have hdocumented := Context.documentedBy_resourceType statement call found h
  cases hname : ctx.requiredName statement call with
  | error p =>
    rw [Context.resourceType, hname] at h
    cases h
  | ok name =>
    rw [Context.resourceType, hname] at h
    cases h
    exact ⟨_, rfl, hdocumented⟩

theorem search_type {call call' : Call Node} {block block' : Block Node} (hblock : call.block = some block)
    (hblock' : call'.block = some block') (h : AlikeBelow block.body block'.body) :
    (searchType call).reading = (searchType call').reading := by
  unfold searchType
  rw [hblock, hblock']
  exact h.search

/-- A pruned search takes the value of the first node that documents, in pre-order, among those that it reaches; with
nothing to prune it searches the whole tree. So the documentation of a resource type is the same whatever is written in
the declarations in its block. -/
theorem docs_of_reached :
    (∀ prune root,
      (∃ p value, FirstDoc prune root p value ∧ findDocstringPruned root prune = .ofValue value) ∨
      ((∀ p x, Reached prune root p x → docValue? x = none) ∧ findDocstringPruned root prune = .notFound)) ∧
    (∀ prune root, (∀ x, prune x = false) → findDocstringPruned root prune = findDocstring root) ∧
    ∀ (ctx ctx' : Context) (statement statement' : Node) (call call' : Call Node) (block block' : Block Node)
      (found found' : Noted Found),
      call.block = some block → call'.block = some block' → AlikeBelow block.body block'.body →
      ctx.resourceType statement call = .ok found → ctx'.resourceType statement' call' = .ok found' →
      ∃ type type' : ResourceType, found.value = .object (.resourceType type) ∧
        found'.value = .object (.resourceType type') ∧ type.docstring = type'.docstring := by
  refine ⟨search_among, fun prune root hprune => ?_, ?_⟩
  · rw [funext hprune, findDocstringPruned_eq, preorderPruned_none, findDocstring_eq]
  · intro ctx ctx' statement statement' call call' block block' found found' hblock hblock' halike hfound hfound'
    obtain ⟨type, hvalue, hdoc⟩ := type_of_resourceType hfound
    obtain ⟨type', hvalue', hdoc'⟩ := type_of_resourceType hfound'
    refine ⟨type, type', hvalue, hvalue', ?_⟩
    rw [hdoc, hdoc', text_reading, text_reading, search_type hblock hblock' halike]

/-- A node on the first line. -/
def nodeOf (kind : NodeKind Node) : Node := ⟨kind, ⟨0, 0⟩, 1⟩

def textNode (text : String) : Node := nodeOf (.str ⟨text, false⟩)

def callNode (call : Call Node) : Node := nodeOf (.call call)

def freeCall (method : String) (args : List Node) (body : Option (List Node)) : Call Node where
  receiver := none
  method := method
  args := args
  parens := false
  block := body.map fun statements => ⟨[], nodeOf (.statements statements), ⟨0, 0⟩, 1⟩

/-- A file without text, to read declarations from. -/
def emptyFile : Context := ⟨⟨"port.rb", [], .ruby (nodeOf (.statements [])), []⟩, {}⟩

def numberDoc : Node := callNode (freeCall "desc" [textNode "Its number."] none)

def portDoc : Node := nodeOf (.assign (nodeOf (.instanceVar "@doc")) (textNode "A port."))

/-- The body of a type with a parameter in front of its documentation. -/
def portBody (parameter : List Node) : List Node :=
  [callNode (freeCall "newparam" [textNode "number"] (some parameter)), portDoc]

def portType (parameter : List Node) : Call Node := freeCall "newtype" [textNode "port"] (some (portBody parameter))

/-- The parameter of a type documents itself, or it does not. -/
theorem docs_of_reached_port :
    findDocstringPruned (nodeOf (.statements (portBody [numberDoc]))) documentsOther = .found "A port." 1 ∧
    ∃ type type' : ResourceType,
      (emptyFile.resourceType portDoc (portType [numberDoc])).map Noted.value = .ok (.object (.resourceType type)) ∧
      (emptyFile.resourceType portDoc (portType [])).map Noted.value = .ok (.object (.resourceType type')) ∧
      type.docstring = type'.docstring := by
  have halike : AlikeBelow (nodeOf (.statements (portBody [numberDoc]))) (nodeOf (.statements (portBody []))) := by
    refine ⟨rfl, fun x y hmem => ?_⟩
    rcases List.mem_cons.mp hmem with hmem | hmem
    · cases hmem
      exact .declaration rfl rfl
    · cases List.mem_singleton.mp hmem
      exact .refl portDoc
  constructor
  · have hkept : (nodeOf (.statements (portBody [numberDoc]))).children.filter (!documentsOther ·) = [portDoc] := rfl
    rw [findDocstringPruned_eq, Node.preorderPruned_eq, hkept, List.flatMap_singleton, Node.preorderPruned_eq]
    rfl
  · obtain ⟨type, type', h, h', heq⟩ := docs_of_reached.2.2 emptyFile emptyFile portDoc portDoc (portType [numberDoc])
      (portType []) _ _ _ _ rfl rfl halike rfl rfl
    exact ⟨type, type', congrArg Except.ok h, congrArg Except.ok h', heq⟩

end PuppetDocs
