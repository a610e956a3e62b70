import Mathlib.Data.List.Basic
import Mathlib.Data.List.Flatten
import PuppetDocs.Findings.Inspect

/-
  PuppetDocs.Proofs.Findings.Visits — which statements of a file are inspected, and when.

  Two statements may be equal as trees, so a statement is told by its place: the numbers of the
  children on the way to it. `Visited` says which places are reached: the statements of the
  file, and from one that is no construct those of statement lists, of class and module bodies
  and of the parts of `if`, `unless`, `case` and `begin`. There is no way into a method, a block
  or a construct.

  `visits` is `inspected` with the places. It lists the places that are reached
  (`mem_visits`), each once and in pre-order, which is the order of places (`visits_sorted`).
-/

namespace PuppetDocs

open Ruby

abbrev Place := List Nat

/-- The node at a place below a node. -/
def Ruby.Node.at? (n : Node) : Place → Option Node
  | [] => some n
  | i :: p => n.children[i]?.bind (·.at? p)

theorem Ruby.Node.at?_append (n : Node) (p q : Place) : n.at? (p ++ q) = (n.at? p).bind (·.at? q) := by
  induction p generalizing n with
  | nil => rfl
  | cons i p ih =>
    simp only [List.cons_append, Node.at?]
    cases n.children[i]? with
    | none => rfl
    | some x => exact ih x

/-! ## Places that are reached -/

/-- A body's own statements: the items of a list, or the body itself if it is no list. -/
inductive Stands (body : Node) : Place → Node → Prop
  | item {items : List Node} {i : Nat} {x : Node} :
      body.kind = .statements items → items[i]? = some x → Stands body [i] x
  | alone : (∀ items, body.kind ≠ .statements items) → Stands body [] body

/-- The statements at namespace level right below one. -/
inductive StandsBelow (n : Node) : Place → Node → Prop
  | item {items : List Node} {i : Nat} {x : Node} :
      n.kind = .statements items → items[i]? = some x → StandsBelow n [i] x
  | body {keyword : NamespaceKind} {name superclass : Option Node} {body x : Node} {p : Place} :
      n.kind = .namespace_ keyword name superclass body → Stands body p x →
        StandsBelow n ((name.toList ++ superclass.toList).length :: p) x
  | part {keyword : String} {parts : List Node} {i : Nat} {part x : Node} {p : Place} :
      n.kind = .control keyword parts → keyword ∈ ["if", "unless", "case", "begin"] → parts[i]? = some part →
        Stands part p x → StandsBelow n (i :: p) x

/-- The statements of a file that are reached, with their places. -/
inductive Visited (program : Node) : Place → Node → Prop
  | top {p : Place} {x : Node} : Stands program p x → Visited program p x
  | down {p q : Place} {n x : Node} :
      Visited program p n → Construct.ofNode? n = none → StandsBelow n q x → Visited program (p ++ q) x

theorem Stands.at? {body x : Node} {p : Place} (h : Stands body p x) : body.at? p = some x := by
  cases h with
  | item hkind hx => simp [Node.at?, Node.children, NodeKind.children, hkind, hx]
  | alone => rfl

theorem StandsBelow.at? {n x : Node} {p : Place} (h : StandsBelow n p x) : n.at? p = some x := by
  cases h with
  | item hkind hx => simp [Node.at?, Node.children, NodeKind.children, hkind, hx]
  | body hkind hx =>
    simp only [Node.at?, Node.children, NodeKind.children, hkind, List.getElem?_concat_length]
    exact hx.at?
  | part hkind _ hpart hx =>
    simp only [Node.at?, Node.children, NodeKind.children, hkind, hpart]
    exact hx.at?

/-- What is reached is the node of the tree at that place. -/
theorem Visited.at? {program x : Node} {p : Place} (h : Visited program p x) : program.at? p = some x := by
  induction h with
  | top h => exact h.at?
  | down _ _ hbelow ih =>
    rw [Node.at?_append, ih]
    exact hbelow.at?

/-! ## Inspected statements with their places -/

def under (p : Place) (v : Place × Node) : Place × Node := (p ++ v.1, v.2)

def placedStatements (body : Node) : List (Place × Node) :=
  match body.kind with
  | .statements items => items.zipIdx.map fun (x, i) => ([i], x)
  | _ => [([], body)]

/-- `statementsBelow` with the places. -/
def placedBelow (n : Node) : List (Place × Node) :=
  match n.kind with
  | .statements _ => placedStatements n
  | .namespace_ _ name superclass body =>
    (placedStatements body).map (under [(name.toList ++ superclass.toList).length])
  | .control keyword parts =>
    if holdsStatements keyword then parts.zipIdx.flatMap fun (part, i) => (placedStatements part).map (under [i])
    else []
  | _ => []

theorem map_under_snd (p : Place) (vs : List (Place × Node)) : (vs.map (under p)).map Prod.snd = vs.map Prod.snd := by
  rw [List.map_map]
  rfl

theorem placedStatements_snd (body : Node) : (placedStatements body).map Prod.snd = body.statements := by
  unfold placedStatements Node.statements
  cases body.kind with
  | statements items =>
    rw [List.map_map]
    exact List.zipIdx_map_fst 0 items
  | _ => rfl

theorem placedBelow_snd (n : Node) : (placedBelow n).map Prod.snd = statementsBelow n := by
  unfold placedBelow statementsBelow
  cases hkind : n.kind with
  | statements items =>
    dsimp only
    rw [placedStatements_snd, Node.statements, hkind]
  | namespace_ keyword name superclass body =>
    dsimp only
    rw [map_under_snd, placedStatements_snd]
  | control keyword parts =>
    dsimp only
    split
    · have hparts : (parts.zipIdx.map Prod.fst).flatMap Node.statements = parts.zipIdx.flatMap fun v => v.1.statements :=
        List.flatMap_map _ _ _
      rw [List.zipIdx_map_fst] at hparts
      simp only [List.map_flatMap, map_under_snd, placedStatements_snd, hparts]
    · rfl
  | _ => rfl

/-- `inspected` with the places. -/
def visitsFrom (n : Node) : List (Place × Node) :=
  ([], n) :: if (Construct.ofNode? n).isSome then []
    else (placedBelow n).attach.flatMap fun ⟨v, _⟩ => (visitsFrom v.2).map (under v.1)
termination_by n
decreasing_by exact sizeOf_statementBelow_lt (placedBelow_snd n ▸ List.mem_map_of_mem ‹_›)

theorem visitsFrom_eq (n : Node) :
    visitsFrom n = ([], n) :: if (Construct.ofNode? n).isSome then []
      else (placedBelow n).flatMap fun v => (visitsFrom v.2).map (under v.1) := by
  rw [visitsFrom, List.flatMap_subtype (g := fun v => (visitsFrom v.2).map (under v.1)) (fun _ _ => rfl)]
  simp

/-- The inspected statements of a file with their places. -/
def visits (program : Node) : List (Place × Node) :=
  (placedStatements program).flatMap fun v => (visitsFrom v.2).map (under v.1)

theorem inspection {p : Node → Prop} (h : ∀ n, (∀ x ∈ statementsBelow n, p x) → p n) (n : Node) : p n :=
  h n fun x _ => inspection h x
termination_by n
decreasing_by exact sizeOf_statementBelow_lt ‹_›

theorem mem_statementsBelow {n : Node} {v : Place × Node} (h : v ∈ placedBelow n) : v.2 ∈ statementsBelow n :=
  placedBelow_snd n ▸ List.mem_map_of_mem h

theorem visitsFrom_snd (n : Node) : (visitsFrom n).map Prod.snd = inspected n := by
  induction n using inspection with
  | h n ih =>
    rw [visitsFrom_eq, inspected_eq, List.map_cons]
    split
    · rfl
    · rw [List.map_flatMap, ← placedBelow_snd, List.flatMap_map]
      refine congrArg _ (List.flatMap_congr fun v hv => ?_)
      rw [map_under_snd, ih v.2 (mem_statementsBelow hv)]

/-- The visits are to the inspected statements. -/
theorem visits_snd (program : Node) : (visits program).map Prod.snd = program.statements.flatMap inspected := by
  unfold visits
  rw [List.map_flatMap, ← placedStatements_snd, List.flatMap_map]
  refine List.flatMap_congr fun v _ => ?_
  rw [map_under_snd, visitsFrom_snd]

/-! ## Every place that is reached -/

theorem mem_placedStatements {body x : Node} {p : Place} : (p, x) ∈ placedStatements body ↔ Stands body p x := by
  unfold placedStatements
  constructor
  · intro h
    split at h
    · next items hkind =>
      obtain ⟨⟨y, i⟩, hy, he⟩ := List.mem_map.mp h
      obtain ⟨rfl, rfl⟩ := Prod.mk.inj he
      exact .item hkind (List.mem_zipIdx_iff_getElem?.mp hy)
    · next hkind =>
      obtain ⟨rfl, rfl⟩ := Prod.mk.inj (List.mem_singleton.mp h)
      exact .alone hkind
  · intro h
    cases h with
    | @item items i x hkind hx =>
      rw [hkind]
      exact List.mem_map.mpr ⟨(x, i), List.mem_zipIdx_iff_getElem?.mpr hx, rfl⟩
    | alone hkind =>
      split
      · next items he => exact absurd he (hkind items)
      · exact List.mem_cons_self

theorem mem_map_under {q : Place} {vs : List (Place × Node)} {p : Place} {x : Node} :
    (p, x) ∈ vs.map (under q) ↔ ∃ p', (p', x) ∈ vs ∧ q ++ p' = p := by
  constructor
  · intro h
    obtain ⟨⟨p', y⟩, hv, he⟩ := List.mem_map.mp h
    obtain ⟨hp, rfl⟩ := Prod.mk.inj he
    exact ⟨p', hv, hp⟩
  · rintro ⟨p', hv, rfl⟩
    exact List.mem_map_of_mem (f := under q) hv

theorem mem_placedBelow {n x : Node} {p : Place} : (p, x) ∈ placedBelow n ↔ StandsBelow n p x := by
  unfold placedBelow
  constructor
  · intro h
    split at h
    · next items hkind =>
      cases mem_placedStatements.mp h with
      | item hkind hx => exact .item hkind hx
      | alone hno => exact absurd hkind (hno items)
    · next hkind =>
      obtain ⟨p', hv, rfl⟩ := mem_map_under.mp h
      exact .body hkind (mem_placedStatements.mp hv)
    · next keyword parts hkind =>
      split at h
      · next hholds =>
        obtain ⟨⟨part, i⟩, hpart, hv⟩ := List.mem_flatMap.mp h
        obtain ⟨p', hp', rfl⟩ := mem_map_under.mp hv
        exact .part hkind (List.contains_iff_mem.mp hholds) (List.mem_zipIdx_iff_getElem?.mp hpart)
          (mem_placedStatements.mp hp')
      · cases h
    · cases h
  · intro h
    cases h with
    | item hkind hx =>
      rw [hkind]
      exact mem_placedStatements.mpr (.item hkind hx)
    | body hkind hx =>
      rw [hkind]
      exact mem_map_under.mpr ⟨_, mem_placedStatements.mpr hx, rfl⟩
    | @part keyword parts i part x p hkind hholds hpart hx =>
      rw [hkind]
      simp only [holdsStatements, List.contains_iff_mem.mpr hholds, if_true]
      exact List.mem_flatMap.mpr ⟨(part, i), List.mem_zipIdx_iff_getElem?.mpr hpart,
        mem_map_under.mpr ⟨p, mem_placedStatements.mpr hx, rfl⟩⟩

theorem visited_from {program n : Node} {p : Place} (h : Visited program p n) :
    ∀ v ∈ visitsFrom n, Visited program (p ++ v.1) v.2 := by
  induction n using inspection generalizing p with
  | h n ih =>
    intro v hv
    rw [visitsFrom_eq] at hv
    rcases List.mem_cons.mp hv with rfl | hv
    · rw [List.append_nil]
      exact h
    split at hv
    · cases hv
    · next hno =>
      obtain ⟨w, hw, hv⟩ := List.mem_flatMap.mp hv
      obtain ⟨q, hq, he⟩ := mem_map_under.mp hv
      have hbelow := Visited.down h (by simpa using hno) (mem_placedBelow.mp hw)
      rw [← he, ← List.append_assoc]
      exact ih w.2 (mem_statementsBelow hw) hbelow _ hq

/-- Below what is visited and is no construct, all statements are visited. -/
theorem visitsFrom_below {n m x : Node} {p q : Place} (h : (p, m) ∈ visitsFrom n) (hno : Construct.ofNode? m = none)
    (hx : StandsBelow m q x) : (p ++ q, x) ∈ visitsFrom n := by
  -- By induction on where the visits start: the statement is that one, or it is visited from one right below it.
  induction n using inspection generalizing p with
  | h n ih =>
    rw [visitsFrom_eq] at h ⊢
    refine List.mem_cons_of_mem _ ?_
    rcases List.mem_cons.mp h with he | h
    · obtain ⟨rfl, rfl⟩ := Prod.mk.inj he
      rw [hno]
      refine List.mem_flatMap.mpr ⟨(q, x), mem_placedBelow.mpr hx, mem_map_under.mpr ⟨[], ?_, List.append_nil q⟩⟩
      rw [visitsFrom_eq]
      exact List.mem_cons_self
    split at h
    · cases h
    · next hbelow =>
      rw [if_neg hbelow]
      obtain ⟨v, hv, h⟩ := List.mem_flatMap.mp h
      obtain ⟨p', hp', rfl⟩ := mem_map_under.mp h
      refine List.mem_flatMap.mpr ⟨v, hv, ?_⟩
      exact mem_map_under.mpr ⟨p' ++ q, ih v.2 (mem_statementsBelow hv) hp', (List.append_assoc _ _ _).symm⟩

/-- The visits are to the places that are reached. -/
theorem mem_visits {program x : Node} {p : Place} : (p, x) ∈ visits program ↔ Visited program p x := by
  constructor
  · intro h
    obtain ⟨v, hv, h⟩ := List.mem_flatMap.mp h
    obtain ⟨q, hq, rfl⟩ := mem_map_under.mp h
    exact visited_from (.top (mem_placedStatements.mp hv)) _ hq
  · intro h
    induction h with
    | @top p x h =>
      refine List.mem_flatMap.mpr ⟨(p, x), mem_placedStatements.mpr h, mem_map_under.mpr ⟨[], ?_, List.append_nil p⟩⟩
      rw [visitsFrom_eq]
      exact List.mem_cons_self
    | down _ hno hx ih =>
      obtain ⟨v, hv, h⟩ := List.mem_flatMap.mp ih
      obtain ⟨q, hq, rfl⟩ := mem_map_under.mp h
      rw [List.append_assoc]
      exact List.mem_flatMap.mpr ⟨v, hv, mem_map_under.mpr ⟨_, visitsFrom_below hq hno hx, rfl⟩⟩

/-! ## Pre-order -/

/-- All that is at the first place or below it comes in front of all that is at the second or below. -/
def Apart (p q : Place) : Prop := ∀ a b : Place, p ++ a < q ++ b

theorem Apart.lt {p q : Place} (h : Apart p q) : p < q := by
  simpa using h [] []

theorem Apart.of_lt {i j : Nat} (h : i < j) (p q : Place) : Apart (i :: p) (j :: q) :=
  fun _ _ => List.Lex.rel h

theorem Apart.under {p q : Place} (h : Apart p q) (c : Place) : Apart (c ++ p) (c ++ q) := by
  intro a b
  rw [List.append_assoc, List.append_assoc]
  exact List.append_left_lt (h a b)

theorem zipIdx_ascending {α : Type} (xs : List α) : xs.zipIdx.Pairwise fun a b => a.2 < b.2 := by
  refine List.pairwise_map.mp (?_ : (xs.zipIdx.map Prod.snd).Pairwise (· < ·))
  rw [List.zipIdx_map_snd]
  exact List.pairwise_lt_range'

theorem placedStatements_apart (body : Node) : (placedStatements body).Pairwise fun v w => Apart v.1 w.1 := by
  unfold placedStatements
  split
  · refine List.pairwise_map.mpr ?_
    exact (zipIdx_ascending _).imp fun h => Apart.of_lt h [] []
  · exact List.pairwise_singleton _ _

theorem map_under_apart {vs : List (Place × Node)} (h : vs.Pairwise fun v w => Apart v.1 w.1) (p : Place) :
    (vs.map (under p)).Pairwise fun v w => Apart v.1 w.1 :=
  List.pairwise_map.mpr (h.imp fun h => h.under p)

theorem placedBelow_apart (n : Node) : (placedBelow n).Pairwise fun v w => Apart v.1 w.1 := by
  unfold placedBelow
  split
  · exact placedStatements_apart n
  · next body _ => exact map_under_apart (placedStatements_apart body) _
  · next parts _ =>
    split
    · refine List.pairwise_flatMap.mpr ⟨fun part _ => map_under_apart (placedStatements_apart _) _, ?_⟩
      refine (zipIdx_ascending parts).imp fun h v hv w hw => ?_
      obtain ⟨v', -, rfl⟩ := List.mem_map.mp hv
      obtain ⟨w', -, rfl⟩ := List.mem_map.mp hw
      exact Apart.of_lt h _ _
    · exact List.Pairwise.nil
  · exact List.Pairwise.nil

theorem StandsBelow.ne_nil {n x : Node} {p : Place} (h : StandsBelow n p x) : p ≠ [] := by
  cases h <;> exact List.cons_ne_nil _ _

/-- What is below places apart is in order if it is below each of them. -/
theorem sorted_flatMap {vs : List (Place × Node)} {below : Node → List (Place × Node)}
    (hapart : vs.Pairwise fun v w => Apart v.1 w.1)
    (hbelow : ∀ v ∈ vs, (below v.2).Pairwise fun a b => a.1 < b.1) :
    (vs.flatMap fun v => (below v.2).map (under v.1)).Pairwise fun a b => a.1 < b.1 := by
  refine List.pairwise_flatMap.mpr ⟨fun v hv => ?_, ?_⟩
  · exact List.pairwise_map.mpr ((hbelow v hv).imp fun h => List.append_left_lt h)
  · refine hapart.imp fun h a ha b hb => ?_
    obtain ⟨a', -, rfl⟩ := List.mem_map.mp ha
    obtain ⟨b', -, rfl⟩ := List.mem_map.mp hb
    exact h _ _

theorem visitsFrom_sorted (n : Node) : (visitsFrom n).Pairwise fun v w => v.1 < w.1 := by
  induction n using inspection with
  | h n ih =>
    rw [visitsFrom_eq]
    split
    · exact List.pairwise_singleton _ _
    refine List.pairwise_cons.mpr ⟨fun w hw => ?_, ?_⟩
    · -- Whatever is below has a place that is not empty, so it comes behind the statement itself.
      obtain ⟨v, hv, hw⟩ := List.mem_flatMap.mp hw
      obtain ⟨w', -, rfl⟩ := List.mem_map.mp hw
      obtain ⟨i, p, hp⟩ := List.exists_cons_of_ne_nil (mem_placedBelow.mp hv).ne_nil
      simp only [under, hp]
      exact List.nil_lt_cons _ _
    · exact sorted_flatMap (placedBelow_apart n) fun v hv => ih v.2 (mem_statementsBelow hv)

/-- The visits are in pre-order, and none is made twice. -/
theorem visits_sorted (program : Node) : (visits program).Pairwise fun v w => v.1 < w.1 :=
  sorted_flatMap (placedStatements_apart program) fun v _ => visitsFrom_sorted v.2

/-! ## Inspected statements among all nodes -/

theorem statements_sublist (n : Node) : (n.statements.flatMap Node.preorder).Sublist n.preorder := by
  unfold Node.statements
  split
  · next items hkind =>
    have hchildren : n.children = items := by simp [Node.children, NodeKind.children, hkind]
    rw [Node.preorder_eq n, hchildren]
    exact List.sublist_cons_self _ _
  · rw [List.flatMap_singleton]

theorem statementsBelow_sublist (n : Node) :
    ((statementsBelow n).flatMap Node.preorder).Sublist (n.children.flatMap Node.preorder) := by
  unfold statementsBelow Node.children
  cases n.kind with
  | statements items => exact List.Sublist.refl _
  | namespace_ keyword name superclass body =>
    simp only [NodeKind.children, List.flatMap_append, List.flatMap_singleton]
    exact (statements_sublist body).trans (List.sublist_append_right _ _)
  | control keyword parts =>
    simp only [NodeKind.children]
    split
    · rw [List.flatMap_assoc]
      exact List.Sublist.flatMap_right parts fun part _ => statements_sublist part
    · exact List.nil_sublist _
  | _ => exact List.nil_sublist _

/-- Inspection leaves out nodes of the pre-order. -/
theorem inspected_sublist (n : Node) : (inspected n).Sublist n.preorder := by
  induction n using inspection with
  | h n ih =>
    rw [inspected_eq, Node.preorder_eq]
    refine List.Sublist.cons_cons n ?_
    split
    · exact List.nil_sublist _
    · exact (List.Sublist.flatMap_right _ ih).trans (statementsBelow_sublist n)

theorem visited_sublist (program : Node) : (program.statements.flatMap inspected).Sublist program.preorder :=
  (List.Sublist.flatMap_right _ fun n _ => inspected_sublist n).trans (statements_sublist program)

theorem ofNode?_of_mem_constructs {program statement : Node} {construct : Construct}
    (h : (statement, construct) ∈ constructs program) : Construct.ofNode? statement = some construct := by
  obtain ⟨n, -, hn⟩ := List.mem_filterMap.mp h
  obtain ⟨c, hc, he⟩ := Option.map_eq_some_iff.mp hn
  cases he
  exact hc

/-- What is picked out of a list keeps the order of what it was picked from. -/
theorem picked_sublist {α β γ : Type} {pick : α → Option β} {f : β → γ} {g : α → γ}
    (hpick : ∀ a b, pick a = some b → f b = g a) (as : List α) : ((as.filterMap pick).map f).Sublist (as.map g) := by
  induction as with
  | nil => exact List.Sublist.refl _
  | cons a as ih =>
    rw [List.filterMap_cons]
    cases ha : pick a with
    | none => exact ih.cons _
    | some b =>
      rw [List.map_cons, List.map_cons, hpick a b ha]
      exact ih.cons_cons _

theorem constructs_sublist (program : Node) : ((constructs program).map Prod.fst).Sublist program.preorder := by
  refine List.Sublist.trans ?_ (visited_sublist program)
  have hpick : ∀ (n : Node) (c : Node × Construct), (Construct.ofNode? n).map (n, ·) = some c → c.1 = n := by
    intro n c h
    obtain ⟨construct, -, rfl⟩ := Option.map_eq_some_iff.mp h
    rfl
  have hsublist := picked_sublist (g := fun n => n) hpick (program.statements.flatMap inspected)
  rw [List.map_id'] at hsublist
  exact hsublist

end PuppetDocs
