import PuppetDocs.Docs.Scrub
import PuppetDocs.Ruby.Call

/-
  PuppetDocs.Findings.Search — the documentation that a Ruby declaration gives itself.

  Documentation is what is assigned to `@doc` or `self.doc`, or the only argument of a call of
  `desc` or `doc=` without a block. The first such value in pre-order counts, whatever it is; a
  value that is no literal cannot be read. A pruned search passes over parts of the tree
  (`traversePruned`), and visits the rest in the same order (`traversePruned_eq`).
-/

namespace PuppetDocs

open Ruby

inductive DocSearch where
  /-- The text without the indentation of the code, and the line of the value. -/
  | found (text : String) (line : Nat)
  | notFound
  | unresolvable (line : Nat)
  deriving DecidableEq, Repr

def DocSearch.ofValue (value : Node) : DocSearch :=
  match value.literal? with
  | some text => .found (Docs.scrubString text) value.line
  | none => .unresolvable value.line

def isDocField (target : Node) : Bool :=
  match target.kind with
  | .instanceVar name => name == "@doc"
  | .call c => c.method == "doc" && c.args.isEmpty && c.receiver.any Node.isSelf
  | _ => false

/-- The value of a node that documents. -/
def docValue? (n : Node) : Option Node :=
  match n.kind with
  | .assign target value => if isDocField target then some value else none
  | .call c =>
    if c.method = "desc" ∨ c.method = "doc=" then
      match c.args, c.block with
      | [value], none => some value
      | _, _ => none
    else none
  | _ => none

def DocSearch.among (ns : List Node) : DocSearch :=
  match ns.findSome? docValue? with
  | some value => .ofValue value
  | none => .notFound

/-- A node and what is below it, without the trees of children that satisfy `prune`. -/
def Ruby.Node.preorderPruned (prune : Node → Bool) (n : Node) : List Node :=
  n :: (n.children.filter (!prune ·)).attach.flatMap fun ⟨x, _⟩ => preorderPruned prune x
termination_by n
decreasing_by exact Node.sizeOf_child_lt (List.mem_filter.1 ‹_›).1

theorem Ruby.Node.preorderPruned_eq (prune : Node → Bool) (n : Node) :
    n.preorderPruned prune = n :: (n.children.filter (!prune ·)).flatMap (preorderPruned prune) := by
  rw [preorderPruned, List.flatMap_subtype (g := preorderPruned prune) (fun _ _ => rfl)]
  simp

/-- The nodes visited from a stack, as in `Node.traverse`, if children that satisfy `prune` are not put on it. -/
def traversePruned (prune : Node → Bool) : List Node → List Node
  | [] => []
  | n :: stack => n :: traversePruned prune (Node.pushAll stack (n.children.reverse.filter (!prune ·)))
termination_by stack => (stack.flatMap (Node.preorderPruned prune)).length
decreasing_by simp [List.filter_reverse, Node.pushAll_reverse, Node.preorderPruned_eq prune n]

theorem traversePruned_eq (prune : Node → Bool) (stack : List Node) :
    traversePruned prune stack = stack.flatMap (Node.preorderPruned prune) := by
  induction stack using traversePruned.induct prune with
  | case1 => rw [traversePruned, List.flatMap_nil]
  | case2 n stack ih =>
    rw [traversePruned, ih, List.filter_reverse, Node.pushAll_reverse, List.flatMap_append, List.flatMap_cons,
      Node.preorderPruned_eq prune n, List.cons_append]

def findDocstring (root : Node) : DocSearch := .among (Node.traverse [root])

def findDocstringPruned (root : Node) (prune : Node → Bool) : DocSearch := .among (traversePruned prune [root])

theorem findDocstring_eq (root : Node) : findDocstring root = .among root.preorder := by
  rw [findDocstring, Node.traverse_eq, List.flatMap_singleton]

theorem findDocstringPruned_eq (root : Node) (prune : Node → Bool) :
    findDocstringPruned root prune = .among (root.preorderPruned prune) := by
  rw [findDocstringPruned, traversePruned_eq, List.flatMap_singleton]

end PuppetDocs
