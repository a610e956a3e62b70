import PuppetDocs.Findings.Construct

/-
  PuppetDocs.Findings.Inspect — which statements of a Ruby file are looked at.

  Constructs stand at namespace level: among the statements of the file, of class and module
  bodies, and of the parts of `if`, `unless`, `case` and `begin`. What is inside a construct,
  a method body or a block is not looked at for further constructs.
-/

namespace PuppetDocs

open Ruby

theorem Ruby.Node.sizeOf_statement_le {n x : Node} (h : x ∈ n.statements) : sizeOf x ≤ sizeOf n := by
  simp only [Node.statements] at h
  split at h
  · next items hk => exact Nat.le_of_lt (Node.sizeOf_child_lt (by simpa [Node.children, NodeKind.children, hk] using h))
  · exact Nat.le_of_eq (congrArg sizeOf (List.mem_singleton.1 h))

/-- The keywords of conditionals and of bodies with rescue clauses. -/
def holdsStatements (keyword : String) : Bool := ["if", "unless", "case", "begin"].contains keyword

/-- The statements at namespace level right below one that is no construct. -/
def statementsBelow (n : Node) : List Node :=
  match n.kind with
  | .statements items => items
  | .namespace_ _ _ _ body => body.statements
  | .control keyword parts => if holdsStatements keyword then parts.flatMap Node.statements else []
  | _ => []

theorem sizeOf_statementBelow_lt {n x : Node} (h : x ∈ statementsBelow n) : sizeOf x < sizeOf n := by
  simp only [statementsBelow] at h
  split at h
  · next items hk => exact Node.sizeOf_child_lt (by simpa [Node.children, NodeKind.children, hk] using h)
  · next body hk =>
    exact Nat.lt_of_le_of_lt (Node.sizeOf_statement_le h)
      (Node.sizeOf_child_lt (by simp [Node.children, NodeKind.children, hk]))
  · next parts hk =>
    split at h
    · obtain ⟨part, hp, hx⟩ := List.mem_flatMap.1 h
      exact Nat.lt_of_le_of_lt (Node.sizeOf_statement_le hx)
        (Node.sizeOf_child_lt (by simpa [Node.children, NodeKind.children, hk] using hp))
    · exact absurd h List.not_mem_nil
  · exact absurd h List.not_mem_nil

/-- A statement and, unless it is a construct, those below it, in source order. -/
def inspected (n : Node) : List Node :=
  if (Construct.ofNode? n).isSome then [n]
  else n :: (statementsBelow n).attach.flatMap fun ⟨x, _⟩ => inspected x
termination_by n
decreasing_by exact sizeOf_statementBelow_lt ‹_›

theorem inspected_eq (n : Node) :
    inspected n = n :: if (Construct.ofNode? n).isSome then [] else (statementsBelow n).flatMap inspected := by
  rw [inspected]
  split
  · rfl
  · rw [List.flatMap_subtype (g := inspected) (fun _ _ => rfl)]
    simp

/-- The constructs of a file, each with its statement. -/
def constructs (program : Node) : List (Node × Construct) :=
  (program.statements.flatMap inspected).filterMap fun n => (Construct.ofNode? n).map (n, ·)

end PuppetDocs
