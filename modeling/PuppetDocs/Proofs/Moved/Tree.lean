import PuppetDocs.Ruby.Grammar.Operators
import PuppetDocs.Ruby.Grammar.Calls
import Mathlib.Order.MinMax

/-
  PuppetDocs.Proofs.Moved.Tree — trees in other places.

  `Node.relocate f g` is the tree with `f` applied to each of its spans and `g` to each of its
  lines, those of parameters and blocks included. A tree is moved by `Node.move`, and
  `Node.unspanned` is what is left of it if spans do not count. What the parser asks of a node,
  to decide how to read on, does not depend on its place.
-/

namespace PuppetDocs

/-- The span from the place of its start to the place of its end. -/
def Span.move (s : Span) (place : Nat → Nat) : Span := ⟨place s.start, place s.stop⟩

theorem Span.move_mk (start stop : Nat) (place : Nat → Nat) :
    (Span.mk start stop).move place = ⟨place start, place stop⟩ := rfl

namespace Ruby

mutual

def Node.relocate (f : Span → Span) (g : Nat → Nat) : Node → Node
  | ⟨kind, span, line⟩ => ⟨relocateKind f g kind, f span, g line⟩

def relocateKind (f : Span → Span) (g : Nat → Nat) : NodeKind Node → NodeKind Node
  | .statements items => .statements (relocateAll f g items)
  | .call c => .call (relocateCall f g c)
  | .assign target value => .assign (target.relocate f g) (value.relocate f g)
  | .opAssign op target value => .opAssign op (target.relocate f g) (value.relocate f g)
  | .binary op lhs rhs => .binary op (lhs.relocate f g) (rhs.relocate f g)
  | .unary op operand => .unary op (operand.relocate f g)
  | .const scope name => .const (relocateSome f g scope) name
  | .array items => .array (relocateAll f g items)
  | .hash entries => .hash (relocateAll f g entries)
  | .pair key value => .pair (key.relocate f g) (value.relocate f g)
  | .splat double value => .splat double (relocateSome f g value)
  | .blockPass value => .blockPass (relocateSome f g value)
  | .method name singleton params body => .method name singleton (relocateParams f g params) (body.relocate f g)
  | .namespace_ keyword name superclass body =>
    .namespace_ keyword (relocateSome f g name) (relocateSome f g superclass) (body.relocate f g)
  | .control keyword parts => .control keyword (relocateAll f g parts)
  | .lambda params body => .lambda (relocateParams f g params) (body.relocate f g)
  | .jump keyword args => .jump keyword (relocateAll f g args)
  | .other parts => .other (relocateAll f g parts)
  | .ident name => .ident name
  | .instanceVar name => .instanceVar name
  | .classVar name => .classVar name
  | .globalVar name => .globalVar name
  | .symbol name => .symbol name
  | .quotedSymbol value => .quotedSymbol value
  | .str value => .str value
  | .command value => .command value
  | .regex text => .regex text
  | .number text => .number text
  | .nil => .nil
  | .true_ => .true_
  | .false_ => .false_
  | .self_ => .self_

def relocateCall (f : Span → Span) (g : Nat → Nat) : Call Node → Call Node
  | ⟨receiver, method, args, parens, block⟩ =>
    ⟨relocateSome f g receiver, method, relocateAll f g args, parens, relocateBlock? f g block⟩

def relocateBlock? (f : Span → Span) (g : Nat → Nat) : Option (Block Node) → Option (Block Node)
  | none => none
  | some b => some (relocateBlock f g b)

def relocateBlock (f : Span → Span) (g : Nat → Nat) : Block Node → Block Node
  | ⟨params, body, span, line⟩ => ⟨relocateParams f g params, body.relocate f g, f span, g line⟩

def relocateParams (f : Span → Span) (g : Nat → Nat) : List (Param Node) → List (Param Node)
  | [] => []
  | p :: ps => relocateParam f g p :: relocateParams f g ps

def relocateParam (f : Span → Span) (g : Nat → Nat) : Param Node → Param Node
  | ⟨name, kind, default?, span⟩ => ⟨name, kind, relocateSome f g default?, f span⟩

def relocateAll (f : Span → Span) (g : Nat → Nat) : List Node → List Node
  | [] => []
  | n :: ns => n.relocate f g :: relocateAll f g ns

def relocateSome (f : Span → Span) (g : Nat → Nat) : Option Node → Option Node
  | none => none
  | some n => some (n.relocate f g)

end

/-- The tree with the ends of its spans in their new places, and `l` lines further down. -/
abbrev Node.move (n : Node) (place : Nat → Nat) (l : Nat) : Node := n.relocate (·.move place) (l + ·)

/-- The tree without its spans. -/
abbrev Node.unspanned (n : Node) : Node := n.relocate (fun _ => ⟨0, 0⟩) id

/-- The block `l` lines further down, without its spans. -/
abbrev unspannedBlock (l : Nat) (b : Block Node) : Block Node := relocateBlock (fun _ => ⟨0, 0⟩) (l + ·) b

variable {f : Span → Span} {g : Nat → Nat}

/-! ## The parts of a tree -/

@[simp] theorem Node.relocate_kind (n : Node) : (n.relocate f g).kind = relocateKind f g n.kind := by
  cases n
  simp [Node.relocate]

@[simp] theorem Node.relocate_span (n : Node) : (n.relocate f g).span = f n.span := by
  cases n
  simp [Node.relocate]

@[simp] theorem Node.relocate_line (n : Node) : (n.relocate f g).line = g n.line := by
  cases n
  simp [Node.relocate]

@[simp] theorem relocateAll_eq (ns : List Node) : relocateAll f g ns = ns.map (Node.relocate f g) := by
  induction ns with
  | nil => rfl
  | cons n ns ih => rw [relocateAll, ih, List.map_cons]

@[simp] theorem relocateSome_eq (o : Option Node) : relocateSome f g o = o.map (Node.relocate f g) := by
  cases o <;> rfl

@[simp] theorem relocateParams_eq (ps : List (Param Node)) : relocateParams f g ps = ps.map (relocateParam f g) := by
  induction ps with
  | nil => rfl
  | cons p ps ih => rw [relocateParams, ih, List.map_cons]

@[simp] theorem relocateBlock?_eq (o : Option (Block Node)) : relocateBlock? f g o = o.map (relocateBlock f g) := by
  cases o <;> rfl

@[simp] theorem relocateCall_eq (c : Call Node) :
    relocateCall f g c = {
      receiver := c.receiver.map (Node.relocate f g), method := c.method, args := c.args.map (Node.relocate f g)
      parens := c.parens, block := c.block.map (relocateBlock f g) } := by
  cases c
  simp [relocateCall]

/-! ## Twice in other places -/

section Twice

variable (f f' : Span → Span) (g g' : Nat → Nat)

mutual

theorem Node.relocate_relocate : ∀ n : Node, (n.relocate f g).relocate f' g' = n.relocate (f' ∘ f) (g' ∘ g)
  | ⟨kind, span, line⟩ => by
    rw [Node.relocate, Node.relocate, Node.relocate, relocateKind_relocateKind kind]
    rfl

theorem relocateKind_relocateKind : ∀ k : NodeKind Node,
    relocateKind f' g' (relocateKind f g k) = relocateKind (f' ∘ f) (g' ∘ g) k
  | .statements ns | .array ns | .hash ns | .control _ ns | .jump _ ns | .other ns => by
    simp only [relocateKind, relocateAll_relocateAll ns]
  | .call c => by simp only [relocateKind, relocateCall_relocateCall c]
  | .assign a b | .opAssign _ a b | .binary _ a b | .pair a b => by
    simp only [relocateKind, a.relocate_relocate, b.relocate_relocate]
  | .unary _ a => by simp only [relocateKind, a.relocate_relocate]
  | .const o _ | .splat _ o | .blockPass o => by simp only [relocateKind, relocateSome_relocateSome o]
  | .method _ _ ps body | .lambda ps body => by
    simp only [relocateKind, relocateParams_relocateParams ps, body.relocate_relocate]
  | .namespace_ _ name superclass body => by
    simp only [relocateKind, relocateSome_relocateSome name, relocateSome_relocateSome superclass, body.relocate_relocate]
  | .ident _ | .instanceVar _ | .classVar _ | .globalVar _ | .symbol _ | .quotedSymbol _ | .str _ | .command _ | .regex _
  | .number _ | .nil | .true_ | .false_ | .self_ => rfl

theorem relocateCall_relocateCall : ∀ c : Call Node,
    relocateCall f' g' (relocateCall f g c) = relocateCall (f' ∘ f) (g' ∘ g) c
  | ⟨receiver, _, args, _, block⟩ => by
    rw [relocateCall, relocateCall, relocateCall, relocateSome_relocateSome receiver, relocateAll_relocateAll args,
      relocateBlock?_relocateBlock? block]

theorem relocateBlock?_relocateBlock? : ∀ o : Option (Block Node),
    relocateBlock? f' g' (relocateBlock? f g o) = relocateBlock? (f' ∘ f) (g' ∘ g) o
  | none => rfl
  | some b => by rw [relocateBlock?, relocateBlock?, relocateBlock?, relocateBlock_relocateBlock b]

theorem relocateBlock_relocateBlock : ∀ b : Block Node,
    relocateBlock f' g' (relocateBlock f g b) = relocateBlock (f' ∘ f) (g' ∘ g) b
  | ⟨params, body, _, _⟩ => by
    rw [relocateBlock, relocateBlock, relocateBlock, relocateParams_relocateParams params, body.relocate_relocate]
    rfl

theorem relocateParams_relocateParams : ∀ ps : List (Param Node),
    relocateParams f' g' (relocateParams f g ps) = relocateParams (f' ∘ f) (g' ∘ g) ps
  | [] => rfl
  | p :: ps => by
    rw [relocateParams, relocateParams, relocateParams, relocateParam_relocateParam p, relocateParams_relocateParams ps]

theorem relocateParam_relocateParam : ∀ p : Param Node,
    relocateParam f' g' (relocateParam f g p) = relocateParam (f' ∘ f) (g' ∘ g) p
  | ⟨_, _, default?, _⟩ => by
    rw [relocateParam, relocateParam, relocateParam, relocateSome_relocateSome default?]
    rfl

theorem relocateAll_relocateAll : ∀ ns : List Node, relocateAll f' g' (relocateAll f g ns) = relocateAll (f' ∘ f) (g' ∘ g) ns
  | [] => rfl
  | n :: ns => by rw [relocateAll, relocateAll, relocateAll, n.relocate_relocate, relocateAll_relocateAll ns]

theorem relocateSome_relocateSome : ∀ o : Option Node,
    relocateSome f' g' (relocateSome f g o) = relocateSome (f' ∘ f) (g' ∘ g) o
  | none => rfl
  | some n => by rw [relocateSome, relocateSome, relocateSome, n.relocate_relocate]

end

end Twice

/-! ## What the parser asks of a node -/

@[simp] theorem isEntry_relocate (n : Node) : isEntry (n.relocate f g) = isEntry n := by
  unfold isEntry
  rw [Node.relocate_kind]
  cases n.kind with
  | splat double value => cases double <;> rfl
  | _ => rfl

@[simp] theorem isBlockPass_relocate (n : Node) : isBlockPass (n.relocate f g) = isBlockPass n := by
  unfold isBlockPass
  rw [Node.relocate_kind]
  cases n.kind <;> rfl

@[simp] theorem isAssignable_relocate (n : Node) : isAssignable (n.relocate f g) = isAssignable n := by
  unfold isAssignable
  rw [Node.relocate_kind]
  cases n.kind with
  | call c => simp [relocateKind]
  | _ => rfl

@[simp] theorem takesBraces_relocate (n : Node) : takesBraces (n.relocate f g) = takesBraces n := by
  unfold takesBraces
  rw [Node.relocate_kind]
  cases n.kind with
  | call c => simp [relocateKind]
  | _ => rfl

@[simp] theorem takesDo_relocate (n : Node) : takesDo (n.relocate f g) = takesDo n := by
  unfold takesDo
  rw [Node.relocate_kind]
  cases n.kind with
  | call c => simp [relocateKind]
  | _ => rfl

theorem withBlock_relocate (n : Node) (b : Block Node) :
    withBlock (n.relocate f g) (relocateBlock f g b) = relocateKind f g (withBlock n b) := by
  unfold withBlock
  rw [Node.relocate_kind]
  cases n.kind with
  | call c => simp [relocateKind]
  | ident => simp [relocateKind]
  | _ => rfl

/-! ## Moved trees -/

section Moved

variable {place : Nat → Nat} (hplace : Monotone place)
include hplace

theorem Span.merge_move (a b : Span) : (a.move place).merge (b.move place) = (a.merge b).move place := by
  simp only [Span.move, Span.merge, hplace.map_min, hplace.map_max]

theorem groupEntries_move (args : List Node) (l : Nat) :
    groupEntries (args.map (·.move place l)) = (groupEntries args).map (·.move place l) := by
  have hentries : ((args.map (·.move place l)).reverse.takeWhile isEntry).reverse =
      (args.reverse.takeWhile isEntry).reverse.map (·.move place l) := by
    rw [← List.map_reverse, List.takeWhile_map, ← List.map_reverse]
    congr 3
    funext n
    exact isEntry_relocate n
  unfold groupEntries
  dsimp only
  rw [hentries, List.head?_map, List.getLast?_map]
  generalize (args.reverse.takeWhile isEntry).reverse = entries
  cases entries.head? with
  | none => rfl
  | some first =>
    cases entries.getLast? with
    | none => rfl
    | some last =>
      simp [Node.relocate, relocateKind, List.map_take, Span.merge_move hplace]

theorem groupPairs_move (args : List Node) (l : Nat) :
    groupPairs (args.map (·.move place l)) = (groupPairs args).map (·.move place l) := by
  unfold groupPairs
  rw [List.getLast?_map]
  cases args.getLast? with
  | none => rfl
  | some last =>
    dsimp only [Option.map_some]
    rw [isBlockPass_relocate]
    split
    · rw [← List.map_dropLast, groupEntries_move hplace, List.map_append, List.map_singleton]
    · exact groupEntries_move hplace args l

end Moved

end Ruby

end PuppetDocs
