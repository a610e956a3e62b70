import PuppetDocs.Ruby.Token

/-
  PuppetDocs.Ruby.Node — syntax trees of Ruby files.

  A node has a kind, the bytes it covers and the line it starts on. `NodeKind α` is what a
  node can be if its parts are `α`s: the tree shows calls, their arguments and blocks,
  literals, assignments and the bodies of classes and modules; anything else is `other`,
  with its parts. `children` lists the parts that are nodes in the order of the source, and
  `preorder` a node in front of all that is below it. A tree is visited by means of a stack
  (`traverse`), in that order (`traverse_eq`).

  A node is larger than each of its children, so functions on trees recurse on `sizeOf`;
  `Node.induction` is the matching principle.
-/

namespace PuppetDocs.Ruby

inductive ParamKind where
  | required | optional | rest | keyword | keywordRest | block
  deriving DecidableEq, Repr

/-- A parameter of a method, block or lambda. -/
structure Param (α : Type) where
  name : String
  kind : ParamKind
  default? : Option α
  span : Span

structure Block (α : Type) where
  params : List (Param α)
  body : α
  span : Span
  line : Nat

structure Call (α : Type) where
  receiver : Option α
  method : String
  args : List α
  /-- The arguments stand in parentheses. -/
  parens : Bool
  block : Option (Block α)

inductive NamespaceKind where
  | class_ | module_ | singletonClass
  deriving DecidableEq, Repr

inductive NodeKind (α : Type) where
  | statements (items : List α)
  | call (c : Call α)
  | assign (target value : α)
  | opAssign (op : String) (target value : α)
  | binary (op : String) (lhs rhs : α)
  | unary (op : String) (operand : α)
  /-- A variable, or a method called without receiver and arguments. -/
  | ident (name : String)
  | const (scope : Option α) (name : String)
  | instanceVar (name : String)
  | classVar (name : String)
  | globalVar (name : String)
  | symbol (name : String)
  | quotedSymbol (value : StrLit)
  | str (value : StrLit)
  | command (value : StrLit)
  | regex (text : String)
  | number (text : String)
  | nil | true_ | false_ | self_
  | array (items : List α)
  /-- A hash literal, or the pairs at the end of an argument list. -/
  | hash (entries : List α)
  | pair (key value : α)
  | splat (double : Bool) (value : Option α)
  | blockPass (value : Option α)
  | method (name : String) (singleton : Bool) (params : List (Param α)) (body : α)
  | namespace_ (keyword : NamespaceKind) (name superclass : Option α) (body : α)
  /-- Conditionals, loops, `case`, `begin`, ternaries and modifiers: conditions and bodies. -/
  | control (keyword : String) (parts : List α)
  | lambda (params : List (Param α)) (body : α)
  /-- `return`, `break`, `next`, `redo`, `retry`, `yield` and `super`. -/
  | jump (keyword : String) (args : List α)
  | other (parts : List α)

structure Node where
  kind : NodeKind Node
  span : Span
  line : Nat

def defaults {α : Type} (params : List (Param α)) : List α := params.filterMap Param.default?

namespace NodeKind

variable {α : Type}

def children : NodeKind α → List α
  | statements items | array items | hash items | other items => items
  | control _ parts => parts
  | jump _ args => args
  | call c =>
    c.receiver.toList ++ c.args ++
      match c.block with
      | some b => defaults b.params ++ [b.body]
      | none => []
  | assign target value | opAssign _ target value => [target, value]
  | binary _ lhs rhs => [lhs, rhs]
  | unary _ operand => [operand]
  | const scope _ => scope.toList
  | pair key value => [key, value]
  | splat _ value | blockPass value => value.toList
  | method _ _ params body | lambda params body => defaults params ++ [body]
  | namespace_ _ name superclass body => name.toList ++ superclass.toList ++ [body]
  | _ => []

theorem sizeOf_default_lt [SizeOf α] {ps : List (Param α)} {x : α} (h : x ∈ defaults ps) :
    sizeOf x < sizeOf ps := by
  obtain ⟨p, hp, hx⟩ := List.mem_filterMap.1 h
  have h1 := List.sizeOf_lt_of_mem hp
  obtain ⟨name, kind, default?, span⟩ := p
  subst hx
  simp only [Param.mk.sizeOf_spec, Option.some.sizeOf_spec] at h1
  omega

theorem sizeOf_toList_lt [SizeOf α] {o : Option α} {x : α} (h : x ∈ o.toList) : sizeOf x < sizeOf o := by
  cases o with
  | none => simp at h
  | some y => simp only [Option.toList_some, List.mem_singleton] at h; subst h; simp

theorem sizeOf_child_lt [SizeOf α] {k : NodeKind α} {x : α} (h : x ∈ k.children) : sizeOf x < sizeOf k := by
  cases k <;> simp only [children, List.mem_append, List.mem_cons, List.not_mem_nil, or_false] at h
  case statements items | array items | hash items | other items | control _ items | jump _ items =>
    have := List.sizeOf_lt_of_mem h
    simp; omega
  case call c =>
    obtain ⟨receiver, method, args, parens, block⟩ := c
    dsimp only at h
    rcases h with (h | h) | h
    · have := sizeOf_toList_lt h
      simp; omega
    · have := List.sizeOf_lt_of_mem h
      simp; omega
    · cases block with
      | none => simp at h
      | some b =>
        obtain ⟨params, body, span, line⟩ := b
        simp only [List.mem_append, List.mem_singleton] at h
        rcases h with h | rfl
        · have := sizeOf_default_lt h
          simp; omega
        · simp; omega
  case assign | opAssign | binary | pair => rcases h with rfl | rfl <;> simp <;> omega
  case unary => subst h; simp only [unary.sizeOf_spec]; omega
  case const | splat | blockPass =>
    have := sizeOf_toList_lt h
    simp; omega
  case method _ _ params body | lambda params body =>
    rcases h with h | rfl
    · have := sizeOf_default_lt h
      simp; omega
    · simp only [method.sizeOf_spec, lambda.sizeOf_spec]; omega
  case namespace_ =>
    rcases h with (h | h) | rfl
    · have := sizeOf_toList_lt h
      simp; omega
    · have := sizeOf_toList_lt h
      simp; omega
    · simp only [namespace_.sizeOf_spec]; omega

end NodeKind

namespace Node

/-- The nodes right below, in source order. -/
def children (n : Node) : List Node := n.kind.children

theorem sizeOf_child_lt {n x : Node} (h : x ∈ n.children) : sizeOf x < sizeOf n := by
  obtain ⟨kind, span, line⟩ := n
  have := NodeKind.sizeOf_child_lt (k := kind) h
  simp only [Node.mk.sizeOf_spec]
  omega

theorem induction {p : Node → Prop} (h : ∀ n : Node, (∀ x ∈ n.children, p x) → p n) (n : Node) : p n :=
  h n fun x _ => induction h x
termination_by n
decreasing_by exact sizeOf_child_lt ‹_›

def preorder (n : Node) : List Node := n :: n.children.attach.flatMap fun ⟨x, _⟩ => preorder x
termination_by n
decreasing_by exact sizeOf_child_lt ‹_›

theorem preorder_eq (n : Node) : n.preorder = n :: n.children.flatMap preorder := by
  rw [preorder, List.flatMap_subtype (g := preorder) (fun _ _ => rfl)]
  simp

/-- The stack with further nodes on it, the last of them on top. -/
def pushAll (stack ns : List Node) : List Node := ns.foldl (fun stack n => n :: stack) stack

theorem pushAll_reverse (stack ns : List Node) : pushAll stack ns.reverse = ns ++ stack := by
  rw [pushAll, List.foldl_flip_cons_eq_append', List.reverse_reverse]

/-- The nodes visited from a stack: the top one, and then those visited with its children in its place, the first child
on top. -/
def traverse : List Node → List Node
  | [] => []
  | n :: stack => n :: traverse (pushAll stack n.children.reverse)
termination_by stack => (stack.flatMap preorder).length
decreasing_by simp [pushAll_reverse, preorder_eq n]

/-- A stack stands for the trees of its nodes, one behind the other. -/
theorem traverse_eq (stack : List Node) : traverse stack = stack.flatMap preorder := by
  induction stack using traverse.induct with
  | case1 => rw [traverse, List.flatMap_nil]
  | case2 n stack ih =>
    rw [traverse, ih, pushAll_reverse, List.flatMap_append, List.flatMap_cons, preorder_eq n, List.cons_append]

end Node

end PuppetDocs.Ruby
