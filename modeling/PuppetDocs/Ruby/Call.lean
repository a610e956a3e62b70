import PuppetDocs.Ruby.Node

/-
  PuppetDocs.Ruby.Call — what a tree says without running it.

  A literal is a symbol, a string without interpolation or a regular expression; only a
  literal has a text of its own. The options of a call are the hash at the end of its
  arguments, in front of a block argument; the arguments in front of it are positional. A
  constant path is spelled from the root, so `::A::B` and `A::B` are one path.
-/

namespace PuppetDocs.Ruby

namespace Node

def call? (n : Node) : Option (Call Node) :=
  match n.kind with
  | .call c => some c
  | _ => none

/-- The statements of a body; any other node is one statement. -/
def statements (n : Node) : List Node :=
  match n.kind with
  | .statements items => items
  | _ => [n]

/-- The name of a variable, or of a method called without receiver, arguments and block. -/
def bareWord? (n : Node) : Option String :=
  match n.kind with
  | .ident name => some name
  | _ => none

/-! ## Literals -/

/-- The name of a symbol, also of one in front of the value of a pair. -/
def symbolName? (n : Node) : Option String :=
  match n.kind with
  | .symbol name => some name
  | .quotedSymbol value => if value.interpolated then none else some value.value
  | _ => none

def literal? (n : Node) : Option String :=
  match n.kind with
  | .symbol name => some name
  | .quotedSymbol value | .str value => if value.interpolated then none else some value.value
  | .regex text => some text
  | _ => none

def isTrue (n : Node) : Bool :=
  match n.kind with
  | .true_ => true
  | _ => false

def isSelf (n : Node) : Bool :=
  match n.kind with
  | .self_ => true
  | _ => false

def isHash (n : Node) : Bool :=
  match n.kind with
  | .hash _ => true
  | _ => false

def isBlockPass (n : Node) : Bool :=
  match n.kind with
  | .blockPass _ => true
  | _ => false

/-- The value under a symbol in a hash. -/
def hashValue? (n : Node) (key : String) : Option Node :=
  match n.kind with
  | .hash entries => entries.findSome? fun entry =>
    match entry.kind with
    | .pair k value => if k.symbolName? = some key then some value else none
    | _ => none
  | _ => none

/-! ## Constants -/

/-- The place in front of a leading `::`. -/
def isRootScope (n : Node) : Bool :=
  match n.kind with
  | .other [] => true
  | _ => false

def constPath? (n : Node) : Option String :=
  match h : n.kind with
  | .const none name => some name
  | .const (some scope) name =>
    if scope.isRootScope then some name else (constPath? scope).map (· ++ "::" ++ name)
  | _ => none
termination_by n
decreasing_by exact sizeOf_child_lt (by simp [children, NodeKind.children, h])

end Node

namespace Call

/-- The call has no receiver. -/
def isFree (c : Call Node) : Bool := c.receiver.isNone

def receiverIs (c : Call Node) (path : String) : Bool := c.receiver.bind Node.constPath? == some path

def dropTrailing (p : Node → Bool) (ns : List Node) : List Node := if ns.getLast?.any p then ns.dropLast else ns

def positional (c : Call Node) : List Node := dropTrailing Node.isHash (dropTrailing Node.isBlockPass c.args)

def options? (c : Call Node) : Option Node := (c.args.reverse.find? (!·.isBlockPass)).filter Node.isHash

def option? (c : Call Node) (key : String) : Option Node := c.options?.bind (·.hashValue? key)

end Call

end PuppetDocs.Ruby
