import PuppetDocs.Findings.Context

/-
  PuppetDocs.Findings.Function — functions written in Ruby.

  A function of the 4.x API is documented by the comments above it and has a signature for
  each `dispatch` block; without any it has one for the method of its own name. A function of
  the 3.x API is documented by an option, takes any arguments, and returns something only if
  its type is `rvalue`.
-/

namespace PuppetDocs

open Ruby

/-- What stands behind the last `::` of a qualified name. -/
def behindColons : List Char → Option (List Char)
  | [] => none
  | c :: r =>
    match behindColons r with
    | some name => some name
    | none => if c == ':' && r.head? == some ':' then some r.tail else none

def unqualified (name : String) : String := ((behindColons name.toList).map String.ofList).getD name

namespace Context

def functionSubject (name : String) : String := "Puppet function '" ++ name ++ "'"

/-- A parameter given by its type and name, or by its name alone. -/
def typedParam (ctx : Context) (args : List Node) (isOptional isRepeated : Bool) : Option SignatureParam :=
  match args with
  | [] => none
  | [name] => some { name := ctx.source name, type := "Any", isOptional, isRepeated }
  | type :: name :: _ => some { name := ctx.source name, type := ctx.source type, isOptional, isRepeated }

def blockParam (ctx : Context) (args : List Node) (isOptional : Bool) : SignatureParam :=
  match args with
  | [] => { name := "&block", type := "Callable", isOptional }
  | [name] => { name := "&" ++ ctx.source name, type := "Callable", isOptional }
  | type :: name :: _ => { name := "&" ++ ctx.source name, type := ctx.source type, isOptional }

/-- The parameter that a call in a `dispatch` block declares. -/
def dispatchParam (ctx : Context) (call : Call Node) : Option SignatureParam :=
  let args := call.positional
  match call.method with
  | "param" | "required_param" => ctx.typedParam args false false
  | "optional_param" => ctx.typedParam args true false
  | "repeated_param" | "optional_repeated_param" => ctx.typedParam args true true
  | "required_repeated_param" => ctx.typedParam args false true
  | "block_param" => some (ctx.blockParam args false)
  | "optional_block_param" => some (ctx.blockParam args true)
  | _ => none

def dispatchSignature (ctx : Context) (body : Node) : Signature :=
  let calls := body.statements.filterMap Node.call?
  let returnType := (calls.filter (·.method == "return_type")).getLast?.bind (·.positional.head?)
  { params := calls.filterMap ctx.dispatchParam, returnType := some ((returnType.map ctx.source).getD "Any") }

def dispatchSignatures (ctx : Context) (statements : List Node) : List Signature :=
  let calls := (statements.filterMap Node.call?).filter fun call => call.isFree && call.method == "dispatch"
  (calls.filterMap Call.block).map fun block => ctx.dispatchSignature block.body

def methodParam (p : Param Node) : Option SignatureParam :=
  match p.kind with
  | .required | .keyword => some { name := p.name, type := "Any" }
  | .optional => some { name := p.name, type := "Any", isOptional := true }
  | .rest => some { name := p.name, type := "Any", isRepeated := true }
  | .keywordRest | .block => none

/-- The parameters of a statement that defines the method `name`. -/
def methodParams? (name : String) (statement : Node) : Option (List (Param Node)) :=
  match statement.kind with
  | .method n _ params _ => if n = name then some params else none
  | _ => none

def methodSignature? (name : String) (statements : List Node) : Option Signature :=
  (statements.findSome? (methodParams? name)).map fun params =>
    { params := params.filterMap methodParam, returnType := some "Any" }

def function4x (ctx : Context) (statement : Node) (call : Call Node) : Finding := do
  let name ← ctx.requiredName statement call
  return do
    let docstring ← ctx.commentDocstring statement.line (functionSubject name)
    let signatures := match ctx.dispatchSignatures call.blockStatements with
      | [] => (methodSignature? (unqualified name) call.blockStatements).toList
      | signatures => signatures
    return .object (.function {
      name, docstring, signatures, functionKind := .ruby4x, location := ctx.location statement.line })

def function3x (ctx : Context) (statement : Node) (call : Call Node) : Finding := do
  let name ← ctx.requiredName statement call
  return do
    let docstring ← ctx.docstring (searchValue (call.option? "doc")) (functionSubject name) statement.line
    let returns := (call.option? "type").bind Node.symbolName? == some "rvalue"
    let signature : Signature := {
      params := [{ name := "args", type := "Any", isRepeated := true }]
      returnType := some (if returns then "Any" else "Undef") }
    return .object (.function {
      name, docstring, signatures := [signature], functionKind := .ruby3x, location := ctx.location statement.line })

end Context

end PuppetDocs
