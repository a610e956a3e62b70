import PuppetDocs.Config.Settings
import PuppetDocs.Docs.Parse
import PuppetDocs.Findings.Noted
import PuppetDocs.Findings.Search

/-
  PuppetDocs.Findings.Context — the file that a declaration is read from.

  Values are documented as they are written: a literal by its text, anything else by its
  source. The name of an object has to be a literal. A docstring that is missing or is no
  literal counts as empty and is noted, a missing one only if the settings ask for that.
-/

namespace PuppetDocs

open Ruby

structure Context where
  tree : SyntaxTree
  settings : Settings

namespace Context

def location (ctx : Context) (line : Nat) : Location := { file := ctx.tree.path, line }

/-- The message with the place it is about. -/
def placed (ctx : Context) (message : String) (line : Nat) : String :=
  message ++ " at " ++ (ctx.location line).text ++ "."

/-! ## Values -/

def slice (ctx : Context) (n : Node) : String := ctx.tree.slice n.span

/-- The text of a literal, or else the source of the node. -/
def source (ctx : Context) (n : Node) : String := n.literal?.getD (ctx.slice n)

/-- The texts of the items of an array, or of a single value. -/
def sources (ctx : Context) (n : Node) : List String :=
  match n.kind with
  | .array items => items.map ctx.source
  | _ => [ctx.source n]

/-! ## Notes and problems -/

def warn (ctx : Context) (code : Code) (line : Nat) (message : String) : Noted Unit :=
  .note (.warningAt code ctx.tree.path line message)

def undocumentable (ctx : Context) (line : Nat) (message : String) : Problem :=
  .undocumentable (ctx.placed message line) ctx.tree.path line

/-- The name that a call gives to what its statement declares: its first positional argument. -/
def requiredName (ctx : Context) (statement : Node) (call : Call Node) : Except Problem String :=
  match call.positional with
  | [] => .error (ctx.undocumentable statement.line ("Expected at least one parameter to '" ++ call.method ++ "'"))
  | first :: _ =>
    match first.literal? with
    | some name => .ok name
    | none => .error (ctx.undocumentable statement.line
        ("Expected a symbol or string literal for first parameter but found '" ++ ctx.slice first ++ "'"))

/-- The name in `Puppet::Type.type(<name>)`, for a declaration of the given sort. -/
def resourceTypeName (ctx : Context) (statement : Node) (typeCall : Call Node) (what : String) :
    Except Problem String :=
  match typeCall.args.head?.bind Node.literal? with
  | some name => .ok name
  | none => .error (ctx.undocumentable statement.line
      ("Could not determine the resource type name for the " ++ what ++ " defined"))

/-! ## Documentation -/

def noteMissing (ctx : Context) (subject : String) (line : Nat) : Noted Unit :=
  if ctx.settings.warnMissingDocs then
    ctx.warn .missingDocstring line (ctx.placed ("Missing a description for " ++ subject) line)
  else pure ()

/-- The text that a search has found for the subject declared at a line. -/
def docText (ctx : Context) (search : DocSearch) (subject : String) (line : Nat) : Noted String :=
  match search with
  | .found text _ => return text
  | .unresolvable at_ => do
    ctx.warn .unresolvableDocstring at_
      ("Failed to parse docstring for " ++ subject ++ " near " ++ (ctx.location at_).text ++ ".")
    return ""
  | .notFound => do
    ctx.noteMissing subject line
    return ""

def docstring (ctx : Context) (search : DocSearch) (subject : String) (line : Nat) : Noted Docstring := do
  return (Docstring.parse (← ctx.docText search subject line)).markPublic

/-- The docstring in the comments right above a line. -/
def commentDocstring (ctx : Context) (line : Nat) (subject : String) : Noted Docstring :=
  match ctx.tree.blockBefore line with
  | some block => return (Docstring.parse block.text).markPublic
  | none => do
    ctx.noteMissing subject line
    return ({} : Docstring).markPublic

end Context

/-- A search of the block of a call. -/
def searchBlock (call : Call Node) : DocSearch :=
  match call.block with
  | some block => findDocstring block.body
  | none => .notFound

/-- The statements in the block of a call. -/
def Ruby.Call.blockStatements (call : Call Node) : List Node :=
  match call.block with
  | some block => block.body.statements
  | none => []

def searchValue (value : Option Node) : DocSearch :=
  match value with
  | some value => .ofValue value
  | none => .notFound

end PuppetDocs
