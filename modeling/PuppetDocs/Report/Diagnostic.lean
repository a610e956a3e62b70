/-
  PuppetDocs.Report.Diagnostic — what is reported while a module is documented.

  A diagnostic has a severity and a message, and may have a file, a line, a column and a code.
  It is shown as `file:line:column: severity[code]: message` with the parts it has; a line
  counts only with a file, a column only with a line. `styled` is the same text in pieces
  with their styles; a terminal gets each styled piece between the sequences that switch its
  style on and off.
-/

namespace PuppetDocs

inductive Severity where
  | error
  | warning
  | info
  deriving DecidableEq, Repr

def Severity.display : Severity → String
  | .error => "error"
  | .warning => "warning"
  | .info => "info"

inductive Code where
  | undocumentable | duplicateName | missingDocstring | unresolvableDocstring | malformedMetadata | missingParamDoc
  | unknownParamDoc | undeclaredType | unsupportedFile | badSyntax | io | config | internal
  deriving DecidableEq, Repr

def Code.text : Code → String
  | .undocumentable => "undocumentable"
  | .duplicateName => "duplicate-name"
  | .missingDocstring => "missing-docstring"
  | .unresolvableDocstring => "unresolvable-docstring"
  | .malformedMetadata => "malformed-metadata"
  | .missingParamDoc => "missing-param-doc"
  | .unknownParamDoc => "unknown-param-doc"
  | .undeclaredType => "undeclared-type"
  | .unsupportedFile => "unsupported-file"
  | .badSyntax => "syntax"
  | .io => "io"
  | .config => "config"
  | .internal => "internal"

def Code.all : List Code :=
  [.undocumentable, .duplicateName, .missingDocstring, .unresolvableDocstring, .malformedMetadata, .missingParamDoc,
   .unknownParamDoc, .undeclaredType, .unsupportedFile, .badSyntax, .io, .config, .internal]

structure Diagnostic where
  severity : Severity
  message : String
  file : Option String := none
  line : Option Nat := none
  column : Option Nat := none
  code : Option String := none
  deriving DecidableEq, Repr

namespace Diagnostic

/-- A warning at a line of a file. -/
def warningAt (code : Code) (file : String) (line : Nat) (message : String) : Diagnostic :=
  { severity := .warning, message, file := some file, line := some line, code := some code.text }

def hasCode (d : Diagnostic) (code : Code) : Bool := d.code == some code.text

def place (d : Diagnostic) : Option String :=
  d.file.map fun file =>
    match d.line, d.column with
    | none, _ => file
    | some line, none => file ++ ":" ++ toString line
    | some line, some column => file ++ ":" ++ toString line ++ ":" ++ toString column

/-! ## Text and styles -/

inductive Color where
  | red | yellow | blue
  deriving DecidableEq, Repr

inductive Style where
  | plain
  | dimmed
  | bold (color : Color)
  deriving DecidableEq, Repr

/-- The pieces of the text, each with its style. -/
def styled (d : Diagnostic) : List (Style × String) :=
  let place := match d.place with
    | some place => [(Style.dimmed, place), (.plain, ": ")]
    | none => []
  let code := match d.code with
    | some code => [(Style.dimmed, "[" ++ code ++ "]")]
    | none => []
  place ++ [(.bold (color d.severity), d.severity.display)] ++ code ++ [(.plain, ": " ++ d.message)]
where
  color : Severity → Color
    | .error => .red
    | .warning => .yellow
    | .info => .blue

def format (d : Diagnostic) : String := "".intercalate (d.styled.map Prod.snd)

def escape (n : Nat) : String := "\x1b[" ++ toString n ++ "m"

def Color.code : Color → Nat
  | .red => 31
  | .yellow => 33
  | .blue => 34

def Style.wrap (text : String) : Style → String
  | .plain => text
  | .dimmed => escape 0 ++ escape 2 ++ text ++ escape 0
  | .bold color => escape 0 ++ escape 1 ++ escape color.code ++ text ++ escape 0

/-- The line for a terminal, with or without its styles. -/
def terminalLine (d : Diagnostic) (colored : Bool) : String :=
  "".intercalate (d.styled.map fun (style, text) => if colored then style.wrap text else text) ++ "\n"

end Diagnostic

/-! ## Counts -/

/-- How many diagnostics a run has reported, by severity and by code. -/
structure Tally where
  total : Nat
  errors : Nat
  warnings : Nat
  /-- The codes that occur, in the order of `Code.all`. -/
  byCode : List (Code × Nat)
  deriving DecidableEq, Repr

def Tally.hasErrors (t : Tally) : Bool := t.errors ≠ 0

def tally (ds : List Diagnostic) : Tally where
  total := ds.length
  errors := ds.countP (·.severity = .error)
  warnings := ds.countP (·.severity = .warning)
  byCode := (Code.all.map fun c => (c, ds.countP (·.hasCode c))).filter fun (_, n) => n ≠ 0

end PuppetDocs
