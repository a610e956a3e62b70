import PuppetDocs.Model.Object
import PuppetDocs.Report.Diagnostic
import PuppetDocs.Source.Fault

/-
  PuppetDocs.Report.Problem — what keeps a construct, a file or the settings from being used.

  A problem of one construct or file is reported as a diagnostic with its place and the run
  goes on. An undocumentable construct is a warning, every other problem an error.
-/

namespace PuppetDocs

/-- Why a file could not be read. -/
inductive ReadError where
  | notFound
  | isDirectory
  | notDirectory
  | invalidText
  deriving DecidableEq, Repr

def ReadError.message : ReadError → String
  | .notFound => "No such file or directory (os error 2)"
  | .isDirectory => "Is a directory (os error 21)"
  | .notDirectory => "Not a directory (os error 20)"
  | .invalidText => "stream did not contain valid UTF-8"

inductive Problem where
  /-- A construct whose name, say, is not a literal. -/
  | undocumentable (message file : String) (line : Nat)
  | duplicateName (key : ObjectKey) (file : String) (line : Nat)
  | badSyntax (file : String) (e : SyntaxError)
  | unreadable (e : ReadError)
  | badSettings (message : String)
  deriving DecidableEq, Repr

namespace Problem

def message : Problem → String
  | undocumentable message _ _ => message
  | duplicateName key _ _ =>
    key.kind.display ++ " '" ++ qualifiedName key.ns key.name ++ "' is already registered"
  | badSyntax file e => "Syntax error in " ++ file ++ ": " ++ e.message
  | unreadable e => "IO error: " ++ e.message
  | badSettings message => "Configuration error: " ++ message

def code : Problem → Code
  | undocumentable .. => .undocumentable
  | duplicateName .. => .duplicateName
  | badSyntax .. => .badSyntax
  | unreadable _ => .io
  | badSettings _ => .config

def severity : Problem → Severity
  | undocumentable .. => .warning
  | _ => .error

def toDiagnostic (p : Problem) : Diagnostic :=
  let d : Diagnostic := { severity := p.severity, message := p.message, code := some p.code.text }
  match p with
  | undocumentable _ file line | duplicateName _ file line => { d with file := some file, line := some line }
  | badSyntax file e => { d with file := some file, line := some e.line, column := some e.column }
  | unreadable _ | badSettings _ => d

end Problem

end PuppetDocs
