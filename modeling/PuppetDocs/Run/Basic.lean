import PuppetDocs.Config.Document
import PuppetDocs.Findings.File
import PuppetDocs.Run.Disk

/-
  PuppetDocs.Run.Basic — documenting the files of a module one after another.

  What a file declares is collected on its own and then taken over, in order; objects whose
  key an earlier file has used are reported and left out. A file that is neither Ruby nor
  Puppet is skipped with a warning, and is not read. A file that cannot be read or parsed is
  reported, adds nothing, and does not stop the run. Finishing brings together what several
  files say about a resource type.
-/

namespace PuppetDocs

structure Run where
  settings : Settings := {}
  registry : Registry := {}
  diagnostics : List Diagnostic := []
  deriving DecidableEq, Repr

namespace Run

def report (r : Run) (ds : List Diagnostic) : Run := { r with diagnostics := r.diagnostics ++ ds }

/-- The run after a parsed file. -/
def addTree (r : Run) (tree : SyntaxTree) : Run :=
  let c := Collected.ofFindings (Context.findings { tree, settings := r.settings })
  let (registry, problems) := r.registry.merge c.registry
  { r with registry }.report (c.notes ++ problems.map Problem.toDiagnostic)

def skipped (path : String) : Diagnostic where
  severity := .warning
  message := "Skipping " ++ path ++ ": not a Ruby or Puppet source file."
  file := some path
  code := some Code.unsupportedFile.text

def unreadable (path : String) (e : ReadError) : Diagnostic where
  severity := .error
  message := "Failed to read " ++ path ++ ": " ++ e.message
  file := some path
  code := some Code.io.text

/-- The run after the text of a file, and the problem that kept the file out. -/
def addSource (r : Run) (path text : String) : Run × Option Problem :=
  match r.settings.grammarFor path with
  | none => (r.report [skipped path], none)
  | some grammar =>
    match SyntaxTree.parse path text grammar with
    | .ok tree => (r.addTree tree, none)
    | .error e =>
      let problem := Problem.badSyntax path e
      (r.report [problem.toDiagnostic], some problem)

def addFile (r : Run) (disk : Disk) (path : String) : Run × Option Problem :=
  if (r.settings.grammarFor path).isNone then (r.report [skipped path], none)
  else match disk.read path with
    | .ok text => r.addSource path text
    | .error e => (r.report [unreadable path e], some (.unreadable e))

/-- The run after several files, and how many of them failed. -/
def addFiles (r : Run) (disk : Disk) : List String → Run × Nat
  | [] => (r, 0)
  | path :: paths =>
    let (r, problem) := r.addFile disk path
    let (r, failed) := r.addFiles disk paths
    (r, failed + if problem.isSome then 1 else 0)

def finish (r : Run) : Run :=
  let (registry, notes) := r.registry.finalize
  { r with registry }.report notes

end Run

/-- The settings in a file. -/
def Settings.load (disk : Disk) (path : String) : Except Problem Settings :=
  match disk.read path with
  | .error e => .error (.unreadable e)
  | .ok text =>
    match Settings.ofToml? text with
    | some s => .ok s
    | none => .error (.badSettings (path ++ ": not a settings document"))

end PuppetDocs
