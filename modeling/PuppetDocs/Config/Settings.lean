import PuppetDocs.Json.Record
import PuppetDocs.Source.Tree
import PuppetDocs.Text.Path

/-
  PuppetDocs.Config.Settings — what a run warns about, and which files it reads.

  A file is read by its extension, as Ruby if the extension is listed for Ruby, or else as
  Puppet if it is listed for Puppet. Every setting has a default, so settings may be given in
  part; a name that is no setting is refused.
-/

namespace PuppetDocs

structure Settings where
  /-- Warn about objects without a description. -/
  warnMissingDocs : Bool := true
  /-- Warn about parameters in manifests that no tag documents. -/
  warnMissingParamDocs : Bool := true
  rubyExtensions : List String := ["rb"]
  puppetExtensions : List String := ["pp"]
  coloredDiagnostics : Bool := true
  deriving DecidableEq, Repr

namespace Settings

def grammarFor (s : Settings) (path : String) : Option Grammar :=
  match (Text.extension? path.toList).map String.ofList with
  | none => none
  | some extension =>
    if s.rubyExtensions.contains extension then some .ruby
    else if s.puppetExtensions.contains extension then some .puppet
    else none

/-! ## JSON form -/

open Json

def names : List String :=
  ["warn_missing_docs", "warn_missing_param_docs", "ruby_extensions", "puppet_extensions", "colored_diagnostics"]

def toJson (s : Settings) : Json :=
  .object [("warn_missing_docs", .bool s.warnMissingDocs), ("warn_missing_param_docs", .bool s.warnMissingParamDocs),
    ("ruby_extensions", ofStrings s.rubyExtensions), ("puppet_extensions", ofStrings s.puppetExtensions),
    ("colored_diagnostics", .bool s.coloredDiagnostics)]

def ofJson? (j : Json) : Option Settings := do
  let r ← j.record? 5
  guard (r.onlyHas names)
  let standard : Settings := {}
  return {
    warnMissingDocs := ← r.orElse asBool? standard.warnMissingDocs 0 "warn_missing_docs"
    warnMissingParamDocs := ← r.orElse asBool? standard.warnMissingParamDocs 1 "warn_missing_param_docs"
    rubyExtensions := ← r.orElse (asList? asString?) standard.rubyExtensions 2 "ruby_extensions"
    puppetExtensions := ← r.orElse (asList? asString?) standard.puppetExtensions 3 "puppet_extensions"
    coloredDiagnostics := ← r.orElse asBool? standard.coloredDiagnostics 4 "colored_diagnostics" }

end Settings

end PuppetDocs
