/-
  PuppetDocs.Text.Name — runs of characters, and the ASCII characters that names are made of.
-/

namespace PuppetDocs.Text

/-- The number of leading characters that satisfy `p`. -/
def run (p : Char → Bool) (cs : List Char) : Nat := (cs.takeWhile p).length

def isNameChar (c : Char) : Bool := c.isAlphanum || c == '_'

end PuppetDocs.Text
