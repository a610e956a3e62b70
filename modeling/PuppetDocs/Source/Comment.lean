import PuppetDocs.Text.Blank

/-
  PuppetDocs.Source.Comment — `#` comments and the blocks that document what follows them.

  A comment stands on its own line when only blanks precede its `#`. A block is a run of
  such comments on consecutive lines; `blockBefore comments line` is the run that ends on
  the line directly above `line`, and there is none if no comment stands alone there.
-/

namespace PuppetDocs

structure Comment where
  line : Nat
  ownLine : Bool
  text : String
  deriving DecidableEq, Repr

/-- The text of a comment leaves out the `#`, one space after it and the blanks at the end. -/
def Comment.ofSource (raw : List Char) (line : Nat) (ownLine : Bool) : Comment :=
  let body := (Text.after? ['#'] raw).getD raw
  let body := (Text.after? [' '] body).getD body
  { line, ownLine, text := String.ofList (Text.trimEnd body) }

structure CommentBlock where
  startLine : Nat
  endLine : Nat
  text : String
  deriving DecidableEq, Repr

namespace Comment

/-- The run above `below`, nearest comment first; `above` lists the comments in front of it the same way. -/
def runAbove (below : Comment) : List Comment → List Comment
  | [] => []
  | c :: above => if c.ownLine && c.line + 1 == below.line then c :: runAbove c above else []

def blockBefore (comments : List Comment) : Nat → Option CommentBlock
  | 0 => none
  | target + 1 =>
    match comments.reverse.dropWhile fun c => !(c.ownLine && c.line == target) with
    | [] => none
    | last :: above =>
      let block := (last :: runAbove last above).reverse
      some {
        startLine := (block.head?.map Comment.line).getD target
        endLine := target
        text := "\n".intercalate (block.map Comment.text) }

end Comment

end PuppetDocs
