import PuppetDocs.Text.Span

/-
  PuppetDocs.Source.Fault — why a source text is refused, and where.

  Both readers pass over what they do not know. They refuse a text only for damage to its
  structure: a literal, comment or heredoc without an end, a bracket or keyword without its
  partner, a token in a place where one of a few others has to stand. A `SyntaxError` is
  such a cause with the line (from 1) and column (from 0, in bytes) it is reported at.

  A reader that neither reads nor refuses a text has failed itself: its recursion has gone
  deeper than its bound, or it has asked for a stretch that is none of the text.
-/

namespace PuppetDocs

inductive Fault where
  | unterminatedString
  | unterminatedHeredoc (tag : String)
  | unterminatedRegex
  | unterminatedComment
  | unexpectedEnd (expected : String)
  | unexpected (found expected : String)
  | unbalanced (lexeme : String)
  deriving DecidableEq, Repr

def Fault.message : Fault → String
  | .unterminatedString => "unterminated string literal"
  | .unterminatedHeredoc tag => "unterminated heredoc '" ++ tag ++ "'"
  | .unterminatedRegex => "unterminated regular expression"
  | .unterminatedComment => "unterminated comment"
  | .unexpectedEnd expected => "unexpected end of file, expected " ++ expected
  | .unexpected found expected => "unexpected '" ++ found ++ "', expected " ++ expected
  | .unbalanced lexeme => "unbalanced '" ++ lexeme ++ "'"

structure SyntaxError where
  fault : Fault
  line : Nat
  column : Nat
  deriving DecidableEq, Repr

inductive ParseFailure where
  | rejected (e : SyntaxError)
  | exhausted
  /-- The ends of the stretch are out of order, behind the text, or inside a character. A stretch of
  a line counts from the start of the line. -/
  | outOfText (s : Span)
  deriving DecidableEq, Repr

def SyntaxError.message (e : SyntaxError) : String :=
  e.fault.message ++ " at line " ++ toString e.line ++ ", column " ++ toString e.column

end PuppetDocs
