/-
  PuppetDocs.Source.Delimited — where a delimited literal ends.

  A literal closes at the first closing delimiter that is not escaped, not inside an
  interpolated part and not the partner of an opening delimiter further in. A backslash
  escapes the character after it. An interpolated part starts with the sigil and an opening
  brace, in literals that have a sigil; inside it only braces count.
-/

namespace PuppetDocs

structure Delimiters where
  /-- The opening delimiter, if it differs from the closing one. -/
  nest : Option Char
  close : Char
  sigil : Option Char
  deriving DecidableEq, Repr

namespace Delimiters

def quote (c : Char) (sigil : Option Char) : Delimiters := { nest := none, close := c, sigil }

/-- The number of characters in front of the closing delimiter. `depth` counts open partners,
`braces` the braces open in an interpolated part. -/
def bodyFrom (d : Delimiters) : Nat → Nat → List Char → Option Nat
  | _, _, [] => none
  | depth, braces + 1, c :: r =>
    let braces := if c == '\x7b' then braces + 2 else if c == '\x7d' then braces else braces + 1
    (bodyFrom d depth braces r).map (· + 1)
  | depth, 0, c :: r =>
    if c == '\\' then
      match r with
      | [] => none
      | _ :: s => (bodyFrom d depth 0 s).map (· + 2)
    else if some c == d.sigil && r.head? == some '\x7b' then
      match r with
      | [] => none
      | _ :: s => (bodyFrom d depth 1 s).map (· + 2)
    else if some c == d.nest then (bodyFrom d (depth + 1) 0 r).map (· + 1)
    else if c == d.close then
      match depth with
      | 0 => some 0
      | depth + 1 => (bodyFrom d depth 0 r).map (· + 1)
    else (bodyFrom d depth 0 r).map (· + 1)

def body? (d : Delimiters) (cs : List Char) : Option Nat := d.bodyFrom 0 0 cs

end Delimiters

end PuppetDocs
