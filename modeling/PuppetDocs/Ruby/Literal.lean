import PuppetDocs.Ruby.Token
import PuppetDocs.Source.Delimited

/-
  PuppetDocs.Ruby.Literal — what the bodies of literals say.

  The interpolating literals are those whose delimiters have the sigil `#`. A raw body knows two
  escapes, the backslash and its own delimiters; any other backslash stands for itself. An
  interpolating body knows the usual letters, joins lines at an escaped line feed, and lets any
  other escaped character stand for itself; `#` in front of a brace, an at sign or a dollar
  sign marks interpolation and stays in the value.
-/

namespace PuppetDocs.Ruby

/-! ## Values -/

def decodeRaw (d : Delimiters) : List Char → List Char
  | [] => []
  | '\\' :: c :: r =>
    if c == '\\' || c == d.close || some c == d.nest then c :: decodeRaw d r else '\\' :: decodeRaw d (c :: r)
  | c :: r => c :: decodeRaw d r

/-- What an escaped character stands for; an escaped line feed for nothing. -/
def escaped (c : Char) : List Char :=
  match c with
  | 'n' => ['\n']
  | 't' => ['\t']
  | 'r' => ['\r']
  | 's' => [' ']
  | '0' => ['\x00']
  | 'e' => ['\x1b']
  | 'a' => ['\x07']
  | 'b' => ['\x08']
  | 'f' => ['\x0c']
  | 'v' => ['\x0b']
  | '\n' => []
  | c => [c]

def decodeEscapes : List Char → List Char
  | [] => []
  | '\\' :: c :: r => escaped c ++ decodeEscapes r
  | c :: r => c :: decodeEscapes r

def startsInterpolation : List Char → Bool
  | c :: _ => c == '\x7b' || c == '@' || c == '$'
  | [] => false

def interpolates : List Char → Bool
  | [] => false
  | '\\' :: _ :: r => interpolates r
  | c :: r => (c == '#' && startsInterpolation r) || interpolates r

def decodeInterpolating (cs : List Char) : StrLit :=
  { value := String.ofList (decodeEscapes cs), interpolated := interpolates cs }

def decode (d : Delimiters) (cs : List Char) : StrLit :=
  match d.sigil with
  | none => { value := String.ofList (decodeRaw d cs), interpolated := false }
  | some _ => decodeInterpolating cs

/-- The closing delimiter of a percent literal. -/
def closingOf (c : Char) : Char :=
  match c with
  | '(' => ')'
  | '[' => ']'
  | '\x7b' => '\x7d'
  | '<' => '>'
  | c => c

/-- The delimiters of a percent literal that `opener` opens. -/
def percentDelimiters (opener : Char) (sigil : Option Char) : Delimiters :=
  let close := closingOf opener
  { nest := if opener = close then none else some opener, close, sigil }

/-- The number of characters of a regular expression in front of its closing slash; a slash in
brackets does not close it. -/
def regexBody? (inClass : Bool) : List Char → Option Nat
  | [] => none
  | '\\' :: r =>
    match r with
    | [] => none
    | _ :: s => (regexBody? inClass s).map (· + 2)
  | c :: r =>
    if c == '[' then (regexBody? true r).map (· + 1)
    else if c == ']' then (regexBody? false r).map (· + 1)
    else if c == '/' && !inClass then some 0
    else (regexBody? inClass r).map (· + 1)

end PuppetDocs.Ruby
