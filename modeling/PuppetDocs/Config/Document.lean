import PuppetDocs.Config.Settings
import PuppetDocs.Source.Delimited
import PuppetDocs.Text.Name

/-
  PuppetDocs.Config.Document — settings as a TOML document.

  A setting is a boolean or a list of strings, so a document that holds settings has a line
  `key = value` for each of them, each key at most once, with blank lines and comments between
  them. Keys are bare or quoted. Strings have the four forms of TOML: basic ones have escapes,
  literal ones none; a long one stands between three quotes, may span lines, and drops a line
  ending right behind its opening. Lists may span lines and end in a comma. Every other
  document is refused, as it cannot hold settings.
-/

namespace PuppetDocs.Toml

open Text

inductive Token where
  | word (text : List Char)
  | string (text : List Char) (long : Bool)
  | equals | comma | opening | closing | lineEnd
  deriving DecidableEq, Repr

/-! ## Strings -/

/-- Control characters but for the tab. -/
def isControl (c : Char) : Bool := (c.toNat < 32 && c != '\t') || c.toNat == 127

def hexValue? (c : Char) : Option Nat :=
  if '0' ≤ c ∧ c ≤ '9' then some (c.toNat - 48)
  else if 'a' ≤ c ∧ c ≤ 'f' then some (c.toNat - 87)
  else if 'A' ≤ c ∧ c ≤ 'F' then some (c.toNat - 55)
  else none

def scalar? (digits : List Char) : Option Char := do
  let n ← digits.foldlM (fun n c => (hexValue? c).map (16 * n + ·)) 0
  if n.isValidChar then some (Char.ofNat n) else none

def escaped? : Char → Option Char
  | 'b' => some '\x08'
  | 't' => some '\t'
  | 'n' => some '\n'
  | 'f' => some '\x0c'
  | 'r' => some '\r'
  | '"' => some '"'
  | '\\' => some '\\'
  | _ => none

def isSpace (c : Char) : Bool := c == ' ' || c == '\t'

/-- The text that a body with escapes stands for. A backslash at the end of a line falls away
with all blanks and line ends behind it, which are dropped while `folding`. -/
def decode (folding : Bool) : List Char → Option (List Char)
  | [] => some []
  | c :: r =>
    if folding && (isSpace c || c == '\n') then decode true r
    else if c != '\\' then (decode false r).map (c :: ·)
    else if (r.dropWhile isSpace).head? == some '\n' then decode true r
    else match r with
      | 'u' :: a :: b :: c :: d :: s => do return (← scalar? [a, b, c, d]) :: (← decode false s)
      | 'U' :: a :: b :: c :: d :: e :: f :: g :: h :: s => do
        return (← scalar? [a, b, c, d, e, f, g, h]) :: (← decode false s)
      | e :: s => do return (← escaped? e) :: (← decode false s)
      | [] => none

def unifyLineEnds : List Char → List Char
  | [] => []
  | '\r' :: '\n' :: r => '\n' :: unifyLineEnds r
  | c :: r => c :: unifyLineEnds r

/-- The number of characters in front of the three quotes that close a long string; up to two
more quotes right in front of these belong to the string. -/
def longBody? (quote : Char) (escapes : Bool) : List Char → Option Nat
  | [] => none
  | c :: r =>
    if escapes && c == '\\' then
      match r with
      | [] => none
      | _ :: s => (longBody? quote escapes s).map (· + 2)
    else if c == quote && r.take 2 == [quote, quote] then some (min (run (· == quote) (r.drop 2)) 2)
    else (longBody? quote escapes r).map (· + 1)

def longText? (escapes : Bool) (body : List Char) : Option (List Char) :=
  let text := unifyLineEnds body
  let text := if text.head? = some '\n' then text.tail else text
  if text.any fun c => isControl c && c != '\n' then none
  else if escapes then decode false text
  else some text

/-- A string behind its first quote, with the number of characters up to its end. -/
def string? (quote : Char) (escapes : Bool) (cs : List Char) : Option (Token × Nat) := do
  if cs.take 2 = [quote, quote] then
    let rest := cs.drop 2
    let n ← longBody? quote escapes rest
    return (.string (← longText? escapes (rest.take n)) true, n + 5)
  else
    let n ← if escapes then (Delimiters.quote quote none).body? cs else some (run (· != quote) cs)
    let body := cs.take n
    guard (n < cs.length && !body.any isControl)
    return (.string (← if escapes then decode false body else some body) false, n + 1)

/-! ## Tokens -/

def isKeyChar (c : Char) : Bool := isNameChar c || c == '-'

/-- The token that starts with `c`, if it is one, with the number of characters behind `c`. -/
def token? (c : Char) (r : List Char) : Option (Option Token × Nat) :=
  if isSpace c then some (none, 0)
  else if c == '#' then some (none, run (!isControl ·) r)
  else if c == '\n' then some (some .lineEnd, 0)
  else if c == '\r' && r.head? == some '\n' then some (some .lineEnd, 1)
  else if c == '=' then some (some .equals, 0)
  else if c == ',' then some (some .comma, 0)
  else if c == '[' then some (some .opening, 0)
  else if c == ']' then some (some .closing, 0)
  else if c == '"' then (string? '"' true r).map fun (t, n) => (some t, n)
  else if c == '\'' then (string? '\'' false r).map fun (t, n) => (some t, n)
  else if isKeyChar c then some (some (.word (c :: r.takeWhile isKeyChar)), run isKeyChar r)
  else none

def tokens : List Char → Option (List Token)
  | [] => some []
  | c :: r => do
    let (t, n) ← token? c r
    return t.toList ++ (← tokens (r.drop n))
termination_by cs => cs.length
decreasing_by simp only [List.length_drop, List.length_cons]; omega

/-! ## Documents -/

/-- Where a reader of a document stands. -/
inductive Place where
  | line
  | afterKey (key : List Char)
  | value (key : List Char)
  | item (key : List Char) (items : List (List Char))
  | afterItem (key : List Char) (items : List (List Char))
  | lineEnd

def entry (key : List Char) (value : Json) : String × Json := (String.ofList key, value)

def texts (items : List (List Char)) : Json := Json.ofStrings (items.map String.ofList)

def entries : Place → List Token → Option (List (String × Json))
  | .line, [] | .lineEnd, [] => some []
  | .line, .lineEnd :: r | .lineEnd, .lineEnd :: r => entries .line r
  | .line, .word key :: r | .line, .string key false :: r => entries (.afterKey key) r
  | .afterKey key, .equals :: r => entries (.value key) r
  | .value key, .word text :: r =>
    if text = ['t', 'r', 'u', 'e'] then (entries .lineEnd r).map (entry key (.bool true) :: ·)
    else if text = ['f', 'a', 'l', 's', 'e'] then (entries .lineEnd r).map (entry key (.bool false) :: ·)
    else none
  | .value key, .opening :: r => entries (.item key []) r
  | .item key items, .string text _ :: r => entries (.afterItem key (items ++ [text])) r
  | .afterItem key items, .comma :: r => entries (.item key items) r
  | .item key items, .lineEnd :: r => entries (.item key items) r
  | .afterItem key items, .lineEnd :: r => entries (.afterItem key items) r
  | .item key items, .closing :: r | .afterItem key items, .closing :: r =>
    (entries .lineEnd r).map (entry key (texts items) :: ·)
  | _, _ => none

/-- The fields of a document, which may start with a byte order mark. -/
def document? (text : List Char) : Option Json := do
  let text := if text.head? = some '\ufeff' then text.tail else text
  let fields ← entries .line (← tokens text)
  if (fields.map Prod.fst).Nodup then some (.object fields) else none

end PuppetDocs.Toml

def PuppetDocs.Settings.ofToml? (text : String) : Option PuppetDocs.Settings :=
  (PuppetDocs.Toml.document? text.toList).bind PuppetDocs.Settings.ofJson?
