/-
  PuppetDocs.Json.Value — JSON values and how they are printed.

  An object keeps its fields in order. A number is `digits / 10 ^ places`; only whole numbers
  occur in what this library writes. The printed form puts every item and field on a line of
  its own, indented by two spaces a level, with `[]` and `{}` for empty ones. Strings escape
  the quote, the backslash and the control characters, nothing else.
-/

namespace PuppetDocs

inductive Json where
  | null
  | bool (b : Bool)
  | number (digits : Int) (places : Nat)
  | string (s : String)
  | array (items : List Json)
  | object (fields : List (String × Json))
  deriving Inhabited

namespace Json

def ofNat (n : Nat) : Json := .number n 0

/-! ## Printing -/

def hexDigit (n : Nat) : Char := if n < 10 then Char.ofNat (48 + n) else Char.ofNat (87 + n)

def escapeChar (c : Char) : List Char :=
  if c == '"' then ['\\', '"']
  else if c == '\\' then ['\\', '\\']
  else if c == '\x08' then ['\\', 'b']
  else if c == '\x0c' then ['\\', 'f']
  else if c == '\n' then ['\\', 'n']
  else if c == '\r' then ['\\', 'r']
  else if c == '\t' then ['\\', 't']
  else if c.toNat < 32 then ['\\', 'u', '0', '0', hexDigit (c.toNat / 16), hexDigit (c.toNat % 16)]
  else [c]

def quoted (s : String) : String := "\"" ++ String.ofList (s.toList.flatMap escapeChar) ++ "\""

def margin (depth : Nat) : String := "".pushn ' ' (2 * depth)

/-- `places` digits behind the point, and the rest in front of it. -/
def decimal (digits : Int) (places : Nat) : String :=
  if places = 0 then toString digits
  else
    let all := (toString digits.natAbs).toList
    let all := List.replicate (places + 1 - all.length) '0' ++ all
    let whole := all.length - places
    (if digits < 0 then "-" else "") ++ String.ofList (all.take whole) ++ "." ++ String.ofList (all.drop whole)

mutual

def renderAt (depth : Nat) : Json → String
  | .null => "null"
  | .bool b => if b then "true" else "false"
  | .number digits places => decimal digits places
  | .string s => quoted s
  | .array [] => "[]"
  | .array (x :: xs) =>
    "[\n" ++ margin (depth + 1) ++ renderAt (depth + 1) x ++ renderItems (depth + 1) xs ++
      "\n" ++ margin depth ++ "]"
  | .object [] => "\x7b\x7d"
  | .object ((k, v) :: fs) =>
    "\x7b\n" ++ margin (depth + 1) ++ quoted k ++ ": " ++ renderAt (depth + 1) v ++ renderFields (depth + 1) fs ++
      "\n" ++ margin depth ++ "\x7d"

def renderItems (depth : Nat) : List Json → String
  | [] => ""
  | x :: xs => ",\n" ++ margin depth ++ renderAt depth x ++ renderItems depth xs

def renderFields (depth : Nat) : List (String × Json) → String
  | [] => ""
  | (k, v) :: fs =>
    ",\n" ++ margin depth ++ quoted k ++ ": " ++ renderAt depth v ++ renderFields depth fs

end

def render (j : Json) : String := renderAt 0 j

end Json

end PuppetDocs
