import PuppetDocs.Text.Blank

/-
  PuppetDocs.Text.Lines — a text as lines.

  `physicalLines` cuts behind every line feed, so that its pieces in a row are the text.
  `lines` leaves the endings out: it splits at line feeds, drops one carriage return in front
  of each, and a line feed at the very end opens no further line.
-/

namespace PuppetDocs.Text

/-- The width of the line that `cs` starts with, its line feed included. -/
def lineWidth : List Char → Nat
  | [] => 0
  | c :: r => if c == '\n' then 1 else 1 + lineWidth r

def physicalLines : List Char → List (List Char)
  | [] => []
  | c :: r =>
    if c == '\n' then ['\n'] :: physicalLines r
    else match physicalLines r with
      | [] => [[c]]
      | line :: rest => (c :: line) :: rest

theorem flatten_physicalLines (cs : List Char) : (physicalLines cs).flatten = cs := by
  induction cs with
  | nil => rfl
  | cons c r ih =>
    rw [physicalLines]
    split
    · simp_all
    · split
      · next h => rw [h] at ih; simp_all
      · next h => rw [h] at ih; simp_all

def dropOneReturn (line : List Char) : List Char :=
  match line.reverse with
  | '\r' :: r => r.reverse
  | _ => line

def lines (cs : List Char) : List (List Char) :=
  let pieces := splitBy (· = '\n') cs
  let ended := pieces.dropLast.map dropOneReturn
  match pieces.getLast? with
  | some [] => ended
  | some last => ended ++ [last]
  | none => ended

def joinLines (ls : List (List Char)) : List Char := List.intercalate ['\n'] ls

end PuppetDocs.Text
