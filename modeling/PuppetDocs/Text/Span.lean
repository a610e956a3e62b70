/-
  PuppetDocs.Text.Span — half-open byte ranges of a text and the lines they fall on.

  An offset counts bytes of the UTF-8 form, so a character is `c.utf8Size` wide. `cut? n`
  splits a text after `n` bytes and exists only on a character boundary; `Span.slice?`
  exists only if both ends are boundaries in order. A `LineIndex` holds the offset at which
  each line starts. The line of an offset is the number of starts that do not lie after it
  (lines count from 1); its column is the distance from that start (columns count from 0).
-/

namespace PuppetDocs

structure Span where
  start : Nat
  stop : Nat
  deriving DecidableEq, Repr, Inhabited

namespace Span

def length (s : Span) : Nat := s.stop - s.start

def isEmpty (s : Span) : Bool := s.start == s.stop

/-- The smallest span that covers both. -/
def merge (a b : Span) : Span := ⟨min a.start b.start, max a.stop b.stop⟩

end Span

namespace Text

def byteLength : List Char → Nat
  | [] => 0
  | c :: cs => c.utf8Size + byteLength cs

@[simp] theorem byteLength_nil : byteLength [] = 0 := rfl

@[simp] theorem byteLength_cons (c : Char) (cs : List Char) :
    byteLength (c :: cs) = c.utf8Size + byteLength cs := rfl

@[simp] theorem byteLength_append (a b : List Char) : byteLength (a ++ b) = byteLength a + byteLength b := by
  induction a with
  | nil => simp
  | cons c a ih => simp [ih, Nat.add_assoc]

/-- The first `n` bytes and the rest, if a character ends there. -/
def cut? : Nat → List Char → Option (List Char × List Char)
  | 0, cs => some ([], cs)
  | _ + 1, [] => none
  | n + 1, c :: cs =>
    if c.utf8Size ≤ n + 1 then (cut? (n + 1 - c.utf8Size) cs).map fun (a, b) => (c :: a, b) else none

theorem append_eq_of_cut? {n : Nat} {cs a b : List Char} (h : cut? n cs = some (a, b)) :
    a ++ b = cs ∧ byteLength a = n := by
  fun_induction cut? n cs generalizing a b with
  | case1 => simp_all
  | case2 => simp at h
  | case3 n c cs hc ih =>
    obtain ⟨⟨x, y⟩, hxy, he⟩ := Option.map_eq_some_iff.1 h
    obtain ⟨rfl, rfl⟩ := Prod.mk.inj he
    obtain ⟨h1, h2⟩ := ih hxy
    exact ⟨by simp [h1], by simp only [byteLength_cons, h2]; omega⟩
  | case4 => simp at h

end Text

/-- The characters of `cs` that `s` covers, if its ends are in order and on boundaries. -/
def Span.slice? (s : Span) (cs : List Char) : Option (List Char) :=
  if s.start ≤ s.stop then do
    let (_, tail) ← Text.cut? s.start cs
    let (inside, _) ← Text.cut? s.length tail
    return inside
  else none

def Span.slice (s : Span) (cs : List Char) : List Char := (s.slice? cs).getD []

/-! ## Lines -/

structure LineIndex where
  starts : List Nat
  deriving DecidableEq, Repr

namespace LineIndex

/-- The offsets behind the line feeds of a text that itself starts at `offset`. -/
def startsFrom (offset : Nat) : List Char → List Nat
  | [] => []
  | c :: cs =>
    let next := offset + c.utf8Size
    if c = '\n' then next :: startsFrom next cs else startsFrom next cs

def ofText (cs : List Char) : LineIndex := ⟨0 :: startsFrom 0 cs⟩

def line (x : LineIndex) (offset : Nat) : Nat := x.starts.countP (· ≤ offset)

def lineStart? (x : LineIndex) : Nat → Option Nat
  | 0 => none
  | l + 1 => x.starts[l]?

/-- The line of an offset and its column there. -/
def lineColumn (x : LineIndex) (offset : Nat) : Nat × Nat :=
  let l := x.line offset
  (l, offset - (x.lineStart? l).getD 0)

def lineCount (x : LineIndex) : Nat := x.starts.length

end LineIndex

end PuppetDocs
