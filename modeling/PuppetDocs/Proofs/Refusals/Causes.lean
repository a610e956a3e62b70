import PuppetDocs.Proofs.Heredoc.Syntax
import PuppetDocs.Proofs.Manifest.Step
import PuppetDocs.Proofs.Source.Ends
import PuppetDocs.Proofs.Text.Position
import PuppetDocs.Source.Tree

/-
  PuppetDocs.Proofs.Refusals.Causes — what a fault says of the text behind the place it is reported at.

  A fault about a token is reported in front of that token, a fault about a literal, a comment or
  a heredoc in front of what opens it (`Fault.Shows`). A syntax error counts in lines and columns;
  it points at a place between two characters of the text if its line exists and the place is its
  column behind the start of that line (`SyntaxError.Points`). `Refuses` says the same of a
  failure while the offset is still at hand, and `Refuses.points` makes the step from one to the
  other for every text.
-/

namespace PuppetDocs

open Text (byteLength isNameChar)

/-! ## Openings -/

/-- What a string literal is opened by. -/
inductive StringOpening : Grammar → List Char → Prop
  | quote {grammar : Grammar} {q : Char} : q = '\'' ∨ q = '"' → StringOpening grammar [q]
  | backtick : StringOpening .ruby ['\x60']
  | symbol {q : Char} : q = '\'' ∨ q = '"' → StringOpening .ruby [':', q]
  | percent {d : Char} : Ruby.isPercentDelimiter d = true → StringOpening .ruby ['%', d]
  | flavoured {f d : Char} : Ruby.isPercentFlavour f = true → Ruby.isPercentDelimiter d = true →
      StringOpening .ruby ['%', f, d]

/-- What a comment over several lines is opened by. -/
def commentOpening : Grammar → List Char
  | .ruby => "=begin".toList
  | .puppet => "/*".toList

/-- The text begins with a marker that names the tag. A bare tag ends with the name that it is; in the header of a
manifest the tag may have blanks and double quotes around it, and options behind a colon or a slash. -/
inductive HeredocOpening (tag : List Char) : Grammar → List Char → Prop
  | bare {sign : Ruby.HeredocSign} {after : List Char} : (∃ c ∈ tag.head?, Ruby.isVarStart c = true) →
      (∀ c ∈ tag, isNameChar c = true) → (∀ c ∈ after.head?, isNameChar c = false) →
      HeredocOpening tag .ruby ('<' :: '<' :: (sign.chars ++ (tag ++ after)))
  | quoted {sign : Ruby.HeredocSign} {q : Char} {after : List Char} : q = '\'' ∨ q = '"' → tag ≠ [] → q ∉ tag →
      '\n' ∉ tag → HeredocOpening tag .ruby ('<' :: '<' :: (sign.chars ++ (q :: (tag ++ q :: after))))
  | header {inside lead opening closing trail options after : List Char} :
      inside = lead ++ (opening ++ (tag ++ (closing ++ (trail ++ options)))) → '\n' ∉ inside →
      Text.allBlank lead = true → Text.allBlank trail = true → (∀ c ∈ opening ++ closing, c = '"') →
      (∀ c ∈ tag, c ≠ ':' ∧ c ≠ '/') → (∀ c ∈ options.head?, c = ':' ∨ c = '/') →
      HeredocOpening tag .puppet (Manifest.headerText inside ++ after)

/-! ## Faults -/

/-- `rest` begins with what the fault is about. -/
def Fault.Shows (grammar : Grammar) (rest : List Char) : Fault → Prop
  | .unterminatedString => ∃ opening, StringOpening grammar opening ∧ opening <+: rest
  | .unterminatedHeredoc tag => HeredocOpening tag.toList grammar rest
  | .unterminatedRegex => ['/'] <+: rest
  | .unterminatedComment => commentOpening grammar <+: rest
  | .unexpectedEnd _ => True
  | .unexpected found _ => found.toList <+: rest
  | .unbalanced lexeme => lexeme.toList <+: rest

/-- A token is blamed where it stands. -/
theorem Fault.Blames.shows {κ : Type} {fault : Fault} {t : Token κ} (h : fault.Blames t) {grammar : Grammar}
    {rest : List Char} (ht : t.text.toList <+: rest) : fault.Shows grammar rest := by
  cases fault with
  | unexpectedEnd expected => trivial
  | unexpected found expected =>
    obtain rfl : found = t.text := h
    exact ht
  | unbalanced lexeme =>
    obtain rfl : lexeme = t.text := h
    exact ht
  | unterminatedString | unterminatedHeredoc | unterminatedRegex | unterminatedComment => exact h.elim

theorem shows_string {grammar : Grammar} {opening : List Char} (h : StringOpening grammar opening) (r : List Char) :
    Fault.unterminatedString.Shows grammar (opening ++ r) := ⟨opening, h, List.prefix_append opening r⟩

/-! ## Places -/

/-- The line of the error exists, its column behind the start of the line is a place between two characters of the
text, and what stands there shows the fault. -/
def SyntaxError.Points (e : SyntaxError) (grammar : Grammar) (text : List Char) : Prop :=
  ∃ before rest start, text = before ++ rest ∧ (LineIndex.ofText text).lineStart? e.line = some start ∧
    start + e.column = byteLength before ∧ e.fault.Shows grammar rest

/-- The failure is a fault that the text shows at the place it is reported at. -/
def Refuses (grammar : Grammar) (lines : LineIndex) (text : List Char) (e : ParseFailure) : Prop :=
  ∃ (fault : Fault) (before rest : List Char), text = before ++ rest ∧ fault.Shows grammar rest ∧
    e = .rejected (fault.at lines (byteLength before))

/-- The line of a place starts there or in front of it. -/
theorem LineIndex.lineStart?_line (before rest : List Char) :
    ∃ start, (ofText (before ++ rest)).lineStart? ((ofText (before ++ rest)).line (byteLength before)) = some start ∧
      start ≤ byteLength before := by
  have hlength : (0 :: startsFrom 0 before).length = before.count '\n' + 1 := by
    rw [List.length_cons, startsFrom_length]
  have hstarts : (ofText (before ++ rest)).starts =
      (0 :: startsFrom 0 before) ++ startsFrom (0 + byteLength before) rest := by
    rw [ofText, startsFrom_append, List.cons_append]
  obtain ⟨start, hstart⟩ : ∃ start, (0 :: startsFrom 0 before)[before.count '\n']? = some start :=
    ⟨_, List.getElem?_eq_getElem (by omega)⟩
  refine ⟨start, ?_, ?_⟩
  · rw [line_eq_count, lineStart?, hstarts, List.getElem?_append_left (by omega)]
    exact hstart
  · rcases List.mem_cons.mp (List.mem_of_getElem? hstart) with rfl | hmem
    · exact Nat.zero_le _
    · have := startsFrom_bounds hmem
      omega

/-- The way from an offset to a line and a column loses nothing. -/
theorem Fault.at_points {fault : Fault} {grammar : Grammar} {before rest : List Char} (h : fault.Shows grammar rest) :
    (fault.at (.ofText (before ++ rest)) (byteLength before)).Points grammar (before ++ rest) := by
  obtain ⟨start, hstart, hle⟩ := LineIndex.lineStart?_line before rest
  refine ⟨before, rest, start, rfl, hstart, ?_, h⟩
  show start + (byteLength before - (((LineIndex.ofText (before ++ rest)).lineStart? _).getD 0)) = byteLength before
  rw [hstart, Option.getD_some]
  omega

theorem Refuses.points {grammar : Grammar} {text : List Char} {e : ParseFailure}
    (h : Refuses grammar (.ofText text) text e) : e.toSyntaxError.Points grammar text := by
  obtain ⟨fault, before, rest, rfl, hshows, rfl⟩ := h
  exact Fault.at_points hshows

/-- A reader that has failed itself reports the start of the text. -/
theorem points_start (grammar : Grammar) (text : List Char) (expected : String) :
    (SyntaxError.mk (.unexpectedEnd expected) 1 0).Points grammar text :=
  ⟨[], text, 0, rfl, rfl, rfl, trivial⟩

/-- What is reported of a failure points at a place as long as every fault does. -/
theorem ParseFailure.points {grammar : Grammar} {text : List Char} {e : ParseFailure}
    (h : ∀ x, e = .rejected x → Refuses grammar (.ofText text) text e) : e.toSyntaxError.Points grammar text := by
  cases e with
  | rejected x => exact (h x rfl).points
  | exhausted | outOfText => exact points_start grammar text "expression"

end PuppetDocs
