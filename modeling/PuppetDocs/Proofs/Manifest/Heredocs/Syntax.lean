import PuppetDocs.Proofs.Manifest.Bodies
import PuppetDocs.Proofs.Manifest.Outline.Syntax
import PuppetDocs.Proofs.Text.Lines
import PuppetDocs.Proofs.Text.Trim

/-
  PuppetDocs.Proofs.Manifest.Heredocs.Syntax — calls with heredocs as their arguments.

  The heredocs of a call are opened on its line, one behind the other, and their bodies stand
  below it in the same order. The lines of a body are any but those that close it. What closes it
  is a line with the tag, behind `|` or `|-` or alone; blanks may stand in front. Only the last
  closing line of a text may lack its line feed.
-/

namespace PuppetDocs.Manifest

open Outline (Word sign)
open Ruby (IsLine)
open Text (byteLength isBlank isNameChar)

/-- What stands in front of the tag in a closing line. -/
inductive ClosingMark where
  | bare | bar | chomp
  deriving DecidableEq, Repr

def ClosingMark.chars : ClosingMark → List Char
  | bare => []
  | bar => ['|', ' ']
  | chomp => ['|', '-', ' ']

structure WrittenHeredoc where
  tag : List Char
  body : List (List Char)
  indent : List Char
  mark : ClosingMark
  isTag : tag ≠ [] ∧ ∀ c ∈ tag, isNameChar c = true
  isBody : ∀ line ∈ body, '\n' ∉ line ∧ marker line ≠ tag
  isIndent : ∀ c ∈ indent, c = ' ' ∨ c = '\t'

namespace WrittenHeredoc

variable (h : WrittenHeredoc)

def closing : List Char := h.indent ++ (h.mark.chars ++ h.tag)

/-- The lines of the body and the closing line, which `feed` ends. -/
def text (feed : List Char) : List Char := h.body.flatMap (· ++ ['\n']) ++ (h.closing ++ feed)

/-- The heredoc without the lines of its body. -/
def emptied : WrittenHeredoc := { h with body := [], isBody := by simp }

def word (gap : List Char) : Word := ⟨gap, .string, headerText h.tag⟩

end WrittenHeredoc

/-- The texts of the heredocs, one below the other; `feed` ends the last line. -/
def bodyTexts : List WrittenHeredoc → List Char → List (List Char)
  | [], _ => []
  | [h], feed => [h.text feed]
  | h :: k :: hs, feed => h.text ['\n'] :: bodyTexts (k :: hs) feed

/-- The line `$v = f(…)` with a heredoc for each argument. -/
structure HeredocCall where
  target : Outline.VariableName
  function : Outline.Name
  first : WrittenHeredoc
  others : List WrittenHeredoc

/-- The arguments behind the first. -/
def further (hs : List WrittenHeredoc) : List Word := hs.flatMap fun h => [sign .comma ",", h.word [' ']]

namespace HeredocCall

variable (c : HeredocCall)

def heredocs : List WrittenHeredoc := c.first :: c.others

/-- The words up to the parenthesis that opens the arguments. -/
def opening : List Word :=
  [⟨[], .variable, '$' :: c.target.chars⟩, ⟨[' '], .assign, ['=']⟩, ⟨[' '], .name, c.function.chars⟩, sign .lparen "("]

def words : List Word := c.opening ++ (c.first.word [] :: further c.others ++ [sign .rparen ")"])

/-- The words of the call without arguments. -/
def bareWords : List Word := c.opening ++ [sign .rparen ")"]

/-- The line of the call, the lines of its heredocs and what remains. -/
def text (rest : Remainder) : List Char :=
  Outline.chars c.words ++ '\n' :: ((bodyTexts c.heredocs rest.feed).flatten ++ rest.text)

def emptied : HeredocCall := { c with first := c.first.emptied, others := c.others.map WrittenHeredoc.emptied }

end HeredocCall

/-! ## Closing lines -/

/-- Blanks at the end of a line do not matter to what it closes. -/
theorem marker_feed (line : List Char) : marker (line ++ ['\n']) = marker line := by
  rw [marker, marker, Text.trim_append (by simp [isBlank])]

namespace WrittenHeredoc

variable (h : WrittenHeredoc)

theorem closing_line : '\n' ∉ h.closing := by
  intro hmem
  simp only [closing, List.mem_append] at hmem
  rcases hmem with hmem | hmem | hmem
  · rcases h.isIndent _ hmem with he | he <;> cases he
  · revert hmem
    cases h.mark <;> decide
  · have hname := h.isTag.2 _ hmem
    revert hname
    decide

/-- Nothing but the tag is left of a closing line. -/
theorem marker_closing : marker h.closing = h.tag := by
  obtain ⟨c, r, htag⟩ := List.exists_cons_of_ne_nil h.isTag.1
  have hname : ∀ d ∈ c :: r, isNameChar d = true := htag ▸ h.isTag.2
  have hc : isNameChar c = true := hname c (by simp)
  have hsolid : isBlank c = false := Text.isBlank_of_isNameChar hc
  have hapart : c ≠ '|' ∧ c ≠ '-' := by
    constructor <;> (rintro rfl; revert hc; decide)
  have hstart : Text.trimStart (c :: r) = c :: r := Text.trimStart_append (g := []) (by simp) hsolid r
  have hspace : Text.trimStart (' ' :: c :: r) = c :: r := Text.trimStart_append (g := [' ']) (by simp [isBlank]) hsolid r
  have hdash : Text.trimStart ('-' :: ' ' :: c :: r) = '-' :: ' ' :: c :: r := Text.trimStart_append (g := []) (by simp) rfl _
  have hend : ∀ front : List Char, Text.trimEnd (front ++ c :: r) = front ++ c :: r := by
    intro front
    refine Text.dropEndWhile_of_last fun d hd => ?_
    rw [List.getLast?_append_of_ne_nil _ (by simp)] at hd
    exact Text.isBlank_of_isNameChar (hname d (List.mem_of_getLast? hd))
  have hindent : ∀ d ∈ h.indent, isBlank d = true := by
    intro d hd
    rcases h.isIndent d hd with rfl | rfl <;> rfl
  have htrim : Text.trim h.closing = h.mark.chars ++ c :: r := by
    rw [closing, htag, Text.trim]
    cases h.mark with
    | bare => rw [ClosingMark.chars, List.nil_append, Text.trimStart_append hindent hsolid, ← List.nil_append (c :: r), hend]
    | bar => rw [ClosingMark.chars, List.cons_append, Text.trimStart_append hindent rfl, ← List.cons_append, hend]
    | chomp => rw [ClosingMark.chars, List.cons_append, Text.trimStart_append hindent rfl, ← List.cons_append, hend]
  rw [marker, htrim, htag]
  cases h.mark <;> simp [ClosingMark.chars, hapart, hstart, hspace, hdash]

/-- The lines of a heredoc are what its tag closes. -/
theorem text_body {feed below : List Char} (hfeed : feed = ['\n'] ∨ feed = [] ∧ below = []) :
    Body h.tag (h.text feed) below := by
  unfold text
  have hlines := h.isBody
  generalize h.body = lines at hlines
  induction lines with
  | nil =>
    refine .close ⟨h.closing, h.closing_line, ?_⟩ ?_ ?_
    · rcases hfeed with rfl | ⟨rfl, hbelow⟩
      · exact .inl rfl
      · exact .inr ⟨by simp, hbelow⟩
    · simp [closing, h.isTag.1]
    · rcases hfeed with rfl | ⟨rfl, -⟩
      · exact (marker_feed h.closing).trans h.marker_closing
      · simpa using h.marker_closing
  | cons line lines ih =>
    obtain ⟨hline, hopen⟩ := hlines line (by simp)
    rw [List.flatMap_cons, List.append_assoc]
    refine .line ⟨line, hline, .inl rfl⟩ ?_ (ih fun l hl => hlines l (by simp [hl]))
    rw [marker_feed]
    exact hopen

/-- The tag keeps the lines of a heredoc from being blanks only. -/
theorem text_solid (feed : List Char) : ¬∀ c ∈ h.text feed, isGap c = true := by
  intro hblank
  obtain ⟨c, hc⟩ := List.exists_mem_of_ne_nil _ h.isTag.1
  have hname := h.isTag.2 c hc
  have hgap := hblank c (by simp [text, closing, hc])
  simp only [isGap, Bool.or_eq_true, beq_iff_eq] at hgap
  rcases hgap with (((rfl | rfl) | rfl) | rfl) | rfl <;> cases hname

theorem word_line {gap : List Char} (hgap : '\n' ∉ gap) : '\n' ∉ (h.word gap).chars := by
  have htag : '\n' ∉ h.tag := fun hmem => absurd (h.isTag.2 _ hmem) (by decide)
  simp [word, Word.chars, headerText, hgap, htag]

end WrittenHeredoc

/-- Below the text of a heredoc stand the texts of those behind it. -/
theorem bodyTexts_cons (h : WrittenHeredoc) (hs : List WrittenHeredoc) {feed below : List Char}
    (hfeed : feed = ['\n'] ∨ feed = [] ∧ below = []) :
    ∃ body, bodyTexts (h :: hs) feed = body :: bodyTexts hs feed ∧
      Body h.tag body ((bodyTexts hs feed).flatten ++ below) ∧ ¬∀ c ∈ body, isGap c = true := by
  cases hs with
  | nil => exact ⟨h.text feed, rfl, h.text_body hfeed, h.text_solid feed⟩
  | cons k hs => exact ⟨h.text ['\n'], rfl, h.text_body (.inl rfl), h.text_solid ['\n']⟩

theorem bodyTexts_solid {hs : List WrittenHeredoc} {feed body : List Char} (hbody : body ∈ bodyTexts hs feed) :
    ¬∀ c ∈ body, isGap c = true := by
  fun_induction bodyTexts hs feed with
  | case1 => cases hbody
  | case2 h =>
    rw [List.mem_singleton.mp hbody]
    exact h.text_solid _
  | case3 h k hs feed ih =>
    rcases List.mem_cons.mp hbody with rfl | hbody
    · exact h.text_solid _
    · exact ih hbody

end PuppetDocs.Manifest
