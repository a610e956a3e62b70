import PuppetDocs.Proofs.Scan.Step
import PuppetDocs.Proofs.Text.Trim

/-
  PuppetDocs.Proofs.Heredoc.Syntax — heredocs as they are written, and what they say.

  A written heredoc has a marker, the lines of its body and the line that closes it. The tag is a
  word, bare or in quotes; behind `-` and `~` the closing line may have blanks around the tag. No
  line of the body closes it, and none ends with a carriage return, which the scanner would drop.
  In a `~` body the blanks at the front of a line are spaces and tabs, so that each is one byte.

  `WrittenHeredoc.value` says what the heredoc is worth by its lines alone.
-/

namespace PuppetDocs.Ruby

open Text (isNameChar isBlank)

/-- What follows `<<` in a marker. -/
inductive HeredocSign where
  | plain | dash | squiggle
  deriving DecidableEq, Repr

def HeredocSign.chars : HeredocSign → List Char
  | plain => []
  | dash => ['-']
  | squiggle => ['~']

/-- The line is the tag, with carriage returns behind it or, where the sign allows them, blanks around it. -/
def HeredocSign.Closes (sign : HeredocSign) (tag line : List Char) : Prop :=
  match sign with
  | .plain => ∃ back, line = tag ++ back ∧ ∀ c ∈ back, c = '\r'
  | _ => ∃ front back, line = front ++ tag ++ back ∧ ∀ c ∈ front ++ back, isBlank c = true

/-- A name stops in front of whatever is no character of one. -/
theorem dropEndWhile_name {p : Char → Bool} {name back : List Char} (hname : ∀ c ∈ name, isNameChar c = true)
    (hp : ∀ c, isNameChar c = true → p c = false) (hback : ∀ c ∈ back, p c = true) :
    Text.dropEndWhile p (name ++ back) = name := by
  rw [Text.dropEndWhile_append hback]
  exact Text.dropEndWhile_of_last fun c hc => hp c (hname c (List.mem_of_getLast? hc))

/-- Whether a line closes a body can be computed from it. -/
theorem HeredocSign.closes_iff {sign : HeredocSign} {tag : List Char} (hne : tag ≠ [])
    (hname : ∀ c ∈ tag, isNameChar c = true) {line : List Char} :
    sign.Closes tag line ↔
      if sign = .plain then Text.dropEndWhile (· == '\r') line = tag else Text.trim line = tag := by
  have hplain : (∃ back, line = tag ++ back ∧ ∀ c ∈ back, c = '\r') ↔ Text.dropEndWhile (· == '\r') line = tag := by
    constructor
    · rintro ⟨back, rfl, hback⟩
      refine dropEndWhile_name hname (fun c hc => ?_) (by simpa using hback)
      rw [beq_eq_false_iff_ne]
      rintro rfl
      cases hc
    · intro htag
      obtain ⟨back, hback, hreturns⟩ := Text.dropEndWhile_split (· == '\r') line
      rw [htag] at hback
      exact ⟨back, hback, by simpa using hreturns⟩
  have hindented := Text.trim_eq_iff hne (fun c hc => Text.isBlank_of_isNameChar (hname c hc)) line
  cases sign with
  | plain => exact hplain
  | dash => exact hindented.symm
  | squiggle => exact hindented.symm

inductive TagQuote where
  | bare | single | double
  deriving DecidableEq, Repr

def TagQuote.marks : TagQuote → List Char
  | bare => []
  | single => ['\'']
  | double => ['"']

structure WrittenHeredoc where
  sign : HeredocSign
  quote : TagQuote
  tag : List Char
  body : List (List Char)
  closing : List Char
  isTag : ∃ c r, tag = c :: r ∧ isVarStart c = true ∧ ∀ d ∈ r, isNameChar d = true
  isBody : ∀ line ∈ body, '\n' ∉ line ∧ line.getLast? ≠ some '\r' ∧ ¬sign.Closes tag line
  isClosing : '\n' ∉ closing ∧ sign.Closes tag closing
  indent : sign = .squiggle → ∀ line ∈ body, ∀ c ∈ line.takeWhile isBlank, c = ' ' ∨ c = '\t'

/-- The number of blanks that all lines with content start with, zero if there are none of these. -/
def margin (body : List (List Char)) : Nat :=
  ((body.filter (!Text.allBlank ·)).map fun line => (line.takeWhile isBlank).length).min?.getD 0

/-- Blank lines have no say in the margin. -/
example : margin ["    a".toList, " ".toList, "\t  b".toList] = 3 := by decide

namespace WrittenHeredoc

variable (h : WrittenHeredoc)

def marker : List Char := '<' :: '<' :: (h.sign.chars ++ (h.quote.marks ++ (h.tag ++ h.quote.marks)))

/-- All lines, the closing one included. -/
def lines : List (List Char) := h.body ++ [h.closing]

/-- The lines of the body without the margin that a `~` body loses. -/
def content : List (List Char) :=
  match h.sign with
  | .squiggle => h.body.map (·.drop (margin h.body))
  | _ => h.body

/-- Each line with a line feed, as it stands or as a double-quoted string says it. -/
def value : StrLit :=
  let text := h.content.flatMap (· ++ ['\n'])
  match h.quote with
  | .single => { value := String.ofList text, interpolated := false }
  | _ => decode (.quote '"' (some '#')) text

/-- The heredoc that the marker opens. -/
def heredoc : Heredoc where
  tag := h.tag
  indented := h.sign ≠ .plain
  squiggly := h.sign = .squiggle
  raw := h.quote = .single

/-! ## The marker -/

theorem tag_name : ∀ c ∈ h.tag, isNameChar c = true := by
  obtain ⟨c, r, htag, hc, hr⟩ := h.isTag
  rw [htag]
  refine List.forall_mem_cons.mpr ⟨?_, hr⟩
  rcases Bool.or_eq_true_iff.mp hc with hc | hc <;> simp [isNameChar, Char.isAlphanum, hc]

theorem tag_ne_nil : h.tag ≠ [] := by
  obtain ⟨c, r, htag, -⟩ := h.isTag
  simp [htag]

theorem ofMarker_marker : Heredoc.ofMarker (h.marker.drop 2) = h.heredoc := by
  have hquote : ∀ q, isNameChar q = false → Text.dropEndWhile (· == q) (h.tag ++ [q]) = h.tag := by
    intro q hq
    refine dropEndWhile_name h.tag_name (fun c hc => ?_) (by simp)
    rw [beq_eq_false_iff_ne]
    rintro rfl
    rw [hq] at hc
    cases hc
  have hsingle := hquote '\'' (by decide)
  have hdouble := hquote '"' (by decide)
  obtain ⟨c, r, htag, hc, -⟩ := h.isTag
  have hapart : c ≠ '~' ∧ c ≠ '-' ∧ c ≠ '\'' ∧ c ≠ '"' := by
    refine ⟨?_, ?_, ?_, ?_⟩ <;> (rintro rfl; revert hc; decide)
  have hmarker : h.marker.drop 2 = h.sign.chars ++ (h.quote.marks ++ (h.tag ++ h.quote.marks)) := rfl
  rw [hmarker]
  unfold heredoc
  cases h.sign <;> cases h.quote <;>
    simp [HeredocSign.chars, TagQuote.marks, Heredoc.ofMarker, hsingle, hdouble]
  all_goals simp [htag, hapart]

/-! ## Lines -/

theorem closes_iff (line : List Char) :
    h.heredoc.closes (Text.dropEndWhile (· == '\r') line) = true ↔ h.sign.Closes h.tag line := by
  rw [HeredocSign.closes_iff h.tag_ne_nil h.tag_name]
  unfold Heredoc.closes heredoc
  cases h.sign with
  | plain => simp
  | dash => simp [Text.trim_dropReturns]
  | squiggle => simp [Text.trim_dropReturns]

theorem closing_ne_nil : h.closing ≠ [] := by
  have hcloses := h.isClosing.2
  unfold HeredocSign.Closes at hcloses
  split at hcloses
  · obtain ⟨back, hclosing, -⟩ := hcloses
    simp [hclosing, h.tag_ne_nil]
  · obtain ⟨front, back, hclosing, -⟩ := hcloses
    simp [hclosing, h.tag_ne_nil]

/-- A physical line with or without its line feed. -/
theorem content_line {line : List Char} (hline : '\n' ∉ line) {feed : List Char} (hfeed : feed = ['\n'] ∨ feed = []) :
    Heredoc.content (line ++ feed) = Text.dropEndWhile (· == '\r') line := by
  rcases hfeed with rfl | rfl
  · simp [Heredoc.content]
  · have hlast : line.getLast? ≠ some '\n' := getLast?_ne_of_not_mem hline
    simp [Heredoc.content, hlast]

end WrittenHeredoc

end PuppetDocs.Ruby
