import PuppetDocs.Proofs.Decl.Chain
import PuppetDocs.Proofs.Formula.Syntax
import Mathlib.Data.List.Forall2

/-
  PuppetDocs.Proofs.Formula.Scan — the tokens of a written formula.

  Behind an operand a blank on either side makes an operator of every sign: a slash that a blank
  follows opens no literal even behind a name, a percent sign opens none in front of a blank, and
  `<<` is no marker there. So the words of a formula are a chain (`Formula.chain`), and its line
  is scanned as these words (`scan_formula`). The one line that is not is the name `__END__`.
-/

namespace PuppetDocs.Ruby

open Decl
open Text (byteLength run)

/-- The text ends here, or one of the characters that may follow an operand comes next. -/
def Ends (more : List Char) : Prop := more = [] ∨ Delimited more

theorem ends_blank (r : List Char) : Ends (' ' :: r) := .inr ⟨' ', r, rfl, by simp⟩

theorem Ends.lexeme {cs more : List Char} {l : Lexeme} (hmore : Ends more) (hne : cs ≠ [])
    (h : ∀ {more}, Delimited more → lexeme? (cs ++ more) = some (l, cs.length)) :
    lexeme? (cs ++ more) = some (l, cs.length) :=
  lexeme?_end ⟨'\n', [], rfl, by simp⟩ hmore hne h

theorem Ends.word {more : List Char} (h : Ends more) : EndsWord more := h.imp id Delimited.endsName

/-! ## Numbers -/

namespace Decimal

variable (d : Decimal) {more : List Char}

theorem chars_head : ∃ c cs, d.chars = c :: cs ∧ c.isDigit = true := by
  obtain ⟨c, ds, hwhole, hc, -⟩ := d.isWhole
  exact ⟨c, ds ++ (d.fraction ++ d.exponent), by rw [chars, hwhole, List.cons_append], hc⟩

theorem exponent_chars : ∀ c ∈ d.exponent, (c.isDigit || ['e', 'E', '+', '-'].contains c) = true := by
  intro c hc
  rcases d.isExponent with he | ⟨e, mark, ds, he, hletter, hmark, -, hds⟩
  · rw [he] at hc
    cases hc
  · rw [he] at hc
    simp only [List.mem_cons, List.mem_append, List.not_mem_nil, or_false] at hc hletter hmark
    rcases hc with rfl | hc | hc
    · rcases hletter with rfl | rfl <;> rfl
    · rcases hmark with rfl | rfl | rfl
      · cases hc
      · rw [List.mem_singleton.mp hc]
        rfl
      · rw [List.mem_singleton.mp hc]
        rfl
    · rw [hds c hc, Bool.true_or]

/-- Blanks and backslashes are no part of a number. -/
theorem chars_apart : ∀ c ∈ d.chars, c ∉ [' ', '\t', '\n', '\r', '\\'] := by
  intro c hc
  rw [chars, List.mem_append, List.mem_append] at hc
  rcases hc with hc | hc | hc
  · obtain ⟨e, ds, hwhole, he, hds⟩ := d.isWhole
    rw [hwhole] at hc
    rcases List.mem_cons.mp hc with rfl | hc
    · exact not_mem_of_holds he (by decide)
    · exact not_mem_of_holds (hds c hc) (by decide)
  · rcases d.isFraction with hnone | ⟨e, ds, hfraction, he, hds⟩
    · rw [hnone] at hc
      cases hc
    · rw [hfraction] at hc
      simp only [List.mem_cons] at hc
      rcases hc with rfl | rfl | hc
      · decide
      · exact not_mem_of_holds he (by decide)
      · exact not_mem_of_holds (hds c hc) (by decide)
  · exact not_mem_of_holds (p := fun c => c.isDigit || ['e', 'E', '+', '-'].contains c) (d.exponent_chars c hc)
      (by decide)

theorem solid : ∃ front c, d.chars = front ++ [c] ∧ c ∉ [' ', '\t', '\n', '\r', '\\'] := by
  obtain ⟨c, cs, hchars, -⟩ := d.chars_head
  exact solid_of_apart (by simp [hchars]) d.chars_apart

/-- What follows the digits of a part starts with no digit, bar or sign of a base. -/
theorem exponent_head (hmore : Delimited more) :
    ∀ c ∈ (d.exponent ++ more).head?, isDigitOrBar c = false ∧ c ∉ ['.', 'x', 'X', 'b', 'B'] := by
  obtain ⟨c, r, rfl, hc⟩ := hmore
  obtain ⟨-, hbar, hapart⟩ := delimiter_apart hc
  rcases d.isExponent with he | ⟨e, mark, ds, he, hletter, -⟩
  · simp only [List.mem_cons, List.not_mem_nil, or_false, not_or] at hapart
    simp [he, hbar, hapart]
  · simp only [List.mem_cons, List.not_mem_nil, or_false] at hletter
    rcases hletter with rfl | rfl <;> simp [he, isDigitOrBar]

theorem fraction_head (hmore : Delimited more) :
    ∀ c ∈ (d.fraction ++ (d.exponent ++ more)).head?, isDigitOrBar c = false ∧ c ∉ ['x', 'X', 'b', 'B'] := by
  rcases d.isFraction with hnone | ⟨e, ds, hfraction, -⟩
  · intro c hc
    rw [hnone, List.nil_append] at hc
    obtain ⟨hbar, hapart⟩ := d.exponent_head hmore c hc
    exact ⟨hbar, fun hmem => hapart (List.mem_cons_of_mem _ hmem)⟩
  · simp [hfraction, isDigitOrBar]

theorem run_whole (hmore : Delimited more) :
    run isDigitOrBar (d.whole ++ (d.fraction ++ (d.exponent ++ more))) = d.whole.length := by
  obtain ⟨c, ds, hwhole, hc, hds⟩ := d.isWhole
  have hall : ∀ e ∈ d.whole, isDigitOrBar e = true := by
    rw [hwhole]
    exact List.forall_mem_cons.mpr ⟨by simp [isDigitOrBar, hc], hds⟩
  exact run_append hall fun e he => (d.fraction_head hmore e he).1

theorem fraction_append (hmore : Delimited more) :
    Ruby.fraction (d.fraction ++ (d.exponent ++ more)) = d.fraction.length := by
  have hhead := d.exponent_head hmore
  rcases d.isFraction with hnone | ⟨e, ds, hfraction, he, hds⟩
  · rw [hnone, List.nil_append]
    unfold Ruby.fraction
    split
    · next r heq => exact absurd (by simp) (hhead '.' (by simp [heq])).2
    · rfl
  · rw [hfraction]
    simp only [List.cons_append, Ruby.fraction, he, if_true]
    rw [run_append hds fun c hc => (hhead c hc).1, List.length_cons, List.length_cons]
    omega

theorem exponent_append (hmore : Delimited more) : Ruby.exponent (d.exponent ++ more) = d.exponent.length := by
  obtain ⟨c, r, rfl, hc⟩ := hmore
  obtain ⟨-, hbar, hapart⟩ := delimiter_apart hc
  simp only [List.mem_cons, List.not_mem_nil, or_false, not_or] at hapart
  rcases d.isExponent with he | ⟨e, mark, ds, he, hletter, hmark, hne, hds⟩
  · simp [he, Ruby.exponent, hapart]
  · have hdigits : run Char.isDigit (ds ++ c :: r) = ds.length := by
      refine run_append hds fun x hx => ?_
      rw [Option.mem_some_iff.mp hx] at hbar
      exact (Bool.or_eq_false_iff.mp hbar).1
    have hpos : ds.length ≠ 0 := by simpa using hne
    have hsign : (e == 'e' || e == 'E') = true := by
      simp only [List.mem_cons, List.not_mem_nil, or_false] at hletter
      rcases hletter with rfl | rfl <;> rfl
    rw [he]
    simp only [List.cons_append, Ruby.exponent, hsign, if_true]
    simp only [List.mem_cons, List.not_mem_nil, or_false] at hmark
    rcases hmark with rfl | rfl | rfl
    · obtain ⟨x, ds, rfl⟩ := List.exists_cons_of_ne_nil hne
      have hx := hds x (by simp)
      have hplus : x ≠ '+' := ne_of_holds hx (by decide)
      have hminus : x ≠ '-' := ne_of_holds hx (by decide)
      simp only [List.cons_append] at hdigits
      simp [hplus, hminus, hdigits]
      omega
    · simp [hdigits, hpos]
      omega
    · simp [hdigits, hpos]
      omega

theorem number_chars (hmore : Delimited more) : number (d.chars ++ more) = d.chars.length := by
  have hchars : d.chars ++ more = d.whole ++ (d.fraction ++ (d.exponent ++ more)) := by simp [chars]
  have hbased : basedNumber (d.whole ++ (d.fraction ++ (d.exponent ++ more))) = 0 := by
    refine basedNumber_zero fun b r heq => ?_
    obtain ⟨c, ds, hwhole, -, hds⟩ := d.isWhole
    rw [hwhole, List.cons_append] at heq
    have hrest := (List.cons.inj heq).2
    cases ds with
    | nil => exact (d.fraction_head hmore b (by rw [← List.nil_append (d.fraction ++ _), hrest]; simp)).2
    | cons e ds =>
      rw [← (List.cons.inj hrest).1]
      exact not_mem_of_holds (hds e (by simp)) (by decide)
  rw [hchars, number_eq]
  simp only [d.run_whole hmore, List.drop_left, d.fraction_append hmore, hbased, Nat.max_zero]
  rw [← List.append_assoc, ← List.length_append, List.drop_left, d.exponent_append hmore]
  simp [chars, Nat.add_assoc]

theorem lexeme?_decimal (hmore : Ends more) :
    lexeme? (d.chars ++ more) = some (.plain .number, d.chars.length) := by
  obtain ⟨c, cs, hchars, hc⟩ := d.chars_head
  refine hmore.lexeme (by simp [hchars]) fun {more} hmore => ?_
  have hnumber := d.number_chars hmore
  rw [hchars, List.cons_append] at hnumber ⊢
  rw [lexeme?_digit hc, hnumber]

end Decimal

/-! ## Words -/

/-- The kinds of the tokens that an operand ends with. -/
def operandEnds : List TokenKind := [.ident, .number, .rparen]

variable {gap more : List Char} {last : Option TokenKind}

theorem follows_number (hgap : ∀ c ∈ gap, c = ' ') (d : Decimal) (hmore : Ends more) (last : Option TokenKind) :
    Word.Follows ⟨gap, .number, d.chars⟩ last more := by
  have hhead : StartsWord gap d.chars := by
    obtain ⟨c, cs, hchars, hc⟩ := d.chars_head
    rw [hchars]
    exact startsWord_cons (not_mem_of_holds hc (by decide)) gap cs
  exact follows_sign hgap hhead d.solid (by decide) (by simp) (d.lexeme?_decimal hmore) last

theorem follows_name (hgap : ∀ c ∈ gap, c = ' ') (m : MethodName) (hmore : Ends more)
    (hdata : gap = [] → isDataMarker (m.chars ++ more) = false) (last : Option TokenKind) :
    Word.Follows ⟨gap, .ident, m.chars⟩ last more := follows_method hgap m hmore.word hdata last

namespace Operator

variable (op : Operator)

theorem text_head : ∃ c r, op.text.toList = c :: r ∧ c ∉ [' ', '\t', '\r', '\x0c', '\\'] := by
  cases op <;> exact ⟨_, _, rfl, by decide⟩

theorem solid : ∃ front c, op.text.toList = front ++ [c] ∧ c ∉ [' ', '\t', '\n', '\r', '\\'] := by
  obtain ⟨c, r, htext, -⟩ := op.text_head
  exact solid_of_apart (by simp [htext]) (by cases op <;> simp [text])

/-- In front of a blank the operator is the longest lexeme, and opens nothing. -/
theorem lexeme?_blank (r : List Char) :
    lexeme? (op.text.toList ++ ' ' :: r) = some (.plain op.kind, op.text.toList.length) := by
  cases op with
  | shiftLeft => cases r <;> rfl
  | _ => rfl

/-- A slash between blanks behind an operand divides. -/
theorem valueMayStart_blank {r : Reading TokenKind} {k : TokenKind} (hlast : r.lastKind? = some k) (hk : k ∈ operandEnds)
    (x : List Char) : valueMayStart r (' ' :: x) = false := by
  simp only [operandEnds, List.mem_cons, List.not_mem_nil, or_false] at hk
  unfold valueMayStart
  rw [hlast]
  rcases hk with rfl | rfl | rfl
  · simp [TokenKind.endsValue]
  · rfl
  · rfl

theorem follows {k : TokenKind} (hk : k ∈ operandEnds) (r : List Char) : op.word.Follows (some k) (' ' :: r) := by
  by_cases hslash : op.kind = .slash
  · have hop : op = divide := by
      revert hslash
      cases op <;> simp [kind]
    subst hop
    refine ⟨by simp [word], ⟨'/', [], rfl, by decide⟩, ⟨[], '/', rfl, by decide⟩, rfl, rfl, ?_⟩
    intro lines s reading gap hlast _
    refine ⟨.plain .slash, 1, rfl, ?_⟩
    have hvalue : valueMayStart reading (' ' :: r) = false := valueMayStart_blank hlast hk r
    have haccept : accept lines s reading gap (divide.word.text ++ ' ' :: r) 1 (.plain .slash) =
        found s reading gap (divide.word.text ++ ' ' :: r) .slash 1 := by
      show (if valueMayStart reading (' ' :: r) then _ else _) = _
      rw [hvalue]
      rfl
    rw [haccept, found, push_eq_add (heredocOf?_of_not_string (by simp [word, kind]))]
    rfl
  · obtain ⟨c, x, htext, hc⟩ := op.text_head
    have hkind : op.kind ∉ [.newline, .constant, .symbol, .slash] := by
      revert hslash
      cases op <;> decide
    have hstring : ∀ v, op.kind ≠ .string v := by cases op <;> simp [kind]
    exact follows_sign (by simp) ⟨c, x, htext, hc, by simp⟩ op.solid hkind hstring (op.lexeme?_blank r) _

end Operator

/-! ## Formulas -/

namespace Formula

variable (e : Formula) {min : Nat} {ws : List Word}

/-- The words of a formula and of what stands behind it are found one after the other; a name that starts a line must not
be the data marker. -/
theorem chain (hgap : ∀ c ∈ gap, c = ' ') (hends : Ends (print ws ++ more))
    (hdata : ∀ m, e = .name m → gap = [] → isDataMarker (m.chars ++ (print ws ++ more)) = false)
    (h : ∀ k ∈ operandEnds, Chain more (some k) ws) : Chain more last (e.words min gap ++ ws) := by
  induction e generalizing min gap last ws with
  | name m => exact .cons (follows_name hgap m hends (hdata m rfl) last) (h _ (by simp [operandEnds]))
  | number d => exact .cons (follows_number hgap d hends last) (h _ (by simp [operandEnds]))
  | binary op lhs rhs ihl ihr =>
    have hplain : ∀ {gap : List Char} {ws : List Word} {last : Option TokenKind}, (∀ c ∈ gap, c = ' ') →
        Ends (print ws ++ more) → (∀ k ∈ operandEnds, Chain more (some k) ws) →
          Chain more last (lhs.words op.leftMin gap ++ op.word :: (rhs.words op.rightMin [' '] ++ ws)) := by
      intro gap ws last hgap hends h
      obtain ⟨kind, text, vs, -, hright⟩ := rhs.words_gap op.rightMin
      have hblank : ∃ r, print (rhs.words op.rightMin [' '] ++ ws) ++ more = ' ' :: r := by
        rw [hright]
        exact ⟨_, rfl⟩
      obtain ⟨r, hr⟩ := hblank
      refine ihl hgap (ends_blank _) (fun m _ _ => method_not_data m (by simp) _) fun k hk => ?_
      refine .cons (by rw [hr]; exact op.follows hk r) (ihr (by simp) hends (by simp) h)
    by_cases hmin : op.strength < min
    · have hopen : Word.Follows ⟨gap, .lparen, ['(']⟩ last
          (print ((binary op lhs rhs).words 0 [] ++ sign .rparen ")" :: ws) ++ more) :=
        follows_sign hgap (startsWord_cons (by decide) _ _) ⟨[], '(', rfl, by decide⟩ (by decide) (by simp) rfl last
      have hclose : ∀ k ∈ operandEnds, Chain more (some k) (sign .rparen ")" :: ws) := by
        intro k _
        refine .cons ?_ (h _ (by simp [operandEnds]))
        exact follows_sign (by simp) (startsWord_cons (by decide) _ _) ⟨[], ')', rfl, by decide⟩ (by decide) (by simp) rfl _
      have hinner : Chain more (some .lparen) ((binary op lhs rhs).words 0 [] ++ sign .rparen ")" :: ws) := by
        rw [words_plain (Nat.not_lt_zero _), List.append_assoc]
        exact hplain (by simp) (.inr ⟨')', _, rfl, by simp⟩) hclose
      rw [words_paren hmin, List.cons_append, List.append_assoc]
      exact .cons hopen hinner
    · rw [words_plain hmin, List.append_assoc]
      exact hplain hgap hends h

theorem words_no_string : ∀ w ∈ e.words min gap, ∀ v, w.kind ≠ .string v := by
  induction e generalizing min gap with
  | name m => simp [words]
  | number d => simp [words]
  | binary op lhs rhs ihl ihr =>
    have hop : ∀ v, op.word.kind ≠ .string v := by cases op <;> simp [Operator.word, Operator.kind]
    rw [words]
    split
    · simp only [List.forall_mem_cons, List.forall_mem_append]
      exact ⟨by simp, ihl, hop, ihr, by simp⟩
    · simp only [List.forall_mem_cons, List.forall_mem_append]
      exact ⟨ihl, hop, ihr⟩

/-- The start of the text counts as a blank in front of the first word. -/
theorem words_spelled (min : Nat) : List.Forall₂ Word.Spells (e.words min [' ']) (placed 0 true (e.words min [])) := by
  obtain ⟨kind, text, ws, -, hwords⟩ := e.words_gap min
  rw [hwords, hwords]
  exact .cons ⟨rfl, rfl, by simp, fun _ => rfl⟩ (placed_spells _ ws)

/-- The scanner behind the words of a formula. -/
def scanned : Scanner where
  reading := {
    behind := e.line.reverse
    offset := byteLength e.line
    tokens := (placed 0 true (e.words 0 [])).reverse }

theorem walk_line (lines : LineIndex) (hends : Ends more)
    (hdata : ∀ m, e = .name m → isDataMarker (m.chars ++ more) = false) :
    walk lines (e.line ++ more) 0 {} = walk lines more 0 e.scanned := by
  have hchain : Chain more none (e.words 0 [] ++ []) :=
    e.chain (by simp) hends (fun m hm _ => hdata m hm) fun _ _ => .nil
  rw [List.append_nil] at hchain
  have hwalk := hchain.walk lines {} rfl
  have hspaced : ({} : Reading TokenKind).afterSpace = true := rfl
  simp only [hspaced, List.append_nil, Nat.zero_add, opened_of_not_string e.words_no_string] at hwalk
  exact hwalk

/-- The line of a formula is scanned as its words, and as a line feed if it ends with one. -/
theorem scan_line {feed : List Word} (hfeed : feed = [] ∨ feed = [Decl.newline])
    (hdata : ∀ m, e = .name m → isDataMarker (m.chars ++ print feed) = false) :
    ∃ s, scan (e.line ++ print feed) = .ok s ∧ s.comments = [] ∧ s.stop.kind = .eof ∧
      List.Forall₂ Word.Spells (e.words 0 [' '] ++ feed) s.tokens := by
  have hends : Ends (print feed) := by
    rcases hfeed with rfl | rfl
    · exact .inl rfl
    · exact .inr ⟨'\n', [], rfl, by simp⟩
  have hwalk := e.walk_line (.ofText (e.line ++ print feed)) hends hdata
  obtain ⟨s, hfed, hpending, hcomments, htokens⟩ : ∃ s, walk (.ofText (e.line ++ print feed)) (print feed) 0 e.scanned =
      .ok s ∧ s.pending = [] ∧ s.reading.comments = [] ∧
      List.Forall₂ Word.Spells (e.words 0 [' '] ++ feed) s.reading.tokens.reverse := by
    rcases hfeed with rfl | rfl
    · refine ⟨e.scanned, rfl, rfl, rfl, ?_⟩
      rw [List.append_nil, scanned, List.reverse_reverse]
      exact e.words_spelled 0
    · have hstands : Decl.newline.Stands [] :=
        stands_of_head (by simp) (startsWord_cons (by decide) _ _) (reads_newline _)
      refine ⟨_, walk_stands hstands rfl, rfl, rfl, ?_⟩
      have hfeed : Decl.newline.Spells ((e.scanned.reading.skip []).token .newline ['\n']) :=
        ⟨rfl, rfl, by simp, by simp⟩
      have htokens := List.rel_append (e.words_spelled 0) (.cons hfeed .nil)
      simpa [scanned, Scanner.add] using htokens
  obtain ⟨found, hscan, hremarks, hstop, hfound⟩ := scan_of_walk (hwalk.trans hfed) hpending
  refine ⟨found, hscan, ?_, hstop, ?_⟩
  · rw [hremarks, hcomments]
    rfl
  · rw [hfound]
    exact htokens

end Formula

end PuppetDocs.Ruby
