import PuppetDocs.Proofs.Decl.Quotes
import PuppetDocs.Proofs.Scan.Step

/-
  PuppetDocs.Proofs.Decl.Words — each word of a written program is read as its token.

  A name ends where `EndsName` holds of what follows, a symbol or a numeral where `Delimited`
  does; a string and most signs end by themselves. `Word.Reads` says that the scanner reads
  the characters of a word as a token of its kind when `more` stands behind them, whatever the
  scanner has read before.
-/

namespace PuppetDocs.Ruby.Decl

open Text (run isNameChar)

/-! ## Where a word ends -/

/-- A name ends here, and no colon makes it a key. -/
def EndsName (more : List Char) : Prop :=
  ∃ c r, more = c :: r ∧ isNameChar c = false ∧ c ≠ '?' ∧ c ≠ '!' ∧ (c = ':' → ∃ r', r = ':' :: r')

/-- One of the characters that follow an argument in a written program comes next. -/
def Delimited (more : List Char) : Prop :=
  ∃ c r, more = c :: r ∧ c ∈ [',', ')', ']', '\x7d', ' ', '\n']

theorem delimiter_apart {c : Char} (h : c ∈ [',', ')', ']', '\x7d', ' ', '\n']) :
    isNameChar c = false ∧ isDigitOrBar c = false ∧ c ∉ ['?', '!', ':', '=', '.', 'e', 'E', 'x', 'X', 'b', 'B'] := by
  simp only [List.mem_cons, List.not_mem_nil, or_false] at h
  rcases h with rfl | rfl | rfl | rfl | rfl | rfl <;> decide

theorem Delimited.endsName {more : List Char} (h : Delimited more) : EndsName more := by
  obtain ⟨c, r, rfl, hc⟩ := h
  obtain ⟨hname, -, hmarks⟩ := delimiter_apart hc
  simp only [List.mem_cons, List.not_mem_nil, or_false, not_or] at hmarks
  obtain ⟨hquestion, hbang, hcolon, -⟩ := hmarks
  exact ⟨c, r, rfl, hname, hquestion, hbang, fun he => absurd he hcolon⟩

theorem endsName_cons {c : Char} (hname : isNameChar c = false) (hc : c ∉ ['?', '!', ':']) (r : List Char) :
    EndsName (c :: r) := by
  simp only [List.mem_cons, List.not_mem_nil, or_false, not_or] at hc
  exact ⟨c, r, rfl, hname, hc.1, hc.2.1, fun he => absurd he hc.2.2⟩

theorem endsName_colons (r : List Char) : EndsName (':' :: ':' :: r) :=
  ⟨':', ':' :: r, rfl, by decide, by decide, by decide, fun _ => ⟨r, rfl⟩⟩

/-! ## Names and numerals -/

/-- A character of a class is none outside of it. -/
theorem ne_of_holds {p : Char → Bool} {c d : Char} (h : p c = true) (hd : p d = false) : c ≠ d := by
  intro he
  rw [he, hd] at h
  cases h

theorem not_mem_of_holds {p : Char → Bool} {c : Char} {ds : List Char} (h : p c = true)
    (hds : ds.all (fun d => !p d) = true) : c ∉ ds := by
  intro hmem
  have hc := List.all_eq_true.mp hds c hmem
  simp [h] at hc

theorem isNameChar_of_isNameStart {c : Char} (h : isNameStart c = true) : isNameChar c = true := by
  rcases Bool.or_eq_true_iff.mp h with h | h
  · have hletter : c.isAlpha = true := Bool.or_eq_true_iff.mpr (.inr h)
    simp [isNameChar, Char.isAlphanum, hletter]
  · simp [isNameChar, h]

theorem MethodName.ne_nil (m : MethodName) : m.chars ≠ [] := by
  obtain ⟨c, body, mark, hchars, -⟩ := m.isName
  simp [hchars]

/-- No character of a method name is a blank, a backslash or a parenthesis. -/
theorem MethodName.chars_apart (m : MethodName) : ∀ d ∈ m.chars, d ∉ ['(', ' ', '\t', '\n', '\r', '\\'] := by
  obtain ⟨c, body, mark, hchars, hc, hbody, hmark⟩ := m.isName
  intro d hd
  rw [hchars] at hd
  simp only [List.mem_cons, List.mem_append] at hd
  rcases hd with rfl | hd | hd
  · exact not_mem_of_holds (isNameChar_of_isNameStart hc) (by decide)
  · exact not_mem_of_holds (hbody d hd) (by decide)
  · rcases hmark with rfl | rfl | rfl
    · cases hd
    · rw [List.mem_singleton.mp hd]
      decide
    · rw [List.mem_singleton.mp hd]
      decide

/-- A run goes through characters that satisfy `p` and stops at the first that does not. -/
theorem run_append {p : Char → Bool} {body : List Char} (h : ∀ d ∈ body, p d = true) {more : List Char}
    (hmore : ∀ c ∈ more.head?, p c = false) : run p (body ++ more) = body.length := by
  rw [run, List.takeWhile_append_of_pos h, List.length_append]
  cases more with
  | nil => rfl
  | cons c r => rw [List.takeWhile_cons_of_neg (by simp [hmore c rfl]), List.length_nil, Nat.add_zero]

/-- The tail of a name is read to its end. -/
theorem nameTail_append {body mark more : List Char} (hbody : ∀ d ∈ body, isNameChar d = true)
    (hmark : mark = [] ∨ mark = ['?'] ∨ mark = ['!']) (hmore : EndsName more) :
    nameTail (body ++ mark ++ more) = body.length + mark.length := by
  obtain ⟨c, r, rfl, hc, hquestion, hbang, -⟩ := hmore
  have hrun : run isNameChar (body ++ (mark ++ c :: r)) = body.length := by
    refine run_append hbody ?_
    rcases hmark with rfl | rfl | rfl
    · simpa using hc
    · simp [isNameChar]
    · simp [isNameChar]
  rw [List.append_assoc, nameTail, hrun, List.drop_left]
  rcases hmark with rfl | rfl | rfl
  · simp [hquestion, hbang]
  · rfl
  · rfl

theorem lexeme?_name {cs more : List Char} (h : IsName isNameStart cs) (hmore : EndsName more) :
    lexeme? (cs ++ more) = some (.word, cs.length) := by
  obtain ⟨c, body, mark, rfl, hc, hbody, hmark⟩ := h
  have hnl : c ≠ '\n' := ne_of_holds hc (by decide)
  have hhash : c ≠ '#' := ne_of_holds hc (by decide)
  rw [List.cons_append, lexeme?_cons, if_neg (by simpa using hnl), if_neg (by simpa using hhash), if_pos hc,
    nameTail_append hbody hmark hmore, List.length_cons, List.length_append, Nat.add_comm]

theorem isNameStart_of_isUpper {c : Char} (h : c.isUpper = true) : isNameStart c = false := by
  have hbar : c ≠ '_' := ne_of_holds h (by decide)
  have hlower : c.isLower = false := by
    delta Char.isUpper at h
    delta Char.isLower
    simp only [ge_iff_le, Bool.and_eq_false_iff, decide_eq_true_eq,
      decide_eq_false_iff_not, UInt32.le_iff_toNat_le] at h ⊢
    simp at h ⊢
    omega
  simp [isNameStart, hlower, hbar]

theorem isDigit_apart {c : Char} (h : c.isDigit = true) : isNameStart c = false ∧ c.isUpper = false := by
  have hbar : c ≠ '_' := ne_of_holds h (by decide)
  have hletter : c.isLower = false ∧ c.isUpper = false := by
    delta Char.isDigit at h
    delta Char.isUpper Char.isLower
    simp only [ge_iff_le, Bool.and_eq_true, Bool.and_eq_false_iff,
      decide_eq_true_eq, decide_eq_false_iff_not, UInt32.le_iff_toNat_le] at h ⊢
    simp at h ⊢
    omega
  exact ⟨by simp [isNameStart, hletter.1, hbar], hletter.2⟩

theorem lexeme?_const {cs more : List Char}
    (h : ∃ c body, cs = c :: body ∧ c.isUpper = true ∧ ∀ d ∈ body, isNameChar d = true) (hmore : EndsName more) :
    lexeme? (cs ++ more) = some (.plain .constant, cs.length) := by
  obtain ⟨c, body, rfl, hc, hbody⟩ := h
  obtain ⟨d, r, rfl, hd, -⟩ := hmore
  have hnl : c ≠ '\n' := ne_of_holds hc (by decide)
  have hhash : c ≠ '#' := ne_of_holds hc (by decide)
  rw [List.cons_append, lexeme?_cons, if_neg (by simpa using hnl), if_neg (by simpa using hhash),
    if_neg (by simp [isNameStart_of_isUpper hc]), if_pos hc, run_append hbody (by simpa using hd), List.length_cons,
    Nat.add_comm]

theorem basedNumber_zero {cs : List Char} (h : ∀ b r, cs = '0' :: b :: r → b ∉ ['x', 'X', 'b', 'B']) :
    basedNumber cs = 0 := by
  unfold basedNumber
  split
  · next b r =>
    have hb := h b r rfl
    simp only [List.mem_cons, List.not_mem_nil, or_false, not_or] at hb
    simp [hb]
  · rfl

/-- Digits in front of a delimiter are a number without fraction, exponent and base. -/
theorem number_append {digits more : List Char} (h : ∀ d ∈ digits, d.isDigit = true) (hmore : Delimited more) :
    number (digits ++ more) = digits.length := by
  obtain ⟨c, r, rfl, hc⟩ := hmore
  obtain ⟨-, hbar, hapart⟩ := delimiter_apart hc
  simp only [List.mem_cons, List.not_mem_nil, or_false, not_or] at hapart
  obtain ⟨-, -, -, -, hpoint, he, hE, hx, hX, hb, hB⟩ := hapart
  have hwhole : run isDigitOrBar (digits ++ c :: r) = digits.length := by
    refine run_append (fun d hd => ?_) (by simpa using hbar)
    simp [isDigitOrBar, h d hd]
  have hfraction : fraction (c :: r) = 0 := by
    unfold fraction
    split
    · rename_i heq
      exact absurd (List.cons.inj heq).1 hpoint
    · rfl
  have hexponent : exponent (c :: r) = 0 := by simp [exponent, he, hE]
  have hbased : basedNumber (digits ++ c :: r) = 0 := by
    -- The character behind a leading zero is a digit or the delimiter, and so no sign of a base.
    refine basedNumber_zero fun b s heq => ?_
    rcases digits with _ | ⟨d, _ | ⟨d', digits⟩⟩
    · simp only [List.nil_append, List.cons.injEq] at heq
      rw [heq.1] at hbar
      cases hbar
    · obtain ⟨-, rfl, -⟩ : d = '0' ∧ c = b ∧ r = s := by simpa using heq
      simp [hx, hX, hb, hB]
    · obtain ⟨-, rfl, -⟩ : d = '0' ∧ d' = b ∧ digits ++ c :: r = s := by simpa using heq
      exact not_mem_of_holds (h d' (by simp)) (by decide)
  simp only [number_eq, hwhole, List.drop_left, hfraction, hexponent, hbased, Nat.add_zero, Nat.max_zero]

theorem lexeme?_digit {c : Char} (hc : c.isDigit = true) (r : List Char) :
    lexeme? (c :: r) = some (.plain .number, number (c :: r)) := by
  have hnl : c ≠ '\n' := ne_of_holds hc (by decide)
  have hhash : c ≠ '#' := ne_of_holds hc (by decide)
  obtain ⟨hstart, hupper⟩ := isDigit_apart hc
  rw [lexeme?_cons, if_neg (by simpa using hnl), if_neg (by simpa using hhash), if_neg (by simp [hstart]),
    if_neg (by simp [hupper]), if_pos hc]

theorem lexeme?_numeral (n : Numeral) {more : List Char} (hmore : Delimited more) :
    lexeme? (n.digits ++ more) = some (.plain .number, n.digits.length) := by
  obtain ⟨digits, hne, hall⟩ := n
  obtain ⟨c, digits, rfl⟩ := List.exists_cons_of_ne_nil hne
  rw [List.cons_append, lexeme?_digit (hall c (by simp)), ← List.cons_append, number_append hall hmore]

theorem lexeme?_symbol (s : SymbolName) {more : List Char} (hmore : EndsName more) :
    lexeme? ((':' :: s.chars) ++ more) = some (.plain .symbol, (':' :: s.chars).length) := by
  obtain ⟨cs, c, body, mark, rfl, hc, hbody, hmark⟩ := s
  have hbody : symbolBody (c :: (body ++ mark ++ more)) = 1 + (body.length + mark.length) := by
    simp only [symbolBody]
    rw [if_pos hc, nameTail_append hbody hmark hmore]
  have hcolon : colonLexeme? ':' (c :: (body ++ mark ++ more)) =
      some (.plain .symbol, 1 + (1 + (body.length + mark.length))) := by
    unfold colonLexeme?
    split
    · rename_i heq
      rw [(List.cons.inj heq).1] at hc
      cases hc
    · rename_i heq
      rw [(List.cons.inj heq).1] at hc
      cases hc
    · rw [if_neg (by rw [hbody]; omega), hbody]
  rw [List.cons_append, List.cons_append, lexeme?_cons]
  refine Eq.trans ?_ (hcolon.trans ?_)
  · rfl
  · simp only [List.length_cons, List.length_append, Option.some.injEq, Prod.mk.injEq, true_and]
    omega

/-! ## What the scanner makes of a word -/

/-- In front of `more` the characters of the word are read as a token of its kind; a line feed, if no heredoc is open. -/
def Word.Reads (w : Word) (more : List Char) : Prop :=
  ∀ lines s r gap, (w.kind = .newline → s.pending = []) → ∃ l width, lexeme? (w.text ++ more) = some (l, width) ∧
    accept lines s r gap (w.text ++ more) width l = found s r gap (w.text ++ more) w.kind w.text.length

theorem isKey_false (r : Reading TokenKind) {more : List Char} (h : EndsName more) : isKey r more = false := by
  obtain ⟨c, x, rfl, -, -, -, hcolon⟩ := h
  by_cases hc : c = ':'
  · subst hc
    obtain ⟨y, rfl⟩ := hcolon rfl
    rfl
  · simp [isKey, hc]

/-- A name that no colon makes a key. -/
theorem reads_of_word (gap : List Char) {cs more : List Char} (hl : lexeme? (cs ++ more) = some (.word, cs.length))
    (hkey : ∀ r, isKey r more = false) :
    Word.Reads ⟨gap, match Keyword.ofWord? cs with | some k => .keyword k | none => .ident, cs⟩ more := by
  intro lines s r n _
  refine ⟨.word, cs.length, hl, ?_⟩
  simp only [accept, List.drop_left, hkey, Bool.false_eq_true, if_false, List.take_left]
  cases Keyword.ofWord? cs <;> rfl

theorem reads_word (gap : List Char) {cs more : List Char} (h : IsName isNameStart cs) (hmore : EndsName more) :
    Word.Reads ⟨gap, match Keyword.ofWord? cs with | some k => .keyword k | none => .ident, cs⟩ more :=
  reads_of_word gap (lexeme?_name h hmore) fun r => isKey_false r hmore

theorem reads_method (gap : List Char) (m : MethodName) {more : List Char} (hmore : EndsName more) :
    Word.Reads ⟨gap, .ident, m.chars⟩ more := by
  have h := reads_word gap m.isName hmore
  rw [m.notKeyword] at h
  exact h

theorem reads_keyword (gap : List Char) (k : Keyword) (hname : IsName isNameStart k.word.toList)
    (hk : Keyword.ofWord? k.word.toList = some k) {more : List Char} (hmore : EndsName more) :
    Word.Reads ⟨gap, .keyword k, k.word.toList⟩ more := by
  have h := reads_word gap hname hmore
  rw [hk] at h
  exact h

theorem reads_const (gap : List Char) (c : ConstName) {more : List Char} (hmore : EndsName more) :
    Word.Reads ⟨gap, .constant, c.chars⟩ more := by
  intro lines s r n _
  refine ⟨.plain .constant, c.chars.length, lexeme?_const c.isName hmore, ?_⟩
  simp only [accept, List.drop_left, isKey_false r hmore, Bool.false_eq_true, if_false]

theorem reads_symbol (gap : List Char) (name : SymbolName) {more : List Char} (hmore : Delimited more) :
    Word.Reads ⟨gap, .symbol, ':' :: name.chars⟩ more := by
  intro lines s r n _
  refine ⟨.plain .symbol, (':' :: name.chars).length, lexeme?_symbol name hmore.endsName, ?_⟩
  have hset : isSetter (':' :: name.chars) more = false := by
    obtain ⟨c, x, rfl, hc⟩ := hmore
    have hassign : c ≠ '=' := ne_of_mem_of_not_mem hc (by decide)
    simp [isSetter, hassign]
  simp only [accept, List.take_left, List.drop_left, hset, Bool.false_eq_true, if_false]

theorem reads_numeral (gap : List Char) (d : Numeral) {more : List Char} (hmore : Delimited more) :
    Word.Reads ⟨gap, .number, d.digits⟩ more :=
  fun _ _ _ _ _ => ⟨.plain .number, d.digits.length, lexeme?_numeral d hmore, rfl⟩

/-- Behind its opening, what is written between quotes is one literal. -/
theorem literal_enclosed (lines : LineIndex) (s : Scanner) (r : Reading TokenKind) (gap : Nat) (q : Quote)
    (opening content more : List Char) (kind : StrLit → TokenKind) :
    literal lines s r gap (opening ++ (q.escape content ++ q.char :: more)) opening.length q.delimiters false kind =
      found s r gap (opening ++ (q.escape content ++ q.char :: more)) (kind (plainString content))
        (opening.length + (q.escape content).length + 1) := by
  rw [q.escape_eq_delimiters, ← q.delimiters_close]
  exact literal_escape q.delimiters_closes q.delimiters_decodes lines s r gap opening content more kind

theorem reads_quoted (gap : List Char) (q : Quote) (content more : List Char) :
    Word.Reads ⟨gap, .string (plainString content), q.enclose content⟩ more := by
  intro lines s r n _
  have htext : q.enclose content ++ more = [q.char] ++ (q.escape content ++ q.char :: more) := by
    simp [Quote.enclose]
  have hlength : (q.enclose content).length = [q.char].length + (q.escape content).length + 1 := by
    simp [Quote.enclose, Nat.add_comm]
  rw [htext, hlength, ← literal_enclosed lines s r n q [q.char] content more .string]
  cases q with
  | single => exact ⟨.opening .singleQuote, 1, rfl, rfl⟩
  | double => exact ⟨.opening .doubleQuote, 1, rfl, rfl⟩

theorem reads_quotedSymbol (gap : List Char) (q : Quote) (content more : List Char) :
    Word.Reads ⟨gap, .quotedSymbol (plainString content), ':' :: q.enclose content⟩ more := by
  intro lines s r n _
  have htext : ':' :: q.enclose content ++ more = [':', q.char] ++ (q.escape content ++ q.char :: more) := by
    simp [Quote.enclose]
  have hlength : (':' :: q.enclose content).length = [':', q.char].length + (q.escape content).length + 1 := by
    simp only [Quote.enclose, List.length_cons, List.length_append, List.length_nil]
    omega
  rw [htext, hlength, ← literal_enclosed lines s r n q [':', q.char] content more .quotedSymbol]
  cases q with
  | single => exact ⟨.opening (.symbolQuote '\''), 2, rfl, rfl⟩
  | double => exact ⟨.opening (.symbolQuote '"'), 2, rfl, rfl⟩

theorem reads_string (gap content more : List Char) :
    Word.Reads ⟨gap, .string (plainString content), '\'' :: (escape content ++ ['\''])⟩ more := by
  rw [escape_eq]
  exact reads_quoted gap .single content more

end PuppetDocs.Ruby.Decl
