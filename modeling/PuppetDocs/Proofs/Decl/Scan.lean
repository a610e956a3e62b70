import PuppetDocs.Proofs.Decl.Words
import PuppetDocs.Proofs.Scan.Coverage

/-
  PuppetDocs.Proofs.Decl.Scan — the tokens of a written program.

  `Spelled` holds of words that the scanner can find one after the other: behind blanks stands
  a word that reads as its token, and no line starts like an embedded document or like the
  data marker. A method name and its parenthesis come together, so that nothing separates the
  two tokens. Every written program is spelled (`lines_spelled`), and the tokens found in a
  spelled text are those its words stand for (`scan_spelled`).
-/

namespace PuppetDocs.Ruby.Decl

open Text (run isNameChar)

@[simp] theorem print_nil : print [] = [] := rfl

@[simp] theorem print_cons (w : Word) (ws : List Word) : print (w :: ws) = w.chars ++ print ws := rfl

/-! ## Signs -/

theorem reads_plain {gap text more : List Char} {kind : TokenKind}
    (hl : lexeme? (text ++ more) = some (.plain kind, text.length))
    (hk : kind ∉ [.newline, .constant, .symbol, .slash]) : Word.Reads ⟨gap, kind, text⟩ more := by
  simp only [List.mem_cons, List.not_mem_nil, or_false, not_or] at hk
  obtain ⟨hnewline, hconst, hsymbol, hslash⟩ := hk
  intro lines s r n _
  refine ⟨.plain kind, text.length, hl, ?_⟩
  cases kind with
  | newline => exact absurd rfl hnewline
  | constant => exact absurd rfl hconst
  | symbol => exact absurd rfl hsymbol
  | slash => exact absurd rfl hslash
  | _ => rfl

theorem reads_newline (more : List Char) : newline.Reads more := by
  intro lines s r n hpending
  refine ⟨.plain .newline, 1, rfl, ?_⟩
  simp only [accept, Ruby.newline, hpending rfl, List.isEmpty_nil, if_true]
  rfl

theorem lexeme?_dot {c : Char} (hc : c ≠ '.') (more : List Char) :
    lexeme? ('.' :: c :: more) = some (.plain .dot, 1) := by
  have hpoint : ('.' == c) = false := by simpa using hc.symm
  change punctuation? ('.' :: c :: more) = _
  simp [punctuation?, punctuation, List.isPrefixOf, hpoint]

/-! ## One word -/

/-- In front of `more` the word is found behind the blanks of its gap. -/
structure Word.Stands (w : Word) (more : List Char) : Prop where
  gap : ∀ c ∈ w.gap, c = ' '
  head : ∃ c r, w.text = c :: r ∧ c ∉ [' ', '\t', '\r', '\x0c', '\\']
  notDocument : "=begin".toList.isPrefixOf (w.chars ++ more) = false
  notData : isDataMarker (w.chars ++ more) = false
  reads : w.Reads more

/-- The characters start like no blank and, if no gap is in front of them, like no marker. -/
def StartsWord (gap text : List Char) : Prop :=
  ∃ c r, text = c :: r ∧ c ∉ [' ', '\t', '\r', '\x0c', '\\'] ∧ (gap = [] → c ≠ '=' ∧ c ≠ '_')

theorem startsWord_cons {c : Char} (hc : c ∉ [' ', '\t', '\r', '\x0c', '\\', '=', '_']) (gap r : List Char) :
    StartsWord gap (c :: r) := by
  simp only [List.mem_cons, List.not_mem_nil, or_false, not_or] at hc
  obtain ⟨hspace, htab, hreturn, hfeed, hslash, hassign, hbar⟩ := hc
  refine ⟨c, r, rfl, ?_, fun _ => ⟨hassign, hbar⟩⟩
  simp only [List.mem_cons, List.not_mem_nil, or_false, not_or]
  exact ⟨hspace, htab, hreturn, hfeed, hslash⟩

/-- A word that starts like none of these stands where it is read. -/
theorem stands_of_head {gap text more : List Char} {kind : TokenKind} (hgap : ∀ c ∈ gap, c = ' ')
    (hhead : StartsWord gap text)
    (hreads : Word.Reads ⟨gap, kind, text⟩ more) : Word.Stands ⟨gap, kind, text⟩ more := by
  obtain ⟨c, r, rfl, hc, hmarker⟩ := hhead
  have hfirst : ∃ d x, gap ++ c :: r ++ more = d :: x ∧ d ≠ '=' ∧ d ≠ '_' := by
    cases gap with
    | nil => exact ⟨c, r ++ more, rfl, hmarker rfl⟩
    | cons d gap =>
      have hd : d = ' ' := hgap d (by simp)
      exact ⟨d, gap ++ c :: r ++ more, rfl, by rw [hd]; decide, by rw [hd]; decide⟩
  obtain ⟨d, x, heq, hd⟩ := hfirst
  obtain ⟨hdocument, hdata⟩ := not_marker hd x
  rw [← heq] at hdocument hdata
  exact ⟨hgap, ⟨c, r, rfl, hc⟩, hdocument, hdata, hreads⟩

variable {lines : LineIndex}

/-- The step in front of a word finds its token. -/
theorem step_stands {w : Word} {more : List Char} (h : w.Stands more) {s : Scanner} (hs : s.pending = []) :
    step lines s (w.chars ++ more) =
      .ok (some (s.add ((s.reading.skip w.gap).token w.kind w.text), w.chars.length)) := by
  obtain ⟨c, r, htext, hc⟩ := h.head
  obtain ⟨l, width, hl, haccept⟩ := h.reads lines s (s.reading.skip w.gap) w.gap.length fun _ => hs
  have hchars : w.chars ++ more = w.gap ++ (w.text ++ more) := List.append_assoc w.gap w.text more
  have hdocument := h.notDocument
  have hdata := h.notData
  rw [hchars] at hdocument hdata ⊢
  rw [step_gap w.gap h.gap ⟨c, r ++ more, by rw [htext]; rfl, hc⟩ hdocument hdata hl, haccept, found, List.take_left,
    Word.chars, List.length_append]

/-- The walk over a word adds its token. -/
theorem walk_stands {w : Word} {more : List Char} (h : w.Stands more) {s : Scanner} (hs : s.pending = []) :
    walk lines (w.chars ++ more) 0 s =
      walk lines more 0 ((s.add ((s.reading.skip w.gap).token w.kind w.text)).pass w.chars) := by
  have hne : w.chars ++ more ≠ [] := by
    obtain ⟨c, r, htext, -⟩ := h.head
    simp [Word.chars, htext]
  rw [walk_next hne (step_stands h hs), List.drop_left, List.take_left]

/-! ## Lists of words -/

/-- The token is the word as the scanner finds it; it is noted whether a gap is in front of it, and if there is none in
front of a parenthesis, that too. -/
structure Word.Spells (w : Word) (t : Token TokenKind) : Prop where
  kind : t.kind = w.kind
  text : t.text = String.ofList w.text
  tight : w.kind = .lparen → w.gap = [] → t.spaced = false
  spaced : w.gap ≠ [] → t.spaced = true

/-- Words that the scanner finds one after the other. -/
inductive Spelled : List Word → Prop
  | nil : Spelled []
  | word {w : Word} {ws : List Word} : w.kind ≠ .lparen → w.Stands (print ws) → Spelled ws → Spelled (w :: ws)
  | method {gap : List Char} {m : MethodName} {ws : List Word} : (∀ c ∈ gap, c = ' ') → Spelled ws →
      Spelled (⟨gap, .ident, m.chars⟩ :: sign .lparen "(" :: ws)

theorem IsName.chars_all {start : Char → Bool} {cs : List Char} (h : IsName start cs)
    (hstart : ∀ c, start c = true → isNameChar c = true) :
    ∀ d ∈ cs, (isNameChar d || d == '?' || d == '!') = true := by
  obtain ⟨c, body, mark, rfl, hc, hbody, hmark⟩ := h
  intro d hd
  simp only [List.mem_cons, List.mem_append] at hd
  rcases hd with rfl | hd | hd
  · simp [hstart _ hc]
  · simp [hbody d hd]
  · rcases hmark with rfl | rfl | rfl
    · cases hd
    · simp [List.mem_singleton.mp hd]
    · simp [List.mem_singleton.mp hd]

theorem MethodName.chars_all (m : MethodName) : ∀ d ∈ m.chars, (isNameChar d || d == '?' || d == '!') = true :=
  m.isName.chars_all fun _ => isNameChar_of_isNameStart

theorem SymbolName.chars_all (name : SymbolName) :
    ∀ d ∈ name.chars, (isNameChar d || d == '?' || d == '!') = true :=
  name.isName.chars_all fun c hc => by
    rcases Bool.or_eq_true_iff.mp hc with hc | hc <;> simp [isNameChar, Char.isAlphanum, hc]

/-- A method name that is a data marker is all of it, and its line ends there. -/
theorem data_name (m : MethodName) {more : List Char}
    (hmore : ∀ c ∈ more.head?, (isNameChar c || c == '?' || c == '!') = false)
    (h : isDataMarker (m.chars ++ more) = true) :
    m.chars = "__END__".toList ∧ ∀ c ∈ more.head?, c = '\n' ∨ c = '\r' := by
  obtain ⟨below, heq, hbelow⟩ := data_of_isDataMarker h
  have hfront : ∀ {p : Char → Bool} {name rest : List Char}, (∀ d ∈ name, p d = true) →
      (∀ c ∈ rest.head?, p c = false) → (name ++ rest).takeWhile p = name := by
    intro p name rest hname hrest
    rw [List.takeWhile_append_of_pos hname]
    cases rest with
    | nil => simp
    | cons c rest => simp [hrest c rfl]
  have hends : ∀ c ∈ below.head?, (c = '\n' ∨ c = '\r') ∧ (isNameChar c || c == '?' || c == '!') = false := by
    rcases hbelow with rfl | ⟨x, rfl⟩ | ⟨x, rfl⟩ <;> simp [isNameChar]
  have hname : m.chars = "__END__".toList := by
    rw [← hfront m.chars_all hmore, heq]
    exact hfront (by simp [isNameChar]) fun c hc => (hends c hc).2
  refine ⟨hname, fun c hc => ?_⟩
  rw [hname] at heq
  rw [List.append_cancel_left heq] at hc
  exact (hends c hc).1

theorem data_method (m : MethodName) {more : List Char} (hmore : ∀ c ∈ more.head?, c ∈ ['(', ' ', '\n'])
    (h : isDataMarker (m.chars ++ more) = true) : m.chars = "__END__".toList ∧ ∀ c ∈ more.head?, c = '\n' := by
  have hclasses : ∀ c ∈ ['(', ' ', '\n'], (isNameChar c || c == '?' || c == '!') = false ∧ c ≠ '\r' := by
    simp [isNameChar]
  obtain ⟨hname, hends⟩ := data_name m (fun c hc => (hclasses c (hmore c hc)).1) h
  exact ⟨hname, fun c hc => (hends c hc).resolve_right (hclasses c (hmore c hc)).2⟩

/-- A method name in front of a character that ends neither it nor its line is no data marker. -/
theorem name_not_data (m : MethodName) {c : Char} (hc : (isNameChar c || c == '?' || c == '!') = false)
    (hline : c ≠ '\n' ∧ c ≠ '\r') (more : List Char) : isDataMarker (m.chars ++ c :: more) = false := by
  rw [Bool.eq_false_iff]
  intro hdata
  have hmore : ∀ d ∈ (c :: more).head?, (isNameChar d || d == '?' || d == '!') = false := by
    intro d hd
    cases hd
    exact hc
  exact ((data_name m hmore hdata).2 c rfl).elim hline.1 hline.2

/-- A method name in front of a parenthesis or a blank is no data marker, whatever its characters are. -/
theorem method_not_data (m : MethodName) {c : Char} (hc : c ∈ ['(', ' ']) (more : List Char) :
    isDataMarker (m.chars ++ c :: more) = false := by
  have hclasses : ∀ c ∈ ['(', ' '], (isNameChar c || c == '?' || c == '!') = false ∧ c ≠ '\n' ∧ c ≠ '\r' := by
    simp [isNameChar]
  exact name_not_data m (hclasses c hc).1 (hclasses c hc).2 more

/-- Only a name at the start of a line could be taken for the data marker. -/
theorem stands_name {gap : List Char} (hgap : ∀ c ∈ gap, c = ' ') (m : MethodName) {more : List Char}
    (hreads : Word.Reads ⟨gap, .ident, m.chars⟩ more) (hdata : gap = [] → isDataMarker (m.chars ++ more) = false) :
    Word.Stands ⟨gap, .ident, m.chars⟩ more := by
  obtain ⟨c, body, mark, hchars, hc, -⟩ := m.isName
  have hblank : c ∉ [' ', '\t', '\r', '\x0c', '\\'] := not_mem_of_holds hc (by decide)
  by_cases hbar : gap = [] ∧ c = '_'
  · obtain ⟨rfl, rfl⟩ := hbar
    have hdocument : "=begin".toList.isPrefixOf (m.chars ++ more) = false := by
      rw [hchars]
      rfl
    exact ⟨hgap, ⟨'_', body ++ mark, hchars, by decide⟩, hdocument, hdata rfl, hreads⟩
  · have hassign : c ≠ '=' := ne_of_holds hc (by decide)
    exact stands_of_head hgap ⟨c, body ++ mark, hchars, hblank, fun hnil => ⟨hassign, fun he => hbar ⟨hnil, he⟩⟩⟩ hreads

theorem stands_method {gap : List Char} (hgap : ∀ c ∈ gap, c = ' ') (m : MethodName) {more : List Char}
    (hmore : EndsName more) (hdata : gap = [] → isDataMarker (m.chars ++ more) = false) :
    Word.Stands ⟨gap, .ident, m.chars⟩ more :=
  stands_name hgap m (reads_method gap m hmore) hdata

theorem stands_lparen (more : List Char) : (sign .lparen "(").Stands more :=
  stands_of_head (by simp) (startsWord_cons (by decide) _ _) (reads_plain rfl (by decide))

/-- A text without blanks and backslashes ends with none. -/
theorem solid_of_apart {text : List Char} (hne : text ≠ []) (h : ∀ c ∈ text, c ∉ [' ', '\t', '\n', '\r', '\\']) :
    ∃ front c, text = front ++ [c] ∧ c ∉ [' ', '\t', '\n', '\r', '\\'] := by
  obtain ⟨front, c, hc⟩ := (List.eq_nil_or_concat text).resolve_left hne
  rw [List.concat_eq_append] at hc
  exact ⟨front, c, hc, h c (by simp [hc])⟩

theorem name_solid {text : List Char} (hne : text ≠ []) (hname : ∀ c ∈ text, isNameChar c = true) :
    ∃ front c, text = front ++ [c] ∧ c ∉ [' ', '\t', '\n', '\r', '\\'] :=
  solid_of_apart hne fun c hc => not_mem_of_holds (hname c hc) (by decide)

theorem MethodName.solid (m : MethodName) : ∃ front c, m.chars = front ++ [c] ∧ c ∉ [' ', '\t', '\n', '\r', '\\'] :=
  solid_of_apart m.ne_nil fun c hc hmem => m.chars_apart c hc (List.mem_cons_of_mem '(' hmem)

theorem afterSpace_solid {text front : List Char} {c : Char} (htext : text = front ++ [c])
    (hc : c ∉ [' ', '\t', '\n', '\r', '\\']) (r : Reading TokenKind) : (r.skip text).afterSpace = false := by
  simp only [List.mem_cons, List.not_mem_nil, or_false, not_or] at hc
  simp [htext, Reading.afterSpace, hc]

theorem afterSpace_skip {gap : List Char} (h : ∀ c ∈ gap, c = ' ') (hne : gap ≠ []) (r : Reading TokenKind) :
    (r.skip gap).afterSpace = true := by
  obtain ⟨c, rest, hrest⟩ := List.exists_cons_of_ne_nil (mt List.reverse_eq_nil_iff.mp hne)
  have hc : c = ' ' := h c (List.mem_reverse.mp (hrest ▸ List.mem_cons_self ..))
  simp [Reading.afterSpace, hrest, hc]

/-- The scanner finds the tokens of spelled words, and nothing else. -/
theorem Spelled.walk (lines : LineIndex) {ws : List Word} (h : Spelled ws) (s : Scanner) (hs : s.pending = []) :
    ∃ s' tokens, Ruby.walk lines (print ws) 0 s = .ok s' ∧ s'.pending = [] ∧
      s'.reading.comments = s.reading.comments ∧ s'.reading.tokens = tokens.reverse ++ s.reading.tokens ∧
      tokens.head?.map (·.span.start) = ws.head?.map (s.reading.offset + Text.byteLength ·.gap) ∧
      List.Forall₂ Word.Spells ws tokens := by
  induction h generalizing s with
  | nil => exact ⟨s, [], rfl, hs, rfl, rfl, rfl, .nil⟩
  | @word w ws hkind hstands _ ih =>
    let t := (s.reading.skip w.gap).token w.kind w.text
    obtain ⟨s', tokens, hwalk, hpending, hcomments, htokens, -, hspells⟩ := ih ((s.add t).pass w.chars) hs
    refine ⟨s', t :: tokens, ?_, hpending, ?_, ?_, ?_, ?_⟩
    · rw [print_cons, walk_stands hstands hs, hwalk]
    · rw [hcomments]
      simp [Scanner.add]
    · rw [htokens]
      simp [Scanner.add]
    · simp [t, Reading.token]
    · exact .cons ⟨rfl, rfl, fun he _ => absurd he hkind, fun hne => afterSpace_skip hstands.gap hne _⟩ hspells
  | @method gap m ws hgap _ ih =>
    let t := (s.reading.skip gap).token .ident m.chars
    let s₁ := (s.add t).pass (gap ++ m.chars)
    let u := s₁.reading.token .lparen ['(']
    have htight : u.spaced = false := by
      obtain ⟨front, c, hchars, hc⟩ := m.solid
      have hsolid : gap ++ m.chars = (gap ++ front) ++ [c] := by rw [hchars, List.append_assoc]
      exact afterSpace_solid hsolid hc _
    obtain ⟨s', tokens, hwalk, hpending, hcomments, htokens, -, hspells⟩ := ih ((s₁.add u).pass ['(']) hs
    refine ⟨s', t :: u :: tokens, ?_, hpending, ?_, ?_, ?_, ?_⟩
    · have hmethod : Ruby.walk lines (print (⟨gap, .ident, m.chars⟩ :: sign .lparen "(" :: ws)) 0 s =
          Ruby.walk lines ('(' :: print ws) 0 s₁ := walk_stands (stands_method hgap m (endsName_cons (by decide) (by decide) _)
          fun _ => method_not_data m (by decide) (print ws)) hs
      have hparen : Ruby.walk lines ('(' :: print ws) 0 s₁ = Ruby.walk lines (print ws) 0 ((s₁.add u).pass ['(']) :=
        walk_stands (stands_lparen _) hs
      exact hmethod.trans (hparen.trans hwalk)
    · rw [hcomments]
      simp [s₁, Scanner.add, Reading.next]
    · rw [htokens]
      simp [s₁, Scanner.add, Reading.next]
    · simp [t, Reading.token]
    · have hname : Word.Spells ⟨gap, .ident, m.chars⟩ t :=
        ⟨rfl, rfl, by simp [t, Reading.token], fun hne => afterSpace_skip hgap hne _⟩
      exact .cons hname (.cons ⟨rfl, rfl, fun _ _ => htight, by simp⟩ hspells)

/-- What a walk over a whole text finds is its scan, if no heredoc is left open. -/
theorem scan_of_walk {text : List Char} {s : Scanner} (h : Ruby.walk (.ofText text) text 0 {} = .ok s)
    (hpending : s.pending = []) : ∃ found, scan text = .ok found ∧ found.comments = s.reading.comments.reverse ∧
      found.stop.kind = .eof ∧ found.tokens = s.reading.tokens.reverse := by
  refine ⟨{
    tokens := s.reading.tokens.reverse
    stop := { kind := .eof, text := "", span := ⟨Text.byteLength text, Text.byteLength text⟩, spaced := true }
    comments := s.reading.comments.reverse }, ?_, rfl, rfl, rfl⟩
  simp only [scan, h, hpending]

/-- The tokens of a spelled text are those of its words, and it has no comments. -/
theorem scan_spelled {ws : List Word} (h : Spelled ws) :
    ∃ s, scan (print ws) = .ok s ∧ s.comments = [] ∧ s.stop.kind = .eof ∧
      s.tokens.head?.map (·.span.start) = ws.head?.map (Text.byteLength ·.gap) ∧
      List.Forall₂ Word.Spells ws s.tokens := by
  obtain ⟨s', tokens, hwalk, hpending, hcomments, htokens, hhead, hspells⟩ := h.walk (.ofText (print ws)) {} rfl
  obtain ⟨s, hscan, hremarks, hstop, hfound⟩ := scan_of_walk hwalk hpending
  refine ⟨s, hscan, ?_, hstop, ?_, ?_⟩
  · rw [hremarks, hcomments]
    rfl
  · rw [hfound, htokens]
    simpa using hhead
  · rw [hfound, htokens]
    simpa using hspells

/-! ## Written programs are spelled -/

/-- Behind blanks and in front of a delimiter, the piece is spelled. -/
def IsSpelled (p : Piece) : Prop :=
  ∀ gap rest, (∀ c ∈ gap, c = ' ') → Delimited (print rest) → Spelled rest → Spelled (p gap ++ rest)

variable {gap : List Char} {rest : List Word}

/-- A sign that no longer sign starts with. -/
theorem spelled_sign {kind : TokenKind} {text : List Char} (hgap : ∀ c ∈ gap, c = ' ')
    (hhead : StartsWord gap text)
    (hkind : kind ∉ [.newline, .constant, .symbol, .slash, .lparen])
    (hl : lexeme? (text ++ print rest) = some (.plain kind, text.length)) (h : Spelled rest) :
    Spelled (⟨gap, kind, text⟩ :: rest) := by
  simp only [List.mem_cons, List.not_mem_nil, or_false, not_or] at hkind
  refine .word hkind.2.2.2.2 (stands_of_head hgap hhead (reads_plain hl ?_)) h
  simp only [List.mem_cons, List.not_mem_nil, or_false, not_or]
  exact ⟨hkind.1, hkind.2.1, hkind.2.2.1, hkind.2.2.2.1⟩

theorem spelled_newline (h : Spelled rest) : Spelled (newline :: rest) :=
  .word nofun (stands_of_head (by simp) (startsWord_cons (by decide) _ _) (reads_newline _)) h

theorem spelled_dot (m : MethodName) (h : Spelled (⟨[], .ident, m.chars⟩ :: rest)) :
    Spelled (sign .dot "." :: ⟨[], .ident, m.chars⟩ :: rest) := by
  obtain ⟨c, body, mark, hchars, hc, -⟩ := m.isName
  have hdot : c ≠ '.' := ne_of_holds hc (by decide)
  refine spelled_sign (by simp) (startsWord_cons (by decide) _ _) (by decide) ?_ h
  rw [print_cons, Word.chars, hchars]
  exact lexeme?_dot hdot _

theorem spelled_const (hgap : ∀ c ∈ gap, c = ' ') (c : ConstName) (hrest : EndsName (print rest)) (h : Spelled rest) :
    Spelled (⟨gap, .constant, c.chars⟩ :: rest) := by
  have hhead : StartsWord gap c.chars := by
    obtain ⟨d, body, hchars, hd, -⟩ := c.isName
    rw [hchars]
    exact startsWord_cons (not_mem_of_holds hd (by decide)) gap body
  exact .word nofun (stands_of_head hgap hhead (reads_const gap c hrest)) h

theorem isName_letters {c : Char} {body : List Char} (hc : isNameStart c = true) (hbody : body.all isNameChar = true) :
    IsName isNameStart (c :: body) :=
  ⟨c, body, [], by rw [List.append_nil], hc, List.all_eq_true.mp hbody, .inl rfl⟩

/-- The keywords that occur in written programs. -/
def writtenKeywords : List Keyword :=
  [.nilKw, .trueKw, .falseKw, .selfKw, .doKw, .endKw, .beginKw, .ifKw, .unlessKw, .caseKw, .whenKw]

theorem keyword_isName {k : Keyword} (hk : k ∈ writtenKeywords) :
    Keyword.ofWord? k.word.toList = some k ∧ IsName isNameStart k.word.toList ∧
      (∀ c ∈ k.word.toList, isNameChar c = true) ∧ StartsWord gap k.word.toList := by
  have hwords : ∀ k ∈ writtenKeywords, Keyword.ofWord? k.word.toList = some k := by decide
  have hletters : ∀ k ∈ writtenKeywords, k.word.toList.all isNameChar = true ∧
      ∃ c r, k.word.toList = c :: r ∧ isNameStart c = true ∧ c ∉ [' ', '\t', '\r', '\x0c', '\\', '=', '_'] := by
    simp only [writtenKeywords, List.forall_mem_cons]
    refine ⟨?_, ?_, ?_, ?_, ?_, ?_, ?_, ?_, ?_, ?_, ?_, by simp⟩ <;> exact ⟨rfl, _, _, rfl, rfl, by decide⟩
  obtain ⟨hall, c, r, hword, hstart, hc⟩ := hletters k hk
  refine ⟨hwords k hk, ?_, List.all_eq_true.mp hall, ?_⟩
  · rw [hword] at hall ⊢
    exact isName_letters hstart (Bool.and_eq_true_iff.mp hall).2
  · rw [hword]
    exact startsWord_cons hc gap r

theorem spelled_keyword (hgap : ∀ c ∈ gap, c = ' ') (k : Keyword) (hk : k ∈ writtenKeywords)
    (hrest : EndsName (print rest)) (h : Spelled rest) : Spelled (⟨gap, .keyword k, k.word.toList⟩ :: rest) := by
  obtain ⟨hword, hname, -, hstarts⟩ := keyword_isName hk
  exact .word nofun (stands_of_head hgap hstarts (reads_keyword gap k hname hword hrest)) h

theorem Path.spelled (p : Path) (hgap : ∀ c ∈ gap, c = ' ') (hrest : EndsName (print rest)) (h : Spelled rest) :
    Spelled (p.words gap ++ rest) := by
  induction p generalizing rest with
  | name c => exact spelled_const hgap c hrest h
  | member p c ih =>
    have hconst : Spelled (⟨[], .constant, c.chars⟩ :: rest) := spelled_const (by simp) c hrest h
    rw [Path.words, List.append_assoc]
    refine ih (endsName_colons _) ?_
    exact spelled_sign (by simp) (startsWord_cons (by decide) _ _) (by decide) rfl hconst

theorem spelled_separated {ps : List Piece} (hps : ∀ p ∈ ps, IsSpelled p) (hgap : ∀ c ∈ gap, c = ' ')
    (hrest : Delimited (print rest)) (h : Spelled rest) : Spelled (separated gap ps ++ rest) := by
  induction ps generalizing gap with
  | nil => exact h
  | cons p ps ih =>
    cases ps with
    | nil => exact hps p (by simp) gap rest hgap hrest h
    | cons q ps =>
      rw [separated, List.append_assoc]
      refine hps p (by simp) gap _ hgap ⟨',', _, rfl, by simp⟩ ?_
      refine spelled_sign (by simp) (startsWord_cons (by decide) _ _) (by decide) rfl ?_
      exact ih (fun r hr => hps r (List.mem_cons_of_mem _ hr)) (by simp)

mutual

theorem Arg.spelled : ∀ a : Arg, IsSpelled a.words
  | .symbol name => fun gap rest hgap hrest h =>
    .word nofun (stands_of_head hgap (startsWord_cons (by decide) _ _) (reads_symbol gap name hrest)) h
  | .str content => fun gap rest hgap _ h =>
    .word nofun (stands_of_head hgap (startsWord_cons (by decide) _ _) (reads_string gap content _)) h
  | .int n => fun gap rest hgap hrest h => by
    have hhead : StartsWord gap n.digits := by
      obtain ⟨digits, hne, hall⟩ := n
      obtain ⟨c, digits, rfl⟩ := List.exists_cons_of_ne_nil hne
      exact startsWord_cons (not_mem_of_holds (hall c (by simp)) (by decide)) gap digits
    exact .word nofun (stands_of_head hgap hhead (reads_numeral gap n hrest)) h
  | .nil => fun gap rest hgap hrest h => spelled_keyword hgap .nilKw (by decide) hrest.endsName h
  | .true_ => fun gap rest hgap hrest h => spelled_keyword hgap .trueKw (by decide) hrest.endsName h
  | .false_ => fun gap rest hgap hrest h => spelled_keyword hgap .falseKw (by decide) hrest.endsName h
  | .path p => fun gap rest hgap hrest h => p.spelled hgap hrest.endsName h
  | .array items => fun gap rest hgap _ h => by
    rw [Arg.words, List.cons_append, List.append_assoc]
    refine spelled_sign hgap (startsWord_cons (by decide) _ _) (by decide) rfl ?_
    refine spelled_separated (items_spelled items) (by simp) ⟨']', _, rfl, by simp⟩ ?_
    exact spelled_sign (by simp) (startsWord_cons (by decide) _ _) (by decide) rfl h
  | .hash _ entries => fun gap rest hgap _ h => by
    rw [Arg.words, List.cons_append, List.append_assoc]
    refine spelled_sign hgap (startsWord_cons (by decide) _ _) (by decide) rfl ?_
    refine spelled_separated (entries_spelled entries) (by simp) ⟨'\x7d', _, rfl, by simp⟩ ?_
    exact spelled_sign (by simp) (startsWord_cons (by decide) _ _) (by decide) rfl h
  | .call c => fun gap rest hgap _ h => c.spelled gap rest hgap h

theorem items_spelled : ∀ items : List Arg, ∀ p ∈ itemPieces items, IsSpelled p
  | [], _, hp => nomatch hp
  | a :: items, p, hp => by
    rw [itemPieces] at hp
    rcases List.mem_cons.mp hp with rfl | hp
    · exact a.spelled
    · exact items_spelled items p hp

theorem Entry.spelled : ∀ e : Entry, IsSpelled e.words
  | .mk key value => fun gap rest hgap hrest h => by
    rw [Entry.words, List.append_assoc]
    refine key.spelled gap _ hgap ⟨' ', _, rfl, by simp⟩ ?_
    refine spelled_sign (by simp) ⟨'=', ['>'], rfl, by decide, nofun⟩ (by decide) rfl ?_
    exact value.spelled [' '] rest (by simp) hrest h

theorem entries_spelled : ∀ entries : List Entry, ∀ p ∈ entryPieces entries, IsSpelled p
  | [], _, hp => nomatch hp
  | e :: entries, p, hp => by
    rw [entryPieces] at hp
    rcases List.mem_cons.mp hp with rfl | hp
    · exact e.spelled
    · exact entries_spelled entries p hp

theorem args_spelled (args : List Arg) (p : Piece) (hp : p ∈ argPieces args) : IsSpelled p := by
  unfold argPieces at hp
  split at hp
  · cases hp
  · rename_i e entries
    exact entries_spelled (e :: entries) p hp
  · rename_i a args _
    rcases List.mem_cons.mp hp with rfl | hp
    · exact a.spelled
    · exact args_spelled args p hp

theorem Receiver.spelled : ∀ (r : Receiver) (gap : List Char) (m : MethodName) (rest : List Word),
    (∀ c ∈ gap, c = ' ') → Spelled rest →
      Spelled (r.words gap ++ ⟨r.gapBehind gap, .ident, m.chars⟩ :: sign .lparen "(" :: rest)
  | .none, _, _, _, hgap, h => .method hgap h
  | .path p, gap, m, rest, hgap, h => by
    rw [Receiver.words, List.append_assoc]
    refine p.spelled hgap (endsName_cons (by decide) (by decide) _) ?_
    exact spelled_dot m (.method (by simp) h)
  | .call c, gap, m, rest, hgap, h => by
    rw [Receiver.words, List.append_assoc]
    refine c.spelled gap _ hgap ?_
    exact spelled_dot m (.method (by simp) h)

theorem Call.spelled : ∀ (c : Call) (gap : List Char) (rest : List Word), (∀ c ∈ gap, c = ' ') → Spelled rest →
    Spelled (c.words gap ++ rest)
  | .mk receiver m args, gap, rest, hgap, h => by
    have hargs : Spelled (separated [] (argPieces args) ++ sign .rparen ")" :: rest) := by
      refine spelled_separated (args_spelled args) (by simp) ⟨')', _, rfl, by simp⟩ ?_
      exact spelled_sign (by simp) (startsWord_cons (by decide) _ _) (by decide) rfl h
    have hreceiver := receiver.spelled gap m _ hgap hargs
    simpa [Call.words] using hreceiver

end

mutual

theorem Statement.spelled : ∀ (st : Statement) (indent : List Char) (rest : List Word), (∀ c ∈ indent, c = ' ') →
    Spelled rest → Spelled (st.words indent ++ rest)
  | .call c, indent, rest, hindent, h => by
    rw [Statement.words, List.append_assoc]
    exact c.spelled indent _ hindent (spelled_newline h)
  | .block c body, indent, rest, hindent, h => by
    have hend : Spelled (⟨indent, .keyword .endKw, "end".toList⟩ :: newline :: rest) :=
      spelled_keyword hindent .endKw (by decide) (endsName_cons (by decide) (by decide) _) (spelled_newline h)
    have hinner : ∀ c ∈ indent ++ [' ', ' '], c = ' ' := by
      intro d hd
      rcases List.mem_append.mp hd with hd | hd
      · exact hindent d hd
      · simpa using hd
    have hbody := lines_spelled body (indent ++ [' ', ' ']) _ hinner hend
    have hdo : Spelled (⟨[' '], .keyword .doKw, "do".toList⟩ :: newline :: (Decl.lines (indent ++ [' ', ' ']) body ++
        ⟨indent, .keyword .endKw, "end".toList⟩ :: newline :: rest)) :=
      spelled_keyword (by simp) .doKw (by decide) (endsName_cons (by decide) (by decide) _) (spelled_newline hbody)
    have hcall := c.spelled indent _ hindent hdo
    simpa [Statement.words] using hcall

theorem lines_spelled : ∀ (program : List Statement) (indent : List Char) (rest : List Word), (∀ c ∈ indent, c = ' ') →
    Spelled rest → Spelled (Decl.lines indent program ++ rest)
  | [], _, _, _, h => h
  | st :: program, indent, rest, hindent, h => by
    rw [Decl.lines, List.append_assoc]
    exact st.spelled indent _ hindent (lines_spelled program indent rest hindent h)

end

theorem write_spelled (program : List Statement) : Spelled (Decl.lines [] program) := by
  have h := lines_spelled program [] [] (by simp) .nil
  rwa [List.append_nil] at h

end PuppetDocs.Ruby.Decl
