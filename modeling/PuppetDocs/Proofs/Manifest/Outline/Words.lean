import PuppetDocs.Proofs.Decl.Words
import PuppetDocs.Proofs.Manifest.Outline.Syntax
import PuppetDocs.Proofs.Manifest.Tokens

/-
  PuppetDocs.Proofs.Manifest.Outline.Words — the tokens of a written manifest.

  A name, a type name and a numeral end where `Delimited` holds of what follows; a string and
  most signs end by themselves. `Word.Stands` says that the scanner, outside of heredoc bodies,
  finds the token of a word behind the blanks of its gap. Where a step finds each word behind the
  one in front of it, the tokens of the text are those its words stand for, each at the bytes it
  is written in (`scan_finds`). Words that stand one behind the other are `Spelled`, and they are
  found so (`scan_spelled`).
-/

namespace PuppetDocs.Manifest.Outline

open Ruby.Decl (Quote run_append ne_of_holds)
open Text (byteLength run isNameChar)

@[simp] theorem chars_nil : chars [] = [] := rfl

@[simp] theorem chars_cons (w : Word) (ws : List Word) : chars (w :: ws) = w.chars ++ chars ws := rfl

@[simp] theorem chars_append (ws ws' : List Word) : chars (ws ++ ws') = chars ws ++ chars ws' := List.flatMap_append

@[simp] theorem print_nil : print [] = ['\n'] := rfl

@[simp] theorem print_cons (w : Word) (ws : List Word) : print (w :: ws) = w.chars ++ print ws :=
  List.append_assoc ..

@[simp] theorem print_append (ws ws' : List Word) : print (ws ++ ws') = chars ws ++ print ws' := by
  simp [print]

/-! ## Names and numerals -/

/-- No name, type name or numeral goes on here. -/
def Delimited (more : List Char) : Prop := ∀ c ∈ more.head?, isNameChar c = false ∧ c ≠ ':' ∧ c ≠ '.'

theorem delimited_cons {c : Char} (hc : isNameChar c = false ∧ c ≠ ':' ∧ c ≠ '.') (r : List Char) :
    Delimited (c :: r) := by
  intro d hd
  cases hd
  exact hc

section Names

variable {first : Char → Bool} {c : Char} {body cs more : List Char}

theorem qualifiedTail_delimited (first : Char → Bool) (h : Delimited more) : qualifiedTail first more = 0 := by
  rcases more with _ | ⟨c, r⟩
  · rfl
  · obtain ⟨hname, hcolon, -⟩ := h c rfl
    rw [qualifiedTail, hname]
    · rfl
    · exact fun c' r' hc => absurd hc hcolon

/-- A part of a name is read to its end. -/
theorem qualifiedTail_body (hbody : ∀ d ∈ body, isNameChar d = true) (more : List Char) :
    qualifiedTail first (body ++ more) = body.length + qualifiedTail first more := by
  induction body with
  | nil => simp
  | cons d body ih =>
    have hd : isNameChar d = true := hbody d (by simp)
    have hcolon : d ≠ ':' := ne_of_holds hd (by decide)
    rw [List.cons_append, qualifiedTail, if_pos hd, ih fun e he => hbody e (by simp [he]), List.length_cons]
    · omega
    · exact fun c' r' hc => absurd hc hcolon

/-- Behind its first character a qualified name is read to its end. -/
theorem IsQualified.tail (h : IsQualified first cs) (hmore : Delimited more) :
    ∃ c r, cs = c :: r ∧ first c = true ∧ qualifiedTail first (r ++ more) = r.length := by
  induction h with
  | @part c body hc hbody =>
    refine ⟨c, body, rfl, hc, ?_⟩
    rw [qualifiedTail_body hbody, qualifiedTail_delimited first hmore, Nat.add_zero]
  | @member c body path hc hbody _ ih =>
    obtain ⟨d, r, rfl, hd, htail⟩ := ih
    refine ⟨c, _, rfl, hc, ?_⟩
    rw [List.append_assoc, qualifiedTail_body hbody]
    simp only [List.cons_append, qualifiedTail, hd, if_true, htail, List.length_append, List.length_cons]
    omega

theorem IsReference.read (h : IsReference first cs) (hcolon : first ':' = false) (hmore : Delimited more) :
    qualified first (cs ++ more) = cs.length := by
  rcases h with h | ⟨path, rfl, h⟩
  · obtain ⟨c, r, rfl, hc, htail⟩ := h.tail hmore
    have hne : c ≠ ':' := ne_of_holds hc hcolon
    rw [List.cons_append, qualified, if_pos hc, htail, List.length_cons, Nat.add_comm]
    exact fun c' r' he => absurd he hne
  · obtain ⟨c, r, rfl, hc, htail⟩ := h.tail hmore
    simp only [List.cons_append, qualified, hc, if_true, htail, List.length_cons]
    omega

theorem IsQualified.head (h : IsQualified first cs) : ∃ c r, cs = c :: r ∧ first c = true := by
  rcases h with ⟨hc, -⟩ | ⟨hc, -, -⟩
  · exact ⟨_, _, rfl, hc⟩
  · exact ⟨_, _, rfl, hc⟩

theorem IsReference.head (h : IsReference first cs) : ∃ c r, cs = c :: r ∧ (c = ':' ∨ first c = true) := by
  rcases h with h | ⟨path, rfl, -⟩
  · obtain ⟨c, r, rfl, hc⟩ := h.head
    exact ⟨c, r, rfl, .inr hc⟩
  · exact ⟨':', ':' :: path, rfl, .inl rfl⟩

theorem IsReference.length_ne_zero (h : IsReference first cs) : cs.length ≠ 0 := by
  obtain ⟨c, r, rfl, -⟩ := h.head
  exact Nat.succ_ne_zero _

theorem qualified_of_head (hc : first c = false) (hcolon : c ≠ ':') (r : List Char) : qualified first (c :: r) = 0 := by
  rw [qualified, hc]
  · rfl
  · exact fun c' r' he => absurd he hcolon

theorem isLowerStart_of_isUpper (h : c.isUpper = true) : isLowerStart c = false :=
  Ruby.Decl.isNameStart_of_isUpper h

/-- A type name is no name. -/
theorem IsReference.not_lower (h : IsReference Char.isUpper cs) (more : List Char) :
    qualified isLowerStart (cs ++ more) = 0 := by
  rcases h with h | ⟨path, rfl, h⟩
  · obtain ⟨c, r, rfl, hc⟩ := h.head
    exact qualified_of_head (isLowerStart_of_isUpper hc) (ne_of_holds hc (by decide)) _
  · obtain ⟨c, r, rfl, hc⟩ := h.head
    simp [qualified, isLowerStart_of_isUpper hc]

end Names

/-! ## Lexemes -/

section Lexemes

variable {cs more : List Char}

theorem wordKind_delimited (cs : List Char) (h : Delimited more) : wordKind cs more = (keyword? cs).getD .name := by
  unfold wordKind
  split
  · next r => exact absurd rfl (h ':' rfl).2.1
  · rfl

theorem lexeme?_word (h : IsReference isLowerStart cs) (hmore : Delimited more) :
    lexeme? (cs ++ more) = some (.plain ((keyword? cs).getD .name), cs.length) := by
  have hread : qualified isLowerStart (cs ++ more) = cs.length := h.read (by decide) hmore
  have hne := h.length_ne_zero
  obtain ⟨c, r, rfl, hc⟩ := h.head
  have hhash : c ≠ '#' := by
    rcases hc with rfl | hc
    · decide
    · exact ne_of_holds hc (by decide)
  rw [List.cons_append] at hread ⊢
  simp only [lexeme?, hread, beq_iff_eq, hhash, if_false]
  rw [if_pos hne, ← List.cons_append, List.take_left, List.drop_left, wordKind_delimited _ hmore]

theorem lexeme?_typeName (h : IsReference Char.isUpper cs) (hmore : Delimited more) :
    lexeme? (cs ++ more) = some (.plain .typeName, cs.length) := by
  have hread : qualified Char.isUpper (cs ++ more) = cs.length := h.read (by decide) hmore
  have hlower := h.not_lower more
  have hne := h.length_ne_zero
  obtain ⟨c, r, rfl, hc⟩ := h.head
  have hhash : c ≠ '#' := by
    rcases hc with rfl | hc
    · decide
    · exact ne_of_holds hc (by decide)
  rw [List.cons_append] at hread hlower ⊢
  simp only [lexeme?, hread, hlower, beq_iff_eq, hhash, if_false, ne_eq, not_true_eq_false]
  rw [if_pos hne]

theorem lexeme?_numeral (h : IsNumeral cs) (hmore : Delimited more) :
    lexeme? (cs ++ more) = some (.plain .number, cs.length) := by
  obtain ⟨c, body, rfl, hc, hbody⟩ := h
  have hhash : c ≠ '#' := ne_of_holds hc (by decide)
  have hcolon : c ≠ ':' := ne_of_holds hc (by decide)
  obtain ⟨hlower, hupper⟩ := Ruby.Decl.isDigit_apart hc
  have hrun : run (fun d => isNameChar d || d == '.') (body ++ more) = body.length := by
    refine run_append hbody fun d hd => ?_
    obtain ⟨hname, -, hpoint⟩ := hmore d hd
    simp [hname, hpoint]
  have hnoName : ∀ r, qualified isLowerStart (c :: r) = 0 := qualified_of_head hlower hcolon
  have hnoType : ∀ r, qualified Char.isUpper (c :: r) = 0 := qualified_of_head hupper hcolon
  simp only [List.cons_append, lexeme?, hnoName, hnoType, hc, hrun, beq_iff_eq, hhash, if_false, ne_eq,
    not_true_eq_false, if_true, List.length_cons]
  rw [Nat.add_comm]

theorem lexeme?_variable (h : IsReference isLowerStart cs) (hmore : Delimited more) :
    lexeme? ('$' :: cs ++ more) = some (.plain .variable, ('$' :: cs).length) := by
  have hread : qualified isLowerStart (cs ++ more) = cs.length := h.read (by decide) hmore
  have hne : cs.length ≠ 0 := h.length_ne_zero
  have hlexeme : lexeme? ('$' :: (cs ++ more)) = if qualified isLowerStart (cs ++ more) ≠ 0 then
      some (.plain .variable, 1 + qualified isLowerStart (cs ++ more)) else none := rfl
  rw [List.cons_append, hlexeme, hread, if_pos hne, List.length_cons, Nat.add_comm]

end Lexemes

/-! ## One word -/

/-- The scanner takes the characters of the word for a token of its kind if `more` stands behind them. -/
def Word.Reads (w : Word) (more : List Char) : Prop :=
  ∀ lines s r gap, ∃ l width, lexeme? (w.text ++ more) = some (l, width) ∧
    accept lines s r gap (w.text ++ more) width l = found s r gap (w.text ++ more) w.kind w.text.length

theorem reads_plain {gap text more : List Char} {kind : TokenKind} (hkind : kind ≠ .slash)
    (hl : lexeme? (text ++ more) = some (.plain kind, text.length)) : Word.Reads ⟨gap, kind, text⟩ more := by
  intro lines s r n
  refine ⟨.plain kind, text.length, hl, ?_⟩
  cases kind with
  | slash => exact absurd rfl hkind
  | _ => rfl

theorem reads_string (gap content more : List Char) :
    Word.Reads ⟨gap, .string, Quote.single.enclose content⟩ more := by
  intro lines s r n
  have htext : Quote.single.enclose content ++ more = '\'' :: (Quote.single.escape content ++ '\'' :: more) := by
    simp [Quote.enclose, Quote.char]
  have hbody : (Delimiters.quote '\'' none).body? (Quote.single.escape content ++ '\'' :: more) =
      some (Quote.single.escape content).length := Quote.body?_escape (q := .single) content more
  have hlength : (Quote.single.enclose content).length = 1 + (Quote.single.escape content).length + 1 := by
    simp [Quote.enclose, Nat.add_comm]
  refine ⟨.quote '\'', 1, by rw [htext]; rfl, ?_⟩
  rw [htext, hlength]
  unfold accept
  dsimp only
  rw [if_neg (by decide), List.drop_succ_cons, List.drop_zero, hbody]

def Blanks (gap : List Char) : Prop := ∀ c ∈ gap, isGap c = true

theorem blanks_nil : Blanks [] := nofun

theorem blanks_space : Blanks [' '] := by
  intro c hc
  rw [List.mem_singleton.mp hc]
  rfl

theorem Blanks.newline {indent : List Char} (h : Blanks indent) : Blanks ('\n' :: indent) := by
  intro c hc
  rcases List.mem_cons.mp hc with rfl | hc
  · rfl
  · exact h c hc

theorem Blanks.further {indent : List Char} (h : Blanks indent) : Blanks (indent ++ [' ', ' ']) := by
  intro c hc
  rcases List.mem_append.mp hc with hc | hc
  · exact h c hc
  · simp only [List.mem_cons, List.not_mem_nil, or_false, or_self] at hc
    rw [hc]
    rfl

/-- In front of `more` the word is found behind the blanks of its gap. -/
structure Word.Stands (w : Word) (more : List Char) : Prop where
  gap : Blanks w.gap
  head : ∃ c r, w.text = c :: r ∧ isGap c = false
  reads : w.Reads more

/-- The token is the word as it is found at a byte of the text. -/
structure Word.Spells (w : Word) (offset : Nat) (t : Token TokenKind) : Prop where
  kind : t.kind = w.kind
  text : t.text = String.ofList w.text
  span : t.span = ⟨offset + byteLength w.gap, offset + byteLength w.chars⟩

section Walk

variable {lines : LineIndex} {w : Word} {more : List Char} {s : Scanner}

/-- Behind blanks and outside of all bodies a step takes what stands there. -/
theorem step_outside {gap cs : List Char} (hgap : Blanks gap) (hhead : ∃ c r, cs = c :: r ∧ isGap c = false)
    (hs : s.Outside (s.reading.skip gap).offset) :
    step lines s (gap ++ cs) =
      (lexeme? cs).elim (found s (s.reading.skip gap) gap.length cs .unknown 1) fun l =>
        accept lines s (s.reading.skip gap) gap.length cs l.2 l.1 := by
  obtain ⟨c, r, rfl, hc⟩ := hhead
  have hrun : run isGap (gap ++ c :: r) = gap.length := by
    refine run_append hgap ?_
    intro d hd
    cases hd
    exact hc
  unfold step
  simp only [hrun]
  rw [List.drop_left, List.take_left, ← cover?, cover?_eq_none.mpr hs]
  cases lexeme? (c :: r) <;> rfl

theorem step_lexeme {gap text : List Char} {l : Lexeme} {width : Nat} (hgap : Blanks gap)
    (hhead : ∃ c r, text = c :: r ∧ isGap c = false) (hs : s.Outside (s.reading.skip gap).offset)
    (hl : lexeme? (text ++ more) = some (l, width)) :
    step lines s (gap ++ (text ++ more)) = accept lines s (s.reading.skip gap) gap.length (text ++ more) width l := by
  obtain ⟨c, r, htext, hc⟩ := hhead
  rw [step_outside hgap ⟨c, r ++ more, by rw [htext, List.cons_append], hc⟩ hs, hl, Option.elim_some]

/-- The step in front of a word finds its token. -/
theorem step_stands (h : w.Stands more) (hs : s.Outside (s.reading.skip w.gap).offset) :
    step lines s (w.chars ++ more) =
      .ok (some (s.add ((s.reading.skip w.gap).token w.kind w.text), w.chars.length)) := by
  obtain ⟨l, width, hl, haccept⟩ := h.reads lines s (s.reading.skip w.gap) w.gap.length
  rw [Word.chars, List.append_assoc, step_lexeme h.gap h.head hs hl, haccept, found, List.take_left, List.length_append]

/-- The walk over a word adds its token. -/
theorem walk_stands (h : w.Stands more) (hs : s.Outside (s.reading.skip w.gap).offset) :
    walk lines (w.chars ++ more) 0 s =
      walk lines more 0 ((s.add ((s.reading.skip w.gap).token w.kind w.text)).pass w.chars) :=
  walk_front (step_stands h hs)

end Walk

/-! ## Lists of words -/

/-- The tokens are the words, the first of which is found at byte `offset`. -/
inductive Lies : Nat → List Word → List (Token TokenKind) → Prop
  | nil {offset : Nat} : Lies offset [] []
  | cons {offset : Nat} {w : Word} {ws : List Word} {t : Token TokenKind} {ts : List (Token TokenKind)} :
      w.Spells offset t → Lies (offset + byteLength w.chars) ws ts → Lies offset (w :: ws) (t :: ts)

theorem Lies.kinds {offset : Nat} {ws : List Word} {ts : List (Token TokenKind)} (h : Lies offset ws ts) :
    ts.map Token.kind = ws.map Word.kind := by
  induction h with
  | nil => rfl
  | cons ht _ ih => rw [List.map_cons, List.map_cons, ih, ht.kind]

theorem Lies.length {offset : Nat} {ws : List Word} {ts : List (Token TokenKind)} (h : Lies offset ws ts) :
    ts.length = ws.length := by
  rw [← List.length_map, h.kinds, List.length_map]

theorem lastKind?_skip (r : Reading TokenKind) (cs : List Char) : (r.skip cs).lastKind? = r.lastKind? := by
  rw [Reading.lastKind?, Reading.skip_tokens, Reading.lastKind?]

theorem outside_of_empty {s : Scanner} (hs : s.bodies = []) (offset : Nat) : s.Outside offset := by
  rw [Scanner.Outside, hs]
  exact List.forall_mem_nil _

/-- In front of `more`, the step in front of the first word finds its token if `P` holds of the words and of the kind
of the token in front of them, and then `P` holds of the words behind it. -/
def Finds (more : List Char) (P : Option TokenKind → List Word → Prop) : Prop :=
  ∀ (lines : LineIndex) {s : Scanner} {w : Word} {ws : List Word}, s.bodies = [] → P s.reading.lastKind? (w :: ws) →
    step lines s (w.chars ++ (chars ws ++ more)) =
      .ok (some (s.add ((s.reading.skip w.gap).token w.kind w.text), w.chars.length)) ∧ P (some w.kind) ws

section Finds

variable {more : List Char} {P : Option TokenKind → List Word → Prop} {ws : List Word}

/-- The walk over words that are found adds their tokens. -/
theorem walk_finds (lines : LineIndex) (hfinds : Finds more P) {last : Option TokenKind} (h : P last ws) (s : Scanner)
    (hs : s.bodies = []) (hlast : s.reading.lastKind? = last) :
    ∃ s' tokens, walk lines (chars ws ++ more) 0 s = walk lines more 0 s' ∧
      s'.reading.comments = s.reading.comments ∧ s'.reading.tokens = tokens.reverse ++ s.reading.tokens ∧
      Lies s.reading.offset ws tokens := by
  -- No word opens a heredoc, so the scanner stays without bodies.
  induction ws generalizing s last with
  | nil => exact ⟨s, [], rfl, rfl, rfl, .nil⟩
  | cons w ws ih =>
    subst hlast
    let t := (s.reading.skip w.gap).token w.kind w.text
    obtain ⟨hstep, hws⟩ := hfinds lines hs h
    have hlast : ((s.add t).pass w.chars).reading.lastKind? = some w.kind := by
      rw [Scanner.pass_reading, lastKind?_skip]
      rfl
    obtain ⟨s', tokens, hwalk, hcomments, htokens, hlies⟩ := ih hws ((s.add t).pass w.chars) hs hlast
    refine ⟨s', t :: tokens, ?_, ?_, ?_, .cons ⟨rfl, rfl, ?_⟩ ?_⟩
    · rw [chars_cons, List.append_assoc, walk_front hstep, hwalk]
    · rw [hcomments]
      simp [Scanner.add]
    · rw [htokens]
      simp [Scanner.add]
    · simp [t, Reading.token, Word.chars, Nat.add_assoc]
    · simpa [Scanner.add] using hlies

/-- The tokens of a text of words that are found are those of its words, and it has no comments. -/
theorem scan_finds (hfinds : Finds more P) (h : P none ws) (hend : ∀ lines s, walk lines more 0 s = .ok s) :
    ∃ s, scan (chars ws ++ more) = .ok s ∧ s.comments = [] ∧ s.stop.kind = .eof ∧ Lies 0 ws s.tokens := by
  obtain ⟨s', tokens, hwalk, hcomments, htokens, hlies⟩ := walk_finds (.ofText (chars ws ++ more)) hfinds h {} rfl rfl
  refine ⟨_, by rw [scan, hwalk, hend], ?_, rfl, ?_⟩
  · rw [hcomments]
    rfl
  · rw [htokens]
    simpa using hlies

end Finds

/-- Words that the scanner finds one after the other. -/
inductive Spelled : List Word → Prop
  | nil : Spelled []
  | cons {w : Word} {ws : List Word} : w.Stands (print ws) → Spelled ws → Spelled (w :: ws)

/-- The tokens of a spelled text are those of its words, and it has no comments. -/
theorem scan_spelled {ws : List Word} (h : Spelled ws) :
    ∃ s, scan (print ws) = .ok s ∧ s.comments = [] ∧ s.stop.kind = .eof ∧ Lies 0 ws s.tokens := by
  have hfinds : Finds ['\n'] fun _ ws => Spelled ws := by
    intro lines s w ws hs h
    cases h with
    | cons hstands hws => exact ⟨step_stands hstands (outside_of_empty hs _), hws⟩
  exact scan_finds hfinds (P := fun _ ws => Spelled ws) h fun _ _ => rfl

end PuppetDocs.Manifest.Outline
