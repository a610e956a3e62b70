import PuppetDocs.Proofs.Decl.Scan

/-
  PuppetDocs.Proofs.Decl.Chain — words that are read with an eye on what stands in front of them.

  Whether `/`, `%` or `<<` opens a literal is decided by the token read last and by the blanks
  behind it. A word `Follows` a token kind if it is read as its token behind a token of that
  kind; in a `Chain` each word follows the one in front of it. The tokens of a chain are known to
  the byte (`placed`), and the heredocs it opens are left without a body (`Chain.walk`). A line
  feed is no word of a chain, as it would ask for these bodies.
-/

namespace PuppetDocs.Ruby.Decl

open Text (byteLength isNameChar)

/-- The tokens of words that stand at `offset`; `spaced` says that what is in front of the first counts as a blank. -/
def placed (offset : Nat) (spaced : Bool) : List Word → List (Token TokenKind)
  | [] => []
  | w :: ws =>
    { kind := w.kind
      text := String.ofList w.text
      span := ⟨offset + byteLength w.gap, offset + byteLength w.chars⟩
      spaced := spaced || !w.gap.isEmpty } :: placed (offset + byteLength w.chars) false ws

/-- The heredocs that the tokens open. -/
def opened (ts : List (Token TokenKind)) : List Pending :=
  ts.filterMap fun t => (heredocOf? t).map fun heredoc => { heredoc, start := t.span.start }

theorem placed_append (offset : Nat) (spaced : Bool) (vs ws : List Word) :
    placed offset spaced (vs ++ ws) =
      placed offset spaced vs ++ placed (offset + byteLength (print vs)) (spaced && vs.isEmpty) ws := by
  induction vs generalizing offset spaced with
  | nil => simp [placed]
  | cons v vs ih => simp [placed, ih, Nat.add_assoc]

theorem placed_start {offset : Nat} {spaced : Bool} {ws : List Word} {t : Token TokenKind}
    (h : t ∈ placed offset spaced ws) : offset ≤ t.span.start := by
  induction ws generalizing offset spaced with
  | nil => cases h
  | cons w ws ih =>
    rcases List.mem_cons.mp h with rfl | h
    · exact Nat.le_add_right _ _
    · exact Nat.le_trans (Nat.le_add_right _ _) (ih h)

theorem placed_start_le {offset : Nat} {spaced : Bool} {ws : List Word} {t : Token TokenKind}
    (h : t ∈ placed offset spaced ws) : t.span.start ≤ offset + byteLength (print ws) := by
  induction ws generalizing offset spaced with
  | nil => cases h
  | cons w ws ih =>
    rw [print_cons, Text.byteLength_append, ← Nat.add_assoc]
    rcases List.mem_cons.mp h with rfl | h
    · rw [Word.chars, Text.byteLength_append]
      dsimp only
      omega
    · exact ih h

/-- Only a string can be the marker of a heredoc. -/
theorem opened_of_not_string {ws : List Word} (h : ∀ w ∈ ws, ∀ v, w.kind ≠ .string v) (offset : Nat) (spaced : Bool) :
    opened (placed offset spaced ws) = [] := by
  induction ws generalizing offset spaced with
  | nil => rfl
  | cons w ws ih =>
    obtain ⟨hw, hws⟩ := List.forall_mem_cons.mp h
    have hrest := ih hws (offset + byteLength w.chars) false
    unfold opened at hrest ⊢
    rw [placed, List.filterMap_cons, hrest, heredocOf?_plain hw]
    rfl

/-- Behind a token the placed tokens are what their words spell. -/
theorem placed_spells (offset : Nat) (ws : List Word) : List.Forall₂ Word.Spells ws (placed offset false ws) := by
  induction ws generalizing offset with
  | nil => exact .nil
  | cons w ws ih => exact .cons ⟨rfl, rfl, fun _ hgap => by simp [hgap], fun hgap => by simp [hgap]⟩ (ih _)

/-- In front of `more` and behind a token of the kind `last` the word is read as a token of its kind, and opens the heredoc
of which it is the marker. -/
def Word.ReadsAfter (w : Word) (last : Option TokenKind) (more : List Char) : Prop :=
  ∀ lines s r gap, r.lastKind? = last → (w.gap ≠ [] → r.afterSpace = true) →
    ∃ l width, lexeme? (w.text ++ more) = some (l, width) ∧
      accept lines s r gap (w.text ++ more) width l =
        .ok (some (s.push (r.token w.kind w.text), gap + w.text.length))

theorem Word.Reads.after {w : Word} {more : List Char} (h : w.Reads more) (hnewline : w.kind ≠ .newline)
    (hstring : ∀ v, w.kind ≠ .string v) (last : Option TokenKind) : w.ReadsAfter last more := by
  intro lines s r gap _ _
  obtain ⟨l, width, hl, haccept⟩ := h lines s r gap fun he => absurd he hnewline
  refine ⟨l, width, hl, ?_⟩
  rw [haccept, found, List.take_left, push_eq_add (heredocOf?_of_not_string hstring)]

/-- The word is found where it stands, and the blanks behind it are not its own. -/
structure Word.Follows (w : Word) (last : Option TokenKind) (more : List Char) : Prop where
  gap : ∀ c ∈ w.gap, c = ' '
  head : ∃ c r, w.text = c :: r ∧ c ∉ [' ', '\t', '\r', '\x0c', '\\']
  solid : ∃ front c, w.text = front ++ [c] ∧ c ∉ [' ', '\t', '\n', '\r', '\\']
  notDocument : "=begin".toList.isPrefixOf (w.chars ++ more) = false
  notData : isDataMarker (w.chars ++ more) = false
  reads : w.ReadsAfter last more

variable {lines : LineIndex} {w : Word} {ws : List Word} {last : Option TokenKind} {more : List Char}

theorem Word.Stands.follows (h : w.Stands more) (hnewline : w.kind ≠ .newline) (hstring : ∀ v, w.kind ≠ .string v)
    (hsolid : ∃ front c, w.text = front ++ [c] ∧ c ∉ [' ', '\t', '\n', '\r', '\\']) (last : Option TokenKind) :
    w.Follows last more :=
  ⟨h.gap, h.head, hsolid, h.notDocument, h.notData, h.reads.after hnewline hstring last⟩

/-- A sign that no longer sign starts with. -/
theorem follows_sign {gap text : List Char} {kind : TokenKind} (hgap : ∀ c ∈ gap, c = ' ') (hhead : StartsWord gap text)
    (hsolid : ∃ front c, text = front ++ [c] ∧ c ∉ [' ', '\t', '\n', '\r', '\\'])
    (hkind : kind ∉ [.newline, .constant, .symbol, .slash]) (hstring : ∀ v, kind ≠ .string v)
    (hl : lexeme? (text ++ more) = some (.plain kind, text.length)) (last : Option TokenKind) :
    Word.Follows ⟨gap, kind, text⟩ last more :=
  (stands_of_head hgap hhead (reads_plain hl hkind)).follows (fun he => hkind (he ▸ by simp)) hstring hsolid last

/-! ## Where the text ends -/

/-- The text ends here, or what ends a name comes next. -/
def EndsWord (more : List Char) : Prop := more = [] ∨ EndsName more

/-- At the end of the text stands what would stand there in front of a line feed. -/
theorem lexeme?_end {p : List Char → Prop} (hfeed : p ['\n']) {cs : List Char} {l : Lexeme} (hmore : more = [] ∨ p more)
    (hne : cs ≠ []) (h : ∀ {more}, p more → lexeme? (cs ++ more) = some (l, cs.length)) :
    lexeme? (cs ++ more) = some (l, cs.length) := by
  rcases hmore with rfl | hmore
  · rw [List.append_nil, ← lexeme?_line hne []]
    exact h hfeed
  · exact h hmore

theorem EndsWord.lexeme {cs : List Char} {l : Lexeme} (hmore : EndsWord more) (hne : cs ≠ [])
    (h : ∀ {more}, EndsName more → lexeme? (cs ++ more) = some (l, cs.length)) :
    lexeme? (cs ++ more) = some (l, cs.length) :=
  lexeme?_end (endsName_cons (by decide) (by decide) []) hmore hne h

theorem EndsWord.isKey (hmore : EndsWord more) (r : Reading TokenKind) : Ruby.isKey r more = false := by
  rcases hmore with rfl | hmore
  · rfl
  · exact isKey_false r hmore

theorem follows_const {gap : List Char} (hgap : ∀ c ∈ gap, c = ' ') (c : ConstName) (hmore : EndsWord more)
    (last : Option TokenKind) : Word.Follows ⟨gap, .constant, c.chars⟩ last more := by
  obtain ⟨d, body, hchars, hd, hbody⟩ := c.isName
  have hhead : StartsWord gap c.chars := by
    rw [hchars]
    exact startsWord_cons (not_mem_of_holds hd (by decide)) gap body
  have hletter : d.isAlpha = true := Bool.or_eq_true_iff.mpr (.inl hd)
  have hname : ∀ e ∈ c.chars, isNameChar e = true := by
    rw [hchars]
    exact List.forall_mem_cons.mpr ⟨by simp [isNameChar, Char.isAlphanum, hletter], hbody⟩
  have hne : c.chars ≠ [] := by simp [hchars]
  have hreads : Word.Reads ⟨gap, .constant, c.chars⟩ more := by
    intro lines s r n _
    refine ⟨.plain .constant, c.chars.length, hmore.lexeme hne fun hmore => lexeme?_const c.isName hmore, ?_⟩
    simp only [accept, List.drop_left, hmore.isKey r, Bool.false_eq_true, if_false]
  exact (stands_of_head hgap hhead hreads).follows (by simp) (by simp) (name_solid hne hname) last

theorem follows_method {gap : List Char} (hgap : ∀ c ∈ gap, c = ' ') (m : MethodName) (hmore : EndsWord more)
    (hdata : gap = [] → isDataMarker (m.chars ++ more) = false) (last : Option TokenKind) :
    Word.Follows ⟨gap, .ident, m.chars⟩ last more := by
  have hreads := reads_of_word gap (hmore.lexeme m.ne_nil fun hmore => lexeme?_name m.isName hmore) hmore.isKey
  rw [m.notKeyword] at hreads
  exact (stands_name hgap m hreads hdata).follows (by simp) (by simp) m.solid last

theorem follows_keyword {gap : List Char} (hgap : ∀ c ∈ gap, c = ' ') {k : Keyword} (hk : k ∈ writtenKeywords)
    (hmore : EndsWord more) (last : Option TokenKind) : Word.Follows ⟨gap, .keyword k, k.word.toList⟩ last more := by
  obtain ⟨hword, hname, hletters, hstarts⟩ := keyword_isName hk
  have hne : k.word.toList ≠ [] := by
    obtain ⟨c, body, mark, hchars, -⟩ := hname
    rw [hchars]
    exact List.cons_ne_nil _ _
  have hreads := reads_of_word gap (hmore.lexeme hne fun hmore => lexeme?_name hname hmore) hmore.isKey
  rw [hword] at hreads
  exact (stands_of_head hgap hstarts hreads).follows (by simp) (by simp) (name_solid hne hletters) last

/-! ## Chains -/

/-- Words that the scanner finds one after the other in front of `more`, the first behind a token of the kind `last`. -/
inductive Chain (more : List Char) : Option TokenKind → List Word → Prop
  | nil {last : Option TokenKind} : Chain more last []
  | cons {last : Option TokenKind} {w : Word} {ws : List Word} : w.Follows last (print ws ++ more) →
      Chain more (some w.kind) ws → Chain more last (w :: ws)

theorem afterSpace_gap {gap : List Char} (h : ∀ c ∈ gap, c = ' ') (r : Reading TokenKind) :
    (r.skip gap).afterSpace = (r.afterSpace || !gap.isEmpty) := by
  cases gap with
  | nil => simp
  | cons c gap => rw [afterSpace_skip h (by simp), List.isEmpty_cons, Bool.not_false, Bool.or_true]

theorem Chain.solid (h : Chain more last ws) (hne : ws ≠ []) :
    ∃ front c, print ws = front ++ [c] ∧ c ∉ [' ', '\t', '\n', '\r', '\\'] := by
  induction h with
  | nil => exact absurd rfl hne
  | @cons last w ws hw _ ih =>
    by_cases hws : ws = []
    · obtain ⟨front, c, hfront, hc⟩ := hw.solid
      exact ⟨w.gap ++ front, c, by simp [hws, Word.chars, hfront], hc⟩
    · obtain ⟨front, c, hfront, hc⟩ := ih hws
      exact ⟨w.chars ++ front, c, by simp [hfront], hc⟩

theorem step_follows (h : w.Follows last more) {s : Scanner} (hlast : s.reading.lastKind? = last) :
    step lines s (w.chars ++ more) =
      .ok (some (s.push ((s.reading.skip w.gap).token w.kind w.text), w.chars.length)) := by
  obtain ⟨c, r, htext, hc⟩ := h.head
  obtain ⟨l, width, hl, haccept⟩ := h.reads lines s (s.reading.skip w.gap) w.gap.length
    (by simpa [Reading.lastKind?] using hlast) fun hne => afterSpace_skip h.gap hne _
  have hchars : w.chars ++ more = w.gap ++ (w.text ++ more) := List.append_assoc w.gap w.text more
  have hdocument := h.notDocument
  have hdata := h.notData
  rw [hchars] at hdocument hdata ⊢
  rw [step_gap w.gap h.gap ⟨c, r ++ more, by rw [htext]; rfl, hc⟩ hdocument hdata hl, haccept, Word.chars,
    List.length_append]

/-- The scanner goes through a chain to its end: it finds the tokens, and the heredocs wait for their bodies. -/
theorem Chain.walk (lines : LineIndex) (h : Chain more last ws) (s : Scanner) (hlast : s.reading.lastKind? = last) :
    Ruby.walk lines (print ws ++ more) 0 s = Ruby.walk lines more 0 {
      reading := {
        behind := (print ws).reverse ++ s.reading.behind
        offset := s.reading.offset + byteLength (print ws)
        tokens := (placed s.reading.offset s.reading.afterSpace ws).reverse ++ s.reading.tokens
        comments := s.reading.comments }
      pending := s.pending ++ opened (placed s.reading.offset s.reading.afterSpace ws) } := by
  induction h generalizing s with
  | nil => simp [placed, opened]
  | @cons last w ws hw _ ih =>
    obtain ⟨front, c, hsolid, hc⟩ := hw.solid
    let t := (s.reading.skip w.gap).token w.kind w.text
    let s' := (s.push t).pass w.chars
    have hne : w.chars ++ (print ws ++ more) ≠ [] := by
      obtain ⟨c, r, htext, -⟩ := hw.head
      simp [Word.chars, htext]
    have hstep : Ruby.walk lines (print (w :: ws) ++ more) 0 s = Ruby.walk lines (print ws ++ more) 0 s' := by
      rw [print_cons, List.append_assoc, walk_next hne (step_follows hw hlast), List.drop_left, List.take_left]
    have htoken : t = {
        kind := w.kind
        text := String.ofList w.text
        span := ⟨s.reading.offset + byteLength w.gap, s.reading.offset + byteLength w.chars⟩
        spaced := s.reading.afterSpace || !w.gap.isEmpty } := by
      simp [t, Reading.token, afterSpace_gap hw.gap, Word.chars, Nat.add_assoc]
    have hchars : w.chars = w.gap ++ front ++ [c] := by rw [Word.chars, hsolid, List.append_assoc]
    have hspace : s'.reading.afterSpace = false := afterSpace_solid hchars hc _
    have hkind : s'.reading.lastKind? = some w.kind := by simp [s', t, Reading.lastKind?, Scanner.push, Reading.token]
    rw [hstep, ih s' hkind, hspace, placed, ← htoken]
    have hoffset : s'.reading.offset = s.reading.offset + byteLength w.chars := by simp [s', Scanner.push]
    congr 1
    rw [hoffset]
    simp only [s', Scanner.push, Scanner.pass, Reading.skip_behind, Reading.skip_tokens, Reading.skip_comments, opened,
      List.filterMap_cons, print_cons, List.reverse_append, List.reverse_cons, List.append_assoc, Nat.add_assoc,
      Text.byteLength_append, List.singleton_append]
    cases heredocOf? t <;> rfl

theorem Path.chain (p : Path) {gap : List Char} (hgap : ∀ c ∈ gap, c = ' ') (hrest : EndsWord (print ws ++ more))
    (h : Chain more (some .constant) ws) : Chain more last (p.words gap ++ ws) := by
  induction p generalizing ws with
  | name c => exact .cons (follows_const hgap c hrest last) h
  | member p c ih =>
    have hconst : Word.Follows ⟨[], .constant, c.chars⟩ (some .colonColon) (print ws ++ more) :=
      follows_const (by simp) c hrest _
    have hcolons : (sign .colonColon "::").Follows (some .constant)
        (print (⟨[], .constant, c.chars⟩ :: ws) ++ more) :=
      follows_sign (by simp) (startsWord_cons (by decide) _ _) ⟨[':'], ':', rfl, by decide⟩ (by decide) (by simp) rfl _
    rw [Path.words, List.append_assoc]
    exact ih (.inr (endsName_colons _)) (.cons hcolons (.cons hconst h))

end PuppetDocs.Ruby.Decl
