import PuppetDocs.Proofs.LineEnds.Outline

/-
  PuppetDocs.Proofs.LineEnds.Tokens — the tokens of a text with either kind of line ends.

  A token that holds no line feed is found in both texts with the same text and kind, and a list
  of words with the same words (`accept_crlf`); what follows it decides alike, as neither end of
  a line is a colon, an equals sign or a space. There is one exception. A quote at the end of a
  line and behind `<<` opens no heredoc, but in front of a carriage return it would be a tag that
  is not closed (`LoneQuote`).
-/

namespace PuppetDocs.Ruby

open Text (byteLength run crlf)

/-- The kinds of tokens whose text may hold a line feed here. -/
def TokenKind.spansLines : TokenKind → Bool
  | .newline | .words _ | .symbolWords _ => true
  | _ => false

/-- The text of this kind holds no line feed, unless it may. -/
def Inline (kind : TokenKind) (cs : List Char) : Prop := kind.spansLines = true ∨ '\n' ∉ cs

/-! ## Widths -/

theorem length_crlf_take {cs : List Char} {n : Nat} (h : '\n' ∉ cs.take n) (hn : n ≤ cs.length) :
    (crlf (cs.take n)).length = n := by
  rw [Text.crlf_line h, List.length_take, Nat.min_eq_left hn]

theorem length_crlf_take_add (cs : List Char) (m n : Nat) :
    (crlf (cs.take (m + n))).length = (crlf (cs.take m)).length + (crlf ((cs.drop m).take n)).length := by
  rw [List.take_add, Text.crlf_append, List.length_append]

/-- Behind both texts' front parts stands the same run of characters. -/
theorem length_crlf_run {p : Char → Bool} (hp : p '\n' = false) (cs : List Char) (m : Nat) :
    (crlf (cs.take (m + run p (cs.drop m)))).length = (crlf (cs.take m)).length + run p (cs.drop m) := by
  have hrun : '\n' ∉ (cs.drop m).takeWhile p := by
    intro hmem
    have := List.mem_takeWhile_imp hmem
    rw [hp] at this
    cases this
  rw [length_crlf_take_add, take_run, Text.crlf_line hrun]
  rfl

/-- A stretch behind an opening, and the character that closes it. -/
theorem length_crlf_closed {cs : List Char} {width m : Nat} {c : Char} (hline : '\n' ∉ cs.take width)
    (hle : width ≤ cs.length) (hclose : (cs.drop width)[m]? = some c) (hc : c ≠ '\n') :
    (crlf (cs.take (width + m + 1))).length = width + (crlf ((cs.drop width).take m)).length + 1 := by
  rw [Nat.add_assoc, length_crlf_take_add, length_crlf_take hline hle, List.take_add_one, hclose, Text.crlf_append,
    Option.toList_some, Text.crlf_cons hc, List.length_append]
  rfl

/-! ## Lexemes -/

/-- A quote that ends its line behind `<<`, where the tag of a heredoc could begin. -/
def LoneQuote (cs : List Char) : Prop := ∃ marker below, cs = '<' :: '<' :: marker ++ '\n' :: below ∧ EndsAtQuote marker

theorem lexeme?_crlf {cs : List Char} (hline : cs.head? ≠ some '\n') (hcomment : cs.head? ≠ some '#')
    (hquote : ¬LoneQuote cs) : lexeme? (crlf cs) = lexeme? cs := by
  rcases line_cases cs with hn | ⟨a, x, ha, rfl⟩
  · rw [Text.crlf_line hn]
  rcases a with _ | ⟨c, a⟩
  · exact absurd rfl hline
  · have hreturn := lexeme?_return (a := c :: a) (by simp) hcomment
      (fun s hs hends => hquote ⟨s, x, by rw [hs], hends⟩) (crlf x)
    rw [Text.crlf_append, Text.crlf_line ha, Text.crlf_newline, lexeme?_line (by simp), hreturn]

/-! ## Tokens -/

/-- The two readings answer alike what a token asks of what stands in front of it. -/
structure Alike (r r' : Reading TokenKind) : Prop where
  last : r'.lastKind? = r.lastKind?
  space : r'.afterSpace = r.afterSpace

section Accept

variable {lines lines' : LineIndex} {s s' t : Scanner} {r r' : Reading TokenKind} {gap gap' n : Nat} {cs : List Char}
variable {o o' : Step}

theorem Alike.valueMayStart (h : Alike r r') (next : List Char) : valueMayStart r' (crlf next) = valueMayStart r next := by
  rw [valueMayStart_crlf, Ruby.valueMayStart, Ruby.valueMayStart, h.last, h.space]

theorem Alike.isKey (h : Alike r r') (rest : List Char) : isKey r' (crlf rest) = isKey r rest := by
  rw [isKey_crlf]
  simp only [Ruby.isKey, h.last]

/-- The first step finds a token, and the second one finds it with the same kind if the text of the token allows. -/
def Paired (s s' : Scanner) (r r' : Reading TokenKind) (gap gap' : Nat) (cs : List Char) (o o' : Step) : Prop :=
  ∃ kind width opened, o = found (s.expect opened r.offset) r gap cs kind width ∧
    (Inline kind (cs.take width) →
      o' = found (s'.expect opened r'.offset) r' gap' (crlf cs) kind (crlf (cs.take width)).length)

/-- A token that has to stand in one line, or does, is as wide in both texts. -/
theorem Paired.of_found {kind : TokenKind} {width : Nat}
    (hline : kind.spansLines = false ∨ '\n' ∉ cs.take width) (hle : width ≤ cs.length)
    (ho : o = found s r gap cs kind width) (ho' : o' = found s' r' gap' (crlf cs) kind width) :
    Paired s s' r r' gap gap' cs o o' := by
  refine ⟨kind, width, none, by rw [ho, Scanner.expect_none], fun hin => ?_⟩
  have hfree : '\n' ∉ cs.take width := hline.elim (fun hkind => hin.resolve_left (by rw [hkind]; decide)) id
  rw [ho', Scanner.expect_none, length_crlf_take hfree hle]

/-- What makes no difference between a body and the same body with carriage returns. -/
def KeepsBody (d : Delimiters) (kind : StrLit → TokenKind) : Prop :=
  (∀ v, (kind v).spansLines = false) ∨ ∀ body, kind (decode d (crlf body)) = kind (decode d body)

theorem literal_crlf {d : Delimiters} (hd : d.OnLine) {width : Nat} {flags : Bool} {kind : StrLit → TokenKind}
    (hkind : KeepsBody d kind) (hline : '\n' ∉ cs.take width) (hle : width ≤ cs.length)
    (h : literal lines s r gap cs width d flags kind = .ok (some (t, n))) :
    Paired s s' r r' gap gap' cs (literal lines s r gap cs width d flags kind)
      (literal lines' s' r' gap' (crlf cs) width d flags kind) := by
  simp only [literal] at h ⊢
  split at h
  · cases h
  rename_i m hbody
  have hdrop : (crlf cs).drop width = crlf (cs.drop width) := by
    have := Text.drop_crlf cs width
    rwa [length_crlf_take hline hle] at this
  have hbody' : d.body? (crlf (cs.drop width)) = some (crlf ((cs.drop width).take m)).length :=
    Delimiters.bodyFrom_crlf hd hbody
  have hclosed := length_crlf_closed hline hle (Delimiters.bodyFrom_close hbody) fun he => hd.close (by rw [he]; decide)
  have hletters : run Char.isAlpha ((crlf cs).drop (width + (crlf ((cs.drop width).take m)).length + 1)) =
      run Char.isAlpha (cs.drop (width + m + 1)) := by
    rw [← hclosed, Text.drop_crlf, Text.run_crlf (by decide)]
  rw [hdrop, hbody']
  simp only [Text.take_crlf, hletters]
  refine ⟨_, _, none, by rw [Scanner.expect_none], fun hin => ?_⟩
  have hvalue : kind (decode d (crlf ((cs.drop width).take m))) = kind (decode d ((cs.drop width).take m)) := by
    rcases hkind with hplain | hkeeps
    · have hfree := hin.resolve_left (by rw [hplain]; decide)
      rw [Nat.add_assoc, Nat.add_assoc, List.take_add] at hfree
      rw [Text.crlf_line]
      exact fun hmem => hfree (List.mem_append_right _ ((List.take_prefix_take_left (by omega)).subset hmem))
    · exact hkeeps _
  have hwidth : (crlf (cs.take (width + m + 1 +
        if flags = true then run Char.isAlpha (cs.drop (width + m + 1)) else 0))).length =
      width + (crlf ((cs.drop width).take m)).length + 1 +
        if flags = true then run Char.isAlpha (cs.drop (width + m + 1)) else 0 := by
    split
    · rw [length_crlf_run (by decide), hclosed]
    · rw [Nat.add_zero, hclosed, Nat.add_zero]
  rw [hvalue, hwidth, Scanner.expect_none]

theorem quote_onLine {c : Char} {sigil : Option Char} (hc : c ∉ breaks) (hsigil : ∀ c ∈ sigil, c ∉ breaks) :
    (Delimiters.quote c sigil).OnLine where
  close := hc
  nest := by simp [Delimiters.quote]
  sigil := hsigil

theorem percent_onLine {c : Char} (hc : isPercentDelimiter c = true) {sigil : Option Char}
    (hsigil : ∀ c ∈ sigil, c ∉ breaks) : (percentDelimiters c sigil).OnLine := by
  have hopen : c ∉ breaks := by
    simp only [breaks, List.mem_cons, List.not_mem_nil, or_false, not_or]
    constructor <;> (rintro rfl; revert hc; decide)
  refine ⟨?_, ?_, hsigil⟩
  · simp only [percentDelimiters, closingOf]
    split <;> first | decide | exact hopen
  · simp only [percentDelimiters]
    split
    · simp
    · simpa using hopen

/-- A list has the same words in both texts. -/
theorem wordsOf_crlf {c : Char} (hc : isPercentDelimiter c = true) (body : List Char) :
    wordsOf (decode (percentDelimiters c none) (crlf body)) = wordsOf (decode (percentDelimiters c none) body) := by
  have hd : (percentDelimiters c none).OnLine := percent_onLine hc (by simp)
  have hvalue (cs : List Char) : (decode (percentDelimiters c none) cs).value.toList =
      decodeRaw (percentDelimiters c none) cs := String.toList_ofList
  rw [wordsOf, wordsOf, hvalue, hvalue, decodeRaw_crlf hd, Text.words_crlf]

theorem percentLiteral_crlf {rest : List Char} (hopen : percentOpening rest ≠ 0)
    (hline : '\n' ∉ ('%' :: rest).take (1 + percentOpening rest))
    (h : percentLiteral lines s r gap ('%' :: rest) (1 + percentOpening rest) = .ok (some (t, n))) :
    Paired s s' r r' gap gap' ('%' :: rest) (percentLiteral lines s r gap ('%' :: rest) (1 + percentOpening rest))
      (percentLiteral lines' s' r' gap' (crlf ('%' :: rest)) (1 + percentOpening rest)) := by
  obtain ⟨c, hc, hdel⟩ := percent_opener hopen
  have hle : 1 + percentOpening rest ≤ ('%' :: rest).length := by
    have := percentOpening_le rest
    rw [List.length_cons]
    omega
  have htake : (crlf ('%' :: rest)).take (1 + percentOpening rest) = ('%' :: rest).take (1 + percentOpening rest) := by
    have := Text.take_crlf ('%' :: rest) (1 + percentOpening rest)
    rwa [length_crlf_take hline hle, Text.crlf_line hline] at this
  -- The flavour stands within the opening.
  have hsecond : (crlf ('%' :: rest))[1]? = ('%' :: rest)[1]? := by
    have := congrArg (·[1]?) htake
    simpa [List.getElem?_take, show 1 < 1 + percentOpening rest by omega] using this
  have hraw : (percentDelimiters c none).OnLine := percent_onLine hdel (by simp)
  have hinterpolating : (percentDelimiters c (some '#')).OnLine := percent_onLine hdel (by simp [breaks])
  simp only [percentLiteral, htake, hsecond, hc, Option.getD_some] at h ⊢
  split at h
  · exact literal_crlf hraw (.inr fun body => congrArg TokenKind.words (wordsOf_crlf hdel body)) hline hle h
  · exact literal_crlf hraw (.inr fun body => congrArg TokenKind.words (wordsOf_crlf hdel body)) hline hle h
  · exact literal_crlf hraw (.inr fun body => congrArg TokenKind.symbolWords (wordsOf_crlf hdel body)) hline hle h
  · exact literal_crlf hraw (.inr fun body => congrArg TokenKind.symbolWords (wordsOf_crlf hdel body)) hline hle h
  · exact literal_crlf hinterpolating (.inl fun _ => rfl) hline hle h
  · exact literal_crlf hraw (.inl fun _ => rfl) hline hle h
  · exact literal_crlf hinterpolating (.inl fun _ => rfl) hline hle h

/-- A slash that divides, or a regular expression. -/
theorem slash_crlf {c : Char} {x : List Char} {width : Nat} (hc : c ≠ '\n') (hline : '\n' ∉ (c :: x).take width)
    (hle : width ≤ (c :: x).length)
    (hvalue : valueMayStart r' ((crlf (c :: x)).drop 1) = valueMayStart r ((c :: x).drop 1))
    (h : accept lines s r gap (c :: x) width (.plain .slash) = .ok (some (t, n))) :
    Paired s s' r r' gap gap' (c :: x) (accept lines s r gap (c :: x) width (.plain .slash))
      (accept lines' s' r' gap' (crlf (c :: x)) width (.plain .slash)) := by
  rw [accept] at h
  rw [accept, accept, hvalue]
  split at h
  · rename_i hv
    rw [if_pos hv, if_pos hv, Text.crlf_cons hc]
    simp only [List.drop_succ_cons, List.drop_zero] at h ⊢
    split at h
    · cases h
    rename_i m hbody
    have hfirst : '\n' ∉ (c :: x).take 1 := by simpa using Ne.symm hc
    have hslash : ((c :: x).drop 1)[m]? = some '/' := regexBody?_slash hbody
    have hclosed := length_crlf_closed hfirst (by simp) hslash (by decide)
    have hwidth : (crlf ((c :: x).take (m + 2))).length = (crlf (x.take m)).length + 2 := by
      simpa [Nat.add_comm 1] using hclosed
    have hletters : run Char.isAlpha ((c :: crlf x).drop ((crlf (x.take m)).length + 2)) =
        run Char.isAlpha ((c :: x).drop (m + 2)) := by
      rw [← hwidth, ← Text.crlf_cons hc, Text.drop_crlf, Text.run_crlf (by decide)]
    have hrun := length_crlf_run (p := Char.isAlpha) (by decide) (c :: x) (m + 2)
    simp only [List.drop_succ_cons] at hletters hrun
    rw [regexBody?_crlf hbody]
    simp only [hletters]
    refine ⟨_, _, none, by rw [Scanner.expect_none], fun _ => ?_⟩
    rw [Scanner.expect_none, hrun, hwidth, Text.crlf_cons hc]
  · rename_i hv
    rw [if_neg hv, if_neg hv]
    exact .of_found (.inr hline) hle rfl rfl

theorem accept_crlf (hr : Alike r r') {l : Lexeme} {width : Nat} (hl : lexeme? cs = some (l, width))
    (hnewline : l ≠ .plain .newline) (hcomment : l ≠ .comment)
    (h : accept lines s r gap cs width l = .ok (some (t, n))) :
    Paired s s' r r' gap gap' cs (accept lines s r gap cs width l) (accept lines' s' r' gap' (crlf cs) width l) := by
  obtain ⟨hstarts, hpos, hle⟩ := lexeme?_fits hl
  have hline := lexeme?_not_mem hl hnewline
  have htake : (crlf cs).take width = cs.take width := by
    have := Text.take_crlf cs width
    rwa [length_crlf_take hline hle, Text.crlf_line hline] at this
  have hdrop : (crlf cs).drop width = crlf (cs.drop width) := by
    have := Text.drop_crlf cs width
    rwa [length_crlf_take hline hle] at this
  have hkey : isKey r' ((crlf cs).drop width) = isKey r (cs.drop width) := by rw [hdrop, hr.isKey]
  have hvalue : valueMayStart r' ((crlf cs).drop 1) = valueMayStart r (cs.drop 1) := by
    rcases cs with _ | ⟨c, cs⟩
    · simp at hle; omega
    · have hc : c ≠ '\n' := by
        rintro rfl
        obtain ⟨w, rfl⟩ := Nat.exists_eq_succ_of_ne_zero (Nat.ne_of_gt hpos)
        simp at hline
      rw [Text.crlf_cons hc]
      exact hr.valueMayStart cs
  cases l with
  | comment => exact absurd rfl hcomment
  | word =>
    rw [accept, accept, hkey, htake]
    split
    · rename_i hk
      obtain ⟨x, hx⟩ := isKey_head hk
      exact .of_found (.inl rfl) (take_succ_of_drop hx (by decide)).1 rfl rfl
    · split
      · exact .of_found (.inr hline) hle rfl rfl
      · exact .of_found (.inr hline) hle rfl rfl
  | opening o =>
    cases o with
    | singleQuote | doubleQuote | backtick =>
      exact literal_crlf (quote_onLine (by decide) (by simp [breaks])) (.inl fun _ => rfl) hline hle h
    | symbolQuote q =>
      obtain ⟨hq, -⟩ := hstarts
      refine literal_crlf (quote_onLine ?_ ?_) (.inl fun _ => rfl) hline hle h
      · rcases hq with rfl | rfl <;> decide
      · rcases hq with rfl | rfl <;> simp [breaks]
    | percent =>
      obtain ⟨rest, rfl, hopen, rfl⟩ := hstarts
      rw [accept] at h
      rw [accept, accept, hvalue]
      split at h
      · rename_i hv
        rw [if_pos hv, if_pos hv]
        exact percentLiteral_crlf hopen hline h
      · rename_i hv
        rw [if_neg hv, if_neg hv]
        exact .of_found (.inl rfl) (by simp) rfl rfl
    | heredoc =>
      obtain ⟨rest, rfl, hw⟩ := hstarts
      rw [accept, accept, hvalue, htake]
      split
      · refine ⟨_, width, some (Heredoc.ofMarker (('<' :: '<' :: rest).take width |>.drop 2)), rfl, fun hin => ?_⟩
        rw [length_crlf_take hline hle]
        rfl
      · exact .of_found (.inl rfl) (by simp) rfl rfl
  | plain kind =>
    have hstring : ∀ v, kind ≠ .string v := by
      rintro v rfl
      exact hstarts.2.1 v rfl
    cases kind with
    | newline => exact absurd rfl hnewline
    | constant =>
      rw [accept, accept, hkey]
      split
      · rename_i hk
        obtain ⟨x, hx⟩ := isKey_head hk
        exact .of_found (.inl rfl) (take_succ_of_drop hx (by decide)).1 rfl rfl
      · exact .of_found (.inr hline) hle rfl rfl
    | symbol =>
      rw [accept, accept, htake, hdrop, isSetter_crlf]
      split
      · rename_i hk
        obtain ⟨x, hx⟩ := isSetter_head hk
        exact .of_found (.inl rfl) (take_succ_of_drop hx (by decide)).1 rfl rfl
      · exact .of_found (.inr hline) hle rfl rfl
    | slash =>
      obtain ⟨c, x, rfl, hc⟩ := hstarts.1
      exact slash_crlf hc hline hle hvalue h
    | _ => exact .of_found (.inr hline) hle rfl rfl

end Accept

end PuppetDocs.Ruby
