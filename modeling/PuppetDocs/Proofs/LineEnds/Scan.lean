import PuppetDocs.Proofs.LineEnds.Tokens

/-
  PuppetDocs.Proofs.LineEnds.Scan — a scan does not depend on how lines end.

  The scanners of a text and of the same text with carriage returns take one step for one step,
  and keep one outline (`step_crlf`, `walk_crlf`). So both texts have the same kinds of tokens and
  the same comments if no token goes over the end of a line, lists of words and heredocs apart
  (`scan_crlf`).

  The condition rules out the one place where the two would part. A quote that ends its line
  behind `<<` is no tag, so the scanner of the first text comes to the quote and reads a string
  from there, over the line feed (`LoneQuote.breaks`).
-/

namespace PuppetDocs.Ruby

open Text (byteLength run crlf)

/-! ## Readings -/

/-- The scanners have found the same, and stand at the same place of their texts. -/
structure Twin (s s' : Scanner) (before rest before' rest' : List Char) : Prop where
  left : Placed s before rest
  right : Placed s' before' rest'
  level : Level before rest before' rest'
  outline : s'.outline = s.outline

theorem afterSpace_eq {r r' : Reading TokenKind} (h : r'.behind.head? = r.behind.head?) : r'.afterSpace = r.afterSpace := by
  have hhead (r : Reading TokenKind) : r.afterSpace =
      r.behind.head?.all fun c => c == ' ' || c == '\t' || c == '\n' || c == '\r' || c == '\\' := by
    rw [Reading.afterSpace]
    cases r.behind <;> rfl
  rw [hhead, hhead, h]

theorem atLineStart_eq {r r' : Reading TokenKind} (h : r'.behind.head? = r.behind.head?) :
    r'.atLineStart = r.atLineStart := by
  have hhead (r : Reading TokenKind) : r.atLineStart = r.behind.head?.all (· == '\n') := by
    rw [Reading.atLineStart]
    cases r.behind <;> rfl
  rw [hhead, hhead, h]

theorem Placed.behind_skip {s : Scanner} {before rest : List Char} (h : Placed s before rest) (gap : List Char) :
    (s.reading.skip gap).behind = (before ++ gap).reverse := by
  simp [h.behind]

section Step

variable {lines lines' : LineIndex} {s s' t : Scanner} {before rest before' rest' gap gap' cs : List Char} {n : Nat}

theorem Twin.lastKind? (h : Twin s s' before rest before' rest') : s'.reading.lastKind? = s.reading.lastKind? := by
  have hkinds := congrArg (·.kinds.head?) h.outline
  simpa [Scanner.outline, Reading.lastKind?] using hkinds

theorem Twin.alike (h : Twin s s' before rest before' rest') (hgap : before' ++ gap' = crlf (before ++ gap)) :
    Alike (s.reading.skip gap) (s'.reading.skip gap') where
  last := by simpa [Reading.lastKind?] using h.lastKind?
  space := by
    refine afterSpace_eq ?_
    rw [h.right.behind_skip, h.left.behind_skip, hgap, List.head?_reverse, List.head?_reverse, Text.crlf_getLast?]

/-- What counts only at the start of a line is not in front of a line feed. -/
theorem Twin.marker (h : Twin s s' before rest before' rest') {f : List Char → Bool} (hf : f (crlf rest) = f rest)
    (hnewline : ∀ x, f ('\n' :: x) = false) :
    (s'.reading.atLineStart && f rest') = (s.reading.atLineStart && f rest) := by
  obtain ⟨hleft, hright, hlevel, -⟩ := h
  cases hlevel with
  | even =>
    rw [hf, atLineStart_eq]
    rw [hright.behind, hleft.behind, List.head?_reverse, List.head?_reverse, Text.crlf_getLast?]
  | ahead => rw [hnewline, hnewline, Bool.and_false, Bool.and_false]

theorem Twin.document (h : Twin s s' before rest before' rest') :
    (s'.reading.atLineStart && "=begin".toList.isPrefixOf rest') = (s.reading.atLineStart && "=begin".toList.isPrefixOf rest) :=
  h.marker (f := fun cs => "=begin".toList.isPrefixOf cs) (Text.isPrefixOf_crlf (by decide) rest) fun _ => rfl

theorem Twin.data (h : Twin s s' before rest before' rest') (hcr : '\r' ∉ rest) :
    (s'.reading.atLineStart && isDataMarker rest') = (s.reading.atLineStart && isDataMarker rest) :=
  h.marker (isDataMarker_crlf hcr) fun _ => rfl

/-! ## Steps -/

/-- The other scanner takes a step as well, after which the two have the same outline and stand level again. -/
def Follows (t : Scanner) (n : Nat) (before rest before' rest' : List Char) (o' : Step) : Prop :=
  ∃ t' n', o' = .ok (some (t', n')) ∧ t'.outline = t.outline ∧
    Level (before ++ rest.take n) (rest.drop n) (before' ++ rest'.take n') (rest'.drop n')

/-- Behind blanks both take in a stretch of the text. -/
theorem Level.behind_blanks (g g' n : Nat) (hgap : before' ++ rest'.take g' = crlf (before ++ rest.take g))
    (hrest : rest'.drop g' = crlf (rest.drop g)) :
    Level (before ++ rest.take (g + n)) (rest.drop (g + n))
      (before' ++ rest'.take (g' + (crlf ((rest.drop g).take n)).length))
      (rest'.drop (g' + (crlf ((rest.drop g).take n)).length)) := by
  rw [List.take_add, List.take_add, ← List.drop_drop, ← List.drop_drop, ← List.append_assoc, ← List.append_assoc, hgap,
    hrest]
  exact .take _ _ n

theorem Paired.follows (h : Twin s s' before rest before' rest') {g g' : Nat} {o o' : Step}
    (hgap : before' ++ rest'.take g' = crlf (before ++ rest.take g)) (hrest : rest'.drop g' = crlf (rest.drop g))
    (hpaired : Paired s s' (s.reading.skip (rest.take g)) (s'.reading.skip (rest'.take g')) g g' (rest.drop g) o o')
    (ho : o = .ok (some (t, n))) (hin : ∀ u ∈ t.reading.tokens, Inline u.kind u.text.toList) :
    Follows t n before rest before' rest' o' := by
  obtain ⟨kind, width, opened, hfound, hfound'⟩ := hpaired
  rw [ho, found] at hfound
  obtain ⟨rfl, rfl⟩ := Prod.mk.inj (Option.some.inj (Except.ok.inj hfound))
  have htext := hin _ List.mem_cons_self
  simp only [Reading.token, String.toList_ofList] at htext
  refine ⟨_, _, hfound' htext, ?_, .behind_blanks g g' width hgap hrest⟩
  rw [h.left.outline_found, h.right.outline_found, h.outline]

theorem outline_addComment (s : Scanner) (c : Comment) :
    (s.addComment c).outline = { s.outline with comments := c :: s.outline.comments } := rfl

/-- The carriage return at the end of a comment is one of the blanks that its text leaves out. -/
theorem ofSource_return (line : List Char) (n : Nat) (own : Bool) :
    Comment.ofSource ('#' :: (line ++ ['\r'])) n own = Comment.ofSource ('#' :: line) n own := by
  have hblank : Text.isBlank '\r' = true := by decide
  have htrim (cs : List Char) : Text.trimEnd (cs ++ ['\r']) = Text.trimEnd cs := by
    simp [Text.trimEnd, Text.dropEndWhile, hblank]
  rcases line with _ | ⟨c, line⟩
  · rfl
  · by_cases hc : c = ' '
    · subst hc
      simp [Comment.ofSource, Text.after?, htrim]
    · have htail : Text.trimEnd (c :: (line ++ ['\r'])) = Text.trimEnd (c :: line) := htrim (c :: line)
      simp [Comment.ofSource, Text.after?, Ne.symm hc, htail]

theorem comment_crlf (h : Twin s s' before rest before' rest') {g g' : Nat} {x : List Char}
    (hgap : before' ++ rest'.take g' = crlf (before ++ rest.take g)) (hrest : rest'.drop g' = crlf (rest.drop g))
    (hcs : rest.drop g = '#' :: x) :
    Follows (s.addComment ((s.reading.skip (rest.take g)).comment (.ofText (before ++ rest))
        ('#' :: x.takeWhile (· != '\n')))) (g + (1 + run (· != '\n') x)) before rest before' rest'
      (.ok (some (s'.addComment ((s'.reading.skip (rest'.take g')).comment (.ofText (before' ++ rest'))
        ('#' :: (crlf x).takeWhile (· != '\n'))), g' + (1 + run (· != '\n') (crlf x))))) := by
  have hline : (LineIndex.ofText (before' ++ rest')).line (s'.reading.skip (rest'.take g')).offset =
      (LineIndex.ofText (before ++ rest)).line (s.reading.skip (rest.take g)).offset := by
    have hsplit : before ++ rest = (before ++ rest.take g) ++ rest.drop g := by
      rw [List.append_assoc, List.take_append_drop]
    have hsplit' : before' ++ rest' = (before' ++ rest'.take g') ++ rest'.drop g' := by
      rw [List.append_assoc, List.take_append_drop]
    rw [Reading.skip_offset, Reading.skip_offset, h.left.offset, h.right.offset, ← Text.byteLength_append,
      ← Text.byteLength_append, hsplit, hsplit', LineIndex.line_eq_count, LineIndex.line_eq_count, hgap, Text.count_crlf]
  have halone : (s'.reading.skip (rest'.take g')).aloneOnLine = (s.reading.skip (rest.take g)).aloneOnLine := by
    rw [Reading.aloneOnLine, Reading.aloneOnLine, h.right.behind_skip, h.left.behind_skip, hgap,
      Text.crlf_takeWhile_reverse]
  have hcomment : ∀ line tail, tail = [] ∨ tail = ['\r'] →
      (s'.addComment ((s'.reading.skip (rest'.take g')).comment (.ofText (before' ++ rest')) ('#' :: (line ++ tail)))).outline =
        (s.addComment ((s.reading.skip (rest.take g)).comment (.ofText (before ++ rest)) ('#' :: line))).outline := by
    intro line tail htail
    rw [outline_addComment, outline_addComment, Reading.comment, Reading.comment, hline, halone, h.outline]
    rcases htail with rfl | rfl
    · rw [List.append_nil]
    · rw [ofSource_return]
  rcases line_cases x with hn | ⟨a, y, ha, rfl⟩
  · -- The comment ends the text.
    have hlevel := Level.behind_blanks g g' (1 + run (· != '\n') x) hgap hrest
    have hline : '\n' ∉ (rest.drop g).take (1 + run (· != '\n') x) := by
      rw [hcs]
      exact fun hmem => (List.mem_cons.mp (List.mem_of_mem_take hmem)).elim (by decide) hn
    have hle : 1 + run (· != '\n') x ≤ (rest.drop g).length := by
      have := run_le (· != '\n') x
      rw [hcs, List.length_cons]
      omega
    rw [length_crlf_take hline hle] at hlevel
    rw [Text.crlf_line hn]
    exact ⟨_, _, rfl, by simpa using hcomment (x.takeWhile (· != '\n')) [] (.inl rfl), hlevel⟩
  · have hfront := takeWhile_line ha y
    have hfront' : (crlf (a ++ '\n' :: y)).takeWhile (· != '\n') = a ++ ['\r'] := by
      have hreturn : '\n' ∉ a ++ ['\r'] := by simpa using ha
      simpa [Text.crlf_line ha] using takeWhile_line hreturn (crlf y)
    rw [run, run, hfront, hfront']
    refine ⟨_, _, rfl, hcomment a ['\r'] (.inr rfl), ?_⟩
    have hcs' : rest'.drop g' = '#' :: ((a ++ ['\r']) ++ '\n' :: crlf y) := by
      rw [hrest, hcs]
      simp [Text.crlf_cons, Text.crlf_line ha]
    have hafter : rest.drop (g + (1 + a.length)) = '\n' :: y := by
      rw [← List.drop_drop, hcs, Nat.add_comm, List.drop_succ_cons, List.drop_left]
    have hafter' : rest'.drop (g' + (1 + (a ++ ['\r']).length)) = '\n' :: crlf y := by
      rw [← List.drop_drop, hcs', Nat.add_comm, List.drop_succ_cons, List.drop_left]
    have hbehind : rest.take (g + (1 + a.length)) = rest.take g ++ '#' :: a := by
      rw [List.take_add, hcs, Nat.add_comm 1, List.take_succ_cons, List.take_left]
    have hbehind' : before' ++ rest'.take (g' + (1 + (a ++ ['\r']).length)) =
        crlf (before ++ rest.take (g + (1 + a.length))) ++ ['\r'] := by
      rw [List.take_add, hcs', Nat.add_comm 1, List.take_succ_cons, List.take_left, hbehind, ← List.append_assoc,
        ← List.append_assoc, hgap, Text.crlf_append (before ++ rest.take g), Text.crlf_cons (by decide), Text.crlf_line ha]
      simp
    rw [hafter, hafter', hbehind']
    exact .ahead _ _

/-- The line feed, and the bodies behind it if there are any. -/
theorem Level.behind_newline {g g' : Nat} {below : List Char} (w : Nat)
    (hgap : before' ++ rest'.take g' = crlf (before ++ rest.take g) ++ ['\r']) (hcs : rest.drop g = '\n' :: below)
    (hcs' : rest'.drop g' = '\n' :: crlf below) :
    Level (before ++ rest.take (g + 1 + w)) (rest.drop (g + 1 + w))
      (before' ++ rest'.take (g' + 1 + (crlf (below.take w)).length))
      (rest'.drop (g' + 1 + (crlf (below.take w)).length)) := by
  have hbehind : before' ++ rest'.take (g' + 1) = crlf (before ++ rest.take (g + 1)) := by
    rw [List.take_add, List.take_add, hcs, hcs', ← List.append_assoc, hgap]
    simp
  have hrest : rest'.drop (g' + 1) = crlf (rest.drop (g + 1)) := by
    rw [← List.drop_drop, ← List.drop_drop, hcs, hcs']
    rfl
  have hlevel := Level.behind_blanks (g + 1) (g' + 1) w hbehind hrest
  rwa [← List.drop_drop (i := 1), hcs, List.drop_succ_cons, List.drop_zero] at hlevel

theorem newline_crlf (h : Twin s s' before rest before' rest') {g g' : Nat} {below : List Char}
    (hgap : before' ++ rest'.take g' = crlf (before ++ rest.take g) ++ ['\r']) (hcs : rest.drop g = '\n' :: below)
    (hcs' : rest'.drop g' = '\n' :: crlf below)
    (hstep : newline lines s (s.reading.skip (rest.take g)) g ('\n' :: below) = .ok (some (t, n))) :
    Follows t n before rest before' rest'
      (newline lines' s' (s'.reading.skip (rest'.take g')) g' ('\n' :: crlf below)) := by
  have htokens : (s'.add ((s'.reading.skip (rest'.take g')).token .newline ['\n'])).outline =
      (s.add ((s.reading.skip (rest.take g)).token .newline ['\n'])).outline := by
    have hleft := h.left.outline_found (rest.take g) ['\n'] .newline none
    have hright := h.right.outline_found (rest'.take g') ['\n'] .newline none
    rw [Scanner.expect_none] at hleft hright
    rw [hleft, hright, h.outline]
  have hempty : s'.pending.isEmpty = s.pending.isEmpty := by
    simpa [Scanner.outline] using congrArg (·.waiting.isEmpty) h.outline
  simp only [newline, List.take_succ_cons, List.take_zero, List.drop_succ_cons, List.drop_zero] at hstep ⊢
  rw [hempty]
  split at hstep
  · rename_i hp
    rw [if_pos hp]
    cases hstep
    exact ⟨_, _, rfl, htokens, .behind_newline 0 hgap hcs hcs'⟩
  · rename_i hp
    rw [if_neg hp]
    split at hstep
    · cases hstep
    rename_i tokens after hbodies
    cases hstep
    obtain ⟨tokens', hbodies', hkinds⟩ : ∃ tokens', readBodies lines'
        (s'.add ((s'.reading.skip (rest'.take g')).token .newline ['\n'])).reading.tokens
        (s'.add ((s'.reading.skip (rest'.take g')).token .newline ['\n'])).pending
        ((Text.physicalLines below).map crlf) = .ok (tokens', after.map crlf) ∧
        tokens'.map Token.kind = tokens.map Token.kind :=
      readBodies_outline (fun l hl => physical_of_mem hl) (congrArg Outline.kinds htokens)
        (congrArg Outline.waiting htokens) hbodies
    obtain ⟨body, hbelow, -⟩ := readBodies_bodies hbodies
    have hwidth : below.length - after.flatten.length = body.length := by
      rw [hbelow, List.length_append]
      omega
    have hwidth' : (crlf below).length - (after.map crlf).flatten.length = (crlf (below.take body.length)).length := by
      rw [hbelow, Text.crlf_append, Text.crlf_flatten, List.length_append, List.take_left]
      omega
    rw [← Text.physicalLines_crlf] at hbodies'
    rw [hbodies']
    refine ⟨_, _, rfl, ?_, ?_⟩
    · have hcomments := congrArg Outline.comments htokens
      simp only [Scanner.outline, Scanner.add] at hcomments ⊢
      rw [hkinds, hcomments]
      rfl
    · rw [hwidth, hwidth']
      exact .behind_newline _ hgap hcs hcs'

/-- One step in both texts. -/
theorem step_crlf (h : Twin s s' before rest before' rest') (hcr : '\r' ∉ rest)
    (hquote : ¬LoneQuote (rest.drop (blanks rest)))
    (hstep : step (.ofText (before ++ rest)) s rest = .ok (some (t, n)))
    (hin : ∀ u ∈ t.reading.tokens, Inline u.kind u.text.toList) :
    Follows t n before rest before' rest' (step (.ofText (before' ++ rest')) s' rest') := by
  rw [step] at hstep ⊢
  rw [h.document, h.data hcr]
  split at hstep
  · rename_i hbegin
    rw [if_pos hbegin]
    split at hstep
    · rename_i width hwidth
      cases hstep
      obtain ⟨hleft, hright, hlevel, houtline⟩ := h
      cases hlevel with
      | even =>
        rw [embeddedDoc?_crlf hwidth]
        exact ⟨_, _, rfl, houtline, .take before rest _⟩
      | ahead => simp at hbegin
    · cases hstep
  rename_i hbegin
  rw [if_neg hbegin]
  split at hstep
  · cases hstep
  rename_i hmarker
  rw [if_neg hmarker]
  dsimp only at hstep ⊢
  split at hstep
  · cases hstep
  rename_i hne
  rcases h.level.blanks hcr with ⟨below, hcs, hcs', hgap⟩ | ⟨hhead, hrest, hgap⟩
  · rw [hcs, lexeme?_newline] at hstep
    rw [hcs', lexeme?_newline]
    exact newline_crlf h hgap hcs hcs' hstep
  have hne' : ¬(rest'.drop (blanks rest')).isEmpty = true := by
    rw [hrest]
    simpa [Text.crlf_eq_nil] using hne
  rw [if_neg hne']
  by_cases hcomment : (rest.drop (blanks rest)).head? = some '#'
  · obtain ⟨x, hx⟩ := List.head?_eq_some_iff.mp hcomment
    have hx' : rest'.drop (blanks rest') = '#' :: crlf x := by rw [hrest, hx, Text.crlf_cons (by decide)]
    have hlexeme (x : List Char) : lexeme? ('#' :: x) = some (.comment, 1 + run (· != '\n') x) := rfl
    rw [hx, hlexeme] at hstep
    rw [hx', hlexeme]
    simp only [accept, take_comment] at hstep ⊢
    cases hstep
    exact comment_crlf h hgap hrest hx
  rw [hrest, lexeme?_crlf hhead hcomment hquote]
  cases hl : lexeme? (rest.drop (blanks rest)) with
  | none =>
    rw [hl] at hstep
    have hlen : 1 ≤ (rest.drop (blanks rest)).length :=
      List.length_pos_iff.mpr fun hnil => hne (List.isEmpty_iff.mpr hnil)
    exact Paired.follows h hgap hrest (.of_found (.inl rfl) hlen rfl rfl) hstep hin
  | some found =>
    obtain ⟨l, width⟩ := found
    rw [hl] at hstep
    have hnewline : l ≠ .plain .newline := by
      rintro rfl
      obtain ⟨x, hx, -⟩ := (lexeme?_fits hl).starts
      exact hhead (by rw [hx]; rfl)
    have hsharp : l ≠ .comment := by
      rintro rfl
      obtain ⟨x, hx, -⟩ := (lexeme?_fits hl).starts
      exact hcomment (by rw [hx]; rfl)
    exact Paired.follows h hgap hrest (accept_crlf (h.alike hgap) hl hnewline hsharp hstep) hstep hin

/-- Where no step is left for the one scanner, none is left for the other. -/
theorem step_none_crlf (h : Twin s s' before rest before' rest') (hcr : '\r' ∉ rest)
    (hstep : step lines s rest = .ok none) : step lines' s' rest' = .ok none := by
  rw [step] at hstep ⊢
  rw [h.document, h.data hcr]
  split at hstep
  · split at hstep <;> cases hstep
  rename_i hbegin
  rw [if_neg hbegin]
  split at hstep
  · rename_i hmarker
    rw [if_pos hmarker]
  rename_i hmarker
  rw [if_neg hmarker]
  dsimp only at hstep ⊢
  split at hstep
  · rename_i hnil
    have hnil : rest.drop (blanks rest) = [] := List.isEmpty_iff.mp hnil
    rcases h.level.blanks hcr with ⟨below, hcs, -⟩ | ⟨-, hrest, -⟩
    · rw [hnil] at hcs
      cases hcs
    · rw [hrest, hnil]
      rfl
  · split at hstep
    · cases hstep
    · exact absurd hstep accept_ne_none

end Step

/-! ## Tokens within a line -/

/-- Heredoc bodies change nothing about whether a token stands in one line. -/
theorem Refilled.inline {t u : Token TokenKind} (h : Refilled t u) (hu : Inline u.kind u.text.toList) :
    Inline t.kind t.text.toList := by
  rw [h.text] at hu
  rcases h.kind with hk | ⟨⟨v, hv⟩, w, hw⟩
  · rwa [hk] at hu
  · rw [hw] at hu
    exact .inr (hu.resolve_left (by simp [TokenKind.spansLines]))

variable {lines : LineIndex} {s s' z : Scanner} {before rest rest' : List Char} {n : Nat}

theorem Placed.inline_found (h : Placed s before rest) (hf : Found lines s rest s' n)
    (hin : ∀ u ∈ s'.reading.tokens, Inline u.kind u.text.toList) : ∀ u ∈ s.reading.tokens, Inline u.kind u.text.toList := by
  cases hf with
  | document | comment => exact hin
  | token => exact fun u hu => hin u (List.mem_cons_of_mem _ hu)
  | newline hcs hbodies =>
    obtain ⟨f, rfl, hf⟩ := readBodies_refilled hbodies (h.waiting_newline _)
    exact fun u hu => (hf u (.tail _ hu)).inline (hin _ (List.mem_map_of_mem (.tail _ hu)))

/-- What is found is not taken back. -/
theorem Placed.inline_run (h : Placed s before rest) (hr : Run lines s rest z rest')
    (hin : ∀ u ∈ z.reading.tokens, Inline u.kind u.text.toList) : ∀ u ∈ s.reading.tokens, Inline u.kind u.text.toList := by
  induction hr generalizing before with
  | here => exact hin
  | next _ hstep _ ih =>
    have hfound := step_found hstep
    exact h.inline_found hfound (by simpa using ih (h.found hfound) hin)

theorem Placed.inline_walk (h : Placed s before rest) (hwalk : walk lines rest 0 s = .ok z)
    (hin : ∀ u ∈ z.reading.tokens, Inline u.kind u.text.toList) : ∀ u ∈ s.reading.tokens, Inline u.kind u.text.toList := by
  obtain ⟨rest', hrun, -⟩ := walk_run hwalk
  exact h.inline_run hrun hin

/-! ## Quotes at the end of a line -/

/-- A lexeme that starts like no marker is what the step accepts. -/
theorem step_lexeme {c : Char} {x : List Char} {l : Lexeme} {w : Nat} (hcs : rest.drop (blanks rest) = c :: x)
    (hc : c ≠ '=' ∧ c ≠ '_') (hl : lexeme? (c :: x) = some (l, w)) :
    step lines s rest = accept lines s (s.reading.skip (rest.take (blanks rest))) (blanks rest) (c :: x) w l := by
  rcases rest with _ | ⟨d, rest⟩
  · cases hcs
  have hd : d ≠ '=' ∧ d ≠ '_' := by
    by_contra hd
    have hblank : d ∉ [' ', '\t', '\r', '\x0c', '\\'] := by
      intro hmem
      refine hd ⟨?_, ?_⟩ <;> (rintro rfl; revert hmem; decide)
    rw [blanks_text hblank, List.drop_zero] at hcs
    rw [(List.cons.inj hcs).1] at hd
    exact hd hc
  obtain ⟨hdocument, hdata⟩ := not_marker hd rest
  exact step_accept hcs hdocument hdata hl

/-- A string that starts at the end of a line does not end on it. -/
theorem literal_breaks {t : Scanner} {r : Reading TokenKind} {gap : Nat} {q : Char} {sigil : Option Char} {x : List Char}
    (hd : (Delimiters.quote q sigil).OnLine)
    (h : literal lines s r gap (q :: '\n' :: x) 1 (.quote q sigil) false .string = .ok (some (t, n))) :
    ¬∀ u ∈ t.reading.tokens, Inline u.kind u.text.toList := by
  intro hin
  simp only [literal, List.drop_succ_cons, List.drop_zero, Delimiters.body?,
    Delimiters.bodyFrom_break hd (e := '\n') (by decide)] at h
  split at h
  · cases h
  rename_i m hbody
  obtain ⟨k, -, rfl⟩ := Option.map_eq_some_iff.mp hbody
  cases h
  have htext := hin _ List.mem_cons_self
  simp [Reading.token, Inline, TokenKind.spansLines, Nat.add_comm 1] at htext

theorem Placed.quote_breaks {q : Char} {x : List Char} (h : Placed s before (q :: '\n' :: x)) (hq : q = '\'' ∨ q = '"')
    (hwalk : walk lines (q :: '\n' :: x) 0 s = .ok z) : ¬∀ u ∈ z.reading.tokens, Inline u.kind u.text.toList := by
  intro hin
  obtain ⟨sigil, r, hd, hstep⟩ : ∃ sigil r, (Delimiters.quote q sigil).OnLine ∧ step lines s (q :: '\n' :: x) =
      literal lines s r 0 (q :: '\n' :: x) 1 (.quote q sigil) false .string := by
    rcases hq with rfl | rfl
    · exact ⟨none, _, quote_onLine (by decide) (by simp [breaks]),
        step_lexeme (l := .opening .singleQuote) (w := 1) rfl (by decide) rfl⟩
    · exact ⟨some '#', _, quote_onLine (by decide) (by simp [breaks]),
        step_lexeme (l := .opening .doubleQuote) (w := 1) rfl (by decide) rfl⟩
  rcases walk_cases hwalk with ⟨hnone, -⟩ | ⟨t, n, hsome, hwalk⟩
  · exact literal_ne_none (hstep ▸ hnone)
  · have hfound := h.found (step_found hsome)
    exact literal_breaks hd (hstep ▸ hsome) (by simpa using hfound.inline_walk hwalk hin)

/-- Behind a token the walk goes on. -/
theorem Placed.walk_found {r : Reading TokenKind} {g w : Nat} {cs : List Char} {kind : TokenKind} (h : Placed s before rest)
    (hne : rest ≠ []) (hstep : step lines s rest = Ruby.found s r g cs kind w) (hwalk : walk lines rest 0 s = .ok z) :
    ∃ t behind, Placed t behind (rest.drop (g + w)) ∧ walk lines (rest.drop (g + w)) 0 t = .ok z := by
  rw [Ruby.found] at hstep
  rw [walk_next hne hstep] at hwalk
  exact ⟨_, _, h.found (step_found hstep), hwalk⟩

theorem EndsAtQuote.cases {marker : List Char} (h : EndsAtQuote marker) : ∃ q, (q = '\'' ∨ q = '"') ∧
    (marker = [q] ∨ ∃ c, (c = '-' ∨ c = '~') ∧ marker = [c, q]) := by
  obtain ⟨q, hq, hmarker⟩ := h
  refine ⟨q, by simpa using hq, ?_⟩
  rcases markerSign_eq marker with hsign | ⟨c, r, hc, rfl, hsign⟩
  · rw [hsign] at hmarker
    exact .inl hmarker
  · rw [hsign] at hmarker
    exact .inr ⟨c, hc, by rw [show r = [q] from hmarker]⟩

/-- A sign that is none of a heredoc is found alone. -/
theorem Placed.sign_breaks {c q : Char} {x : List Char} (h : Placed s before (c :: q :: '\n' :: x))
    (hc : c = '-' ∨ c = '~') (hq : q = '\'' ∨ q = '"')
    (hwalk : walk lines (c :: q :: '\n' :: x) 0 s = .ok z) : ¬∀ u ∈ z.reading.tokens, Inline u.kind u.text.toList := by
  obtain ⟨kind, r, hstep⟩ : ∃ kind r, step lines s (c :: q :: '\n' :: x) =
      Ruby.found s r 0 (c :: q :: '\n' :: x) kind 1 := by
    have hlexeme : lexeme? (c :: q :: '\n' :: x) = punctuation? (c :: q :: '\n' :: x) := by
      rcases hc with rfl | rfl <;> rfl
    rcases hc with rfl | rfl
    · refine ⟨.minus, _, step_lexeme (l := .plain .minus) (w := 1) rfl (by decide) ?_⟩
      rcases hq with rfl | rfl <;> simp [hlexeme, punctuation?, punctuation, List.isPrefixOf]
    · refine ⟨.operator, _, step_lexeme (l := .plain .operator) (w := 1) rfl (by decide) ?_⟩
      rcases hq with rfl | rfl <;> simp [hlexeme, punctuation?, punctuation, List.isPrefixOf]
  obtain ⟨t, behind, hplaced, hwalk⟩ := h.walk_found (by simp) hstep hwalk
  exact hplaced.quote_breaks hq hwalk

theorem LoneQuote.breaks (hquote : LoneQuote (rest.drop (blanks rest))) (h : Placed s before rest)
    (hwalk : walk lines rest 0 s = .ok z) : ¬∀ u ∈ z.reading.tokens, Inline u.kind u.text.toList := by
  obtain ⟨marker, below, hcs, hends⟩ := hquote
  have hne : rest ≠ [] := by
    rintro rfl
    cases hcs
  have hlexeme : lexeme? ('<' :: '<' :: marker ++ '\n' :: below) = some (.plain .lt, 2) := by
    obtain ⟨q, rfl | rfl, rfl | ⟨c, rfl | rfl, rfl⟩⟩ := hends.cases <;> rfl
  obtain ⟨t, behind, hplaced, hwalk⟩ := h.walk_found hne (step_lexeme hcs (by decide) hlexeme) hwalk
  rw [← List.drop_drop, hcs] at hplaced hwalk
  obtain ⟨q, hq, rfl | ⟨c, hc, rfl⟩⟩ := hends.cases
  · exact hplaced.quote_breaks hq hwalk
  · exact hplaced.sign_breaks hc hq hwalk

/-! ## Whole texts -/

/-- Two scanners that stand level stand level at the end. -/
theorem walk_crlf {before' right : List Char} (h : Twin s s' before rest before' right) (hcr : '\r' ∉ rest)
    (hwalk : walk (.ofText (before ++ rest)) rest 0 s = .ok z)
    (hin : ∀ u ∈ z.reading.tokens, Inline u.kind u.text.toList) :
    ∃ z', walk (.ofText (before' ++ right)) right 0 s' = .ok z' ∧ z'.outline = z.outline := by
  induction hn : rest.length using Nat.strongRecOn generalizing s s' before rest before' right with
  | ind k ih =>
    subst hn
    rcases rest with _ | ⟨c, rest⟩
    · cases hwalk
      rw [h.level.ends]
      exact ⟨s', rfl, h.outline⟩
    obtain ⟨c', right, rfl⟩ := List.exists_cons_of_ne_nil (h.level.ne_nil (by simp))
    have hquote : ¬LoneQuote ((c :: rest).drop (blanks (c :: rest))) := fun hquote => hquote.breaks h.left hwalk hin
    rcases walk_cases hwalk with ⟨hnone, rfl⟩ | ⟨t, n, hstep, hwalk⟩
    · exact ⟨s', by rw [walk, step_none_crlf h hcr hnone], h.outline⟩
    have hfound := step_found hstep
    have hleft := h.left.found hfound
    have htokens : ∀ u ∈ t.reading.tokens, Inline u.kind u.text.toList := by
      simpa using hleft.inline_walk hwalk hin
    obtain ⟨t', n', hstep', houtline, hlevel⟩ := step_crlf h hcr hquote hstep htokens
    have htwin : Twin (t.pass ((c :: rest).take n)) (t'.pass ((c' :: right).take n')) _ _ _ _ :=
      ⟨hleft, h.right.found (step_found hstep'), hlevel, by simpa using houtline⟩
    have htext : before ++ (c :: rest).take n ++ (c :: rest).drop n = before ++ c :: rest := by
      rw [List.append_assoc, List.take_append_drop]
    have htext' : before' ++ (c' :: right).take n' ++ (c' :: right).drop n' = before' ++ c' :: right := by
      rw [List.append_assoc, List.take_append_drop]
    have hlt : ((c :: rest).drop n).length < (c :: rest).length := by
      have := hfound.width
      rw [List.length_drop]
      omega
    obtain ⟨z', hwalk', hz⟩ := ih _ hlt htwin (fun hmem => hcr (List.mem_of_mem_drop hmem)) (by rwa [htext]) rfl
    rw [htext'] at hwalk'
    exact ⟨z', by rw [walk_next (by simp) hstep', hwalk'], hz⟩

/-- If no token but lists of words goes over the end of a line, the text with carriage returns has the same kinds of
tokens, with the same values, and the same comments. -/
theorem scan_crlf {text : List Char} {found : Scanned TokenKind} (hcr : '\r' ∉ text) (h : scan text = .ok found)
    (hin : ∀ t ∈ found.tokens, Inline t.kind t.text.toList) :
    ∃ found', scan (crlf text) = .ok found' ∧ found'.tokens.map Token.kind = found.tokens.map Token.kind ∧
      found'.comments = found.comments ∧ found'.stop.kind = found.stop.kind := by
  simp only [scan] at h
  split at h
  · cases h
  rename_i z hwalk
  split at h
  · cases h
  rename_i hpending
  cases h
  have htwin : Twin {} {} [] text [] (crlf text) := ⟨.start text, .start _, .even [] text, rfl⟩
  obtain ⟨z', hwalk', houtline⟩ := walk_crlf htwin hcr hwalk (by simpa using hin)
  have hpending' : z'.pending = [] := by
    have := congrArg Outline.waiting houtline
    simpa [Scanner.outline, hpending] using this
  have hkinds : z'.reading.tokens.map Token.kind = z.reading.tokens.map Token.kind := congrArg Outline.kinds houtline
  have hcomments : z'.reading.comments = z.reading.comments := congrArg Outline.comments houtline
  rw [List.nil_append] at hwalk'
  have hscan : scan (crlf text) = .ok {
      tokens := z'.reading.tokens.reverse
      stop := { kind := .eof, text := "", span := ⟨byteLength (crlf text), byteLength (crlf text)⟩, spaced := true }
      comments := z'.reading.comments.reverse } := by
    simp only [scan, hwalk', hpending']
  refine ⟨_, hscan, ?_, congrArg List.reverse hcomments, rfl⟩
  rw [List.map_reverse, List.map_reverse, hkinds]

theorem scan_crlf_heredoc :
    ∃ found found', scan "p \\\n<<A # c\nb\nA\n".toList = .ok found ∧
      found.tokens.map Token.kind = [.ident, .string ⟨"b\n", false⟩, .newline] ∧
      scan "p \\\r\n<<A # c\r\nb\r\nA\r\n".toList = .ok found' ∧
      found'.tokens.map Token.kind = found.tokens.map Token.kind ∧ found'.comments = found.comments := by
  have hfound : ∃ found, scan "p \\\n<<A # c\nb\nA\n".toList = .ok found ∧
      found.tokens.map Token.kind = [.ident, .string ⟨"b\n", false⟩, .newline] ∧
      found.tokens.all (fun t => t.kind.spansLines || !t.text.toList.contains '\n') = true := ⟨_, rfl, rfl, rfl⟩
  obtain ⟨found, hscan, hkinds, hall⟩ := hfound
  obtain ⟨found', hscan', hkinds', hcomments, -⟩ := scan_crlf (by decide) hscan fun t ht => by
    simpa [Inline] using List.all_eq_true.mp hall t ht
  exact ⟨found, found', hscan, hkinds, hscan', hkinds', hcomments⟩

end PuppetDocs.Ruby
