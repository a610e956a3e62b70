import PuppetDocs.Proofs.Scan.Lines

/-
  PuppetDocs.Proofs.Scan.Below — scanning a text below another one.

  Nothing of what was scanned above a line feed changes what is found below it, and within a line
  nothing of what stands in front of a token that was found, unless a heredoc is open (`Apart`).
  `Scanner.below` puts a scanner for the lower text on top of one that has come to the end of the
  upper text; each step of the lower scan is then also a step of the whole scan, with its spans
  moved by the length of the upper text and its lines by the number of line feeds in it
  (`step_below`). Together with `Run.append` this makes the scan of whole lines and what follows
  them out of the two scans (`scan_append`), also where the lower text is refused.
-/

namespace PuppetDocs

/-! ## Moved places -/

def Span.shift (s : Span) (n : Nat) : Span := ⟨n + s.start, n + s.stop⟩

def Token.shift {κ : Type} (t : Token κ) (n : Nat) : Token κ := { t with span := t.span.shift n }

def Comment.below (c : Comment) (n : Nat) : Comment := { c with line := n + c.line }

def SyntaxError.below (e : SyntaxError) (n : Nat) : SyntaxError := { e with line := n + e.line }

/-- A stretch of a line is the same stretch of the line that it is further down. -/
def ParseFailure.below (e : ParseFailure) (n : Nat) : ParseFailure :=
  match e with
  | .rejected e => .rejected (e.below n)
  | .exhausted => .exhausted
  | .outOfText s => .outOfText s

/-- An error in a text behind another one, which has `n` line feeds and `column` bytes behind the last of them. -/
def SyntaxError.behind (e : SyntaxError) (n column : Nat) : SyntaxError :=
  { e with line := n + e.line, column := if e.line = 1 then column + e.column else e.column }

def ParseFailure.behind (e : ParseFailure) (n column : Nat) : ParseFailure :=
  match e with
  | .rejected e => .rejected (e.behind n column)
  | .exhausted => .exhausted
  | .outOfText s => .outOfText s

theorem ParseFailure.behind_zero (e : ParseFailure) (n : Nat) : e.behind n 0 = e.below n := by
  cases e with
  | rejected e => simp [behind, below, SyntaxError.behind, SyntaxError.below]
  | _ => rfl

/-- What was found in the lower text behind what was found above it. -/
def Reading.below {κ : Type} (z : Reading κ) (n : Nat) (r : Reading κ) : Reading κ where
  behind := r.behind ++ z.behind
  offset := z.offset + r.offset
  tokens := r.tokens.map (·.shift z.offset) ++ z.tokens
  comments := r.comments.map (·.below n) ++ z.comments

namespace Ruby

open Text (byteLength run)

def Scanner.below (z : Scanner) (n : Nat) (s : Scanner) : Scanner where
  reading := z.reading.below n s.reading
  pending := s.pending.map fun p => { p with start := z.reading.offset + p.start }

def Step.below (z : Scanner) (n column : Nat) : Step → Step
  | .error e => .error (e.behind n column)
  | .ok none => .ok none
  | .ok (some (s, width)) => .ok (some (z.below n s, width))

/-- The scanner stands at the end of a line, with no heredoc waiting for its body. -/
structure LineEnd (z : Scanner) : Prop where
  behind : ∃ b, z.reading.behind = '\n' :: b
  pending : z.pending = []
  last : z.reading.lastKind? = none ∨ z.reading.lastKind? = some .newline
  starts : ∀ t ∈ z.reading.tokens, t.span.start < z.reading.offset

/-- Whoever reads on from `r` sees nothing of what is in front of `z`: a line ends there, or a token has been found since
and something other than blanks stands between. -/
inductive Apart (z : Scanner) (r : Reading TokenKind) : Prop
  | line : LineEnd z → Apart z r
  | token : r.tokens ≠ [] → (∃ c ∈ r.behind, c = '\n' ∨ Text.isBlank c = false) →
      (∀ t ∈ z.reading.tokens, t.span.start < z.reading.offset) → Apart z r

namespace Apart

variable {z : Scanner} {r : Reading TokenKind}

theorem starts (h : Apart z r) : ∀ t ∈ z.reading.tokens, t.span.start < z.reading.offset := by
  cases h with
  | line h => exact h.starts
  | token _ _ h => exact h

theorem skip (h : Apart z r) (cs : List Char) : Apart z (r.skip cs) := by
  cases h with
  | line h => exact .line h
  | token htokens hbehind hstarts =>
    obtain ⟨c, hc, hsolid⟩ := hbehind
    refine .token (by simpa using htokens) ⟨c, ?_, hsolid⟩ hstarts
    rw [Reading.skip_behind]
    exact List.mem_append_right _ hc

/-- What is found is found apart as well. -/
theorem found {s s' : Scanner} (h : Apart z s.reading) (htokens : s.reading.tokens ≠ [] → s'.reading.tokens ≠ [])
    (hbehind : s'.reading.behind = s.reading.behind) : Apart z s'.reading := by
  cases h with
  | line h => exact .line h
  | token hfound hsolid hstarts => exact .token (htokens hfound) (hbehind ▸ hsolid) hstarts

end Apart

/-- Bodies give tokens their values, and no token is lost or added. -/
theorem readBodies_length {lines : LineIndex} {tokens tokens' : List (Token TokenKind)} {ps : List Pending}
    {ls after : List (List Char)} (h : readBodies lines tokens ps ls = .ok (tokens', after)) :
    tokens'.length = tokens.length := by
  induction ps generalizing tokens ls with
  | nil =>
    cases h
    rfl
  | cons p ps ih =>
    rw [readBodies] at h
    split at h
    · cases h
    split at h
    · cases h
    · rw [ih h, fill, List.length_map]

/-- What is found is added to what was found before. -/
theorem Found.tokens_ne_nil {lines : LineIndex} {s s' : Scanner} {rest : List Char} {n : Nat}
    (h : Found lines s rest s' n) (hs : s.reading.tokens ≠ []) : s'.reading.tokens ≠ [] := by
  cases h with
  | document | comment => exact hs
  | token => exact List.cons_ne_nil _ _
  | newline _ hbodies => exact List.ne_nil_of_length_pos (by rw [readBodies_length hbodies]; exact Nat.succ_pos _)

section Below

variable {z : Scanner} {r : Reading TokenKind} {n : Nat}

/-! ## What a step sees of the past -/

section Past

variable (hz : Apart z r)
include hz

theorem atLineStart_below : (z.reading.below n r).atLineStart = r.atLineStart := by
  obtain ⟨behind, offset, tokens, comments⟩ := r
  cases hz with
  | line hz =>
    obtain ⟨b, hb⟩ := hz.behind
    cases behind <;> simp [Reading.below, Reading.atLineStart, hb]
  | token _ hbehind =>
    cases behind with
    | nil => simp at hbehind
    | cons c behind => rfl

theorem afterSpace_below : (z.reading.below n r).afterSpace = r.afterSpace := by
  obtain ⟨behind, offset, tokens, comments⟩ := r
  cases hz with
  | line hz =>
    obtain ⟨b, hb⟩ := hz.behind
    cases behind <;> simp [Reading.below, Reading.afterSpace, hb]
  | token _ hbehind =>
    cases behind with
    | nil => simp at hbehind
    | cons c behind => rfl

omit hz in
/-- Whether only blanks stand at the end of the line, if it has ended or is not blank. -/
theorem allBlank_takeWhile {cs : List Char} (h : ∃ c ∈ cs, c = '\n' ∨ Text.isBlank c = false) (x : List Char) :
    Text.allBlank ((cs ++ x).takeWhile (· ≠ '\n')) = Text.allBlank (cs.takeWhile (· ≠ '\n')) := by
  induction cs with
  | nil => simp at h
  | cons c cs ih =>
    by_cases hc : c = '\n'
    · simp [hc]
    · have hblank : Text.isBlank c = true → Text.allBlank ((cs ++ x).takeWhile (· ≠ '\n')) =
          Text.allBlank (cs.takeWhile (· ≠ '\n')) := fun hblank => ih (by simpa [hc, hblank] using h)
      rw [List.cons_append, List.takeWhile_cons_of_pos (by simpa using hc), List.takeWhile_cons_of_pos (by simpa using hc)]
      cases hb : Text.isBlank c with
      | false => simp [Text.allBlank, hb]
      | true => simpa [Text.allBlank, hb] using hblank hb

theorem aloneOnLine_below : (z.reading.below n r).aloneOnLine = r.aloneOnLine := by
  cases hz with
  | line hz =>
    obtain ⟨b, hb⟩ := hz.behind
    have hline : (r.behind ++ z.reading.behind).takeWhile (· ≠ '\n') = r.behind.takeWhile (· ≠ '\n') := by
      rw [hb]
      induction r.behind with
      | nil => simp
      | cons c cs ih => simp only [List.cons_append, List.takeWhile_cons, ih]
    simp only [Reading.aloneOnLine, Reading.below, hline]
  | token _ hbehind => exact allBlank_takeWhile hbehind z.reading.behind

/-- The kind of the token found last, unless that is a line feed above. -/
theorem lastKind?_below : (z.reading.below n r).lastKind? = r.lastKind? ∨
    r.lastKind? = none ∧ (z.reading.below n r).lastKind? = some .newline := by
  obtain ⟨behind, offset, tokens, comments⟩ := r
  rcases tokens with _ | ⟨t, tokens⟩
  · cases hz with
    | line hz =>
      rcases hz.last with hl | hl
      · exact .inl (by simpa [Reading.below, Reading.lastKind?] using hl)
      · exact .inr ⟨rfl, by simpa [Reading.below, Reading.lastKind?] using hl⟩
    | token htokens => exact absurd rfl htokens
  · exact .inl rfl

theorem valueMayStart_below (next : List Char) :
    valueMayStart (z.reading.below n r) next = valueMayStart r next := by
  rw [valueMayStart, valueMayStart, afterSpace_below hz]
  rcases lastKind?_below (n := n) hz with hl | ⟨hl, hb⟩
  · rw [hl]
  · rw [hl, hb]
    rfl

theorem isKey_below (rest : List Char) : isKey (z.reading.below n r) rest = isKey r rest := by
  rcases lastKind?_below (n := n) hz with hl | ⟨hl, hb⟩
  · simp only [isKey, hl]
  · simp only [isKey, hl, hb]
    rfl

theorem token_below (kind : TokenKind) (cs : List Char) :
    (z.reading.below n r).token kind cs = (r.token kind cs).shift z.reading.offset := by
  rw [Reading.token, afterSpace_below hz, Reading.below, Nat.add_assoc]
  rfl

end Past

theorem next_below (s : Scanner) (c : Char) : (z.below n s).next c = z.below n (s.next c) := by
  simp [Scanner.next, Scanner.below, Reading.below, Reading.next, Nat.add_assoc]

theorem skip_below (r : Reading TokenKind) (cs : List Char) :
    (z.reading.below n r).skip cs = z.reading.below n (r.skip cs) := by
  induction cs generalizing r with
  | nil => rfl
  | cons c cs ih =>
    have hnext : (z.reading.below n r).next c = z.reading.below n (r.next c) := by
      simp [Reading.below, Reading.next, Nat.add_assoc]
    rw [Reading.skip_cons, Reading.skip_cons, hnext, ih]

/-! ## One step -/

variable {column : Nat} {s : Scanner} {gap : Nat} {cs : List Char} {lines lines' : LineIndex}

/-- Where the places of the lower text are in the whole text. -/
def PlacesBelow (z : Scanner) (n column : Nat) (lines lines' : LineIndex) : Prop :=
  ∀ k, lines'.lineColumn (z.reading.offset + k) = (n + (lines.lineColumn k).1,
    if (lines.lineColumn k).1 = 1 then column + (lines.lineColumn k).2 else (lines.lineColumn k).2)

section Apart

variable (hz : Apart z r)
include hz

theorem found_below (kind : TokenKind) (width : Nat) :
    found (z.below n s) (z.reading.below n r) gap cs kind width = (found s r gap cs kind width).below z n column := by
  rw [found, token_below hz]
  rfl

variable (hlines : PlacesBelow z n column lines lines')
include hlines

omit hz in
theorem fault_below (f : Fault) (k : Nat) :
    ParseFailure.rejected (f.at lines' (z.reading.offset + k)) = (ParseFailure.rejected (f.at lines k)).behind n column := by
  simp only [Fault.at, hlines k, ParseFailure.behind, SyntaxError.behind]
  rfl

omit hz hlines in
/-- The failure of a body is told by its lines, wherever they stand. -/
theorem value_below {d : Heredoc} {body : List (List Char)} {e : ParseFailure} (h : d.value body = .error e) :
    e.behind n column = e := by
  obtain ⟨-, line, -, hline⟩ := Heredoc.value_error h
  unfold Heredoc.unindent at hline
  split at hline
  · cases hline
  · split at hline <;> cases hline
    rfl

theorem literal_below (width : Nat) (d : Delimiters) (flags : Bool) (kind : StrLit → TokenKind) :
    literal lines' (z.below n s) (z.reading.below n r) gap cs width d flags kind =
      (literal lines s r gap cs width d flags kind).below z n column := by
  simp only [literal]
  split
  · exact congrArg Except.error (fault_below hlines _ _)
  · exact found_below hz _ _

theorem percentLiteral_below (width : Nat) :
    percentLiteral lines' (z.below n s) (z.reading.below n r) gap cs width =
      (percentLiteral lines s r gap cs width).below z n column := by
  simp only [percentLiteral]
  split <;> exact literal_below hz hlines _ _ _ _

theorem readBodies_below (ps : List Pending) (tokens : List (Token TokenKind)) (ls : List (List Char)) :
    readBodies lines' (tokens.map (·.shift z.reading.offset) ++ z.reading.tokens)
        (ps.map fun p => { p with start := z.reading.offset + p.start }) ls =
      match readBodies lines tokens ps ls with
      | .error e => .error (e.behind n column)
      | .ok (tokens, rest) => .ok (tokens.map (·.shift z.reading.offset) ++ z.reading.tokens, rest) := by
  induction ps generalizing tokens ls with
  | nil => rfl
  | cons p ps ih =>
    rw [List.map_cons, readBodies, readBodies]
    dsimp only
    split
    · exact congrArg Except.error (fault_below hlines _ _)
    rename_i body after _
    cases hvalue : p.heredoc.value body with
    | error e => exact congrArg Except.error (value_below hvalue).symm
    | ok value =>
    dsimp only
    -- The tokens above start too early to be the marker.
    have hfill : fill (tokens.map (·.shift z.reading.offset) ++ z.reading.tokens) (z.reading.offset + p.start) value =
        (fill tokens p.start value).map (·.shift z.reading.offset) ++ z.reading.tokens := by
      rw [fill, fill, List.map_append, List.map_map, List.map_map]
      congr 1
      · refine List.map_congr_left fun t _ => ?_
        by_cases ht : t.span.start = p.start <;> simp [Token.shift, Span.shift, ht]
      · refine (List.map_congr_left fun t ht => ?_).trans (List.map_id _)
        have := hz.starts t ht
        rw [if_neg (by simp; omega)]
        rfl
    rw [hfill, ih]

theorem newline_below :
    newline lines' (z.below n s) (z.reading.below n r) gap cs = (newline lines s r gap cs).below z n column := by
  simp only [newline]
  have hempty : (z.below n s).pending.isEmpty = s.pending.isEmpty := by simp [Scanner.below]
  rw [hempty]
  split
  · exact found_below hz _ _
  · have hbodies := readBodies_below hz hlines s.pending (r.token .newline (cs.take 1) :: s.reading.tokens)
      (Text.physicalLines (cs.drop 1))
    have htokens : ((z.below n s).add ((z.reading.below n r).token .newline (cs.take 1))).reading.tokens =
        (r.token .newline (cs.take 1) :: s.reading.tokens).map (·.shift z.reading.offset) ++ z.reading.tokens := by
      rw [token_below hz]
      rfl
    have hpending : ((z.below n s).add ((z.reading.below n r).token .newline (cs.take 1))).pending =
        s.pending.map fun p => { p with start := z.reading.offset + p.start } := rfl
    rw [htokens, hpending, hbodies]
    dsimp only [Scanner.add]
    cases readBodies lines (r.token .newline (cs.take 1) :: s.reading.tokens) s.pending (Text.physicalLines (cs.drop 1)) <;>
      rfl

theorem accept_below (l : Lexeme) (width : Nat) :
    accept lines' (z.below n s) (z.reading.below n r) gap cs width l = (accept lines s r gap cs width l).below z n column := by
  cases l with
  | comment =>
    have hline : lines'.line (z.reading.offset + r.offset) = n + lines.line r.offset := congrArg Prod.fst (hlines r.offset)
    have hcomment : (z.reading.below n r).comment lines' (cs.take width) = (r.comment lines (cs.take width)).below n := by
      rw [Reading.comment, aloneOnLine_below hz, Reading.below, hline]
      rfl
    rw [accept, hcomment]
    rfl
  | word =>
    rw [accept, isKey_below hz]
    rw [accept]
    split
    · exact found_below hz _ _
    · split <;> exact found_below hz _ _
  | opening o =>
    cases o with
    | singleQuote | doubleQuote | backtick | symbolQuote => exact literal_below hz hlines _ _ _ _
    | percent =>
      rw [accept, valueMayStart_below hz]
      rw [accept]
      split
      · exact percentLiteral_below hz hlines _
      · exact found_below hz _ _
    | heredoc =>
      rw [accept, valueMayStart_below hz]
      rw [accept]
      split
      · simp only [found, token_below hz, Step.below, Scanner.add, Scanner.below, List.map_append, List.map_cons, List.map_nil]
        rfl
      · exact found_below hz _ _
  | plain kind =>
    cases kind with
    | newline => exact newline_below hz hlines
    | constant =>
      rw [accept, isKey_below hz]
      rw [accept]
      split <;> exact found_below hz _ _
    | symbol =>
      rw [accept, accept]
      split <;> exact found_below hz _ _
    | slash =>
      rw [accept, valueMayStart_below hz]
      rw [accept]
      split
      · split
        · exact congrArg Except.error (fault_below hlines _ _)
        · exact found_below hz _ _
      · exact found_below hz _ _
    | _ => exact found_below hz _ _

end Apart

/-- A step of the lower scan is a step of the whole scan. -/
theorem step_below (hz : Apart z s.reading) (hlines : PlacesBelow z n column lines lines') (rest : List Char) :
    step lines' (z.below n s) rest = (step lines s rest).below z n column := by
  have hstart : (z.below n s).reading.atLineStart = s.reading.atLineStart := atLineStart_below hz
  have hskip : ∀ gap, (z.below n s).reading.skip gap = z.reading.below n (s.reading.skip gap) := skip_below s.reading
  simp only [step, hstart, hskip]
  split
  · split
    · rfl
    · exact congrArg Except.error (fault_below hlines _ _)
  split
  · rfl
  split
  · rfl
  split
  · exact found_below (hz.skip _) _ _
  · exact accept_below (hz.skip _) hlines _ _

theorem walk_below (hz : Apart z s.reading) (hlines : PlacesBelow z n column lines lines') (rest : List Char)
    (taken : Nat) :
    walk lines' rest taken (z.below n s) =
      match walk lines rest taken s with
      | .error e => .error (e.behind n column)
      | .ok s' => .ok (z.below n s') := by
  induction rest generalizing taken s with
  | nil => rfl
  | cons c rest ih =>
    cases taken with
    | succ taken =>
      rw [walk, walk, next_below]
      exact ih (hz.skip [c]) taken
    | zero =>
      rw [walk, walk, step_below hz hlines]
      rcases hstep : step lines s (c :: rest) with e | _ | ⟨s', width⟩
      · rfl
      · rfl
      · have hfound := step_found hstep
        simp only [Step.below, next_below]
        exact ih ((hz.found hfound.tokens_ne_nil hfound.reading.1).skip [c]) _

end Below

/-! ## Whole texts -/

/-- The text is scanned to its last line feed. The places from which a step is taken are those that a run reaches; they
lie outside strings, comments and the bodies of heredocs. -/
structure WholeLines (text : List Char) : Prop where
  ends : EndsLine text
  /-- The last line feed does not belong to a joined line. -/
  unjoined : ∀ s rest, Run (.ofText text) {} text s rest → rest ≠ [] → rest.drop (blanks rest) ≠ []
  noData : ∀ s rest, Run (.ofText text) {} text s rest → s.reading.atLineStart = true → isDataMarker rest = false

theorem blanks_all {cs : List Char} (hcs : EndsLine cs) (h : cs.drop (blanks cs) = []) :
    ['\\', '\n'] <:+ cs ∨ ['\\', '\r', '\n'] <:+ cs := by
  fun_induction blanks cs with
  | case1 r ih =>
    by_cases hr : r = []
    · subst hr
      exact .inl (List.suffix_refl _)
    · exact (ih (hcs.of_append (a := ['\\', '\n']) hr) (by simpa [Nat.add_comm 2] using h)).imp
        (·.trans (List.suffix_append ['\\', '\n'] r)) (·.trans (List.suffix_append ['\\', '\n'] r))
  | case2 r ih =>
    by_cases hr : r = []
    · subst hr
      exact .inr (List.suffix_refl _)
    · exact (ih (hcs.of_append (a := ['\\', '\r', '\n']) hr) (by simpa [Nat.add_comm 3] using h)).imp
        (·.trans (List.suffix_append ['\\', '\r', '\n'] r)) (·.trans (List.suffix_append ['\\', '\r', '\n'] r))
  | case3 c r _ _ hc ih =>
    have hr : r ≠ [] := by
      rintro rfl
      obtain ⟨a, ha⟩ := hcs
      have : c = '\n' := by simpa using congrArg List.getLast? ha
      subst this
      simp at hc
    exact (ih (hcs.of_append (a := [c]) hr) (by simpa [Nat.add_comm 1] using h)).imp
      (·.trans (List.suffix_append [c] r)) (·.trans (List.suffix_append [c] r))
  | case4 => simp at h
  | case5 => exact absurd rfl hcs.ne_nil

/-- Enough to see without a scan: the last line feed follows no backslash, and no `__END__` stands anywhere. -/
theorem WholeLines.of_plain {text : List Char} (hends : EndsLine text) (hjoined : ¬['\\', '\n'] <:+ text)
    (hreturn : ¬['\\', '\r', '\n'] <:+ text) (hdata : ¬"__END__".toList <:+: text) : WholeLines text where
  ends := hends
  unjoined := by
    intro s rest hrun hne hblank
    obtain ⟨taken, rfl, -⟩ := (Placed.start text).run hrun
    rcases blanks_all (hends.of_append hne) hblank with h | h
    · exact hjoined (h.trans (List.suffix_append _ _))
    · exact hreturn (h.trans (List.suffix_append _ _))
  noData := by
    intro s rest hrun _
    obtain ⟨taken, rfl, -⟩ := (Placed.start text).run hrun
    rw [← Bool.not_eq_true]
    intro hmarker
    obtain ⟨below, rfl, -⟩ := data_of_isDataMarker hmarker
    exact hdata ⟨taken, below, by simp⟩

/-- The scan of whole lines comes to their end, and nothing is left open there. -/
theorem WholeLines.run {text : List Char} {z : Scanner} (h : WholeLines text)
    (hwalk : walk (.ofText text) text 0 {} = .ok z) (hpending : z.pending = []) :
    Run (.ofText text) {} text z [] ∧ Placed z text [] ∧ LineEnd z := by
  obtain ⟨rest, hrun, hend⟩ := walk_run hwalk
  have hrest : rest = [] := by
    rcases hend with hrest | hend
    · exact hrest
    · by_contra hne
      rcases step_none hend with ⟨hstart, hdata⟩ | hblank
      · rw [h.noData z rest hrun hstart] at hdata
        cases hdata
      · exact h.unjoined z rest hrun hne hblank
  subst hrest
  obtain ⟨taken, htaken, hplaced⟩ := (Placed.start text).run hrun
  rw [List.append_nil] at htaken
  subst htaken
  rw [List.nil_append] at hplaced
  obtain ⟨a, ha⟩ := h.ends
  have hbehind : z.reading.behind = '\n' :: a.reverse := by rw [hplaced.behind, ha, List.reverse_append]; rfl
  refine ⟨hrun, hplaced, ⟨⟨_, hbehind⟩, hpending, ?_, fun t ht => ?_⟩⟩
  · exact (Placed.start text).fresh (fun _ => .inl rfl) hrun (by rw [Reading.atLineStart, hbehind]; rfl)
  · have := hplaced.cut.stop_le (List.mem_reverse.mpr ht)
    rw [hplaced.offset]
    omega

/-- A scan that comes to the end of a line goes on like the scan of the text below. -/
theorem scan_below {upper lower : List Char} {z : Scanner} (hends : EndsLine upper) (hz : LineEnd z)
    (hoffset : z.reading.offset = byteLength upper)
    (hwalk : walk (.ofText (upper ++ lower)) (upper ++ lower) 0 {} = walk (.ofText (upper ++ lower)) lower 0 z) :
    scan (upper ++ lower) =
      match scan lower with
      | .error e => .error (e.below (upper.count '\n'))
      | .ok below => .ok {
          tokens := z.reading.tokens.reverse ++ below.tokens.map (·.shift (byteLength upper))
          stop := below.stop.shift (byteLength upper)
          comments := z.reading.comments.reverse ++ below.comments.map (·.below (upper.count '\n')) } := by
  obtain ⟨a, rfl⟩ := hends
  have hlines : PlacesBelow z ((a ++ ['\n']).count '\n') 0 (.ofText lower) (.ofText (a ++ ['\n'] ++ lower)) := by
    intro k
    rw [hoffset, LineIndex.lineColumn_below, Nat.zero_add, ite_self]
  have hstart : z = z.below ((a ++ ['\n']).count '\n') {} := by
    obtain ⟨reading, pending⟩ := z
    cases hz.pending
    rfl
  rw [hstart, walk_below (.line hz) hlines] at hwalk
  simp only [scan, hwalk, ParseFailure.behind_zero]
  rcases walk (.ofText lower) lower 0 {} with e | s
  · rfl
  · rcases hs : s.pending with _ | ⟨p, ps⟩
    · simp [Scanner.below, hs, Reading.below, hoffset, Token.shift, Span.shift, List.map_reverse, Nat.add_assoc]
    · simp only [Scanner.below, hs, List.map_cons]
      exact congrArg Except.error ((fault_below hlines _ _).trans (ParseFailure.behind_zero _ _))

/-- Whole lines and what follows them are scanned apart from each other. -/
theorem scan_append {upper : List Char} {above : Scanned TokenKind} (h : scan upper = .ok above)
    (hwhole : WholeLines upper) (lower : List Char) :
    scan (upper ++ lower) =
      match scan lower with
      | .error e => .error (e.below (upper.count '\n'))
      | .ok below => .ok {
          tokens := above.tokens ++ below.tokens.map (·.shift (byteLength upper))
          stop := below.stop.shift (byteLength upper)
          comments := above.comments ++ below.comments.map (·.below (upper.count '\n')) } := by
  simp only [scan] at h
  split at h
  · cases h
  rename_i z hwalk
  split at h
  · cases h
  rename_i hpending
  cases h
  obtain ⟨hrun, hplaced, hz⟩ := hwhole.run hwalk hpending
  have hlines : ∀ k < byteLength upper,
      (LineIndex.ofText (upper ++ lower)).line (0 + k) = (LineIndex.ofText upper).line (0 + k) := by
    obtain ⟨a, rfl⟩ := hwhole.ends
    exact fun k hk => by simpa using LineIndex.line_above a lower hk
  -- The whole scan comes to the end of the upper text, and goes on there like the lower one.
  have hupper : Run (.ofText (upper ++ lower)) {} (upper ++ lower) z lower := hrun.append (.inr hwhole.ends) hlines lower
  exact scan_below hwhole.ends hz hplaced.offset hupper.walk_eq

/-- Below the body of a heredoc a slash opens a regular expression, as it does at the start of a text. -/
theorem scan_append_heredoc :
    ∃ above below, scan "p <<A\nb\nA\n".toList = .ok above ∧ WholeLines "p <<A\nb\nA\n".toList ∧
      scan "/x/ # c\n".toList = .ok below ∧
      scan ("p <<A\nb\nA\n".toList ++ "/x/ # c\n".toList) = .ok {
        tokens := above.tokens ++ below.tokens.map (·.shift 10)
        stop := below.stop.shift 10
        comments := above.comments ++ below.comments.map (·.below 3) } := by
  have hdata : ¬"__END__".toList <:+: "p <<A\nb\nA\n".toList := fun h =>
    absurd (h.subset (show '_' ∈ "__END__".toList by decide)) (by decide)
  have hwhole : WholeLines "p <<A\nb\nA\n".toList :=
    .of_plain ⟨"p <<A\nb\nA".toList, rfl⟩ (by decide) (by decide) hdata
  obtain ⟨above, habove⟩ : ∃ above, scan "p <<A\nb\nA\n".toList = .ok above := ⟨_, rfl⟩
  obtain ⟨below, hbelow⟩ : ∃ below, scan "/x/ # c\n".toList = .ok below := ⟨_, rfl⟩
  have hlength : byteLength "p <<A\nb\nA\n".toList = 10 := by decide
  have hcount : "p <<A\nb\nA\n".toList.count '\n' = 3 := by decide
  have h := scan_append habove hwhole "/x/ # c\n".toList
  rw [hbelow, hlength, hcount] at h
  exact ⟨above, below, habove, hwhole, hbelow, h⟩

end Ruby
end PuppetDocs
