import PuppetDocs.Proofs.Scan.Markers

/-
  PuppetDocs.Proofs.Scan.Outcome — what becomes of a text that is scanned.

  The scanner takes characters, so that all it takes ends between two of them. Only the
  indentation that the lines of a `~` body have in common is counted in bytes. It is white
  space in each line, but not the same white space, and where a line has a wide blank the
  bytes may end inside it (`SplitIndent`). In front of such a body the scan breaks off
  (`Jagged`); every other text is scanned, or refused for damage in it (`scan_outcome`).

  The damage is shown where it is reported (`scan_error`): in front of the step that fails, or at
  the marker of a heredoc that has no end.
-/

namespace PuppetDocs

namespace Text

/-- Bytes that cannot be cut off end inside a character. -/
theorem cut?_eq_none {n : Nat} {cs : List Char} (h : cut? n cs = none) (hle : n ≤ byteLength cs) :
    ∃ a c b, cs = a ++ c :: b ∧ byteLength a < n ∧ n < byteLength a + c.utf8Size := by
  fun_induction cut? n cs with
  | case1 => cases h
  | case2 n => simp at hle
  | case3 n c cs hc ih =>
    simp only [byteLength_cons] at hle
    obtain ⟨a, d, b, rfl, hlt, hgt⟩ := ih (Option.map_eq_none_iff.mp h) (by omega)
    exact ⟨c :: a, d, b, rfl, by rw [byteLength_cons]; omega, by rw [byteLength_cons]; omega⟩
  | case4 n c cs hc => exact ⟨[], c, cs, rfl, Nat.succ_pos n, by simp only [byteLength_nil]; omega⟩

theorem byteLength_takeWhile (p : Char → Bool) (cs : List Char) :
    byteLength cs = byteLength (cs.takeWhile p) + byteLength (cs.dropWhile p) := by
  rw [← byteLength_append, List.takeWhile_append_dropWhile]

end Text

namespace Ruby

open Text (byteLength isBlank allBlank)

/-! ## Indentation -/

/-- The first `n` bytes of the line end inside a blank in front of which only blanks stand. -/
def SplitIndent (n : Nat) (line : List Char) : Prop :=
  ∃ a c b, line = a ++ c :: b ∧ allBlank a = true ∧ isBlank c = true ∧ byteLength a < n ∧
    n < byteLength a + c.utf8Size

namespace Heredoc

theorem indentation_eq (line : List Char) : indentation line = byteLength (line.takeWhile isBlank) := by
  rw [indentation, Text.trimStart, Text.byteLength_takeWhile isBlank line, Nat.add_sub_cancel]

/-- What the lines have in common, each line with content has. -/
theorem commonIndent_le {body : List (List Char)} {line : List Char} (hline : line ∈ body)
    (hcontent : allBlank line = false) : commonIndent body ≤ indentation line := by
  have hmem : indentation line ∈ (body.filter (!allBlank ·)).map indentation :=
    List.mem_map_of_mem (List.mem_filter.mpr ⟨hline, by simp [hcontent]⟩)
  exact List.min?_getD_le_of_mem hmem

/-- A line without its common indentation is not there only where the indentation ends inside a blank. -/
theorem unindent_error {body : List (List Char)} {line : List Char} {e : ParseFailure} (hline : line ∈ body)
    (h : unindent (commonIndent body) line = .error e) :
    e = .outOfText ⟨commonIndent body, byteLength line⟩ ∧ SplitIndent (commonIndent body) line := by
  unfold unindent at h
  split at h
  · cases h
  next hle =>
  split at h
  · cases h
  next hcut =>
  cases h
  refine ⟨rfl, ?_⟩
  obtain ⟨a, c, b, hsplit, hlt, hgt⟩ := Text.cut?_eq_none hcut (Nat.le_of_not_lt hle)
  -- The character that is cut starts inside the white space of the line.
  have hwhite : byteLength a < byteLength (line.takeWhile isBlank) := by
    cases hblank : allBlank line with
    | true =>
      have hall : line.takeWhile isBlank = line := List.takeWhile_eq_self_iff.mpr (List.all_eq_true.mp hblank)
      rw [hall, hsplit, Text.byteLength_append, Text.byteLength_cons]
      have := c.utf8Size_pos
      omega
    | false =>
      have := commonIndent_le hline hblank
      rw [indentation_eq] at this
      omega
  have hfront : a ++ [c] <+: line.takeWhile isBlank := by
    have hline : a ++ [c] <+: line := ⟨b, by simp [hsplit]⟩
    rcases List.prefix_or_prefix_of_prefix hline (List.takeWhile_prefix isBlank) with hin | ⟨d, hd⟩
    · exact hin
    · rcases List.eq_nil_or_concat d with rfl | ⟨d, x, rfl⟩
      · exact ⟨[], by rw [List.append_nil, ← hd, List.append_nil]⟩
      · have ha : line.takeWhile isBlank ++ d = a := by
          rw [List.concat_eq_append, ← List.append_assoc] at hd
          exact (List.append_inj' hd rfl).1
        rw [← ha, Text.byteLength_append] at hwhite
        omega
  have hblanks : ∀ x ∈ a ++ [c], isBlank x = true := fun x hx => List.mem_takeWhile_imp (hfront.subset hx)
  exact ⟨a, c, b, hsplit, List.all_eq_true.mpr fun x hx => hblanks x (by simp [hx]), hblanks c (by simp), hlt, hgt⟩

end Heredoc

/-- Below the line feed of a line that opened heredocs stands, behind the bodies of those in front of it, the body of
a `~` heredoc; the indentation of its lines ends inside a blank of one of them, and `s` is the rest of that line. -/
inductive Jagged : List Char → Span → Prop
  | body {before upper lower line : List Char} {ts : List (Token TokenKind)} {hs hs' : List Heredoc} {d : Heredoc}
      {body after : List (List Char)} :
      Cut before ('\n' :: upper ++ lower) ts (hs ++ d :: hs') → Bodies hs upper lower → d.squiggly = true →
      d.takeBody? (Text.physicalLines lower) = some (body, after) → line ∈ body →
      SplitIndent (Heredoc.commonIndent body) line →
      Jagged (before ++ '\n' :: upper ++ lower) ⟨Heredoc.commonIndent body, byteLength line⟩

/-! ## Steps -/

section Steps

variable {lines : LineIndex} {s : Scanner} {r : Reading TokenKind} {gap width : Nat} {cs rest : List Char}
  {e : ParseFailure}

theorem literal_error {d : Delimiters} {flags : Bool} {kind : StrLit → TokenKind}
    (h : literal lines s r gap cs width d flags kind = .error e) :
    e = .rejected (Fault.unterminatedString.at lines r.offset) := by
  unfold literal at h
  dsimp only at h
  split at h
  · exact (Except.error.inj h).symm
  · cases h

theorem percentLiteral_error (h : percentLiteral lines s r gap cs width = .error e) :
    e = .rejected (Fault.unterminatedString.at lines r.offset) := by
  unfold percentLiteral at h
  dsimp only at h
  split at h <;> exact literal_error h

/-- Bodies that are not read lack an end, or one of them stands behind those that were read. -/
theorem readBodies_error {tokens : List (Token TokenKind)} {ps : List Pending}
    (h : readBodies lines tokens ps (Text.physicalLines cs) = .error e) :
    (∃ p ∈ ps, e = .rejected ((Fault.unterminatedHeredoc (String.ofList p.heredoc.tag)).at lines p.start)) ∨
      ∃ hs d hs' upper lower body after, ps.map Pending.heredoc = hs ++ d :: hs' ∧ cs = upper ++ lower ∧
        Bodies hs upper lower ∧ d.takeBody? (Text.physicalLines lower) = some (body, after) ∧ d.value body = .error e := by
  induction ps generalizing tokens cs with
  | nil => cases h
  | cons p ps ih =>
    rw [readBodies] at h
    split at h
    · exact .inl ⟨p, List.mem_cons_self, (Except.error.inj h).symm⟩
    next body after hbody =>
    split at h
    · next hvalue =>
      cases h
      exact .inr ⟨[], p.heredoc, ps.map Pending.heredoc, [], cs, body, after, rfl, rfl, .done _, hbody, hvalue⟩
    · obtain ⟨-, below, -, rfl, -⟩ := takeBody?_bodies [] hbody
      rcases ih h with
        ⟨q, hq, hrejected⟩ | ⟨hs, d, hs', upper, lower, body', after', hps, hbelow, hbodies, htake, hvalue⟩
      · exact .inl ⟨q, List.mem_cons_of_mem p hq, hrejected⟩
      obtain ⟨front, below', rfl, hlines, hmore⟩ := takeBody?_bodies hs hbody
      have hsame : below' = below := by
        rw [← Text.flatten_physicalLines below', ← hlines, Text.flatten_physicalLines]
      subst hsame
      exact .inr ⟨p.heredoc :: hs, d, hs', front ++ upper, lower, body', after', by rw [List.map_cons, hps]; rfl,
        by rw [hbelow, List.append_assoc], hmore upper lower hbelow hbodies, htake, hvalue⟩

/-- A lexeme other than a line feed is refused for a fault that it shows itself. -/
theorem accept_error {l : Lexeme} (hl : lexeme? cs = some (l, width)) (h : accept lines s r gap cs width l = .error e) :
    (∃ fault : Fault, fault.Shows .ruby cs ∧ e = .rejected (fault.at lines r.offset)) ∨ l = .plain .newline := by
  have hstarts := (lexeme?_fits hl).starts
  cases l with
  | comment => cases h
  | word =>
    rw [accept] at h
    split at h
    · cases h
    · split at h <;> cases h
  | opening o =>
    refine .inl ?_
    cases o with
    | singleQuote =>
      obtain ⟨x, rfl⟩ := hstarts
      exact ⟨_, shows_string (.quote (.inl rfl)) x, literal_error h⟩
    | doubleQuote =>
      obtain ⟨x, rfl⟩ := hstarts
      exact ⟨_, shows_string (.quote (.inr rfl)) x, literal_error h⟩
    | backtick =>
      obtain ⟨x, rfl⟩ := hstarts
      exact ⟨_, shows_string .backtick x, literal_error h⟩
    | symbolQuote q =>
      obtain ⟨hq, x, rfl⟩ := hstarts
      exact ⟨_, shows_string (.symbol hq) x, literal_error h⟩
    | percent =>
      obtain ⟨x, rfl, hopen, -⟩ := hstarts
      rw [accept] at h
      split at h
      · exact ⟨_, shows_percent hopen, percentLiteral_error h⟩
      · cases h
    | heredoc =>
      rw [accept] at h
      split at h <;> cases h
  | plain kind =>
    cases kind with
    | newline => exact .inr rfl
    | constant | symbol =>
      rw [accept] at h
      split at h <;> cases h
    | slash =>
      rw [accept] at h
      split at h
      · split at h
        · exact .inl ⟨.unterminatedRegex, hstarts.2.2 rfl, (Except.error.inj h).symm⟩
        · cases h
      · cases h
    | _ => cases h

/-- A step fails for damage in the text, or in front of a jagged body. -/
theorem Placed.step_error {before : List Char} (hplaced : Placed s before rest) (hmarkers : MarkersStand s (before ++ rest))
    (h : step lines s rest = .error e) :
    Refuses .ruby lines (before ++ rest) e ∨ ∃ span, e = .outOfText span ∧ Jagged (before ++ rest) span := by
  unfold step at h
  split at h
  · next hdocument =>
    split at h
    · cases h
    · have hopening := List.isPrefixOf_iff_prefix.mp (Bool.and_eq_true_iff.mp hdocument).2
      refine .inl ⟨.unterminatedComment, before, rest, rfl, hopening, ?_⟩
      rw [← hplaced.offset]
      exact (Except.error.inj h).symm
  split at h
  · cases h
  dsimp only at h
  split at h
  · cases h
  split at h
  · cases h
  next l width hlexeme =>
  rcases accept_error hlexeme h with ⟨fault, hshows, rfl⟩ | rfl
  · refine .inl ⟨fault, before ++ rest.take (blanks rest), rest.drop (blanks rest), ?_, hshows, ?_⟩
    · rw [List.append_assoc, List.take_append_drop]
    · rw [Reading.skip_offset, hplaced.offset, Text.byteLength_append]
  obtain ⟨below, hcs, rfl⟩ := (lexeme?_fits hlexeme).starts
  rw [accept, newline, hcs] at h
  split at h
  · cases h
  dsimp only [List.drop_one, List.tail_cons] at h
  split at h
  · next e' hbodies =>
    cases h
    refine (readBodies_error hbodies).imp ?_ ?_
    · rintro ⟨p, hp, rfl⟩
      exact hmarkers.refuses hp
    rintro ⟨hs, d, hs', upper, lower, body, after, hps, rfl, hupper, htake, hvalue⟩
    obtain ⟨hsquiggly, line, hline, hunindent⟩ := Heredoc.value_error hvalue
    obtain ⟨rfl, hsplit⟩ := Heredoc.unindent_error hline hunindent
    have hcut := hplaced.cut.blanks
    -- The line feed is a token by now; it opens nothing.
    change s.pending.map Pending.heredoc = hs ++ d :: hs' at hps
    rw [hps, hcs] at hcut
    have hjagged := Jagged.body hcut hupper hsquiggly htake hline hsplit
    have htext : before ++ rest.take (blanks rest) ++ '\n' :: upper ++ lower = before ++ rest := by
      conv_rhs => rw [← List.take_append_drop (blanks rest) rest, hcs]
      simp
    rw [htext] at hjagged
    exact ⟨_, rfl, hjagged⟩
  · cases h

end Steps

/-! ## Scans -/

/-- A walk that fails is a run up to the step that fails. -/
theorem walk_error {lines : LineIndex} {s : Scanner} {rest : List Char} {e : ParseFailure}
    (h : walk lines rest 0 s = .error e) : ∃ s' rest', Run lines s rest s' rest' ∧ step lines s' rest' = .error e := by
  induction hn : rest.length using Nat.strongRecOn generalizing rest s with
  | ind k ih =>
    subst hn
    rcases rest with _ | ⟨c, rest⟩
    · cases h
    cases hstep : step lines s (c :: rest) with
    | error e' =>
      simp only [walk, hstep] at h
      cases h
      exact ⟨s, _, .here s _, hstep⟩
    | ok found? =>
      rcases found? with _ | ⟨t, n⟩
      · simp [walk, hstep] at h
      · obtain ⟨hpos, hle⟩ := (step_found hstep).width
        rw [walk_next (by simp) hstep] at h
        obtain ⟨s', rest', hrun, herror⟩ := ih ((c :: rest).drop n).length (by rw [List.length_drop]; omega) h rfl
        exact ⟨s', rest', .next (by simp) hstep hrun, herror⟩

/-- A text that is not scanned is damaged where the fault is reported, or the scan breaks off in front of a jagged
body. -/
theorem scan_error {text : List Char} {e : ParseFailure} (h : scan text = .error e) :
    Refuses .ruby (.ofText text) text e ∨ ∃ span, e = .outOfText span ∧ Jagged text span := by
  have hstart : MarkersStand {} ([] ++ text) := nofun
  simp only [scan] at h
  split at h
  · next e' hwalk =>
    cases h
    obtain ⟨s', rest', hrun, hstep⟩ := walk_error hwalk
    have hmarkers := (Placed.start text).markers_run hstart hrun
    obtain ⟨taken, rfl, hplaced⟩ := (Placed.start text).run hrun
    exact hplaced.step_error hmarkers hstep
  next s hwalk =>
  split at h
  · next p ps hpending =>
    cases h
    obtain ⟨rest', hrun, -⟩ := walk_run hwalk
    have hmarkers := (Placed.start text).markers_run hstart hrun
    exact .inl (hmarkers.refuses (by rw [hpending]; exact List.mem_cons_self))
  · cases h

/-- A text is scanned, or it is damaged, or the scan breaks off in front of a jagged body. -/
theorem scan_outcome (text : List Char) :
    (∃ found, scan text = .ok found) ∨ (∃ x, scan text = .error (.rejected x)) ∨
      ∃ span, scan text = .error (.outOfText span) ∧ Jagged text span := by
  cases hscan : scan text with
  | ok found => exact .inl ⟨found, rfl⟩
  | error e =>
    rcases scan_error hscan with ⟨fault, before, rest, -, -, rfl⟩ | ⟨span, rfl, hjagged⟩
    · exact .inr (.inl ⟨_, rfl⟩)
    · exact .inr (.inr ⟨span, rfl, hjagged⟩)

end Ruby
end PuppetDocs
