import PuppetDocs.Proofs.Scan.Coverage

/-
  PuppetDocs.Proofs.Scan.Lines — a step within whole lines does not see what follows them.

  The scanner looks ahead: a colon makes a key of a name, a blank or an equals sign decides
  about a slash, quotes and heredocs are read to their end. None of this looks behind the line
  feed that ends the text unless the text is damaged there, so a step that finds something in
  whole lines finds the same in front of any further text (`step_append`), and so does a run
  (`walk_append`). What the state can carry over the end of a line is little: at the start of a
  line the token found last is a line feed, if there is one (`Run.fresh`).
-/

namespace PuppetDocs.Ruby

open Text (byteLength run)

/-! ## Looking ahead -/

theorem isKey_line (r : Reading TokenKind) (a x y : List Char) : isKey r (a ++ '\n' :: x) = isKey r (a ++ '\n' :: y) := by
  rcases a with _ | ⟨c, _ | ⟨d, a⟩⟩
  · rfl
  · by_cases hc : c = ':'
    · subst hc; rfl
    · simp [isKey, hc]
  · by_cases hc : c = ':'
    · subst hc
      by_cases hd : d = ':'
      · subst hd; rfl
      · simp [isKey, hd]
    · simp [isKey, hc]

theorem isSetter_line (symbol a x y : List Char) : isSetter symbol (a ++ '\n' :: x) = isSetter symbol (a ++ '\n' :: y) := by
  rcases a with _ | ⟨c, _ | ⟨d, a⟩⟩
  · rfl
  · by_cases hc : c = '='
    · subst hc; rfl
    · simp [isSetter, hc]
  · by_cases hc : c = '='
    · subst hc; rfl
    · simp [isSetter, hc]

theorem valueMayStart_line (r : Reading TokenKind) (a x y : List Char) :
    valueMayStart r (a ++ '\n' :: x) = valueMayStart r (a ++ '\n' :: y) := by
  have hhead : (a ++ '\n' :: x).head? = (a ++ '\n' :: y).head? := by cases a <;> rfl
  simp only [valueMayStart, hhead]

/-- Behind a part that does not end a line there are further characters. -/
theorem EndsLine.drop_of_last {cs : List Char} (h : EndsLine cs) {n : Nat} (hlast : (cs.take n).getLast? ≠ some '\n') :
    n < cs.length ∧ EndsLine (cs.drop n) := by
  have hn : n < cs.length := by
    by_contra hn
    obtain ⟨a, rfl⟩ := h
    rw [List.take_of_length_le (by omega), List.getLast?_concat] at hlast
    exact hlast rfl
  exact ⟨hn, h.drop hn⟩

theorem lexeme?_append {cs : List Char} (h : EndsLine cs) (x : List Char) : lexeme? (cs ++ x) = lexeme? cs := by
  obtain ⟨a, y, ha, rfl⟩ := h.first
  rcases a with _ | ⟨c, a⟩
  · rfl
  · have happend : c :: a ++ '\n' :: y ++ x = c :: a ++ '\n' :: (y ++ x) := by simp
    rw [happend, lexeme?_line (by simp), lexeme?_line (by simp)]

/-! ## One step -/

section Step

variable {lines lines' : LineIndex} {s t : Scanner} {r : Reading TokenKind} {gap n : Nat} {cs : List Char}

theorem found_append {kind : TokenKind} {width : Nat} (h : width ≤ cs.length) (x : List Char) :
    found s r gap (cs ++ x) kind width = found s r gap cs kind width := by
  rw [found, found, List.take_append_of_le_length h]

theorem literal_append {d : Delimiters} {width : Nat} {flags : Bool} {kind : StrLit → TokenKind}
    (hsigil : d.sigil ≠ some d.close) (hclose : d.close ≠ '\n') (hcs : EndsLine cs) (hwidth : width ≤ cs.length)
    (h : literal lines s r gap cs width d flags kind = .ok (some (t, n))) (x : List Char) :
    literal lines' s r gap (cs ++ x) width d flags kind = .ok (some (t, n)) := by
  simp only [literal, List.drop_append_of_le_length hwidth, Delimiters.body?] at h ⊢
  split at h
  · cases h
  rename_i m hbody
  have hget := Delimiters.bodyFrom_close hbody
  have hm := (List.getElem?_eq_some_iff.mp hget).1
  rw [List.getElem?_drop] at hget
  -- The closing delimiter is no line feed, so there are characters behind it.
  obtain ⟨hclosed, hrest⟩ := hcs.drop_of_last (n := width + m + 1) (by
    rw [getLast?_take_succ hget]
    exact fun he => hclose (Option.some.inj he))
  have hletters : run Char.isAlpha ((cs ++ x).drop (width + m + 1)) = run Char.isAlpha (cs.drop (width + m + 1)) := by
    rw [List.drop_append_of_le_length (by omega)]
    exact hrest.append_eq (fun a x y => by rw [run_line (by decide), run_line (by decide)]) x
  have hrun := run_le Char.isAlpha (cs.drop (width + m + 1))
  rw [List.length_drop] at hrun
  simp only [Delimiters.bodyFrom_append hsigil hbody, hletters, List.take_append_of_le_length (Nat.le_of_lt hm)]
  rw [found_append (by split <;> omega), h]

theorem percentLiteral_append {rest : List Char} (hopen : percentOpening rest ≠ 0) (hcs : EndsLine ('%' :: rest))
    (h : percentLiteral lines s r gap ('%' :: rest) (1 + percentOpening rest) = .ok (some (t, n))) (x : List Char) :
    percentLiteral lines' s r gap ('%' :: rest ++ x) (1 + percentOpening rest) = .ok (some (t, n)) := by
  obtain ⟨c, hc, hdel⟩ := percent_opener hopen
  have hclose : closingOf c ≠ '\n' := closingOf_ne (by rintro rfl; revert hdel; decide)
  have hhash : closingOf c ≠ '#' := by
    unfold closingOf
    split <;> first | decide | (rintro rfl; revert hdel; decide)
  have hle := percentOpening_le rest
  have hsecond : ('%' :: rest ++ x)[1]? = ('%' :: rest)[1]? := List.getElem?_append_left (by simp; omega)
  have hfront : ('%' :: rest ++ x).take (1 + percentOpening rest) = ('%' :: rest).take (1 + percentOpening rest) :=
    List.take_append_of_le_length (by simp; omega)
  simp only [percentLiteral, hfront, hsecond, hc, Option.getD_some] at h ⊢
  have hraw : (percentDelimiters c none).sigil ≠ some (percentDelimiters c none).close := by simp [percentDelimiters]
  have hinterpolating : (percentDelimiters c (some '#')).sigil ≠ some (percentDelimiters c (some '#')).close :=
    fun he => hhash (Option.some.inj he).symm
  split at h <;>
    first
    | exact literal_append hraw hclose hcs (by simp; omega) h x
    | exact literal_append hinterpolating hclose hcs (by simp; omega) h x

theorem newline_append {below : List Char} (hbelow : below = [] ∨ EndsLine below)
    (h : newline lines s r gap ('\n' :: below) = .ok (some (t, n))) (x : List Char) :
    newline lines' s r gap ('\n' :: below ++ x) = .ok (some (t, n)) := by
  simp only [newline, List.cons_append] at h ⊢
  split at h
  · rename_i hp
    rw [if_pos hp]
    exact h
  · rename_i hp
    rw [if_neg hp]
    split at h
    · cases h
    rename_i tokens after hbodies
    simp only [List.take_succ_cons, List.take_zero, List.drop_succ_cons, List.drop_zero, physicalLines_append hbelow] at hbodies h ⊢
    rw [readBodies_append hbodies]
    simp only [List.flatten_append, Text.flatten_physicalLines, List.length_append, Nat.add_sub_add_right]
    exact h

/-- A slash that divides, or a regular expression. -/
theorem slash_append {width : Nat} (hcs : EndsLine cs) (hle : width ≤ cs.length)
    (h : accept lines s r gap cs width (.plain .slash) = .ok (some (t, n))) {x : List Char}
    (hvalue : valueMayStart r ((cs ++ x).drop 1) = valueMayStart r (cs.drop 1)) :
    accept lines' s r gap (cs ++ x) width (.plain .slash) = .ok (some (t, n)) := by
  rw [accept] at h ⊢
  rw [hvalue]
  split at h
  · rename_i hv
    rw [if_pos hv]
    split at h
    · cases h
    rename_i m hbody
    have hslash := regexBody?_slash hbody
    rw [List.getElem?_drop, Nat.add_comm] at hslash
    obtain ⟨hclosed, hafter⟩ := hcs.drop_of_last (n := m + 2) (by rw [getLast?_take_succ hslash]; simp)
    have hletters : run Char.isAlpha ((cs ++ x).drop (m + 2)) = run Char.isAlpha (cs.drop (m + 2)) := by
      rw [List.drop_append_of_le_length (by omega)]
      exact hafter.append_eq (fun a x y => by rw [run_line (by decide), run_line (by decide)]) x
    have hrun := run_le Char.isAlpha (cs.drop (m + 2))
    rw [List.length_drop] at hrun
    rw [List.drop_append_of_le_length (by omega), regexBody?_append hbody]
    simp only [hletters]
    rw [found_append (by omega), h]
  · rename_i hv
    rw [if_neg hv, found_append hle, h]

theorem accept_append {l : Lexeme} {width : Nat} (hcs : EndsLine cs) (hl : lexeme? cs = some (l, width))
    (hline : lines'.line r.offset = lines.line r.offset)
    (h : accept lines s r gap cs width l = .ok (some (t, n))) (x : List Char) :
    accept lines' s r gap (cs ++ x) width l = .ok (some (t, n)) := by
  obtain ⟨hstarts, hpos, hle⟩ := lexeme?_fits hl
  have htake : (cs ++ x).take width = cs.take width := List.take_append_of_le_length hle
  by_cases hnl : l = .plain .newline
  · subst hnl
    obtain ⟨below, rfl, rfl⟩ := hstarts
    refine newline_append ?_ h x
    by_cases hb : below = []
    · exact .inl hb
    · exact .inr (hcs.of_append (a := ['\n']) hb)
  -- Any other lexeme stands within its line, and the line goes on behind it.
  have hmem := lexeme?_not_mem hl hnl
  obtain ⟨hlt, hrest⟩ := hcs.drop_of_last (getLast?_ne_of_not_mem hmem)
  have hdrop : (cs ++ x).drop width = cs.drop width ++ x := List.drop_append_of_le_length hle
  have hkey := hrest.append_eq (isKey_line r) x
  have hvalue : valueMayStart r ((cs ++ x).drop 1) = valueMayStart r (cs.drop 1) := by
    rw [List.drop_append_of_le_length (by omega)]
    exact (hcs.drop (by omega)).append_eq (valueMayStart_line r) x
  cases l with
  | comment =>
    rw [accept, htake, Reading.comment, hline]
    exact h
  | word =>
    rw [accept] at h ⊢
    rw [hdrop, hkey, htake]
    split at h
    · rename_i hk
      rw [if_pos hk, found_append hlt, h]
    · rename_i hk
      rw [if_neg hk]
      split at h
      · rw [found_append hle, h]
      · rw [found_append hle, h]
  | opening o =>
    cases o with
    | singleQuote | doubleQuote | backtick =>
      exact literal_append (by simp [Delimiters.quote]) (by simp [Delimiters.quote]) hcs hle h x
    | symbolQuote q =>
      obtain ⟨hq, -⟩ := hstarts
      refine literal_append ?_ ?_ hcs hle h x
      · rcases hq with rfl | rfl <;> simp [Delimiters.quote]
      · rcases hq with rfl | rfl <;> simp [Delimiters.quote]
    | percent =>
      obtain ⟨rest, rfl, hopen, rfl⟩ := hstarts
      rw [accept] at h ⊢
      rw [hvalue]
      split at h
      · rename_i hv
        rw [if_pos hv]
        exact percentLiteral_append hopen hcs h x
      · rename_i hv
        rw [if_neg hv, found_append (by simp), h]
    | heredoc =>
      obtain ⟨rest, rfl, hw⟩ := hstarts
      rw [accept] at h ⊢
      rw [hvalue, htake]
      split at h
      · rename_i hv
        rw [if_pos hv, found_append hle, h]
      · rename_i hv
        rw [if_neg hv, found_append (by simp), h]
  | plain kind =>
    cases kind with
    | newline => exact absurd rfl hnl
    | constant =>
      rw [accept] at h ⊢
      rw [hdrop, hkey]
      split at h
      · rename_i hk
        rw [if_pos hk, found_append hlt, h]
      · rename_i hk
        rw [if_neg hk, found_append hle, h]
    | symbol =>
      rw [accept] at h ⊢
      rw [hdrop, htake, hrest.append_eq (isSetter_line _) x]
      split at h
      · rename_i hk
        rw [if_pos hk, found_append hlt, h]
      · rename_i hk
        rw [if_neg hk, found_append hle, h]
    | slash => exact slash_append hcs hle h hvalue
    | _ =>
      rw [accept] at h ⊢
      · rw [found_append hle, h]
      all_goals
        intro heq
        cases heq

/-- A step that finds something in whole lines finds it in front of any further text. -/
theorem step_append {p : List Char} (hp : EndsLine p)
    (hlines : ∀ k < byteLength p, lines'.line (s.reading.offset + k) = lines.line (s.reading.offset + k))
    (h : step lines s p = .ok (some (t, n))) (x : List Char) : step lines' s (p ++ x) = .ok (some (t, n)) := by
  have hblanks := (step_found h).blanks_lt
  have hbegin : "=begin".toList.isPrefixOf (p ++ x) = "=begin".toList.isPrefixOf p :=
    hp.append_eq (fun a x y => by rw [isPrefixOf_line (by decide), isPrefixOf_line (by decide)]) x
  rw [step] at h ⊢
  rw [hbegin, hp.append_eq isDataMarker_line]
  split at h
  · rename_i hdoc
    rw [if_pos hdoc]
    split at h
    · rename_i width hwidth
      rw [embeddedDoc?_append hp hwidth]
      exact h
    · cases h
  rename_i hdoc
  rw [if_neg hdoc]
  split at h
  · cases h
  rename_i hdata
  rw [if_neg hdata]
  simp only [blanks_append hp hblanks, List.drop_append_of_le_length (Nat.le_of_lt hblanks),
    List.take_append_of_le_length (Nat.le_of_lt hblanks)] at h ⊢
  have hcs : EndsLine (p.drop (blanks p)) := hp.drop hblanks
  rw [if_neg (by simpa using Nat.not_le.mpr hblanks)] at h
  rw [if_neg (by simpa using fun hle => absurd hle (Nat.not_le.mpr hblanks)), lexeme?_append hcs]
  split at h
  · rw [found_append (by rw [List.length_drop]; omega), h]
  · rename_i l width hl
    refine accept_append hcs hl ?_ h x
    rw [Reading.skip_offset]
    refine hlines _ ?_
    have hsplit := congrArg byteLength (List.take_append_drop (blanks p) p)
    have hne := Text.byteLength_pos hcs.ne_nil
    rw [Text.byteLength_append] at hsplit
    omega

end Step

/-! ## Runs -/

/-- A run through whole lines is a run to any text behind them. -/
theorem Run.append {lines lines' : LineIndex} {s z : Scanner} {p : List Char} (h : Run lines s p z [])
    (hp : p = [] ∨ EndsLine p)
    (hlines : ∀ k < byteLength p, lines'.line (s.reading.offset + k) = lines.line (s.reading.offset + k)) (x : List Char) :
    Run lines' s (p ++ x) z x := by
  generalize hend : ([] : List Char) = e at h
  induction h with
  | here s rest => rw [← hend]; exact .here s x
  | @next s t z rest rest' n hne hstep _ ih =>
    obtain ⟨-, hle⟩ := (step_found hstep).width
    refine .next (by simp [hne]) (step_append (hp.resolve_left hne) hlines hstep x) ?_
    rw [List.take_append_of_le_length hle, List.drop_append_of_le_length hle]
    refine ih ?_ ?_ hend
    · by_cases hn : n < rest.length
      · exact .inr ((hp.resolve_left hne).drop hn)
      · exact .inl (List.drop_eq_nil_iff.mpr (by omega))
    · intro k hk
      have hsplit := congrArg byteLength (List.take_append_drop n rest)
      rw [Text.byteLength_append] at hsplit
      have := hlines (byteLength (rest.take n) + k) (by omega)
      simpa [(step_found hstep).reading.2, Nat.add_assoc] using this

/-! ## The start of a line -/

/-- At the start of a line the token found last, if any, is a line feed. -/
def Fresh (s : Scanner) : Prop :=
  s.reading.atLineStart = true → s.reading.lastKind? = none ∨ s.reading.lastKind? = some .newline

theorem atLineStart_skip {r : Reading TokenKind} {cs : List Char} (hne : cs ≠ [])
    (h : (r.skip cs).atLineStart = true) : cs.getLast? = some '\n' := by
  obtain ⟨d, c, rfl⟩ := List.eq_nil_or_concat cs |>.resolve_left hne
  simpa [Reading.atLineStart] using h

theorem Placed.fresh_found {lines : LineIndex} {s s' : Scanner} {before rest : List Char} {n : Nat}
    (h : Placed s before rest) (hs : Fresh s) (hf : Found lines s rest s' n) : Fresh (s'.pass (rest.take n)) := by
  intro hstart
  have hlast := atLineStart_skip (take_ne_nil hf.width.1 hf.width.2) hstart
  simp only [Scanner.pass_reading, Reading.lastKind?, Reading.skip_tokens]
  cases hf with
  | document hline => exact hs hline
  | @comment cs hcs =>
    rw [List.take_add, hcs, Nat.add_comm 1, List.take_succ_cons, take_run, List.getLast?_append,
      List.getLast?_eq_some_getLast (by simp), Option.some_or] at hlast
    have hmem := List.getLast_mem (l := '#' :: cs.takeWhile (· != '\n')) (by simp)
    rw [Option.some.inj hlast] at hmem
    rcases List.mem_cons.mp hmem with he | hmem
    · cases he
    · simpa using List.mem_takeWhile_imp hmem
  | @token kind cs width hcs hpos hle _ hne =>
    rw [List.take_add, hcs, List.getLast?_append, List.getLast?_eq_some_getLast (take_ne_nil hpos hle), Option.some_or,
      ← List.getLast?_eq_some_getLast] at hlast
    exact absurd hlast hne
  | newline hcs hbodies =>
    obtain ⟨f, rfl, hf⟩ := readBodies_refilled hbodies (h.waiting_newline _)
    exact .inr (congrArg some ((hf _ List.mem_cons_self).newline.mpr rfl))

theorem Placed.fresh {lines : LineIndex} {s s' : Scanner} {before rest rest' : List Char} (h : Placed s before rest)
    (hs : Fresh s) (hr : Run lines s rest s' rest') : Fresh s' := by
  induction hr generalizing before with
  | here => exact hs
  | next _ hstep _ ih => exact ih (h.found (step_found hstep)) (h.fresh_found hs (step_found hstep))

end PuppetDocs.Ruby
