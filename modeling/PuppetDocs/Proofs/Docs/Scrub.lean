import Mathlib.Data.List.Forall2
import PuppetDocs.Proofs.Docs.Outdent

/-
  PuppetDocs.Proofs.Docs.Scrub — the lines of scrubbed documentation.

  A text of several lines keeps its lines from the first with content to the last, all outdented
  by the same indentation but for a first line at the margin (`scrub_lines`).

  Scrubbing is not idempotent, as the exception for a first line at the margin applies to scrubbed
  text too: what the first line was indented by is gone, and the second pass takes what the other
  lines were indented by in excess of it (`scrub_again`, the case `scrub_loses_indentation`). A
  text is settled if a line behind its first is at the margin, and every text is after two passes.
-/

namespace PuppetDocs.Docs

open Text

variable {text : List Char}

/-! ## Lines with content at both ends -/

theorem exists_first {ls : List (List Char)} (h : ∃ line ∈ ls, allBlank line = false) : ∃ front first back,
    ls = front ++ first :: back ∧ (∀ line ∈ front, allBlank line = true) ∧ allBlank first = false := by
  induction ls with
  | nil => exact absurd h nofun
  | cons line ls ih =>
    by_cases hline : allBlank line = true
    · obtain ⟨other, hmem, hother⟩ := h
      have hls : ∃ line ∈ ls, allBlank line = false := by
        rcases List.mem_cons.mp hmem with rfl | hmem
        · rw [hline] at hother
          cases hother
        · exact ⟨other, hmem, hother⟩
      obtain ⟨front, first, back, rfl, hfront, hfirst⟩ := ih hls
      exact ⟨line :: front, first, back, rfl, List.forall_mem_cons.mpr ⟨hline, hfront⟩, hfirst⟩
    · exact ⟨[], line, ls, rfl, nofun, Bool.eq_false_iff.mpr hline⟩

theorem exists_last {ls : List (List Char)} (h : ∃ line ∈ ls, allBlank line = false) : ∃ front last back,
    ls = front ++ last :: back ∧ (∀ line ∈ back, allBlank line = true) ∧ allBlank last = false := by
  obtain ⟨line, hline, hcontent⟩ := h
  obtain ⟨back, last, front, hls, hback, hlast⟩ := exists_first ⟨line, List.mem_reverse.mpr hline, hcontent⟩
  refine ⟨front.reverse, last, back.reverse, ?_, fun line hline => hback line (List.mem_reverse.mp hline), hlast⟩
  rw [← List.reverse_reverse ls, hls, List.reverse_append, List.reverse_cons, List.append_assoc, List.singleton_append]

/-- A text that is not one line has content on two lines. -/
theorem lines_framed (h : '\n' ∈ trim text) : ∃ front kept back, Framed (lines text) front kept back := by
  obtain ⟨above, below, rfl, habove, hbelow⟩ := mem_trim_of_blank rfl h
  have hcontent : allBlank (above ++ ['\n']) = false := by rw [allBlank_append, habove, Bool.false_and]
  obtain ⟨front, first, mid, hfirst, hfront, hfirst'⟩ := exists_first (exists_line hcontent)
  obtain ⟨mid', last, back, hlast, hback, hlast'⟩ := exists_last (exists_line hbelow)
  refine ⟨front, first :: (mid ++ mid' ++ [last]), back, ?_, hfront, hback, first, mid ++ mid', last, rfl, hfirst', hlast'⟩
  rw [lines_append, hfirst, hlast]
  simp

theorem newline_mem_trim_joinLines {ls : List (List Char)} (h : Framed ls [] ls []) : '\n' ∈ trim (joinLines ls) := by
  obtain ⟨first, mid, last, hls, hfirst, hlast⟩ := h.ends
  have hbelow : ∀ mid, allBlank (joinLines (mid ++ [last])) = false := by
    intro mid
    induction mid with
    | nil =>
      rw [List.nil_append, joinLines, List.intercalate_singleton]
      exact hlast
    | cons line mid ih =>
      rw [List.cons_append, joinLines_cons line (by simp), allBlank_append, ← List.singleton_append, allBlank_append, ih,
        Bool.and_false, Bool.and_false]
  rw [hls, joinLines_cons first (by simp), trim_between hfirst (hbelow mid)]
  simp

/-! ## One pass -/

theorem newline_not_mem_outdent {line : List Char} (h : '\n' ∉ line) (n : Nat) : '\n' ∉ outdent n line := by
  cases hline : allBlank line with
  | true =>
    rw [outdent_of_allBlank hline]
    exact List.not_mem_nil
  | false =>
    obtain ⟨margin, back, hsplit, -⟩ := outdent_split hline n
    intro hmem
    refine h ?_
    rw [hsplit]
    simp [hmem]

variable {front kept back : List (List Char)}

theorem scrub_framed (h : '\n' ∈ trim text) (hlines : Framed (lines text) front kept back) :
    scrub text = joinLines (kept.map (outdent (sharedIndent (lines text)))) := by
  have hcontains : (trim text).contains '\n' = true := List.contains_iff_mem.mpr h
  simp only [scrub, hcontains, if_true, hlines.dropBlankEnds]

/-- Lines with content at both ends are found again once they are outdented and joined. -/
theorem lines_outdented (h : Framed kept [] kept []) (hkept : ∀ line ∈ kept, '\n' ∉ line) (n : Nat) :
    lines (joinLines (kept.map (outdent n))) = kept.map (outdent n) := by
  obtain ⟨first, mid, last, hmap, -, hlast⟩ := (h.map n).ends
  refine lines_joinLines (fun line hline => ?_) ?_
  · obtain ⟨l, hl, rfl⟩ := List.mem_map.mp hline
    exact (solid_outdent n l).isWhole (newline_not_mem_outdent (hkept l hl) n)
  · rw [hmap, ← List.cons_append, List.getLast?_concat]
    rintro ⟨⟩
    cases hlast

/-- The lines from the first with content to the last are left, all of them outdented. -/
theorem scrub_kept (h : '\n' ∈ trim text) : ∃ front kept back, Framed (lines text) front kept back ∧
    scrub text = joinLines (kept.map (outdent (sharedIndent (lines text)))) ∧
    lines (scrub text) = kept.map (outdent (sharedIndent (lines text))) := by
  obtain ⟨front, kept, back, hframed⟩ := lines_framed h
  have hjoined := scrub_framed h hframed
  refine ⟨front, kept, back, hframed, hjoined, ?_⟩
  rw [hjoined, lines_outdented hframed.inner]
  intro line hline
  exact newline_not_mem_lines text line (hframed.kept_subset hline)

/-- Lines that all have content are left, all of them. -/
theorem lines_scrub_filled {ls : List (List Char)} (hone : ∀ line ∈ ls, '\n' ∉ line)
    (hfilled : ∀ line ∈ ls, allBlank line = false) (htwo : 2 ≤ ls.length) :
    lines (scrub (joinLines ls)) = ls.map (outdent (sharedIndent ls)) := by
  have hlast : ls.getLast? ≠ some [] := by
    intro hlast
    have hnil := hfilled [] (List.mem_of_getLast? hlast)
    cases hnil
  -- a carriage return at the end of a line is dropped, and would be trimmed off
  have htrim := trimEnd_lines_joinLines hone hlast
  have hfound : ∀ line ∈ lines (joinLines ls), allBlank line = false := by
    intro line hline
    obtain ⟨l, hl, heq⟩ := List.mem_map.mp (htrim ▸ List.mem_map_of_mem hline)
    rw [← allBlank_trimEnd, ← heq, allBlank_trimEnd, hfilled l hl]
  have hframed : Framed (lines (joinLines ls)) [] (lines (joinLines ls)) [] := by
    refine framed_of_filled hfound ?_
    have hlength := congrArg List.length htrim
    rw [List.length_map, List.length_map] at hlength
    omega
  have hshared : sharedIndent (lines (joinLines ls)) = sharedIndent ls := by
    rw [← sharedIndent_trimEnd hfound, htrim, sharedIndent_trimEnd hfilled]
  have hsame : ∀ {ls : List (List Char)} (n : Nat), (ls.map trimEnd).map (outdent n) = ls.map (outdent n) := by
    intro ls n
    rw [List.map_map]
    exact List.map_congr_left fun line _ => outdent_trimEnd n line
  rw [scrub_framed (newline_mem_trim_joinLines (framed_of_filled hfilled htwo)) hframed,
    lines_outdented hframed (newline_not_mem_lines _), hshared, ← hsame, htrim, hsame]

/-- What scrubbing leaves of a text with several lines: the lines from the first with content to the last, each without
the blanks at its end and without as many blanks in front as all others lose, but for a first line at the margin. -/
theorem scrub_lines (h : '\n' ∈ trim text) : ∃ front rest back outs n,
    Framed (lines text) front (flushStart (lines text) ++ rest) back ∧
    lines (scrub text) = (flushStart (lines text)).map trimEnd ++ outs ∧
    List.Forall₂ (Outdented n) rest outs ∧
    (∃ out ∈ outs, allBlank out = false ∧ indent out = 0) ∧
    (lines (scrub text)).map trim = (flushStart (lines text) ++ rest).map trim ∧
    (∀ line ∈ lines (scrub text), Solid line) ∧ scrub text = joinLines (lines (scrub text)) := by
  obtain ⟨front, kept, back, hframed, hjoined, hscrub⟩ := scrub_kept h
  obtain ⟨rest, hrest, hle, hmargin⟩ := hframed.toMargin
  refine ⟨front, rest, back, rest.map (outdent (sharedIndent (lines text))), sharedIndent (lines text), hrest ▸ hframed,
    ?_, ?_, hmargin, ?_, ?_, hscrub.symm ▸ hjoined⟩
  · rw [hscrub, hrest, List.map_append]
    refine congrArg (· ++ _) (List.map_congr_left fun line hline => ?_)
    obtain ⟨hcontent, hindent⟩ := flushStart_atMargin hline
    rw [outdent_of_content hcontent, hindent, Nat.zero_min, List.drop_zero]
  · exact List.forall₂_map_right_iff.mpr (List.forall₂_same.mpr fun line hline => outdented_outdent (hle line hline))
  · rw [hscrub, hrest, List.map_map]
    exact List.map_congr_left fun line _ => trim_outdent _ line
  · rw [hscrub]
    exact solid_map_outdent _ _

/-- Behind an opening quote the first line stays, and the others lose what they share. -/
theorem scrub_lines_quoted : ∃ rest outs n,
    lines (scrub "Manages things.\n      Deeper.\n    Shallower.".toList) = "Manages things.".toList :: outs ∧
    List.Forall₂ (Outdented n) rest outs ∧ ∃ out ∈ outs, allBlank out = false ∧ indent out = 0 := by
  have hnewline : '\n' ∈ trim "Manages things.\n      Deeper.\n    Shallower.".toList := by decide
  have hflush : (flushStart (lines "Manages things.\n      Deeper.\n    Shallower.".toList)).map trimEnd =
      ["Manages things.".toList] := by decide
  obtain ⟨_, rest, _, outs, n, -, hlines, houts, hmargin, -⟩ := scrub_lines hnewline
  rw [hflush] at hlines
  exact ⟨rest, outs, n, hlines, houts, hmargin⟩

/-! ## Another pass -/

theorem scrub_oneLine (h : '\n' ∉ trim text) : scrub text = trim text := by
  have hcontains : (trim text).contains '\n' = false := Bool.eq_false_iff.mpr (List.contains_iff_mem.not.mpr h)
  simp only [scrub, hcontains, Bool.false_eq_true, if_false]

/-- No line is left with blanks at its end. -/
theorem solid_scrub (text : List Char) : ∀ line ∈ lines (scrub text), Solid line := by
  intro line hline
  by_cases h : '\n' ∈ trim text
  · obtain ⟨_, kept, _, -, -, hscrub⟩ := scrub_kept h
    rw [hscrub] at hline
    exact solid_map_outdent _ _ line hline
  · rw [scrub_oneLine h] at hline
    by_cases hnil : trim text = []
    · rw [hnil] at hline
      cases hline
    · rw [lines_whole h hnil] at hline
      rw [List.mem_singleton.mp hline]
      exact solid_trimEnd _

/-- Lines with content at both ends, of a text that is scrubbed once more. -/
theorem scrub_joinLines {ls : List (List Char)} (h : Framed ls [] ls []) (hlines : lines (joinLines ls) = ls) :
    scrub (joinLines ls) = joinLines (ls.map (outdent (sharedIndent ls))) := by
  have hframed : Framed (lines (joinLines ls)) [] ls [] := by rwa [hlines]
  rw [scrub_framed (newline_mem_trim_joinLines h) hframed, hlines]

theorem joinLines_inj {ls ls' : List (List Char)} (h : lines (joinLines ls) = ls) (h' : lines (joinLines ls') = ls') :
    joinLines ls = joinLines ls' ↔ ls = ls' := by
  constructor
  · intro heq
    rw [← h, heq, h']
  · intro heq
    rw [heq]

/-- A second pass changes a text of several lines unless one behind the first is at the margin; a third changes none. -/
theorem scrub_again (text : List Char) :
    (scrub (scrub text) = scrub text ↔
      '\n' ∉ trim text ∨ ∃ line ∈ (lines (scrub text)).tail, allBlank line = false ∧ indent line = 0) ∧
    scrub (scrub (scrub text)) = scrub (scrub text) := by
  by_cases h : '\n' ∈ trim text
  · obtain ⟨front, kept, back, hframed, hjoined, hscrub⟩ := scrub_kept h
    -- the lines that one pass leaves, and those that two leave
    let once := kept.map (outdent (sharedIndent (lines text)))
    let twice := once.map (outdent (sharedIndent once))
    have honce : Framed once [] once [] := hframed.map _
    have hlines : lines (joinLines once) = once := by rwa [hjoined] at hscrub
    have hlines' : lines (joinLines twice) = twice :=
      lines_outdented honce (fun line hline => newline_not_mem_lines _ line (hlines.symm ▸ hline)) _
    have hstays : twice = once ↔ sharedIndent once = 0 := honce.map_outdent_eq_iff (solid_map_outdent _ _)
    have hzero : sharedIndent twice = 0 := by
      obtain ⟨rest, hrest, -, line, hline, hmargin⟩ := hframed.toMargin
      refine honce.sharedIndent_outdented (solid_map_outdent _ _) ⟨line, ?_, hmargin⟩
      show line ∈ kept.map _
      rw [hrest, List.map_append]
      exact List.mem_append_right _ hline
    rw [hjoined, scrub_joinLines honce hlines, hlines, joinLines_inj hlines' hlines, hstays,
      honce.sharedIndent_eq_zero]
    refine ⟨⟨.inr, fun hcase => hcase.resolve_left (not_not.mpr h)⟩, ?_⟩
    rw [scrub_joinLines (honce.map _) hlines', ((honce.map _).map_outdent_eq_iff (solid_map_outdent _ _)).mpr hzero]
  · have hone : scrub text = trim text := scrub_oneLine h
    have htwo : scrub (trim text) = trim text := by
      rw [scrub_oneLine (by rwa [trim_trim]), trim_trim]
    rw [hone, htwo, htwo]
    exact ⟨⟨fun _ => .inl h, fun _ => rfl⟩, rfl⟩

/-- The second line is indented deeper than the first, and not any more after a second pass. -/
theorem scrub_loses_indentation :
    scrub "\n  A\n    B".toList = "A\n  B".toList ∧ scrub (scrub "\n  A\n    B".toList) = "A\nB".toList ∧
      scrub (scrub "\n  A\n    B".toList) ≠ scrub "\n  A\n    B".toList := by
  decide

end PuppetDocs.Docs
