import PuppetDocs.Proofs.Refusals.Causes

/-
  PuppetDocs.Proofs.Refusals.Openings — where the scanners look for the end of a literal, its opening stands.

  The scanners measure the opening of a percent literal, the marker of a heredoc and the header of
  one as widths. What is measured has the form that `StringOpening` and `HeredocOpening` describe,
  and the tag that the scanner keeps is the one that is written there.
-/

namespace PuppetDocs

open Text (run isNameChar isBlank allBlank)

namespace Ruby

/-! ## Literals -/

theorem shows_percent {r : List Char} (h : percentOpening r ≠ 0) : Fault.unterminatedString.Shows .ruby ('%' :: r) := by
  unfold percentOpening at h
  rcases r with _ | ⟨c, r⟩
  · exact absurd rfl h
  dsimp only at h
  split at h
  · next hc => exact shows_string (.percent hc) r
  split at h
  · next hc =>
    rcases r with _ | ⟨d, r⟩
    · exact absurd rfl h
    dsimp only at h
    split at h
    · next hd => exact shows_string (.flavoured hc hd) r
    · exact absurd rfl h
  · exact absurd rfl h

/-! ## Markers -/

theorem markerSign_split (cs : List Char) :
    ∃ sign : HeredocSign, cs = sign.chars ++ (markerSign cs).2 ∧ (markerSign cs).1 = sign.chars.length := by
  rcases markerSign_eq cs with h | ⟨c, r, rfl | rfl, rfl, h⟩
  · exact ⟨.plain, by rw [h]; rfl, by rw [h]; rfl⟩
  · exact ⟨.dash, by rw [h]; rfl, by rw [h]; rfl⟩
  · exact ⟨.squiggle, by rw [h]; rfl, by rw [h]; rfl⟩

theorem ofMarker_bare (sign : HeredocSign) {c : Char} (hc : isVarStart c = true) (name : List Char) :
    (Heredoc.ofMarker (sign.chars ++ c :: name)).tag = c :: name := by
  have hapart : c ≠ '~' ∧ c ≠ '-' ∧ c ≠ '\'' ∧ c ≠ '"' := by
    refine ⟨?_, ?_, ?_, ?_⟩ <;> (rintro rfl; revert hc; decide)
  cases sign <;> simp [HeredocSign.chars, Heredoc.ofMarker, hapart]

theorem ofMarker_quoted (sign : HeredocSign) {q : Char} (hq : q = '\'' ∨ q = '"') {tag : List Char} (htag : q ∉ tag) :
    (Heredoc.ofMarker (sign.chars ++ q :: (tag ++ [q]))).tag = tag := by
  have hdrop : Text.dropEndWhile (· == q) (tag ++ [q]) = tag := by
    rw [Text.dropEndWhile_append (by simp)]
    refine Text.dropEndWhile_of_last fun c hc => beq_eq_false_iff_ne.mpr ?_
    exact ne_of_mem_of_not_mem (List.mem_of_getLast? hc) htag
  rcases hq with rfl | rfl <;> cases sign <;> simp [HeredocSign.chars, Heredoc.ofMarker, hdrop]

/-- A marker is a sign and a word, or a sign and a text in quotes on one line. -/
theorem heredocMarker_split {cs : List Char} (h : heredocMarker cs ≠ 0) :
    ∃ sign : HeredocSign,
      (∃ c name after, cs = sign.chars ++ c :: name ++ after ∧ heredocMarker cs = (sign.chars ++ c :: name).length ∧
        isVarStart c = true ∧ (∀ x ∈ name, isNameChar x = true) ∧ ∀ x ∈ after.head?, isNameChar x = false) ∨
      ∃ q tag after, cs = sign.chars ++ q :: (tag ++ [q]) ++ after ∧
        heredocMarker cs = (sign.chars ++ q :: (tag ++ [q])).length ∧ (q = '\'' ∨ q = '"') ∧ tag ≠ [] ∧ q ∉ tag ∧
        '\n' ∉ tag := by
  obtain ⟨sign, hcs, hdash⟩ := markerSign_split cs
  refine ⟨sign, ?_⟩
  unfold heredocMarker at h ⊢
  dsimp only at h ⊢
  rw [hdash] at h ⊢
  generalize (markerSign cs).2 = r at h hcs ⊢
  subst hcs
  rcases r with _ | ⟨q, s⟩
  · exact absurd rfl h
  dsimp only at h ⊢
  split at h
  · next hq =>
    refine .inl ⟨q, s.takeWhile isNameChar, s.dropWhile isNameChar, ?_, ?_, hq, fun x hx => List.mem_takeWhile_imp hx, ?_⟩
    · rw [List.append_assoc, List.cons_append, List.takeWhile_append_dropWhile]
    · rw [if_pos hq, List.length_append, List.length_cons, run]
      omega
    · intro x hx
      have hhead := List.head?_dropWhile_not isNameChar s
      rw [Option.mem_def.mp hx] at hhead
      simpa using hhead
  next hq =>
  rw [if_neg hq]
  split at h
  · next hquote =>
    rw [if_pos hquote]
    generalize hin : (fun c => c != q && c != '\n') = inside at h ⊢
    rw [drop_run] at h ⊢
    rcases hafter : s.dropWhile inside with _ | ⟨c, after⟩
    · rw [hafter] at h
      exact absurd rfl h
    rw [hafter] at h
    dsimp only at h ⊢
    split at h
    · next hclosed =>
      rw [if_pos hclosed]
      simp only [Bool.and_eq_true, beq_iff_eq, bne_iff_ne] at hclosed
      obtain ⟨rfl, hne⟩ := hclosed
      have htag : ∀ x ∈ s.takeWhile inside, x ≠ c ∧ x ≠ '\n' := by
        intro x hx
        have := List.mem_takeWhile_imp hx
        rw [← hin] at this
        simpa using this
      refine .inr ⟨c, s.takeWhile inside, after, ?_, ?_, by simpa using hquote, ?_, ?_, ?_⟩
      · have hs : s = s.takeWhile inside ++ c :: after := by rw [← hafter, List.takeWhile_append_dropWhile]
        conv_lhs => rw [hs]
        simp
      · simp only [List.length_append, List.length_cons, List.length_nil, run]
        omega
      · exact fun hnil => hne (by rw [run, hnil]; rfl)
      · exact fun hmem => (htag c hmem).1 rfl
      · exact fun hmem => (htag '\n' hmem).2 rfl
    · exact absurd rfl h
  · exact absurd rfl h

/-- A marker names the tag of the heredoc that it opens. -/
theorem heredocOpening_marker {cs : List Char} (h : heredocMarker cs ≠ 0) :
    HeredocOpening (Heredoc.ofMarker (cs.take (heredocMarker cs))).tag .ruby ('<' :: '<' :: cs) := by
  rcases heredocMarker_split h with
    ⟨sign, ⟨c, name, after, hcs, hwidth, hc, hname, hafter⟩ | ⟨q, tag, after, hcs, hwidth, hq, hne, hnotin, hline⟩⟩
  · rw [hwidth, hcs, List.take_left, ofMarker_bare sign hc, List.append_assoc]
    refine .bare ⟨c, rfl, hc⟩ (List.forall_mem_cons.mpr ⟨?_, hname⟩) hafter
    rcases Bool.or_eq_true_iff.mp hc with hc | hc <;> simp [isNameChar, Char.isAlphanum, hc]
  · rw [hwidth, hcs, List.take_left, ofMarker_quoted sign hq hnotin]
    have hopening : HeredocOpening tag .ruby ('<' :: '<' :: (sign.chars ++ (q :: (tag ++ q :: after)))) :=
      .quoted hq hne hnotin hline
    simpa using hopening

end Ruby

namespace Manifest

/-- The header of a heredoc names its tag. -/
theorem heredocOpening_header {inside : List Char} (hline : '\n' ∉ inside) (after : List Char) :
    HeredocOpening (tagOf inside) .puppet (headerText inside ++ after) := by
  generalize hnamed : (fun c : Char => c != ':' && c != '/') = named
  generalize hname : inside.takeWhile named = name
  have htag : tagOf inside = Text.trimMatches (· == '"') (Text.trim name) := by rw [← hname, ← hnamed]; rfl
  obtain ⟨trail, htrail, hblank⟩ := Text.dropEndWhile_split isBlank (Text.trimStart name)
  obtain ⟨closing, hclosing, hquotes⟩ := Text.dropEndWhile_split (· == '"') ((Text.trim name).dropWhile (· == '"'))
  have hsplit : name = name.takeWhile isBlank ++
      ((Text.trim name).takeWhile (· == '"') ++ (tagOf inside ++ (closing ++ trail))) := by
    calc name = name.takeWhile isBlank ++ Text.trimStart name := List.takeWhile_append_dropWhile.symm
      _ = name.takeWhile isBlank ++ (Text.trim name ++ trail) := by rw [htrail]; rfl
      _ = name.takeWhile isBlank ++
          ((Text.trim name).takeWhile (· == '"') ++ (Text.trim name).dropWhile (· == '"') ++ trail) := by
        rw [List.takeWhile_append_dropWhile]
      _ = _ := by
        rw [hclosing, htag, Text.trimMatches]
        simp only [List.append_assoc]
  have hin : ∀ c ∈ name, c ≠ ':' ∧ c ≠ '/' := by
    intro c hc
    rw [← hname] at hc
    have := List.mem_takeWhile_imp hc
    rw [← hnamed] at this
    simpa using this
  have hinside : inside = name.takeWhile isBlank ++ ((Text.trim name).takeWhile (· == '"') ++
      (tagOf inside ++ (closing ++ (trail ++ inside.dropWhile named)))) := by
    calc inside = name ++ inside.dropWhile named := by rw [← hname, List.takeWhile_append_dropWhile]
      _ = _ := by
        conv_lhs => rw [hsplit]
        simp only [List.append_assoc]
  refine .header hinside hline ?_ ?_ ?_ ?_ ?_
  · exact List.all_eq_true.mpr fun c hc => List.mem_takeWhile_imp hc
  · exact List.all_eq_true.mpr hblank
  · intro c hc
    rcases List.mem_append.mp hc with hc | hc
    · simpa using List.mem_takeWhile_imp hc
    · exact beq_iff_eq.mp (hquotes c hc)
  · intro c hc
    refine hin c ?_
    rw [hsplit]
    simp [hc]
  · intro c hc
    have hhead := List.head?_dropWhile_not named inside
    rw [Option.mem_def.mp hc, ← hnamed] at hhead
    simpa [or_iff_not_imp_left] using hhead

end Manifest

end PuppetDocs
