import PuppetDocs.Docs.Scrub
import PuppetDocs.Proofs.Text.Lines

/-
  PuppetDocs.Proofs.Docs.Outdent — what lines lose when they are outdented.

  A line with content loses its first blanks and the blanks at its end (`Outdented`). Every line
  with content shares the indentation of the lines, but for a first line with content at the
  margin (`flushStart`): it stands behind an opening quote. So the shared indentation is the least
  of the lines behind a flush start (`Framed.shared`); outdented by it they keep their distance,
  and one of them comes to the margin (`Framed.toMargin`).

  Lines stay as they are only if they share no indentation (`Framed.map_outdent_eq_iff`), and
  lines of which one is at the margin share none once they are outdented
  (`Framed.sharedIndent_outdented`).
-/

namespace PuppetDocs.Docs

open Text

variable {line first : List Char} {ls rest front kept back : List (List Char)} {m n : Nat}

/-! ## The indentation of a line -/

theorem isBlank_of_isIndent {c : Char} (h : isIndent c = true) : isBlank c = true := by
  simp only [isIndent, Bool.or_eq_true, beq_iff_eq] at h
  rcases h with rfl | rfl <;> rfl

/-- The blanks in front of a line are as many as its indentation, and what is behind them is not indented. -/
theorem indent_split (line : List Char) :
    ∃ margin text, line = margin ++ text ∧ margin.length = indent line ∧ (∀ c ∈ margin, isIndent c = true) ∧
      indent text = 0 := by
  refine ⟨line.takeWhile isIndent, line.dropWhile isIndent, List.takeWhile_append_dropWhile.symm, rfl,
    fun c hc => List.mem_takeWhile_imp hc, ?_⟩
  have hhead := List.head?_dropWhile_not isIndent line
  unfold indent
  cases hdrop : line.dropWhile isIndent with
  | nil => rfl
  | cons c r =>
    rw [hdrop] at hhead
    have hc : isIndent c = false := by simpa using hhead
    rw [List.takeWhile_cons_of_neg (by simp [hc])]
    rfl

theorem indent_append {margin : List Char} (h : ∀ c ∈ margin, isIndent c = true) (text : List Char) :
    indent (margin ++ text) = margin.length + indent text := by
  rw [indent, List.takeWhile_append_of_pos h, List.length_append, indent]

theorem allBlank_indent {margin : List Char} (h : ∀ c ∈ margin, isIndent c = true) : allBlank margin = true :=
  List.all_eq_true.mpr fun c hc => isBlank_of_isIndent (h c hc)

theorem indent_append_content {text : List Char} (h : allBlank text = false) (more : List Char) :
    indent (text ++ more) = indent text := by
  obtain ⟨margin, inner, rfl, -, hmargin, hinner⟩ := indent_split text
  rw [List.append_assoc, indent_append hmargin, indent_append hmargin, hinner]
  cases inner with
  | nil =>
    rw [List.append_nil, allBlank_indent hmargin] at h
    cases h
  | cons c r =>
    have hc : isIndent c = false := by
      by_contra hc
      rw [indent, List.takeWhile_cons_of_pos (by simpa using hc)] at hinner
      cases hinner
    rw [indent, List.cons_append, List.takeWhile_cons_of_neg (by simp [hc])]
    rfl

theorem trimEnd_split (line : List Char) : ∃ back, line = trimEnd line ++ back ∧ allBlank back = true := by
  obtain ⟨back, hback, hblank⟩ := dropEndWhile_split isBlank line
  exact ⟨back, hback, List.all_eq_true.mpr hblank⟩

theorem indent_trimEnd (h : allBlank line = false) : indent (trimEnd line) = indent line := by
  obtain ⟨back, hline, -⟩ := trimEnd_split line
  conv => rhs; rw [hline]
  exact (indent_append_content ((allBlank_trimEnd line).trans h) back).symm

/-! ## Outdented lines -/

/-- The second line is the first without `n` blanks in front and without those at its end, and is empty if the first
has no content. -/
inductive Outdented (n : Nat) : List Char → List Char → Prop
  | blank {line : List Char} : allBlank line = true → Outdented n line []
  | content {margin text back : List Char} : margin.length = n → (∀ c ∈ margin, isIndent c = true) →
    allBlank text = false → Solid text → allBlank back = true → Outdented n (margin ++ text ++ back) text

theorem outdent_of_allBlank (h : allBlank line = true) (n : Nat) : outdent n line = [] := if_pos h

theorem outdent_of_content (h : allBlank line = false) (n : Nat) :
    outdent n line = trimEnd (line.drop (min (indent line) n)) :=
  if_neg (by simp [h])

theorem outdent_split (h : allBlank line = false) (n : Nat) : ∃ margin back,
    line = margin ++ outdent n line ++ back ∧ margin.length = min (indent line) n ∧
      (∀ c ∈ margin, isIndent c = true) ∧ allBlank back = true ∧ allBlank (outdent n line) = false := by
  obtain ⟨margin, text, hline, hlength, hmargin, -⟩ := indent_split line
  have hdrop : line.drop (min (indent line) n) = margin.drop (min (indent line) n) ++ text := by
    conv => lhs; arg 2; rw [hline]
    rw [List.drop_append_of_le_length (by omega)]
  obtain ⟨back, hback, hblank⟩ := trimEnd_split (line.drop (min (indent line) n))
  have htake : ∀ c ∈ line.take (min (indent line) n), isIndent c = true := by
    intro c hc
    rw [hline, List.take_append_of_le_length (by rw [← hline]; omega)] at hc
    exact hmargin c (List.mem_of_mem_take hc)
  rw [outdent_of_content h]
  refine ⟨line.take (min (indent line) n), back, ?_, ?_, htake, hblank, ?_⟩
  · rw [List.append_assoc, ← hback, List.take_append_drop]
  · rw [List.length_take, hline, List.length_append, hlength]
    have hle : indent (margin ++ text) = indent line := by rw [hline]
    omega
  · rw [allBlank_trimEnd]
    have hsplit : allBlank (line.take (min (indent line) n) ++ line.drop (min (indent line) n)) = false := by
      rwa [List.take_append_drop]
    rwa [allBlank_append, allBlank_indent htake, Bool.true_and] at hsplit

theorem allBlank_outdent (n : Nat) (line : List Char) : allBlank (outdent n line) = allBlank line := by
  cases h : allBlank line with
  | true => rw [outdent_of_allBlank h, allBlank, List.all_nil]
  | false =>
    obtain ⟨_, _, -, -, -, -, hcontent⟩ := outdent_split h n
    exact hcontent

theorem outdent_eq_nil_iff : outdent n line = [] ↔ allBlank line = true := by
  constructor
  · intro h
    rw [← allBlank_outdent n line, h, allBlank, List.all_nil]
  · intro h
    exact outdent_of_allBlank h n

theorem solid_outdent (n : Nat) (line : List Char) : Solid (outdent n line) := by
  cases h : allBlank line with
  | true =>
    rw [outdent_of_allBlank h]
    exact nofun
  | false =>
    rw [outdent_of_content h]
    exact solid_trimEnd _

theorem solid_map_outdent (ls : List (List Char)) (n : Nat) : ∀ line ∈ ls.map (outdent n), Solid line := by
  intro line hline
  obtain ⟨l, -, rfl⟩ := List.mem_map.mp hline
  exact solid_outdent n l

theorem outdented_outdent (h : allBlank line = false → n ≤ indent line) : Outdented n line (outdent n line) := by
  cases hline : allBlank line with
  | true =>
    rw [outdent_of_allBlank hline]
    exact .blank hline
  | false =>
    obtain ⟨margin, back, hsplit, hlength, hmargin, hback, hcontent⟩ := outdent_split hline n
    conv => arg 2; rw [hsplit]
    exact .content (by have hle := h hline; omega) hmargin hcontent (solid_outdent n line) hback

theorem indent_outdent (h : allBlank line = false) (n : Nat) : indent (outdent n line) = indent line - n := by
  obtain ⟨margin, back, hsplit, hlength, hmargin, -, hcontent⟩ := outdent_split h n
  have hindent : indent line = margin.length + indent (outdent n line) := by
    conv => lhs; rw [hsplit]
    rw [List.append_assoc, indent_append hmargin, indent_append_content hcontent]
  omega

theorem trim_outdent (n : Nat) (line : List Char) : trim (outdent n line) = trim line := by
  cases h : allBlank line with
  | true => rw [outdent_of_allBlank h, trim, trim, trimStart_of_allBlank h]; rfl
  | false =>
    obtain ⟨margin, back, hsplit, -, hmargin, hback, -⟩ := outdent_split h n
    conv => rhs; rw [hsplit]
    rw [trim_append (List.all_eq_true.mp hback), trim, trim, trimStart_append_blank (allBlank_indent hmargin)]

/-- With no blanks at its end, a line is what it loses in front and what is left of it. -/
theorem trimEnd_eq_outdent (h : allBlank line = false) (n : Nat) : ∃ margin, trimEnd line = margin ++ outdent n line ∧
    margin.length = min (indent line) n ∧ ∀ c ∈ margin, isIndent c = true := by
  obtain ⟨margin, back, hsplit, hlength, hmargin, hback, hcontent⟩ := outdent_split h n
  refine ⟨margin, ?_, hlength, hmargin⟩
  conv => lhs; rw [hsplit]
  rw [trimEnd_append_blank _ hback, trimEnd_append_content _ hcontent, (solid_outdent n line).trimEnd]

theorem outdent_trimEnd (n : Nat) (line : List Char) : outdent n (trimEnd line) = outdent n line := by
  cases h : allBlank line with
  | true => rw [outdent_of_allBlank ((allBlank_trimEnd line).trans h), outdent_of_allBlank h]
  | false =>
    obtain ⟨margin, htrim, hlength, -⟩ := trimEnd_eq_outdent h n
    rw [outdent_of_content ((allBlank_trimEnd line).trans h), indent_trimEnd h, ← hlength, htrim, List.drop_left,
      (solid_outdent n line).trimEnd]

theorem outdent_zero (h : Solid line) : outdent 0 line = line := by
  cases hline : allBlank line with
  | true => rw [outdent_of_allBlank hline, h.eq_nil hline]
  | false => rw [outdent_of_content hline, Nat.min_zero, List.drop_zero, h.trimEnd]

/-! ## The shared indentation -/

theorem leastIndent_of_mem (hmem : line ∈ ls) (h : allBlank line = false) :
    leastIndent ls ≤ indent line ∧ ∃ least ∈ ls, allBlank least = false ∧ indent least = leastIndent ls := by
  have hindent : indent line ∈ (ls.filter (!allBlank ·)).map indent :=
    List.mem_map.mpr ⟨line, List.mem_filter.mpr ⟨hmem, by simp [h]⟩, rfl⟩
  have hleast : (((ls.filter (!allBlank ·)).map indent).min?).isSome := List.isSome_min?_of_mem hindent
  obtain ⟨k, hk⟩ := Option.isSome_iff_exists.mp hleast
  obtain ⟨hmemk, hle⟩ := List.min?_eq_some_iff.mp hk
  obtain ⟨least, hfilter, rfl⟩ := List.mem_map.mp hmemk
  obtain ⟨hls, hcontent⟩ := List.mem_filter.mp hfilter
  rw [leastIndent, hk]
  exact ⟨hle _ hindent, least, hls, by simpa using hcontent, rfl⟩

/-- Of lines with content, what is trimmed off their ends does not count. -/
theorem sharedIndent_trimEnd (h : ∀ line ∈ ls, allBlank line = false) : sharedIndent (ls.map trimEnd) = sharedIndent ls := by
  have hleast : ∀ {ls : List (List Char)}, (∀ line ∈ ls, allBlank line = false) →
      leastIndent (ls.map trimEnd) = leastIndent ls := by
    intro ls hls
    have hkept : ls.filter ((!allBlank ·) ∘ trimEnd) = ls.filter (!allBlank ·) :=
      List.filter_congr fun line _ => congrArg not (allBlank_trimEnd line)
    have hindent : (ls.filter (!allBlank ·)).map (indent ∘ trimEnd) = (ls.filter (!allBlank ·)).map indent :=
      List.map_congr_left fun line hline => indent_trimEnd (hls line (List.mem_filter.mp hline).1)
    rw [leastIndent, List.filter_map, List.map_map, hkept, hindent, leastIndent]
  cases ls with
  | nil => rfl
  | cons first rest =>
    obtain ⟨hfirst, hrest⟩ := List.forall_mem_cons.mp h
    have htail : leastIndent (rest.map trimEnd) = leastIndent rest := hleast hrest
    have hall : leastIndent (trimEnd first :: rest.map trimEnd) = leastIndent (first :: rest) := hleast h
    rw [List.map_cons, sharedIndent, sharedIndent, indent_trimEnd hfirst]
    split
    · exact htail
    · exact hall

/-- The lines with content. -/
def contents (ls : List (List Char)) : List (List Char) := ls.filter (!allBlank ·)

theorem contents_append (ls ls' : List (List Char)) : contents (ls ++ ls') = contents ls ++ contents ls' :=
  List.filter_append ls ls'

theorem contents_cons (h : allBlank line = false) (ls : List (List Char)) : contents (line :: ls) = line :: contents ls :=
  List.filter_cons_of_pos (by simp [h])

theorem contents_of_blank (h : ∀ line ∈ ls, allBlank line = true) : contents ls = [] :=
  List.filter_eq_nil_iff.mpr fun line hline => by simp [h line hline]

theorem leastIndent_contents (h : contents ls = contents rest) : leastIndent ls = leastIndent rest := by
  unfold contents at h
  unfold leastIndent
  rw [h]

/-- The first line of a text, if it has content and stands at the margin. -/
def flushStart : List (List Char) → List (List Char)
  | [] => []
  | first :: _ => if allBlank first = false ∧ indent first = 0 then [first] else []

theorem contents_flushStart (ls : List (List Char)) : contents (flushStart ls) = flushStart ls := by
  cases ls with
  | nil => rfl
  | cons first rest =>
    rw [flushStart]
    split
    · rename_i h
      simp [contents, h.1]
    · rfl

theorem flushStart_atMargin (h : line ∈ flushStart ls) : allBlank line = false ∧ indent line = 0 := by
  cases ls with
  | nil => cases h
  | cons first rest =>
    rw [flushStart] at h
    split at h
    · rename_i hfirst
      rw [List.mem_singleton.mp h]
      exact hfirst
    · cases h

/-- All lines with content but a flush start share the indentation. -/
theorem sharedIndent_eq (ls : List (List Char)) :
    ∃ sharing, sharedIndent ls = leastIndent sharing ∧ contents ls = flushStart ls ++ contents sharing := by
  cases ls with
  | nil => exact ⟨[], rfl, rfl⟩
  | cons first rest =>
    by_cases hindent : indent first = 0
    · refine ⟨rest, congrArg leastIndent (if_pos hindent), ?_⟩
      by_cases hfirst : allBlank first = false
      · simp [contents, flushStart, hfirst, hindent]
      · simp [contents, flushStart, hfirst]
    · exact ⟨first :: rest, congrArg leastIndent (if_neg hindent), by simp [flushStart, hindent]⟩

/-- The lines `kept` run from the first line with content to the last, which is another one. -/
structure Framed (ls front kept back : List (List Char)) : Prop where
  split : ls = front ++ kept ++ back
  front : ∀ line ∈ front, allBlank line = true
  back : ∀ line ∈ back, allBlank line = true
  ends : ∃ first mid last, kept = first :: (mid ++ [last]) ∧ allBlank first = false ∧ allBlank last = false

/-- Two lines or more, all with content. -/
theorem framed_of_filled (h : ∀ line ∈ ls, allBlank line = false) (htwo : 2 ≤ ls.length) : Framed ls [] ls [] := by
  refine ⟨by simp, nofun, nofun, ?_⟩
  cases ls with
  | nil => simp at htwo
  | cons first rest =>
    rcases List.eq_nil_or_concat rest with rfl | ⟨mid, last, rfl⟩
    · simp at htwo
    · exact ⟨first, mid, last, by rw [List.concat_eq_append], h first (by simp), h last (by simp)⟩

theorem Framed.inner (h : Framed ls front kept back) : Framed kept [] kept [] := ⟨by simp, nofun, nofun, h.ends⟩

theorem Framed.kept_subset (h : Framed ls front kept back) : kept ⊆ ls := by
  intro line hline
  rw [h.split]
  simp [hline]

theorem Framed.contents (h : Framed ls front kept back) : contents ls = contents kept := by
  rw [h.split, contents_append, contents_append, contents_of_blank h.front, contents_of_blank h.back, List.nil_append,
    List.append_nil]

/-- A flush start is the first of the lines between the blank ones, and not all of them. -/
theorem Framed.flushStart (h : Framed ls front kept back) :
    ∃ rest, kept = flushStart ls ++ rest ∧ ∃ line ∈ rest, allBlank line = false := by
  obtain ⟨first, mid, last, hkept, hfirst, hlast⟩ := h.ends
  have hall : ∃ line ∈ kept, allBlank line = false := ⟨first, by simp [hkept], hfirst⟩
  cases hls : ls with
  | nil => exact ⟨kept, rfl, hall⟩
  | cons start more =>
    rw [Docs.flushStart]
    split
    · rename_i hstart
      have hsplit := h.split
      rw [hls, hkept] at hsplit
      cases hfront : front with
      | cons blank front' =>
        rw [hfront] at hsplit
        have hblank : allBlank start = true :=
          h.front start (by rw [hfront, (List.cons.inj hsplit).1]; exact List.mem_cons_self)
        rw [hstart.1] at hblank
        cases hblank
      | nil =>
        rw [hfront] at hsplit
        rw [(List.cons.inj hsplit).1]
        exact ⟨mid ++ [last], hkept, last, by simp, hlast⟩
    · exact ⟨kept, rfl, hall⟩

/-- Of the lines behind a flush start, those with content have at least the shared indentation, and one has no more. -/
theorem Framed.shared (h : Framed ls front kept back) : ∃ rest, kept = Docs.flushStart ls ++ rest ∧
    (∀ line ∈ rest, allBlank line = false → sharedIndent ls ≤ indent line) ∧
    ∃ line ∈ rest, allBlank line = false ∧ indent line = sharedIndent ls := by
  obtain ⟨rest, hrest, line, hline, hcontent⟩ := h.flushStart
  obtain ⟨sharing, hshared, hcontents⟩ := sharedIndent_eq ls
  have heq : sharedIndent ls = leastIndent rest := by
    rw [h.contents, hrest, contents_append, contents_flushStart] at hcontents
    rw [hshared]
    exact leastIndent_contents (List.append_cancel_left hcontents).symm
  rw [heq]
  exact ⟨rest, hrest, fun line hline hcontent => (leastIndent_of_mem hline hcontent).1, (leastIndent_of_mem hline hcontent).2⟩

/-! ## All lines outdented -/

theorem Framed.dropBlankEnds (h : Framed ls front kept back) (n : Nat) :
    dropBlankEnds (ls.map (outdent n)) = kept.map (outdent n) := by
  obtain ⟨first, mid, last, hkept, hfirst, hlast⟩ := h.ends
  have hempty : ∀ {blank : List (List Char)}, (∀ line ∈ blank, allBlank line = true) →
      ∀ line ∈ blank.map (outdent n), line.isEmpty = true := by
    intro blank hblank line hline
    obtain ⟨l, hl, rfl⟩ := List.mem_map.mp hline
    rw [outdent_of_allBlank (hblank l hl)]
    rfl
  have hne : ∀ {line : List Char}, allBlank line = false → (outdent n line).isEmpty = false := by
    intro line hline
    refine Bool.eq_false_iff.mpr fun hnil => ?_
    rw [outdent_eq_nil_iff.mp (List.isEmpty_iff.mp hnil)] at hline
    cases hline
  rw [h.split, List.append_assoc, List.map_append, List.map_append, Docs.dropBlankEnds,
    List.dropWhile_append_of_pos (hempty h.front), hkept, List.map_cons, List.cons_append,
    List.dropWhile_cons_of_neg (by simp [hne hfirst]), ← List.cons_append, dropEndWhile_append (hempty h.back)]
  refine dropEndWhile_of_last fun line hline => ?_
  rw [List.map_append, ← List.cons_append, List.map_singleton, List.getLast?_concat] at hline
  cases hline
  exact hne hlast

theorem Framed.map (h : Framed ls front kept back) (n : Nat) :
    Framed (kept.map (outdent n)) [] (kept.map (outdent n)) [] := by
  obtain ⟨first, mid, last, hkept, hfirst, hlast⟩ := h.ends
  refine ⟨by simp, nofun, nofun, outdent n first, mid.map (outdent n), outdent n last, ?_, ?_, ?_⟩
  · rw [hkept, List.map_cons, List.map_append, List.map_singleton]
  · rw [allBlank_outdent, hfirst]
  · rw [allBlank_outdent, hlast]

/-- One of the lines behind a flush start comes to the margin. -/
theorem Framed.toMargin (h : Framed ls front kept back) : ∃ rest, kept = Docs.flushStart ls ++ rest ∧
    (∀ line ∈ rest, allBlank line = false → sharedIndent ls ≤ indent line) ∧
    ∃ line ∈ rest.map (outdent (sharedIndent ls)), allBlank line = false ∧ indent line = 0 := by
  obtain ⟨rest, hrest, hle, least, hleast, hcontent, hindent⟩ := h.shared
  refine ⟨rest, hrest, hle, outdent (sharedIndent ls) least, List.mem_map_of_mem hleast, ?_, ?_⟩
  · rw [allBlank_outdent, hcontent]
  · rw [indent_outdent hcontent, hindent, Nat.sub_self]

/-- Between content at both ends, no indentation is shared if a line behind the first is at the margin. -/
theorem Framed.sharedIndent_eq_zero (h : Framed ls [] ls []) :
    sharedIndent ls = 0 ↔ ∃ line ∈ ls.tail, allBlank line = false ∧ indent line = 0 := by
  obtain ⟨first, mid, last, hls, hfirst, -⟩ := h.ends
  obtain ⟨rest, hrest, hle, least, hleast, hcontent, hindent⟩ := h.shared
  have htail : ∀ line, line ∈ ls.tail → line ∈ rest := by
    intro line hline
    have hmem := List.mem_of_mem_tail hline
    rw [hls, Docs.flushStart] at hrest
    rw [hls] at hline hmem
    split at hrest
    · rw [List.singleton_append] at hrest
      rwa [← (List.cons.inj hrest).2]
    · rw [List.nil_append] at hrest
      rwa [← hrest]
  constructor
  · intro hzero
    rw [hzero] at hindent
    refine ⟨least, ?_, hcontent, hindent⟩
    rw [hls, Docs.flushStart] at hrest
    rw [hls]
    split at hrest
    · rw [List.singleton_append] at hrest
      rwa [List.tail_cons, (List.cons.inj hrest).2]
    · rename_i hstart
      rw [List.nil_append] at hrest
      rw [← hrest] at hleast
      rcases List.mem_cons.mp hleast with rfl | hmem
      · exact absurd ⟨hcontent, hindent⟩ hstart
      · exact hmem
  · rintro ⟨line, hline, hcontent, hindent⟩
    have hless := hle line (htail line hline) hcontent
    omega

/-- Lines stay as they are if they share no indentation, and otherwise not. -/
theorem Framed.map_outdent_eq_iff (h : Framed ls front kept back) (hsolid : ∀ line ∈ kept, Solid line) :
    kept.map (outdent (sharedIndent ls)) = kept ↔ sharedIndent ls = 0 := by
  constructor
  · intro heq
    obtain ⟨rest, hrest, -, least, hleast, hcontent, hindent⟩ := h.shared
    have hsame : outdent (sharedIndent ls) least = id least :=
      List.map_inj_left.mp (heq.trans (List.map_id kept).symm) least (by simp [hrest, hleast])
    have hless := indent_outdent hcontent (sharedIndent ls)
    rw [hsame, id] at hless
    omega
  · intro hzero
    rw [hzero]
    refine (List.map_congr_left fun line hline => ?_).trans (List.map_id kept)
    exact outdent_zero (hsolid line hline)

/-- Lines of which one is at the margin share no indentation once they are outdented. -/
theorem Framed.sharedIndent_outdented (h : Framed ls [] ls []) (hsolid : ∀ line ∈ ls, Solid line)
    (hmargin : ∃ line ∈ ls, allBlank line = false ∧ indent line = 0) :
    sharedIndent (ls.map (outdent (sharedIndent ls))) = 0 := by
  by_cases hzero : sharedIndent ls = 0
  · rw [(h.map_outdent_eq_iff hsolid).mpr hzero, hzero]
  -- the line at the margin is the first, as the others share an indentation
  obtain ⟨first, mid, last, hls, -, -⟩ := h.ends
  obtain ⟨line, hline, hcontent, hindent⟩ := hmargin
  have htail : line ∉ ls.tail := fun hmem => hzero (h.sharedIndent_eq_zero.mpr ⟨line, hmem, hcontent, hindent⟩)
  have hfirst : line = first := by
    rw [hls] at hline htail
    exact (List.mem_cons.mp hline).resolve_right htail
  obtain ⟨rest, hrest, -, least, hleast, hcontent', hindent'⟩ := h.shared
  have hflush : Docs.flushStart ls = [first] := by
    rw [hls, Docs.flushStart, if_pos ⟨hfirst ▸ hcontent, hfirst ▸ hindent⟩]
  refine (h.map _).sharedIndent_eq_zero.mpr ⟨outdent (sharedIndent ls) least, ?_, ?_, ?_⟩
  · rw [← List.map_tail, hrest, hflush, List.singleton_append, List.tail_cons]
    exact List.mem_map_of_mem hleast
  · rw [allBlank_outdent, hcontent']
  · rw [indent_outdent hcontent', hindent', Nat.sub_self]

end PuppetDocs.Docs
