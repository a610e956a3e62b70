import PuppetDocs.Proofs.Docs.Scrub
import PuppetDocs.Proofs.Docs.TagLine

/-
  PuppetDocs.Proofs.Docs.Sections — where each line of scrubbed documentation goes.

  Documentation is lines in front of all tags and then a section for each tag: the line that opens
  it, the lines that continue it, and the lines behind them that do not (`Section`). A line goes on
  with the tag in front of it as long as all lines with content up to it are indented deeper than
  the line that opens the tag (`Continues`). So every line with content is in exactly one place
  (`parse_sections`): tags take the lines of their sections, and the description the others.

  The description is trimmed as a whole. Its first line can lose blanks that way which scrubbing
  has kept in front of it (`description_loses_indentation`).
-/

namespace PuppetDocs.Docs

open Text

variable {line name content : List Char} {ls rest body behind : List (List Char)} {t : OpenTag} {margin : Nat}

/-! ## Sections -/

/-- Of the lines behind a tag that is indented by `margin`, up to the next tag, `body` go on with it and `behind` do not. -/
structure Continues (margin : Nat) (body behind : List (List Char)) : Prop where
  deeper : ∀ line ∈ body, allBlank line = false → opening line = none ∧ margin < indent line
  last : ∀ line ∈ body.getLast?, allBlank line = false
  plain : ∀ line ∈ behind, opening line = none
  ends : ∀ line ∈ (contents behind).head?, indent line ≤ margin

/-- A tag with the lines up to the next one. -/
structure Section where
  header : List Char
  name : List Char
  content : List Char
  /-- The lines that continue the tag, with the blank lines between them. -/
  body : List (List Char)
  behind : List (List Char)

namespace Section

def lines (s : Section) : List (List Char) := s.header :: (s.body ++ s.behind)

def tag (s : Section) : Tag := makeTag (String.ofList s.name) s.content s.body

structure Reads (s : Section) : Prop where
  opens : opening s.header = some (s.name, s.content)
  continues : Continues (indent s.header) s.body s.behind

/-- The content and the lines that continue it, trimmed, without what is blank. -/
def text? (s : Section) : Option String :=
  match (contents (s.content :: s.body)).map trim with
  | [] => none
  | pieces => some (String.ofList (joinLines pieces))

end Section

/-- The tags whose text is more than lines. -/
def formed : List String := ["param", "option", "return", "raise", "yieldreturn", "example"]

/-! ## Lines one by one -/

theorem sortLines_blank_none (h : allBlank line = true) (rest : List (List Char)) :
    sortLines none (line :: rest) = ([] :: (sortLines none rest).1, (sortLines none rest).2) := by
  rw [sortLines, if_pos h]

theorem sortLines_blank_some (h : allBlank line = true) (t : OpenTag) (rest : List (List Char)) :
    sortLines (some t) (line :: rest) = sortLines (some { t with blanks := t.blanks + 1 }) rest := by
  rw [sortLines, if_pos h]

theorem sortLines_opening (h : opening line = some (name, content)) (open_ : Option OpenTag) (rest : List (List Char)) :
    sortLines open_ (line :: rest) =
      ((sortLines (some { name, content, indent := indent line }) rest).1,
        (open_.map OpenTag.close).toList ++ (sortLines (some { name, content, indent := indent line }) rest).2) := by
  have hheader : tagHeader? (line.drop (indent line)) = some (name, content) := h
  have hcontent : ¬allBlank line = true := by simp [opening_content h]
  cases open_ with
  | none =>
    rw [sortLines, if_neg hcontent]
    simp only [hheader]
  | some t =>
    rw [sortLines, if_neg hcontent]
    simp only [hheader]

theorem sortLines_plain (hcontent : allBlank line = false) (h : opening line = none) (rest : List (List Char)) :
    sortLines none (line :: rest) = (line :: (sortLines none rest).1, (sortLines none rest).2) := by
  rw [sortLines, if_neg (by simp [hcontent])]
  simp only [show tagHeader? (line.drop (indent line)) = none from h]

theorem sortLines_deeper (hcontent : allBlank line = false) (h : opening line = none) (hdeeper : t.indent < indent line)
    (rest : List (List Char)) : sortLines (some t) (line :: rest) = sortLines (some (t.extend line)) rest := by
  rw [sortLines, if_neg (by simp [hcontent])]
  simp only [show tagHeader? (line.drop (indent line)) = none from h, if_pos hdeeper]

theorem sortLines_flush (hcontent : allBlank line = false) (h : opening line = none) (hflush : ¬t.indent < indent line)
    (rest : List (List Char)) : sortLines (some t) (line :: rest) =
      (blankLines t.blanks ++ line :: (sortLines none rest).1, t.close :: (sortLines none rest).2) := by
  rw [sortLines, if_neg (by simp [hcontent])]
  simp only [show tagHeader? (line.drop (indent line)) = none from h, if_neg hflush]

/-- The description has the lines that are sorted into it and empty ones. -/
theorem mem_description (open_ : Option OpenTag) :
    ∀ line ∈ (sortLines open_ ls).1, line = [] ∨ line ∈ ls := by
  induction ls generalizing open_ with
  | nil => exact nofun
  | cons next ls ih =>
    have hmore : ∀ {open_ : Option OpenTag} {line}, line ∈ (sortLines open_ ls).1 → line = [] ∨ line ∈ next :: ls :=
      fun hline => (ih _ _ hline).imp_right (List.mem_cons_of_mem next)
    by_cases hblank : allBlank next = true
    · cases open_ with
      | none =>
        rw [sortLines_blank_none hblank]
        exact List.forall_mem_cons.mpr ⟨.inl rfl, fun _ => hmore⟩
      | some t =>
        rw [sortLines_blank_some hblank]
        exact fun _ => hmore
    have hcontent : allBlank next = false := Bool.eq_false_iff.mpr hblank
    cases hopening : opening next with
    | some header =>
      rw [sortLines_opening hopening]
      exact fun _ => hmore
    | none =>
      cases open_ with
      | none =>
        rw [sortLines_plain hcontent hopening]
        exact List.forall_mem_cons.mpr ⟨.inr List.mem_cons_self, fun _ => hmore⟩
      | some t =>
        by_cases hdeeper : t.indent < indent next
        · rw [sortLines_deeper hcontent hopening hdeeper]
          exact fun _ => hmore
        · rw [sortLines_flush hcontent hopening hdeeper]
          intro line hline
          rcases List.mem_append.mp hline with hwaiting | hline
          · exact .inl (List.eq_of_mem_replicate hwaiting)
          · exact List.forall_mem_cons.mpr ⟨.inr List.mem_cons_self, fun _ => hmore⟩ line hline

/-! ## All lines -/

theorem contents_blankLines (n : Nat) : contents (blankLines n) = [] :=
  contents_of_blank fun line hline => by rw [List.eq_of_mem_replicate hline]; rfl

theorem opening_blankLines (n : Nat) : ∀ line ∈ blankLines n, opening line = none := by
  intro line hline
  rw [List.eq_of_mem_replicate hline]
  rfl

/-- What is left of the lines behind a tag if the next line opens another one, or if there is none. -/
theorem continues_none (margin n : Nat) : Continues margin [] (blankLines n) where
  deeper := nofun
  last := nofun
  plain := opening_blankLines n
  ends := by rw [contents_blankLines]; exact nofun

/-- The lines in front of all tags, and the sections. -/
structure Sorted (ls pre : List (List Char)) (sections : List Section) : Prop where
  split : ls = pre ++ sections.flatMap Section.lines
  plain : ∀ line ∈ pre, opening line = none
  reads : ∀ s ∈ sections, s.Reads
  tags : (sortLines none ls).2 = sections.map Section.tag
  description : contents (sortLines none ls).1 = contents (pre ++ sections.flatMap Section.behind)

/-- The rest of a section, of which a part is in the tag that is open, and the sections behind it. -/
structure SortedBehind (t : OpenTag) (ls body behind : List (List Char)) (sections : List Section) : Prop where
  split : blankLines t.blanks ++ ls = body ++ behind ++ sections.flatMap Section.lines
  continues : Continues t.indent body behind
  reads : ∀ s ∈ sections, s.Reads
  tags : (sortLines (some t) ls).2 = makeTag (String.ofList t.name) t.content (t.rest ++ body) :: sections.map Section.tag
  description : contents (sortLines (some t) ls).1 = contents (behind ++ sections.flatMap Section.behind)

theorem sorted_cons_blank {pre : List (List Char)} {sections : List Section} (h : Sorted ls pre sections) :
    Sorted ([] :: ls) ([] :: pre) sections where
  split := by rw [h.split, List.cons_append]
  plain := List.forall_mem_cons.mpr ⟨rfl, h.plain⟩
  reads := h.reads
  tags := by rw [sortLines_blank_none rfl, h.tags]
  description := by
    rw [sortLines_blank_none rfl]
    exact h.description

theorem sorted_cons_plain {pre : List (List Char)} {sections : List Section} (hcontent : allBlank line = false)
    (hopening : opening line = none) (h : Sorted ls pre sections) : Sorted (line :: ls) (line :: pre) sections where
  split := by rw [h.split, List.cons_append]
  plain := List.forall_mem_cons.mpr ⟨hopening, h.plain⟩
  reads := h.reads
  tags := by rw [sortLines_plain hcontent hopening, h.tags]
  description := by
    rw [sortLines_plain hcontent hopening, contents_cons hcontent, h.description, List.cons_append, contents_cons hcontent]

/-- The line opens a section. -/
theorem sorted_cons_opening {sections : List Section} (hopening : opening line = some (name, content))
    (h : SortedBehind { name, content, indent := indent line } ls body behind sections) :
    Sorted (line :: ls) [] (⟨line, name, content, body, behind⟩ :: sections) where
  split := by
    have hsplit : ls = body ++ behind ++ sections.flatMap Section.lines := h.split
    rw [hsplit]
    simp [Section.lines]
  plain := nofun
  reads := List.forall_mem_cons.mpr ⟨⟨hopening, h.continues⟩, h.reads⟩
  tags := by
    rw [sortLines_opening hopening, h.tags]
    rfl
  description := by
    rw [sortLines_opening hopening, h.description]
    rfl

theorem sortedBehind_nil (t : OpenTag) : SortedBehind t [] [] (blankLines t.blanks) [] where
  split := by simp
  continues := continues_none t.indent t.blanks
  reads := nofun
  tags := by rw [sortLines, List.append_nil]; rfl
  description := by rw [sortLines, List.flatMap_nil, List.append_nil, contents_blankLines]; rfl

theorem sortedBehind_blank {sections : List Section}
    (h : SortedBehind { t with blanks := t.blanks + 1 } ls body behind sections) :
    SortedBehind t ([] :: ls) body behind sections where
  split := by
    rw [← h.split, blankLines, blankLines, List.replicate_succ', List.append_assoc]
    rfl
  continues := h.continues
  reads := h.reads
  tags := by rw [sortLines_blank_some rfl, h.tags]
  description := by rw [sortLines_blank_some rfl, h.description]

theorem sortedBehind_opening {sections : List Section} (hopening : opening line = some (name, content))
    (h : SortedBehind { name, content, indent := indent line } ls body behind sections) :
    SortedBehind t (line :: ls) [] (blankLines t.blanks) (⟨line, name, content, body, behind⟩ :: sections) := by
  have hsorted := sorted_cons_opening hopening h
  exact {
    split := by rw [hsorted.split]; simp
    continues := continues_none t.indent t.blanks
    reads := hsorted.reads
    tags := by
      rw [sortLines_opening hopening, h.tags, List.append_nil]
      rfl
    description := by
      rw [sortLines_opening hopening, h.description, contents_append (blankLines _), contents_blankLines]
      rfl }

theorem sortedBehind_deeper {sections : List Section} (hcontent : allBlank line = false) (hopening : opening line = none)
    (hdeeper : t.indent < indent line) (h : SortedBehind (t.extend line) ls body behind sections) :
    SortedBehind t (line :: ls) (blankLines t.blanks ++ line :: body) behind sections where
  split := by
    have hsplit : ls = body ++ behind ++ sections.flatMap Section.lines := h.split
    rw [hsplit]
    simp
  continues := {
    deeper := by
      intro l hl hlcontent
      rcases List.mem_append.mp hl with hwaiting | hl
      · rw [List.eq_of_mem_replicate hwaiting] at hlcontent
        cases hlcontent
      · rcases List.mem_cons.mp hl with rfl | hl
        · exact ⟨hopening, hdeeper⟩
        · exact h.continues.deeper l hl hlcontent
    last := by
      intro l hl
      have hlast : (blankLines t.blanks ++ line :: body).getLast? = some (body.getLast?.getD line) := by
        rw [List.getLast?_append, List.getLast?_cons, Option.some_or]
      rw [hlast] at hl
      cases hl
      cases hbody : body.getLast? with
      | none => exact hcontent
      | some last => exact h.continues.last last hbody
    plain := h.continues.plain
    ends := h.continues.ends }
  reads := h.reads
  tags := by
    rw [sortLines_deeper hcontent hopening hdeeper, h.tags, OpenTag.extend]
    simp
  description := by rw [sortLines_deeper hcontent hopening hdeeper, h.description]

theorem sortedBehind_flush {pre : List (List Char)} {sections : List Section} (hcontent : allBlank line = false)
    (hopening : opening line = none) (hflush : ¬t.indent < indent line) (h : Sorted ls pre sections) :
    SortedBehind t (line :: ls) [] (blankLines t.blanks ++ line :: pre) sections := by
  have hsorted := sorted_cons_plain hcontent hopening h
  have hcons : contents (blankLines t.blanks ++ line :: pre) = line :: contents pre := by
    rw [contents_append, contents_blankLines, contents_cons hcontent, List.nil_append]
  exact {
    split := by rw [hsorted.split]; simp
    continues := {
      deeper := nofun
      last := nofun
      plain := fun l hl => (List.mem_append.mp hl).elim (opening_blankLines t.blanks l) (hsorted.plain l)
      ends := by
        rw [hcons]
        intro l hl
        cases hl
        omega }
    reads := h.reads
    tags := by
      rw [sortLines_flush hcontent hopening hflush, h.tags, List.append_nil]
      rfl
    description := by
      have hdescription := hsorted.description
      rw [sortLines_plain hcontent hopening] at hdescription
      rw [sortLines_flush hcontent hopening hflush, contents_append, contents_blankLines, hdescription, List.append_assoc,
        contents_append (blankLines _), contents_blankLines] }

/-- By one step for each line, all lines are sorted, behind an open tag or behind none. -/
theorem sorted_lines (hblank : ∀ line ∈ ls, allBlank line = true → line = []) :
    (∃ pre sections, Sorted ls pre sections) ∧ ∀ t, ∃ body behind sections, SortedBehind t ls body behind sections := by
  induction ls with
  | nil => exact ⟨⟨[], [], ⟨rfl, nofun, nofun, rfl, rfl⟩⟩, fun t => ⟨_, _, _, sortedBehind_nil t⟩⟩
  | cons line ls ih =>
    obtain ⟨hline, hls⟩ := List.forall_mem_cons.mp hblank
    obtain ⟨⟨pre, sections, hsorted⟩, hbehind⟩ := ih hls
    by_cases hempty : allBlank line = true
    · rw [hline hempty]
      refine ⟨⟨_, _, sorted_cons_blank hsorted⟩, fun t => ?_⟩
      obtain ⟨body, behind, sections, h⟩ := hbehind { t with blanks := t.blanks + 1 }
      exact ⟨body, behind, sections, sortedBehind_blank h⟩
    have hcontent : allBlank line = false := Bool.eq_false_iff.mpr hempty
    cases hopening : opening line with
    | some header =>
      obtain ⟨body, behind, sections, h⟩ := hbehind { name := header.1, content := header.2, indent := indent line }
      exact ⟨⟨_, _, sorted_cons_opening hopening h⟩, fun t => ⟨_, _, _, sortedBehind_opening hopening h⟩⟩
    | none =>
      refine ⟨⟨_, _, sorted_cons_plain hcontent hopening hsorted⟩, fun t => ?_⟩
      by_cases hdeeper : t.indent < indent line
      · obtain ⟨body, behind, sections, h⟩ := hbehind (t.extend line)
        exact ⟨_, _, _, sortedBehind_deeper hcontent hopening hdeeper h⟩
      · exact ⟨_, _, _, sortedBehind_flush hcontent hopening hdeeper hsorted⟩

/-! ## Descriptions and texts -/

/-- A trimmed description has the lines with content that it is made of; the first loses the blanks in front. -/
theorem contents_trim (h : ∀ line ∈ ls, Solid line ∧ '\n' ∉ line) :
    contents (lines (trim (joinLines ls))) = (contents ls).modifyHead trimStart := by
  let kept := ls.dropWhile allBlank
  let started := kept.modifyHead trimStart
  have hkept : ∀ line ∈ kept, Solid line ∧ '\n' ∉ line := fun line hline => h line (List.dropWhile_subset allBlank hline)
  have hcontents : contents kept = contents ls := by
    have hsplit : ls = ls.takeWhile allBlank ++ kept := List.takeWhile_append_dropWhile.symm
    conv => rhs; rw [hsplit]
    rw [contents_append, contents_of_blank fun line hline => List.mem_takeWhile_imp hline, List.nil_append]
  have hstarted : (∀ line ∈ started, Solid line ∧ '\n' ∉ line) ∧ contents started = (contents kept).modifyHead trimStart := by
    have hfirst := List.head?_dropWhile_not allBlank ls
    cases hcases : kept with
    | nil => exact ⟨by simp [started, hcases], by simp [started, hcases, contents]⟩
    | cons first rest =>
      rw [show ls.dropWhile allBlank = first :: rest from hcases] at hfirst
      have hcontent : allBlank first = false := by simpa using hfirst
      have hsolid := hkept first (by simp [hcases])
      refine ⟨?_, ?_⟩
      · simp only [started, hcases, List.modifyHead_cons]
        refine List.forall_mem_cons.mpr ⟨⟨hsolid.1.trimStart, fun hmem => hsolid.2 ?_⟩, fun line hline => ?_⟩
        · exact List.dropWhile_subset isBlank hmem
        · exact hkept line (by simp [hcases, hline])
      · simp only [started, hcases, List.modifyHead_cons]
        rw [contents_cons hcontent, contents_cons ((allBlank_trimStart first).trans hcontent), List.modifyHead_cons]
  obtain ⟨back, hsplit, hback⟩ := dropEndWhile_split allBlank started
  have htidy : ∀ line ∈ dropEndWhile allBlank started, Solid line ∧ '\n' ∉ line := fun line hline =>
    hstarted.1 line (by rw [hsplit]; exact List.mem_append_left back hline)
  have htrim : trim (joinLines ls) = joinLines (dropEndWhile allBlank started) := by
    rw [trim, trimStart_joinLines, trimEnd_joinLines fun line hline => (hstarted.1 line hline).1]
  have hlines : lines (joinLines (dropEndWhile allBlank started)) = dropEndWhile allBlank started := by
    refine lines_joinLines (fun line hline => (htidy line hline).1.isWhole (htidy line hline).2) fun hlast => ?_
    have hblank := last_dropEndWhile allBlank started [] hlast
    cases hblank
  have hdrop : contents (dropEndWhile allBlank started) = contents started := by
    conv => rhs; rw [hsplit, contents_append, contents_of_blank hback, List.append_nil]
  rw [htrim, hlines, hdrop, hstarted.2, hcontents]

/-- Of pieces that are trimmed and have content, nothing is trimmed off when they are joined. -/
theorem trim_pieces {pieces : List (List Char)} (h : ∀ piece ∈ pieces, trim piece = piece ∧ allBlank piece = false) :
    trim (joinLines pieces) = joinLines pieces := by
  have hsolid : ∀ piece ∈ pieces, Solid piece := by
    intro piece hpiece
    rw [← (h piece hpiece).1]
    exact solid_trimEnd _
  have hstart : trimStart (joinLines pieces) = joinLines pieces := by
    rw [trimStart_joinLines]
    cases pieces with
    | nil => rfl
    | cons first rest =>
      obtain ⟨htrim, hcontent⟩ := h first List.mem_cons_self
      have hfirst : trimStart first = first := by
        rw [← htrim]
        exact trimStart_of_head (head_trim first)
      rw [List.dropWhile_cons_of_neg (by simp [hcontent]), List.modifyHead_cons, hfirst]
  rw [trim, hstart, trimEnd_joinLines hsolid, dropEndWhile_of_last]
  exact fun piece hpiece => (h piece (List.mem_of_getLast? hpiece)).2

theorem map_trim_contents (ls : List (List Char)) : (contents ls).map trim = (ls.map trim).filter (!·.isEmpty) := by
  have hkept : ∀ line ∈ ls, ((!·.isEmpty) ∘ trim) line = !allBlank line := by
    intro line _
    rw [Bool.eq_iff_iff]
    simp [trim_eq_nil_iff]
  rw [List.filter_map, List.filter_congr hkept, contents]

/-- A tag of no special form has its lines as its text. -/
theorem Section.tag_plain (s : Section) (h : String.ofList s.name ∉ formed) :
    s.tag = { name := String.ofList s.name, text? := s.text? } := by
  have hpieces : ∀ piece ∈ (contents (s.content :: s.body)).map trim, trim piece = piece ∧ allBlank piece = false := by
    intro piece hpiece
    obtain ⟨line, hline, rfl⟩ := List.mem_map.mp hpiece
    refine ⟨trim_trim line, ?_⟩
    rw [trim, allBlank_trimEnd, allBlank_trimStart]
    simpa using (List.mem_filter.mp hline).2
  have htext : nonBlank (tagText s.content s.body) = s.text? := by
    rw [tagText, ← map_trim_contents, nonBlank, trim_pieces hpieces, text?]
    cases hcases : (contents (s.content :: s.body)).map trim with
    | nil => rfl
    | cons piece pieces =>
      have hne : (joinLines (piece :: pieces)).isEmpty = false := by
        refine Bool.eq_false_iff.mpr fun hnil => ?_
        have hall : allBlank (joinLines (piece :: pieces)) = true := by
          rw [List.isEmpty_iff.mp hnil]
          rfl
        have hpiece := (hpieces piece (by simp [hcases])).2
        rw [allBlank_joinLines.mp hall piece List.mem_cons_self] at hpiece
        cases hpiece
      simp only [hne, Bool.false_eq_true, if_false]
  simp only [formed, List.mem_cons, List.not_mem_nil, or_false, not_or] at h
  obtain ⟨hparam, hoption, hreturn, hraise, hyield, hexample⟩ := h
  rw [tag, makeTag, if_neg hexample, if_neg (by simp [hparam, hoption]), if_neg (by simp [hreturn, hraise, hyield]), htext]

/-- As many sections as lines that open tags. -/
theorem Sorted.length_sections {pre : List (List Char)} {sections : List Section} (h : Sorted ls pre sections) :
    sections.length = ls.countP fun line => (opening line).isSome := by
  have hplain : ∀ {ls : List (List Char)}, (∀ line ∈ ls, opening line = none) →
      ls.countP (fun line => (opening line).isSome) = 0 := by
    intro ls hls
    rw [List.countP_eq_zero]
    intro line hline
    simp [hls line hline]
  have hone : ∀ s ∈ sections, s.lines.countP (fun line => (opening line).isSome) = 1 := by
    intro s hs
    obtain ⟨hopens, hcontinues⟩ := h.reads s hs
    have hbody : ∀ line ∈ s.body, opening line = none := by
      intro line hline
      cases hopening : opening line with
      | none => rfl
      | some header => rw [← hopening, (hcontinues.deeper line hline (opening_content hopening)).1]
    rw [Section.lines, List.countP_cons_of_pos (by simp [hopens]), List.countP_append, hplain hbody,
      hplain hcontinues.plain]
  have hmap : sections.map (List.countP (fun line => (opening line).isSome) ∘ Section.lines) = sections.map fun _ => 1 :=
    List.map_congr_left hone
  rw [h.split, List.countP_append, hplain h.plain, List.countP_flatMap, Nat.zero_add, hmap]
  simp

theorem text_parse (raw : String) : (Docstring.parse raw).text.toList =
    trim (joinLines (sortLines none (lines (scrub raw.toList))).1) := String.toList_ofList

theorem sorted_scrub (raw : String) : ∃ (pre : List (List Char)) (sections : List Section),
    Sorted (lines (scrub raw.toList)) pre sections :=
  (sorted_lines fun line hline => (solid_scrub _ line hline).eq_nil).1

/-- A line at the margin that opens no tag goes on with none either. -/
theorem text_of_margin {raw : String} (hline : line ∈ lines (scrub raw.toList)) (hcontent : allBlank line = false)
    (hopening : opening line = none) (hmargin : indent line = 0) : (Docstring.parse raw).text ≠ "" := by
  obtain ⟨pre, sections, h⟩ := sorted_scrub raw
  have hleft : line ∈ pre ++ sections.flatMap Section.behind := by
    rw [h.split] at hline
    rcases List.mem_append.mp hline with hpre | hsection
    · exact List.mem_append_left _ hpre
    · obtain ⟨s, hs, hmem⟩ := List.mem_flatMap.mp hsection
      obtain ⟨hopens, hcontinues⟩ := h.reads s hs
      refine List.mem_append_right _ (List.mem_flatMap.mpr ⟨s, hs, ?_⟩)
      rcases List.mem_cons.mp hmem with rfl | hmem
      · rw [hopens] at hopening
        cases hopening
      · rcases List.mem_append.mp hmem with hbody | hbehind
        · have hdeeper := (hcontinues.deeper line hbody hcontent).2
          omega
        · exact hbehind
  have hdescription : line ∈ contents (sortLines none (lines (scrub raw.toList))).1 := by
    rw [h.description]
    exact List.mem_filter.mpr ⟨hleft, by simp [hcontent]⟩
  intro hempty
  have htext := text_parse raw
  rw [hempty] at htext
  have hblank := allBlank_joinLines.mp ((trim_eq_nil_iff _).mp htext.symm) line (List.mem_filter.mp hdescription).1
  rw [hcontent] at hblank
  cases hblank

/-- Each line of scrubbed documentation with content opens a tag, goes on with the tag in front of it, or is one of the
description. -/
theorem parse_sections (raw : String) : ∃ (pre : List (List Char)) (sections : List Section),
    lines (scrub raw.toList) = pre ++ sections.flatMap Section.lines ∧
    (∀ line ∈ pre, opening line = none) ∧ (∀ s ∈ sections, s.Reads) ∧
    (Docstring.parse raw).tags = sections.map Section.tag ∧
    sections.length = (lines (scrub raw.toList)).countP (fun line => (opening line).isSome) ∧
    contents (lines (Docstring.parse raw).text.toList) =
      (contents (pre ++ sections.flatMap Section.behind)).modifyHead trimStart ∧
    ∀ s ∈ sections, String.ofList s.name ∉ formed → s.tag = { name := String.ofList s.name, text? := s.text? } := by
  have hscrubbed : ∀ line ∈ lines (scrub raw.toList), Solid line ∧ '\n' ∉ line := fun line hline =>
    ⟨solid_scrub _ line hline, newline_not_mem_lines _ line hline⟩
  obtain ⟨pre, sections, h⟩ := sorted_scrub raw
  refine ⟨pre, sections, h.split, h.plain, h.reads, h.tags, h.length_sections, ?_, fun s _ => s.tag_plain⟩
  rw [text_parse, contents_trim, h.description]
  intro line hline
  rcases mem_description none line hline with rfl | hmem
  · exact ⟨nofun, List.not_mem_nil⟩
  · exact hscrubbed line hmem

/-- The first line of the description is indented deeper than the second, which is given to no tag either, and is not any
more in the description. -/
theorem description_loses_indentation :
    (Docstring.parse "    A\n  B").tags = [] ∧ contents (lines (scrub "    A\n  B".toList)) = ["  A".toList, "B".toList] ∧
      contents (lines (Docstring.parse "    A\n  B").text.toList) = ["A".toList, "B".toList] := by
  decide

end PuppetDocs.Docs
