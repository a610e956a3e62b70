import PuppetDocs.Proofs.Docs.Sections

/-
  PuppetDocs.Proofs.Docs.Written — tags that are written and parsed again.

  A tag is written as `@name content` at the margin, with the lines that continue it indented by
  two blanks (`WrittenTag.written`). Two tags or more are all found, each with its lines: the second
  is at the margin, so the lines share no indentation and keep what they have (`outdented_written`),
  and then tag by tag and line by line they are sorted (`sortLines_written`).

  A tag on its own is only found if nothing continues it (`parse_writtenTags`). It is a first line at the
  margin, which does not count towards the shared indentation; so one of its lines comes to the
  margin and belongs to the description (`lone_tag_loses_lines`).
-/

namespace PuppetDocs.Docs

open Text

/-- A tag of no special form, with the lines that continue it. -/
structure WrittenTag where
  name : List Char
  content : List Char
  lines : List (List Char)
  named : IsTagName name
  unformed : String.ofList name ∉ formed
  oneLine : ∀ line ∈ content :: lines, '\n' ∉ line
  filled : ∀ line ∈ lines, allBlank line = false
  /-- Blanks at the end of a line do not count: scrubbing takes them off. -/
  plain : ∀ line ∈ lines, opening (trimEnd line) = none
  spoken : allBlank content = false ∨ lines ≠ []

namespace WrittenTag

def header (t : WrittenTag) : List Char := '@' :: (t.name ++ ' ' :: t.content)

def indented (t : WrittenTag) : List (List Char) := t.lines.map ([' ', ' '] ++ ·)

def written (t : WrittenTag) : List (List Char) := t.header :: t.indented

def tag (t : WrittenTag) : Tag :=
  { name := String.ofList t.name
    text? := some (String.ofList (joinLines ((contents (t.content :: t.lines)).map trim))) }

end WrittenTag

def write (ts : List WrittenTag) : String := String.ofList (joinLines (ts.flatMap WrittenTag.written))

variable {t : WrittenTag} {ts : List WrittenTag} {line : List Char}

/-! ## Lines -/

theorem isIndent_two : ∀ c ∈ [' ', ' '], isIndent c = true := by simp [isIndent]

theorem allBlank_header (t : WrittenTag) : allBlank t.header = false :=
  allBlank_of_mem_false (show isBlank '@' = false from rfl) List.mem_cons_self

theorem opening_header (t : WrittenTag) : ∃ content, opening (trimEnd t.header) = some (t.name, content) ∧
    trim content = trim t.content := opening_line t.named t.content

/-- The lines of a tag continue it, outdented or not. -/
theorem indented_lines (t : WrittenTag) : ∀ line ∈ t.indented,
    allBlank line = false ∧ '\n' ∉ line ∧ 0 < indent line ∧ opening (trimEnd line) = none := by
  intro line hline
  obtain ⟨l, hl, rfl⟩ := List.mem_map.mp hline
  have hfilled := t.filled l hl
  refine ⟨by rw [allBlank_append, hfilled, Bool.and_false], ?_, ?_, ?_⟩
  · have hone := t.oneLine l (List.mem_cons_of_mem _ hl)
    simp [hone]
  · rw [indent_append isIndent_two]
    exact Nat.lt_add_right _ (by decide)
  · rw [trimEnd_append_content _ hfilled, opening_append isIndent_two, t.plain l hl]

theorem written_lines (t : WrittenTag) : ∀ line ∈ t.written, allBlank line = false ∧ '\n' ∉ line := by
  refine List.forall_mem_cons.mpr ⟨⟨allBlank_header t, ?_⟩, fun line hline => ?_⟩
  · have hname : '\n' ∉ t.name := by
      intro hmem
      have hblank := t.named.solid _ hmem
      cases hblank
    have hcontent := t.oneLine t.content List.mem_cons_self
    simp [WrittenTag.header, hname, hcontent]
  · obtain ⟨hfilled, hone, -⟩ := indented_lines t line hline
    exact ⟨hfilled, hone⟩

theorem flatMap_written_lines (ts : List WrittenTag) :
    ∀ line ∈ ts.flatMap WrittenTag.written, allBlank line = false ∧ '\n' ∉ line := by
  intro line hline
  obtain ⟨t, -, hmem⟩ := List.mem_flatMap.mp hline
  exact written_lines t line hmem

/-! ## Sorting -/

theorem sortLines_continued {ls : List (List Char)} (open_ : OpenTag) (hblanks : open_.blanks = 0)
    (h : ∀ line ∈ ls, allBlank line = false ∧ opening line = none ∧ open_.indent < indent line) (rest : List (List Char)) :
    sortLines (some open_) (ls ++ rest) = sortLines (some { open_ with rest := open_.rest ++ ls }) rest := by
  induction ls generalizing open_ with
  | nil => rw [List.nil_append, List.append_nil]
  | cons line ls ih =>
    obtain ⟨⟨hcontent, hopening, hdeeper⟩, hls⟩ := List.forall_mem_cons.mp h
    have hextend : open_.extend line = { open_ with rest := open_.rest ++ [line] } := by
      rw [OpenTag.extend, hblanks, blankLines, List.replicate_zero, List.append_nil, ← hblanks]
    rw [List.cons_append, sortLines_deeper hcontent hopening hdeeper, hextend,
      ih { open_ with rest := open_.rest ++ [line] } hblanks hls, List.append_assoc, List.singleton_append]

theorem makeTag_written (t : WrittenTag) {content : List Char} (h : trim content = trim t.content) :
    makeTag (String.ofList t.name) content (t.indented.map trimEnd) = t.tag := by
  let s : Section := ⟨t.header, t.name, content, t.indented.map trimEnd, []⟩
  have hpieces : (contents (content :: t.indented.map trimEnd)).map trim = (contents (t.content :: t.lines)).map trim := by
    rw [map_trim_contents, map_trim_contents, List.map_cons, List.map_cons, h, List.map_map]
    refine congrArg (fun trimmed => (trim t.content :: trimmed).filter _) ?_
    rw [WrittenTag.indented, List.map_map]
    refine List.map_congr_left fun line _ => ?_
    rw [Function.comp, Function.comp, trim_trimEnd, trim, trim, trimStart_append_blank (allBlank_indent isIndent_two)]
  have hne : (contents (t.content :: t.lines)).map trim ≠ [] := by
    intro hnil
    have hnone : contents (t.content :: t.lines) = [] := List.map_eq_nil_iff.mp hnil
    rcases t.spoken with hcontent | hlines
    · rw [contents_cons hcontent] at hnone
      cases hnone
    · obtain ⟨line, hline⟩ := List.exists_mem_of_ne_nil _ hlines
      have hmem : line ∈ contents (t.content :: t.lines) :=
        List.mem_filter.mpr ⟨List.mem_cons_of_mem _ hline, by simp [t.filled line hline]⟩
      rw [hnone] at hmem
      cases hmem
  have htext : s.text? = some (String.ofList (joinLines ((contents (t.content :: t.lines)).map trim))) := by
    rw [Section.text?, hpieces]
    split
    · contradiction
    · rfl
  exact (s.tag_plain t.unformed).trans (by rw [htext, WrittenTag.tag])

/-- Without blanks at the ends of its lines, a tag is sorted as one. -/
theorem sortLines_written (t : WrittenTag) (rest : List (List Char)) : ∃ open_ : OpenTag, open_.close = t.tag ∧
    ∀ before, sortLines before (t.written.map trimEnd ++ rest) =
      ((sortLines (some open_) rest).1, (before.map OpenTag.close).toList ++ (sortLines (some open_) rest).2) := by
  obtain ⟨content, hopening, hcontent⟩ := opening_header t
  refine ⟨{ name := t.name, content, rest := t.indented.map trimEnd, indent := 0 }, makeTag_written t hcontent, ?_⟩
  intro before
  have hindent : indent (trimEnd t.header) = 0 := indent_trimEnd (allBlank_header t)
  have hlines : ∀ line ∈ t.indented.map trimEnd, allBlank line = false ∧ opening line = none ∧ 0 < indent line := by
    intro line hline
    obtain ⟨l, hl, rfl⟩ := List.mem_map.mp hline
    obtain ⟨hfilled, -, hdeeper, hplain⟩ := indented_lines t l hl
    exact ⟨(allBlank_trimEnd l).trans hfilled, hplain, by rwa [indent_trimEnd hfilled]⟩
  rw [WrittenTag.written, List.map_cons, List.cons_append, sortLines_opening hopening, hindent,
    sortLines_continued _ rfl hlines, List.nil_append]

theorem sortLines_all (ts : List WrittenTag) (before : Option OpenTag) :
    sortLines before ((ts.flatMap WrittenTag.written).map trimEnd) =
      ([], (before.map OpenTag.close).toList ++ ts.map WrittenTag.tag) := by
  induction ts generalizing before with
  | nil => rw [List.flatMap_nil, List.map_nil, List.map_nil, List.append_nil, sortLines]
  | cons t ts ih =>
    obtain ⟨open_, hclose, hsort⟩ := sortLines_written t ((ts.flatMap WrittenTag.written).map trimEnd)
    rw [List.flatMap_cons, List.map_append, hsort, ih, Option.map_some, hclose]
    rfl

/-! ## Scrubbing -/

/-- Behind the first tag another one, or nothing: then no line loses the blanks in front. -/
theorem outdented_written (h : ∀ t, ts = [t] → t.lines = []) :
    lines (scrub (joinLines (ts.flatMap WrittenTag.written))) = (ts.flatMap WrittenTag.written).map trimEnd := by
  have hfilled : ∀ line ∈ ts.flatMap WrittenTag.written, allBlank line = false := fun line hline =>
    (flatMap_written_lines ts line hline).1
  have hone : ∀ line ∈ ts.flatMap WrittenTag.written, '\n' ∉ line := fun line hline =>
    (flatMap_written_lines ts line hline).2
  match ts with
  | [] => rfl
  | [t] =>
    have hwritten : [t].flatMap WrittenTag.written = [t.header] := by
      simp [WrittenTag.written, WrittenTag.indented, h t rfl]
    have htrim : trim t.header = trimEnd t.header := rfl
    have hnewline : '\n' ∉ trimEnd t.header := by
      obtain ⟨back, hsplit, -⟩ := trimEnd_split t.header
      intro hmem
      refine hone t.header (by simp [hwritten]) ?_
      rw [hsplit]
      exact List.mem_append_left back hmem
    have hnil : trimEnd t.header ≠ [] := by
      intro hnil
      have hblank := (allBlank_trimEnd t.header).trans (allBlank_header t)
      rw [hnil] at hblank
      cases hblank
    have hjoin : joinLines [t.header] = t.header := List.intercalate_singleton
    rw [hwritten, hjoin, scrub_oneLine (htrim.symm ▸ hnewline), htrim, lines_whole hnewline hnil]
    rfl
  | first :: second :: ts =>
    have hlength : 2 ≤ ((first :: second :: ts).flatMap WrittenTag.written).length := by
      simp only [List.flatMap_cons, WrittenTag.written, List.length_append, List.length_cons]
      omega
    have hzero : sharedIndent ((first :: second :: ts).flatMap WrittenTag.written) = 0 := by
      refine (framed_of_filled hfilled hlength).sharedIndent_eq_zero.mpr ⟨second.header, ?_, allBlank_header second, rfl⟩
      simp [WrittenTag.written]
    rw [lines_scrub_filled hone hfilled hlength, hzero]
    refine List.map_congr_left fun line hline => ?_
    rw [outdent_of_content (hfilled line hline), Nat.min_zero, List.drop_zero]

/-- A tag on its own has a line that is outdented to the margin. -/
theorem outdented_alone (t : WrittenTag) (h : t.lines ≠ []) : ∃ line ∈ lines (scrub (joinLines t.written)),
    allBlank line = false ∧ opening line = none ∧ indent line = 0 := by
  have hfilled : ∀ line ∈ t.written, allBlank line = false := fun line hline => (written_lines t line hline).1
  have hone : ∀ line ∈ t.written, '\n' ∉ line := fun line hline => (written_lines t line hline).2
  have hlength : 2 ≤ t.written.length := by
    have hpos := List.length_pos_iff.mpr h
    simp only [WrittenTag.written, WrittenTag.indented, List.length_cons, List.length_map]
    omega
  obtain ⟨rest, hrest, -, line, hline, hcontent, hmargin⟩ := (framed_of_filled hfilled hlength).toMargin
  have hflush : flushStart t.written = [t.header] := by
    rw [WrittenTag.written, flushStart, if_pos ⟨allBlank_header t, rfl⟩]
  have hindented : t.indented = rest := by
    rw [hflush] at hrest
    exact (List.cons.inj hrest).2
  obtain ⟨l, hl, rfl⟩ := List.mem_map.mp hline
  obtain ⟨-, -, -, hplain⟩ := indented_lines t l (hindented ▸ hl)
  refine ⟨_, ?_, hcontent, (opening_outdent _ l).trans hplain, hmargin⟩
  rw [lines_scrub_filled hone hfilled hlength]
  refine List.mem_map_of_mem (List.mem_cons_of_mem t.header ?_)
  rwa [hindented]

/-- Tags that are written are parsed, but for one on its own with lines that continue it. -/
theorem parse_writtenTags (ts : List WrittenTag) :
    Docstring.parse (write ts) = { text := "", tags := ts.map WrittenTag.tag } ↔ ∀ t, ts = [t] → t.lines = [] := by
  have hwrite : (write ts).toList = joinLines (ts.flatMap WrittenTag.written) := String.toList_ofList
  constructor
  · rintro hparse t rfl
    by_contra hlines
    obtain ⟨line, hline, hcontent, hopening, hmargin⟩ := outdented_alone t hlines
    have hfound : line ∈ lines (scrub (write [t]).toList) := by
      rw [hwrite, List.flatMap_singleton]
      exact hline
    exact text_of_margin hfound hcontent hopening hmargin (congrArg Docstring.text hparse)
  · intro h
    have hsorted : sortLines none (lines (scrub (write ts).toList)) = ([], ts.map WrittenTag.tag) := by
      rw [hwrite, outdented_written h, sortLines_all]
      rfl
    have hparse : Docstring.parse (write ts) =
        { text := String.ofList (trim (joinLines (sortLines none (lines (scrub (write ts).toList))).1))
          tags := (sortLines none (lines (scrub (write ts).toList))).2 } := rfl
    rw [hparse, hsorted]
    rfl

/-- A tag with one line that continues it, written without another: the line is in the description. -/
theorem lone_tag_loses_lines : ∃ t : WrittenTag, write [t] = "@note a\n  b" ∧
    t.tag = { name := "note", text? := some "a\nb" } ∧
    Docstring.parse "@note a\n  b" = { text := "b", tags := [{ name := "note", text? := some "a" }] } := by
  let t : WrittenTag := {
    name := "note".toList
    content := "a".toList
    lines := ["b".toList]
    named := ⟨[], 'n', "ote".toList, rfl, .inl rfl, rfl, List.all_eq_true.mp (by decide)⟩
    unformed := by decide
    oneLine := by decide
    filled := by decide
    plain := by decide
    spoken := .inl rfl }
  exact ⟨t, by decide, by decide, by decide⟩

end PuppetDocs.Docs
