import PuppetDocs.Docs.Parse
import PuppetDocs.Proofs.Docs.Outdent

/-
  PuppetDocs.Proofs.Docs.TagLine — the lines that open tags.

  A line opens a tag if behind its indentation stands `@` and a name, and behind that nothing or
  blanks and the content (`TagLine`, `opening_eq_some`). Both are found as the pattern says and in
  no other way: a name ends in front of the first character that no name goes on with, and no
  content begins with a blank.
-/

namespace PuppetDocs.Docs

open Text

variable {line name content : List Char}

/-! ## The pattern -/

def isNamePart (c : Char) : Bool := isWordChar c || c == '.'

/-- A letter or underscore in front of word characters and dots; a `!` can stand in front of it. -/
def IsTagName (name : List Char) : Prop := ∃ mark c part, name = mark ++ c :: part ∧ (mark = [] ∨ mark = ['!']) ∧
  isTagStart c = true ∧ ∀ d ∈ part, isNamePart d = true

/-- The line is `@` and the name, and behind blanks the content. -/
inductive TagLine (name : List Char) : List Char → List Char → Prop
  | bare : IsTagName name → TagLine name [] ('@' :: name)
  | content {gap content : List Char} : IsTagName name → gap ≠ [] → (∀ c ∈ gap, isIndent c = true) → indent content = 0 →
    TagLine name content ('@' :: (name ++ gap ++ content))

theorem isNamePart_of_isIndent {c : Char} (h : isIndent c = true) : isNamePart c = false := by
  simp only [isIndent, Bool.or_eq_true, beq_iff_eq] at h
  rcases h with rfl | rfl <;> rfl

theorem takeWhile_part {part after : List Char} (hpart : ∀ d ∈ part, isNamePart d = true)
    (hafter : ∀ d ∈ after.head?, isNamePart d = false) :
    (part ++ after).takeWhile isNamePart = part ∧ (part ++ after).dropWhile isNamePart = after := by
  rw [List.takeWhile_append_of_pos hpart, List.dropWhile_append_of_pos hpart]
  cases after with
  | nil => exact ⟨List.append_nil part, rfl⟩
  | cons d r =>
    have hd : ¬isNamePart d = true := by simp [hafter d rfl]
    rw [List.takeWhile_cons_of_neg hd, List.dropWhile_cons_of_neg hd]
    exact ⟨List.append_nil part, rfl⟩

theorem dropWhile_indent {gap content : List Char} (hgap : ∀ c ∈ gap, isIndent c = true) (hcontent : indent content = 0) :
    (gap ++ content).dropWhile isIndent = content := by
  rw [List.dropWhile_append_of_pos hgap]
  cases content with
  | nil => rfl
  | cons c r =>
    refine List.dropWhile_cons_of_neg fun hc => ?_
    rw [indent, List.takeWhile_cons_of_pos hc] at hcontent
    cases hcontent

/-- The blanks that are not ASCII. -/
def wideBlanks : List Nat :=
  [133, 160, 5760, 8192, 8193, 8194, 8195, 8196, 8197, 8198, 8199, 8200, 8201, 8202, 8232, 8233, 8239, 8287, 12288]

theorem wordRanges_wideBlanks : ∀ n ∈ wideBlanks, (wordRanges.any fun (a, b) => a ≤ n && n ≤ b) = false := by
  decide +kernel

theorem isBlank_of_isWordChar {c : Char} (h : isWordChar c = true) : isBlank c = false := by
  unfold isWordChar at h
  by_cases hascii : c.toNat < 128
  · rw [if_pos hascii] at h
    exact isBlank_of_isNameChar h
  · rw [if_neg hascii] at h
    refine Bool.eq_false_iff.mpr fun hblank => ?_
    have hmem : c.toNat ∈ wideBlanks := by
      simp only [isBlank, Bool.or_eq_true, Bool.and_eq_true, decide_eq_true_eq, beq_iff_eq] at hblank
      simp only [wideBlanks, List.mem_cons, List.not_mem_nil, or_false]
      omega
    rw [wordRanges_wideBlanks _ hmem] at h
    cases h

theorem isBlank_of_isNamePart {c : Char} (h : isNamePart c = true) : isBlank c = false := by
  rcases Bool.or_eq_true _ _ ▸ h with hword | hdot
  · exact isBlank_of_isWordChar hword
  · rw [beq_iff_eq.mp hdot]
    rfl

theorem isBlank_of_isTagStart {c : Char} (h : isTagStart c = true) : isBlank c = false := by
  refine isBlank_of_isNameChar ?_
  simp only [isTagStart, Bool.or_eq_true] at h
  rcases h with halpha | hunder
  · rw [isNameChar, Char.isAlphanum, halpha, Bool.true_or, Bool.true_or]
  · rw [isNameChar, hunder, Bool.or_true]

/-- No blank is in a name. -/
theorem IsTagName.solid (h : IsTagName name) : ∀ c ∈ name, isBlank c = false := by
  obtain ⟨mark, c, part, rfl, hmark, hc, hpart⟩ := h
  intro d hd
  rcases List.mem_append.mp hd with hd | hd
  · rcases hmark with rfl | rfl
    · cases hd
    · rw [List.mem_singleton.mp hd]
      rfl
  · rcases List.mem_cons.mp hd with rfl | hd
    · exact isBlank_of_isTagStart hc
    · exact isBlank_of_isNamePart (hpart d hd)

/-- What is found behind a name that ends in front of `after`. -/
def behindName (name after : List Char) : Option (List Char × List Char) :=
  match after with
  | [] => some (name, [])
  | b :: rest => if isIndent b then some (name, rest.dropWhile isIndent) else none

theorem tagHeader?_marked (c : Char) (r : List Char) : tagHeader? ('@' :: '!' :: c :: r) =
    if isTagStart c then behindName ('!' :: c :: r.takeWhile isNamePart) (r.dropWhile isNamePart) else none := rfl

theorem tagHeader?_plain {c : Char} (hc : c ≠ '!') (r : List Char) : tagHeader? ('@' :: c :: r) =
    if isTagStart c then behindName (c :: r.takeWhile isNamePart) (r.dropWhile isNamePart) else none := by
  unfold tagHeader?
  split
  · rename_i hat
    obtain ⟨-, rfl⟩ := List.cons.inj hat
    split
    rename_i hmark
    split at hmark
    · rename_i hbang
      exact absurd (List.cons.inj hbang).1 hc
    · cases hmark
      rfl
  · rename_i hat
    exact absurd rfl (hat _)

theorem tagHeader?_at (h : tagHeader? line = some (name, content)) : ∃ r, line = '@' :: r := by
  unfold tagHeader? at h
  split at h
  · exact ⟨_, rfl⟩
  · cases h

theorem behindName_eq_some {found after : List Char} (hafter : ∀ d ∈ after.head?, isNamePart d = false) :
    behindName name after = some (found, content) ↔ found = name ∧ (after = [] ∧ content = [] ∨
      ∃ gap, gap ≠ [] ∧ (∀ c ∈ gap, isIndent c = true) ∧ indent content = 0 ∧ after = gap ++ content) := by
  unfold behindName
  constructor
  · intro h
    split at h
    · cases h
      exact ⟨rfl, .inl ⟨rfl, rfl⟩⟩
    · rename_i b rest
      split at h
      · rename_i hb
        cases h
        obtain ⟨margin, text, hrest, -, hmargin, htext⟩ := indent_split rest
        have hdrop : rest.dropWhile isIndent = text := by rw [hrest, dropWhile_indent hmargin htext]
        refine ⟨rfl, .inr ⟨b :: margin, List.cons_ne_nil b margin, List.forall_mem_cons.mpr ⟨hb, hmargin⟩, ?_, ?_⟩⟩
        · rw [hdrop, htext]
        · rw [hdrop, List.cons_append, ← hrest]
      · cases h
  · rintro ⟨rfl, ⟨rfl, rfl⟩ | ⟨gap, hgap, hblanks, hcontent, rfl⟩⟩
    · rfl
    · obtain ⟨b, gap, rfl⟩ := List.exists_cons_of_ne_nil hgap
      obtain ⟨hb, hblanks⟩ := List.forall_mem_cons.mp hblanks
      show (if isIndent b then some (found, (gap ++ content).dropWhile isIndent) else none) = _
      rw [if_pos hb, dropWhile_indent hblanks hcontent]

/-- What opens a tag is what the pattern describes. -/
theorem tagHeader?_eq_some (line : List Char) : tagHeader? line = some (name, content) ↔ TagLine name content line := by
  have hdrop : ∀ r : List Char, ∀ d ∈ (r.dropWhile isNamePart).head?, isNamePart d = false := by
    intro r d hd
    have hhead := List.head?_dropWhile_not isNamePart r
    rw [Option.mem_def.mp hd] at hhead
    simpa using hhead
  -- behind the mark and the first character of a name
  have hread : ∀ (mark r : List Char) (c : Char), mark = [] ∨ mark = ['!'] → isTagStart c = true →
      behindName (mark ++ c :: r.takeWhile isNamePart) (r.dropWhile isNamePart) = some (name, content) →
      TagLine name content ('@' :: (mark ++ c :: r)) := by
    intro mark r c hmark hc hbehind
    obtain ⟨rfl, hcase⟩ := (behindName_eq_some (hdrop r)).mp hbehind
    have hname : IsTagName (mark ++ c :: r.takeWhile isNamePart) :=
      ⟨mark, c, _, rfl, hmark, hc, fun d hd => List.mem_takeWhile_imp hd⟩
    have hr : r = r.takeWhile isNamePart ++ r.dropWhile isNamePart := List.takeWhile_append_dropWhile.symm
    rcases hcase with ⟨hnil, rfl⟩ | ⟨gap, hgap, hblanks, hcontent, hafter⟩
    · rw [hnil, List.append_nil] at hr
      rw [← hr] at hname ⊢
      exact .bare hname
    · have hline : '@' :: (mark ++ c :: r) = '@' :: (mark ++ c :: r.takeWhile isNamePart ++ gap ++ content) := by
        conv => lhs; rw [hr, hafter]
        simp
      rw [hline]
      exact .content hname hgap hblanks hcontent
  constructor
  · intro h
    obtain ⟨r, rfl⟩ := tagHeader?_at h
    cases r with
    | nil => cases h
    | cons c r =>
      by_cases hbang : c = '!'
      · subst hbang
        cases r with
        | nil => cases h
        | cons c r =>
          rw [tagHeader?_marked] at h
          split at h
          · exact hread ['!'] r c (.inr rfl) ‹_› h
          · cases h
      · rw [tagHeader?_plain hbang] at h
        split at h
        · exact hread [] r c (.inl rfl) ‹_› h
        · cases h
  · intro h
    -- the name is taken up to what follows it, where no name goes on
    have hwrite : ∀ after : List Char, IsTagName name → (∀ d ∈ after.head?, isNamePart d = false) →
        tagHeader? ('@' :: (name ++ after)) = behindName name after := by
      rintro after ⟨mark, c, part, rfl, hmark, hc, hpart⟩ hafter
      obtain ⟨htake, hdrop⟩ := takeWhile_part hpart hafter
      rcases hmark with rfl | rfl
      · have hbang : c ≠ '!' := by
          rintro rfl
          cases hc
        rw [List.nil_append, List.cons_append, tagHeader?_plain hbang, if_pos hc, htake, hdrop]
      · rw [List.singleton_append, List.cons_append, List.cons_append, tagHeader?_marked, if_pos hc, htake, hdrop]
    cases h with
    | bare hname =>
      have hfound := hwrite [] hname nofun
      rwa [List.append_nil] at hfound
    | @content gap _ hname hgap hblanks hcontent =>
      obtain ⟨b, gap, rfl⟩ := List.exists_cons_of_ne_nil hgap
      have hafter : ∀ d ∈ (b :: gap ++ content).head?, isNamePart d = false := by
        intro d hd
        cases hd
        exact isNamePart_of_isIndent (hblanks b List.mem_cons_self)
      rw [List.append_assoc, hwrite _ hname hafter]
      exact (behindName_eq_some hafter).mpr ⟨rfl, .inr ⟨b :: gap, hgap, hblanks, hcontent, rfl⟩⟩

/-! ## Behind the indentation -/

/-- The name and the content of a line that opens a tag, whatever its indentation. -/
def opening (line : List Char) : Option (List Char × List Char) := tagHeader? (line.drop (indent line))

theorem opening_append {margin : List Char} (h : ∀ c ∈ margin, isIndent c = true) (line : List Char) :
    opening (margin ++ line) = opening line := by
  rw [opening, opening, indent_append h, List.drop_length_add_append]

theorem opening_margin {margin text : List Char} (hmargin : ∀ c ∈ margin, isIndent c = true) (htext : indent text = 0) :
    opening (margin ++ text) = tagHeader? text := by
  rw [opening_append hmargin, opening, htext, List.drop_zero]

theorem TagLine.indent (h : TagLine name content line) : indent line = 0 := by
  cases h <;> rfl

theorem opening_eq_some (line : List Char) : opening line = some (name, content) ↔
    ∃ margin text, line = margin ++ text ∧ (∀ c ∈ margin, isIndent c = true) ∧ TagLine name content text := by
  constructor
  · intro h
    obtain ⟨margin, text, rfl, -, hmargin, htext⟩ := indent_split line
    rw [opening_margin hmargin htext] at h
    exact ⟨margin, text, rfl, hmargin, (tagHeader?_eq_some text).mp h⟩
  · rintro ⟨margin, text, rfl, hmargin, htext⟩
    rw [opening_margin hmargin htext.indent]
    exact (tagHeader?_eq_some text).mpr htext

theorem opening_content (h : opening line = some (name, content)) : allBlank line = false := by
  obtain ⟨margin, text, rfl, -, htext⟩ := (opening_eq_some line).mp h
  have hat : isBlank '@' = false := rfl
  refine allBlank_of_mem_false hat (List.mem_append_right margin ?_)
  cases htext <;> exact List.mem_cons_self

/-- What a line opens does not depend on how far it is outdented. -/
theorem opening_outdent (n : Nat) (line : List Char) : opening (outdent n line) = opening (trimEnd line) := by
  cases hline : allBlank line with
  | true => rw [outdent_of_allBlank hline, trimEnd_of_allBlank hline]
  | false =>
    obtain ⟨margin, htrim, -, hmargin⟩ := trimEnd_eq_outdent hline n
    rw [htrim, opening_append hmargin]

/-- A line with a name and content opens the tag, with the content but for the blanks around it. -/
theorem opening_line (hname : IsTagName name) (written : List Char) :
    ∃ content, opening (trimEnd ('@' :: (name ++ ' ' :: written))) = some (name, content) ∧ trim content = trim written := by
  have hline : '@' :: (name ++ ' ' :: written) = ('@' :: name) ++ ' ' :: written := rfl
  cases hwritten : allBlank written with
  | true =>
    have hblank : allBlank (' ' :: written) = true := hwritten
    have hsolid : Solid ('@' :: name) := by
      intro c hc
      rcases List.mem_cons.mp (List.mem_of_getLast? hc) with rfl | hmem
      · rfl
      · exact hname.solid c hmem
    refine ⟨[], ?_, ?_⟩
    · rw [hline, trimEnd_append_blank _ hblank, hsolid.trimEnd]
      exact (opening_eq_some _).mpr ⟨[], _, rfl, List.forall_mem_nil _, .bare hname⟩
    · rw [(trim_eq_nil_iff _).mpr hwritten]
      rfl
  | false =>
    obtain ⟨margin, text, hsplit, -, hmargin, htext⟩ := indent_split written
    have hfilled : allBlank text = false := by
      rw [hsplit, allBlank_append, allBlank_indent hmargin, Bool.true_and] at hwritten
      exact hwritten
    have hgap : ∀ c ∈ ' ' :: margin, isIndent c = true := List.forall_mem_cons.mpr ⟨rfl, hmargin⟩
    refine ⟨trimEnd text, ?_, ?_⟩
    · have htrim : trimEnd ('@' :: (name ++ ' ' :: written)) = '@' :: (name ++ ' ' :: margin ++ trimEnd text) := by
        rw [hline, hsplit, ← List.cons_append, ← List.append_assoc, trimEnd_append_content _ hfilled]
        rfl
      rw [htrim]
      exact (opening_eq_some _).mpr
        ⟨[], _, rfl, List.forall_mem_nil _, .content hname (List.cons_ne_nil _ _) hgap ((indent_trimEnd hfilled).trans htext)⟩
    · rw [trim_trimEnd, hsplit, trim, trim, trimStart_append_blank (allBlank_indent hmargin)]

end PuppetDocs.Docs
