import PuppetDocs.Proofs.Text.Trim
import PuppetDocs.Text.Lines

/-
  PuppetDocs.Proofs.Text.Lines — the lines of a text, and texts put together from lines.

  Trimming keeps what stands between content (`trim_between`), so a line feed that it leaves has
  content in front of it and behind it (`mem_trim_of_blank`).

  The lines in front of a line feed and those behind it are found apart from each other
  (`lines_append`), so a fact about the lines of every text is an induction on its lines
  (`line_induction`). Lines without a line feed and without a carriage return at their end are
  found again in the text that joins them, if the last of them is not empty (`lines_joinLines`).

  The last of some written lines need not end with a line feed: then nothing follows it. Otherwise
  any text may stand behind the line feed (`Remainder`).
-/

namespace PuppetDocs.Text

variable {a b cs line : List Char} {ls : List (List Char)} {c : Char}

/-! ## Content -/

theorem allBlank_append : allBlank (a ++ b) = (allBlank a && allBlank b) := List.all_append

theorem allBlank_reverse (cs : List Char) : allBlank cs.reverse = allBlank cs := List.all_reverse

theorem allBlank_trimStart (cs : List Char) : allBlank (trimStart cs) = allBlank cs := by
  have hfront : allBlank (cs.takeWhile isBlank) = true := List.all_takeWhile
  calc allBlank (trimStart cs) = (allBlank (cs.takeWhile isBlank) && allBlank (cs.dropWhile isBlank)) := by
        rw [hfront, Bool.true_and, trimStart]
    _ = allBlank cs := by rw [← allBlank_append, List.takeWhile_append_dropWhile]

theorem trimStart_of_allBlank (h : allBlank cs = true) : trimStart cs = [] :=
  List.dropWhile_eq_nil_iff.mpr (List.all_eq_true.mp h)

theorem trimStart_append_blank (h : allBlank a = true) (b : List Char) : trimStart (a ++ b) = trimStart b :=
  List.dropWhile_append_of_pos (List.all_eq_true.mp h)

theorem trimStart_append_content (h : allBlank a = false) (b : List Char) : trimStart (a ++ b) = trimStart a ++ b := by
  rw [trimStart, List.dropWhile_append, if_neg]
  · rfl
  · intro hempty
    have hblank : allBlank a = true := List.all_eq_true.mpr (List.dropWhile_eq_nil_iff.mp (List.isEmpty_iff.mp hempty))
    rw [h] at hblank
    cases hblank

theorem trimStart_of_head (h : ∀ c ∈ cs.head?, isBlank c = false) : trimStart cs = cs := by
  cases cs with
  | nil => rfl
  | cons c r => exact List.dropWhile_cons_of_neg (by simp [h c rfl])

/-! ## The end of a text -/

theorem trimEnd_reverse (cs : List Char) : trimEnd cs = (trimStart cs.reverse).reverse := rfl

theorem trimEnd_of_allBlank (h : allBlank cs = true) : trimEnd cs = [] := by
  rw [trimEnd_reverse, trimStart_of_allBlank (by rwa [allBlank_reverse])]
  rfl

theorem trimEnd_append_blank (a : List Char) (h : allBlank b = true) : trimEnd (a ++ b) = trimEnd a :=
  dropEndWhile_append (List.all_eq_true.mp h)

theorem trimEnd_append_content (a : List Char) (h : allBlank b = false) : trimEnd (a ++ b) = a ++ trimEnd b := by
  obtain ⟨c, hc, hcontent⟩ := List.all_eq_false.mp h
  exact dropEndWhile_append_of_mem a ⟨c, hc, Bool.eq_false_iff.mpr hcontent⟩

theorem allBlank_trimEnd (cs : List Char) : allBlank (trimEnd cs) = allBlank cs := by
  rw [trimEnd_reverse, allBlank_reverse, allBlank_trimStart, allBlank_reverse]

/-- The text does not end with a blank. -/
def Solid (cs : List Char) : Prop := ∀ c ∈ cs.getLast?, isBlank c = false

theorem solid_trimEnd (cs : List Char) : Solid (trimEnd cs) := last_dropEndWhile isBlank cs

theorem Solid.trimEnd (h : Solid cs) : trimEnd cs = cs := dropEndWhile_of_last h

theorem Solid.eq_nil (h : Solid cs) (hblank : allBlank cs = true) : cs = [] := by
  rw [← h.trimEnd, trimEnd_of_allBlank hblank]

theorem Solid.trimStart (h : Solid cs) : Solid (trimStart cs) := by
  have hsplit : cs = cs.takeWhile isBlank ++ Text.trimStart cs := List.takeWhile_append_dropWhile.symm
  intro c hc
  refine h c ?_
  rw [hsplit, List.getLast?_append, Option.mem_def.mp hc]
  rfl

/-! ## Both ends -/

/-- What stands between content is not trimmed off. -/
theorem trim_between (ha : allBlank a = false) (hb : allBlank b = false) :
    trim (a ++ c :: b) = trimStart a ++ c :: trimEnd b := by
  have hback : allBlank (c :: b) = false := by
    rw [← List.singleton_append, allBlank_append, hb, Bool.and_false]
  have hend : trimEnd (c :: b) = c :: trimEnd b := trimEnd_append_content [c] hb
  rw [trim, trimStart_append_content ha, trimEnd_append_content _ hback, hend]

theorem trim_split (cs : List Char) :
    ∃ front back, cs = front ++ trim cs ++ back ∧ allBlank front = true ∧ allBlank back = true := by
  obtain ⟨back, hback, hblank⟩ := dropEndWhile_split isBlank (trimStart cs)
  refine ⟨cs.takeWhile isBlank, back, ?_, List.all_takeWhile, List.all_eq_true.mpr hblank⟩
  rw [List.append_assoc, trim, trimEnd, ← hback, trimStart, List.takeWhile_append_dropWhile]

theorem head_trim (cs : List Char) : ∀ c ∈ (trim cs).head?, isBlank c = false := by
  intro d hd
  have hstart := List.head?_dropWhile_not isBlank cs
  rw [trim, trimStart] at hd
  cases hcs : cs.dropWhile isBlank with
  | nil =>
    rw [hcs] at hd
    cases hd
  | cons c r =>
    have hc : isBlank c = false := by
      rw [hcs] at hstart
      simpa using hstart
    have hend : trimEnd (c :: r) = c :: trimEnd r := by
      by_cases hr : allBlank r = true
      · rw [← List.singleton_append, trimEnd_append_blank [c] hr, trimEnd_of_allBlank hr]
        exact Solid.trimEnd fun d hd => by
          cases hd
          exact hc
      · exact trimEnd_append_content [c] (Bool.eq_false_iff.mpr hr)
    rw [hcs, hend] at hd
    cases hd
    exact hc

theorem trim_trim (cs : List Char) : trim (trim cs) = trim cs := by
  have hend : Solid (trim cs) := solid_trimEnd (trimStart cs)
  conv => lhs; rw [trim, trimStart_of_head (head_trim cs)]
  exact hend.trimEnd

theorem trim_trimEnd (cs : List Char) : trim (trimEnd cs) = trim cs := by
  obtain ⟨back, hsplit, hback⟩ := dropEndWhile_split isBlank cs
  have htrim : trim (trimEnd cs ++ back) = trim (trimEnd cs) := trim_append hback
  rw [← htrim, trimEnd, ← hsplit]

theorem trim_eq_nil_iff (cs : List Char) : trim cs = [] ↔ allBlank cs = true := by
  rw [← allBlank_trimStart, ← allBlank_trimEnd, ← trim]
  exact ⟨fun h => by rw [h]; rfl, fun h => (solid_trimEnd _).eq_nil h⟩

theorem allBlank_of_mem_false (hc : isBlank c = false) (h : c ∈ cs) : allBlank cs = false := by
  refine Bool.eq_false_iff.mpr fun hall => ?_
  rw [List.all_eq_true.mp hall c h] at hc
  cases hc

/-- A blank that trimming leaves stands between content. -/
theorem mem_trim_of_blank (hc : isBlank c = true) (h : c ∈ trim cs) :
    ∃ a b, cs = a ++ c :: b ∧ allBlank a = false ∧ allBlank b = false := by
  obtain ⟨front, back, hsplit, -, -⟩ := trim_split cs
  obtain ⟨u, v, huv⟩ := List.append_of_mem h
  have hfirst := head_trim cs
  have hlast : Solid (trim cs) := solid_trimEnd (trimStart cs)
  rw [huv] at hfirst hsplit
  rw [huv, Solid] at hlast
  refine ⟨front ++ u, v ++ back, by rw [hsplit]; simp, ?_, ?_⟩
  · cases u with
    | nil =>
      rw [hfirst c rfl] at hc
      cases hc
    | cons x u => exact allBlank_of_mem_false (hfirst x rfl) (by simp)
  · rcases List.eq_nil_or_concat v with rfl | ⟨w, x, rfl⟩
    · rw [hlast c (by simp)] at hc
      cases hc
    · rw [List.concat_eq_append, ← List.cons_append, ← List.append_assoc, List.getLast?_concat] at hlast
      exact allBlank_of_mem_false (hlast x rfl) (by simp)

/-! ## Lines -/

theorem splitBy_eq (p : Char → Bool) (cs : List Char) : splitBy p cs = cs.splitOnP p := by
  induction cs with
  | nil => rfl
  | cons c r ih =>
    rw [splitBy, List.splitOnP_cons_eq_if_modifyHead, ih]
    split
    · rfl
    · obtain ⟨piece, pieces, hpieces⟩ := List.exists_cons_of_ne_nil (List.splitOnP_ne_nil p r)
      rw [hpieces]
      rfl

theorem splitBy_ne_nil (p : Char → Bool) (cs : List Char) : splitBy p cs ≠ [] := by
  rw [splitBy_eq]
  exact List.splitOnP_ne_nil p cs

/-- In front of a line feed are whole lines. -/
theorem lines_append (a b : List Char) : lines (a ++ '\n' :: b) = lines (a ++ ['\n']) ++ lines b := by
  have hsplit : ∀ r, splitBy (· = '\n') (a ++ '\n' :: r) = splitBy (· = '\n') a ++ splitBy (· = '\n') r := by
    intro r
    simp only [splitBy_eq]
    exact List.splitOnP_append_cons a r rfl
  have hne := splitBy_ne_nil (· = '\n') b
  have hlast : (splitBy (· = '\n') a ++ splitBy (· = '\n') b).getLast? = (splitBy (· = '\n') b).getLast? := by
    rw [List.getLast?_append, List.getLast?_eq_some_getLast hne, Option.some_or]
  have hend : splitBy (· = '\n') [] = [[]] := rfl
  simp only [lines, hsplit, hlast, hend, List.dropLast_append_of_ne_nil hne, List.getLast?_concat, List.dropLast_concat,
    List.map_append]
  split
  · rfl
  · rw [List.append_assoc]
  · rfl

theorem lines_whole (h : '\n' ∉ cs) (hne : cs ≠ []) : lines cs = [cs] := by
  have hsplit : splitBy (· = '\n') cs = [cs] := by
    rw [splitBy_eq]
    refine List.splitOnP_eq_singleton fun c hc => ?_
    have hnewline : c ≠ '\n' := fun heq => h (heq ▸ hc)
    simp [hnewline]
  rw [lines, hsplit]
  cases cs with
  | nil => exact absurd rfl hne
  | cons c r => rfl

theorem lines_cons (h : '\n' ∉ line) (b : List Char) : lines (line ++ '\n' :: b) = dropOneReturn line :: lines b := by
  have hsplit : splitBy (· = '\n') (line ++ ['\n']) = [line, []] := by
    rw [splitBy_eq]
    refine List.splitOnP_append_cons_of_forall_mem (fun c hc => ?_) _ rfl []
    have hnewline : c ≠ '\n' := fun heq => h (heq ▸ hc)
    simp [hnewline]
  rw [lines_append, lines, hsplit]
  rfl

/-- Every text is empty, a line without an ending, or a line in front of a text. -/
theorem line_induction {P : List Char → Prop} (nil : P []) (last : ∀ line, line ≠ [] → '\n' ∉ line → P line)
    (cons : ∀ line rest, '\n' ∉ line → P rest → P (line ++ '\n' :: rest)) (cs : List Char) : P cs := by
  induction hn : cs.count '\n' generalizing cs with
  | zero =>
    by_cases hcs : cs = []
    · exact hcs ▸ nil
    · exact last cs hcs (List.count_eq_zero.mp hn)
  | succ n ih =>
    have hmem : '\n' ∈ cs := List.count_pos_iff.mp (by omega)
    obtain ⟨line, rest, rfl, hline⟩ := List.eq_append_cons_of_mem hmem
    refine cons line rest hline (ih rest ?_)
    rw [List.count_append, List.count_cons_self, List.count_eq_zero.mpr hline] at hn
    omega

theorem dropOneReturn_cases (line : List Char) :
    dropOneReturn line = line ∨ line = dropOneReturn line ++ ['\r'] := by
  rcases List.eq_nil_or_concat line with rfl | ⟨front, c, rfl⟩
  · exact .inl rfl
  · by_cases hc : c = '\r'
    · refine .inr ?_
      simp [dropOneReturn, hc]
    · refine .inl ?_
      unfold dropOneReturn
      split
      · rename_i heq
        rw [List.concat_eq_append, List.reverse_append] at heq
        exact absurd (List.cons.inj heq).1 hc
      · rfl

theorem dropOneReturn_sublist (line : List Char) : (dropOneReturn line).Sublist line := by
  rcases dropOneReturn_cases line with h | h
  · simp only [h, List.Sublist.refl]
  · conv => rhs; rw [h]
    exact List.sublist_append_left _ _

theorem allBlank_dropOneReturn (line : List Char) : allBlank (dropOneReturn line) = allBlank line := by
  rcases dropOneReturn_cases line with h | h
  · rw [h]
  · conv => rhs; rw [h, allBlank_append]
    exact (Bool.and_true _).symm

theorem trimEnd_dropOneReturn (line : List Char) : trimEnd (dropOneReturn line) = trimEnd line := by
  rcases dropOneReturn_cases line with h | h
  · rw [h]
  · have hreturn : allBlank ['\r'] = true := rfl
    conv => rhs; rw [h, trimEnd_append_blank _ hreturn]

theorem newline_not_mem_lines (cs : List Char) : ∀ line ∈ lines cs, '\n' ∉ line := by
  induction cs using line_induction with
  | nil => nofun
  | last line hne hline =>
    rw [lines_whole hline hne]
    exact List.forall_mem_singleton.mpr hline
  | cons line rest hline ih =>
    rw [lines_cons hline]
    exact List.forall_mem_cons.mpr ⟨fun hmem => hline ((dropOneReturn_sublist line).subset hmem), ih⟩

/-- A text with content has a line with content. -/
theorem exists_line (h : allBlank cs = false) : ∃ line ∈ lines cs, allBlank line = false := by
  induction cs using line_induction with
  | nil => cases h
  | last line hne hline =>
    rw [lines_whole hline hne]
    exact ⟨line, List.mem_cons_self, h⟩
  | cons line rest hline ih =>
    rw [lines_cons hline]
    by_cases hblank : allBlank line = true
    · have hrest : allBlank rest = false := by
        rw [allBlank_append, hblank, Bool.true_and] at h
        exact h
      obtain ⟨other, hmem, hother⟩ := ih hrest
      exact ⟨other, List.mem_cons_of_mem _ hmem, hother⟩
    · exact ⟨_, List.mem_cons_self, (allBlank_dropOneReturn line).trans (Bool.eq_false_iff.mpr hblank)⟩

/-! ## Joined lines -/

theorem joinLines_cons (line : List Char) (h : ls ≠ []) : joinLines (line :: ls) = line ++ '\n' :: joinLines ls := by
  obtain ⟨next, rest, rfl⟩ := List.exists_cons_of_ne_nil h
  rw [joinLines, List.intercalate_cons_cons, List.append_assoc]
  rfl

/-- The line is found again behind a line feed and in front of one. -/
def IsWhole (line : List Char) : Prop := '\n' ∉ line ∧ line.getLast? ≠ some '\r'

theorem Solid.isWhole (h : Solid line) (hline : '\n' ∉ line) : IsWhole line := by
  refine ⟨hline, fun hreturn => ?_⟩
  have hblank := h '\r' hreturn
  cases hblank

theorem IsWhole.dropOneReturn (h : IsWhole line) : dropOneReturn line = line := by
  rcases dropOneReturn_cases line with heq | heq
  · exact heq
  · exact absurd (by rw [heq, List.getLast?_concat]) h.2

theorem lines_joinLines (h : ∀ line ∈ ls, IsWhole line) (hlast : ls.getLast? ≠ some []) : lines (joinLines ls) = ls := by
  induction ls with
  | nil => rfl
  | cons line ls ih =>
    obtain ⟨hline, hls⟩ := List.forall_mem_cons.mp h
    by_cases hnil : ls = []
    · subst hnil
      have hjoin : joinLines [line] = line := List.intercalate_singleton
      rw [hjoin]
      exact lines_whole hline.1 fun heq => hlast (by rw [heq]; rfl)
    · rw [joinLines_cons line hnil, lines_cons hline.1, hline.dropOneReturn, ih hls]
      rwa [List.getLast?_cons_of_ne_nil hnil] at hlast

/-- But for what is trimmed off their ends, joined lines are found again. -/
theorem trimEnd_lines_joinLines (h : ∀ line ∈ ls, '\n' ∉ line) (hlast : ls.getLast? ≠ some []) :
    (lines (joinLines ls)).map trimEnd = ls.map trimEnd := by
  induction ls with
  | nil => rfl
  | cons line ls ih =>
    obtain ⟨hline, hls⟩ := List.forall_mem_cons.mp h
    by_cases hnil : ls = []
    · subst hnil
      have hjoin : joinLines [line] = line := List.intercalate_singleton
      rw [hjoin, lines_whole hline fun heq => hlast (by rw [heq]; rfl)]
    · rw [List.getLast?_cons_of_ne_nil hnil] at hlast
      rw [joinLines_cons line hnil, lines_cons hline, List.map_cons, List.map_cons, trimEnd_dropOneReturn, ih hls hlast]

/-- Trimming the start drops the blank lines in front, and the blanks in front of the first line behind them. -/
theorem trimStart_joinLines (ls : List (List Char)) :
    trimStart (joinLines ls) = joinLines ((ls.dropWhile allBlank).modifyHead trimStart) := by
  induction ls with
  | nil => rfl
  | cons line ls ih =>
    by_cases hnil : ls = []
    · subst hnil
      by_cases hline : allBlank line = true
      · rw [List.dropWhile_cons_of_pos hline, joinLines, List.intercalate_singleton, trimStart_of_allBlank hline]
        rfl
      · rw [List.dropWhile_cons_of_neg hline, List.modifyHead_cons, joinLines, joinLines, List.intercalate_singleton,
          List.intercalate_singleton]
    · rw [joinLines_cons line hnil]
      by_cases hline : allBlank line = true
      · have hblank : allBlank (line ++ ['\n']) = true := by rw [allBlank_append, hline]; rfl
        rw [List.dropWhile_cons_of_pos hline, ← List.singleton_append, ← List.append_assoc,
          trimStart_append_blank hblank, ih]
      · rw [List.dropWhile_cons_of_neg hline, List.modifyHead_cons, joinLines_cons _ hnil,
          trimStart_append_content (Bool.eq_false_iff.mpr hline)]

theorem allBlank_joinLines : allBlank (joinLines ls) = true ↔ ∀ line ∈ ls, allBlank line = true := by
  induction ls with
  | nil => exact ⟨fun _ => nofun, fun _ => rfl⟩
  | cons line ls ih =>
    by_cases hnil : ls = []
    · subst hnil
      simp [joinLines]
    · have hnewline : allBlank ('\n' :: joinLines ls) = allBlank (joinLines ls) := rfl
      rw [joinLines_cons line hnil, allBlank_append, Bool.and_eq_true, hnewline, ih, List.forall_mem_cons]

/-- Trimming the end of solid lines drops the blank lines there. -/
theorem trimEnd_joinLines (h : ∀ line ∈ ls, Solid line) :
    trimEnd (joinLines ls) = joinLines (dropEndWhile allBlank ls) := by
  induction ls with
  | nil => rfl
  | cons line ls ih =>
    obtain ⟨hline, hls⟩ := List.forall_mem_cons.mp h
    by_cases hblank : ∀ l ∈ ls, allBlank l = true
    · have hend : dropEndWhile allBlank ([line] ++ ls) = dropEndWhile allBlank [line] := dropEndWhile_append hblank
      have hjoin : trimEnd (joinLines (line :: ls)) = line := by
        by_cases hnil : ls = []
        · rw [hnil, joinLines, List.intercalate_singleton, hline.trimEnd]
        · have hbelow : allBlank ('\n' :: joinLines ls) = true := by
            rw [← List.singleton_append, allBlank_append, allBlank_joinLines.mpr hblank]
            rfl
          rw [joinLines_cons line hnil, trimEnd_append_blank line hbelow, hline.trimEnd]
      rw [hjoin, ← List.singleton_append, hend]
      by_cases hempty : allBlank line = true
      · rw [hline.eq_nil hempty]
        rfl
      · rw [dropEndWhile_of_last (by simpa using hempty), joinLines, List.intercalate_singleton]
    · obtain ⟨l, hl, hcontent⟩ : ∃ l ∈ ls, allBlank l = false := by simpa using hblank
      have hjoined : allBlank (joinLines ls) = false :=
        Bool.eq_false_iff.mpr fun hall => hblank (allBlank_joinLines.mp hall)
      have hbelow : allBlank ('\n' :: joinLines ls) = false := by
        rw [← List.singleton_append, allBlank_append, hjoined, Bool.and_false]
      have hend : trimEnd ('\n' :: joinLines ls) = '\n' :: trimEnd (joinLines ls) := trimEnd_append_content ['\n'] hjoined
      have hkept : dropEndWhile allBlank (line :: ls) = line :: dropEndWhile allBlank ls :=
        dropEndWhile_append_of_mem [line] ⟨l, hl, hcontent⟩
      have hne : dropEndWhile allBlank ls ≠ [] := by
        obtain ⟨back, hsplit, hback⟩ := dropEndWhile_split allBlank ls
        intro hnil
        rw [hnil, List.nil_append] at hsplit
        exact hblank (hsplit ▸ hback)
      rw [joinLines_cons line (List.ne_nil_of_mem hl), trimEnd_append_content line hbelow, hend, ih hls, hkept,
        joinLines_cons line hne]

end PuppetDocs.Text

namespace PuppetDocs

/-! ## Behind the last line -/

/-- The end of the text, or a line feed and more text. -/
inductive Remainder where
  | none
  | below (text : List Char)

namespace Remainder

def feed : Remainder → List Char
  | none => []
  | below _ => ['\n']

def text : Remainder → List Char
  | none => []
  | below text => text

theorem feed_cases (r : Remainder) : r.feed = ['\n'] ∨ r.feed = [] ∧ r.text = [] := by
  cases r with
  | none => exact .inr ⟨rfl, rfl⟩
  | below text => exact .inl rfl

end Remainder

end PuppetDocs
