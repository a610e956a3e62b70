import PuppetDocs.Proofs.Comments.Blocks
import PuppetDocs.Proofs.Manifest.Coverage
import PuppetDocs.Proofs.Manifest.Order
import PuppetDocs.Proofs.Tree.Order

/-
  PuppetDocs.Proofs.Comments.Places — the comments of a file, and the blocks they make.

  A comment runs from its `#` to the end of its line, so at most one comment starts in a line,
  and the comments that a scanner collects stand on ascending lines. This is the invariant of
  both walks (`Reading.Noted`): the comment found last lies on a line further up, or the line
  ends right here. Nothing else about a step matters, whatever strings, documents and heredocs
  it takes in one piece, so a scanner only has to say which of its steps find a comment
  (`Ruby.Found.noted`, `Manifest.Found.noted`).

  `SyntaxTree.parse_comments` puts the places of the comments together with the blocks.
-/

namespace PuppetDocs

open Text (byteLength run)
open Ruby (AtLineStart)

/-- The comment is a `#` of the text with what follows it in its line; `lead` stands in front of it there. Its text
leaves out one space behind the `#` and the blanks at the end. -/
def Comment.Stands (c : Comment) (text : List Char) : Prop :=
  ∃ above lead body below, text = above ++ lead ++ '#' :: body ++ below ∧
    AtLineStart above ∧ '\n' ∉ lead ∧ '\n' ∉ body ∧ (below = [] ∨ ['\n'] <+: below) ∧
    c.line = above.count '\n' + 1 ∧ (c.ownLine = true ↔ ∀ x ∈ lead, Text.isBlank x = true) ∧
    c.text = String.ofList (Text.trimEnd ((Text.after? [' '] body).getD body))

/-! ## What is known behind each comment -/

section Noted

variable {κ : Type}

/-- Behind `before` the comments found so far stand on ascending lines, the latest first; if one of them stands on this
line, the line ends here. -/
structure Reading.Noted (r : Reading κ) (before rest : List Char) : Prop where
  behind : r.behind = before.reverse
  offset : r.offset = byteLength before
  stands : ∀ c ∈ r.comments, c.Stands (before ++ rest)
  descending : Comment.Descending r.comments
  above : ∀ c ∈ r.comments,
    c.line ≤ before.count '\n' ∨ c.line = before.count '\n' + 1 ∧ (rest = [] ∨ ['\n'] <+: rest)

/-- The beginning of a line in front of a place, and what stands in the line up to there. -/
theorem line_split (before : List Char) :
    ∃ above lead, before = above ++ lead ∧ AtLineStart above ∧ '\n' ∉ lead ∧
      before.reverse.takeWhile (· ≠ '\n') = lead.reverse := by
  refine ⟨(before.reverse.dropWhile (· ≠ '\n')).reverse, (before.reverse.takeWhile (· ≠ '\n')).reverse, ?_, ?_, ?_,
    (List.reverse_reverse _).symm⟩
  · rw [← List.reverse_append, List.takeWhile_append_dropWhile, List.reverse_reverse]
  · cases hd : before.reverse.dropWhile (· ≠ '\n') with
    | nil => exact .inl rfl
    | cons c cs =>
      have hc := List.head?_dropWhile_not (· ≠ '\n') before.reverse
      rw [hd] at hc
      have hline : c = '\n' := by simpa using hc
      exact .inr ⟨cs.reverse, by rw [hline, List.reverse_cons]⟩
  · intro hmem
    simpa using List.mem_takeWhile_imp (List.mem_reverse.mp hmem)

/-- A comment that begins at a `#` stands there. -/
theorem stands_comment {r : Reading κ} {before body below : List Char} (hbehind : r.behind = before.reverse)
    (hoffset : r.offset = byteLength before) (hbody : '\n' ∉ body) (hbelow : below = [] ∨ ['\n'] <+: below) :
    let c := r.comment (.ofText (before ++ '#' :: body ++ below)) ('#' :: body)
    c.line = before.count '\n' + 1 ∧ c.Stands (before ++ '#' :: body ++ below) := by
  have hline : (LineIndex.ofText (before ++ '#' :: body ++ below)).line r.offset = before.count '\n' + 1 := by
    rw [hoffset, List.append_assoc, LineIndex.line_eq_count]
  obtain ⟨above, lead, rfl, habove, hlead, htake⟩ := line_split before
  refine ⟨hline, above, lead, body, below, rfl, habove, hlead, hbody, hbelow, ?_, ?_, rfl⟩
  · show LineIndex.line _ _ = _
    rw [hline, List.count_append, List.count_eq_zero.mpr hlead, Nat.add_zero]
  · show Reading.aloneOnLine r = true ↔ _
    rw [Reading.aloneOnLine, hbehind, htake, Text.allBlank, List.all_reverse, List.all_eq_true]

namespace Reading.Noted

variable {r r' : Reading κ} {before rest : List Char}

theorem start (text : List Char) : Noted ({} : Reading κ) [] text := ⟨rfl, rfl, nofun, .nil, nofun⟩

/-- What is passed over without a comment. -/
theorem pass (h : r.Noted before rest) {n : Nat} (hpos : 0 < n) (hle : n ≤ rest.length)
    (hbehind : r'.behind = r.behind) (hoffset : r'.offset = r.offset) (hcomments : r'.comments = r.comments) :
    (r'.skip (rest.take n)).Noted (before ++ rest.take n) (rest.drop n) where
  behind := by simp [hbehind, h.behind]
  offset := by simp [hoffset, h.offset]
  stands := by
    rw [skip_comments, hcomments, List.append_assoc, List.take_append_drop]
    exact h.stands
  descending := by
    rw [skip_comments, hcomments]
    exact h.descending
  above := by
    rw [skip_comments, hcomments]
    intro c hc
    rw [List.count_append]
    rcases h.above c hc with habove | ⟨hline, rfl | ⟨below, rfl⟩⟩
    · omega
    · simp only [List.length_nil] at hle
      omega
    · -- The first character passed is the line feed.
      obtain ⟨m, rfl⟩ := Nat.exists_eq_succ_of_ne_zero (Nat.ne_of_gt hpos)
      simp only [Nat.succ_eq_add_one, List.singleton_append, List.take_succ_cons, List.count_cons_self]
      omega

/-- A comment behind the blanks `gap`. -/
theorem comment (h : r.Noted before rest) (r' : Reading κ) {gap cs : List Char} (hrest : rest = gap ++ '#' :: cs)
    (hbehind : r'.behind = r.behind) (hoffset : r'.offset = r.offset)
    (hcomments : r'.comments =
      (r.skip gap).comment (.ofText (before ++ rest)) ('#' :: cs.takeWhile (· != '\n')) :: r.comments) :
    (r'.skip (rest.take (gap.length + (1 + run (· != '\n') cs)))).Noted
      (before ++ rest.take (gap.length + (1 + run (· != '\n') cs)))
      (rest.drop (gap.length + (1 + run (· != '\n') cs))) := by
  have hbody : '\n' ∉ cs.takeWhile (· != '\n') := fun hmem => by simpa using List.mem_takeWhile_imp hmem
  have hbelow := Manifest.dropWhile_line cs
  have htake : rest.take (gap.length + (1 + run (· != '\n') cs)) = gap ++ '#' :: cs.takeWhile (· != '\n') := by
    rw [hrest, List.take_length_add_append, Ruby.take_comment]
  have hdrop : rest.drop (gap.length + (1 + run (· != '\n') cs)) = cs.dropWhile (· != '\n') := by
    rw [hrest, List.drop_length_add_append, Nat.add_comm 1, List.drop_succ_cons, Ruby.drop_run]
  have htext : before ++ rest = before ++ gap ++ '#' :: cs.takeWhile (· != '\n') ++ cs.dropWhile (· != '\n') := by
    rw [hrest, List.append_assoc, List.append_assoc, List.cons_append, List.takeWhile_append_dropWhile]
  have hplace : (r.skip gap).behind = (before ++ gap).reverse ∧ (r.skip gap).offset = byteLength (before ++ gap) := by
    simp [h.behind, h.offset]
  obtain ⟨hline, hstands⟩ := stands_comment hplace.1 hplace.2 hbody hbelow
  rw [← htext] at hline hstands
  have hcount : (before ++ (gap ++ '#' :: cs.takeWhile (· != '\n'))).count '\n' = (before ++ gap).count '\n' := by
    simp [List.count_eq_zero.mpr hbody]
  -- A comment further up in this line would have ended it before the `#`.
  have hupper : ∀ c ∈ r.comments, c.line ≤ (before ++ gap).count '\n' := by
    intro c hc
    rw [List.count_append]
    rcases h.above c hc with habove | ⟨habove, hend | ⟨below, hend⟩⟩
    · omega
    · rw [hend] at hrest
      simp at hrest
    · rw [hrest] at hend
      rcases gap with _ | ⟨d, gap⟩
      · cases hend
      · obtain ⟨rfl, -⟩ := List.cons.inj hend
        rw [List.count_cons_self]
        omega
  rw [htake, hdrop]
  refine ⟨by simp [hbehind, h.behind], by simp [hoffset, h.offset], ?_, ?_, ?_⟩
  · rw [skip_comments, hcomments, ← List.append_assoc, ← htext]
    exact List.forall_mem_cons.mpr ⟨hstands, h.stands⟩
  · rw [skip_comments, hcomments]
    refine List.pairwise_cons.mpr ⟨fun c hc => ?_, h.descending⟩
    have := hupper c hc
    omega
  · rw [skip_comments, hcomments, hcount]
    exact List.forall_mem_cons.mpr ⟨.inr ⟨hline, hbelow⟩, fun c hc => .inl (hupper c hc)⟩

end Reading.Noted

end Noted

/-! ## The two scanners -/

namespace Ruby

theorem Found.noted {s s' : Scanner} {before rest : List Char} {n : Nat}
    (hf : Found (.ofText (before ++ rest)) s rest s' n) (h : s.reading.Noted before rest) :
    (s'.pass (rest.take n)).reading.Noted (before ++ rest.take n) (rest.drop n) := by
  have hwidth := hf.width
  have hgap : (rest.take (blanks rest)).length = blanks rest := List.length_take_of_le (blanks_le rest)
  cases hf with
  | document | token | newline => exact h.pass hwidth.1 hwidth.2 rfl rfl rfl
  | @comment cs hcs =>
    have hrest : rest = rest.take (blanks rest) ++ '#' :: cs := by rw [← hcs, List.take_append_drop]
    have hnoted := h.comment (s.addComment _).reading hrest rfl rfl rfl
    rwa [hgap] at hnoted

theorem run_noted {s s' : Scanner} {before rest rest' : List Char} (h : s.reading.Noted before rest)
    (hrun : Run (.ofText (before ++ rest)) s rest s' rest') :
    ∃ taken, rest = taken ++ rest' ∧ s'.reading.Noted (before ++ taken) rest' := by
  generalize hlines : LineIndex.ofText (before ++ rest) = lines at hrun
  induction hrun generalizing before with
  | here => exact ⟨[], rfl, by simpa using h⟩
  | @next s t s' rest rest' n _ hstep _ ih =>
    subst hlines
    obtain ⟨taken, hrest, hnoted⟩ := ih ((step_found hstep).noted h)
      (by rw [List.append_assoc, List.take_append_drop])
    refine ⟨rest.take n ++ taken, ?_, by simpa using hnoted⟩
    rw [List.append_assoc, ← hrest, List.take_append_drop]

/-- The comments of a Ruby text stand in it on ascending lines. -/
theorem scan_comments {text : List Char} {s : Scanned TokenKind} (h : scan text = .ok s) :
    Comment.Ascending s.comments ∧ ∀ c ∈ s.comments, c.Stands text := by
  simp only [scan] at h
  split at h
  · cases h
  rename_i z hwalk
  split at h
  · cases h
  cases h
  obtain ⟨rest, hrun, -⟩ := walk_run hwalk
  have hstart : ({} : Scanner).reading.Noted [] text := .start text
  obtain ⟨taken, rfl, hnoted⟩ := run_noted hstart hrun
  exact ⟨List.pairwise_reverse.mpr hnoted.descending, fun c hc => hnoted.stands c (List.mem_reverse.mp hc)⟩

end Ruby

namespace Manifest

theorem Found.noted {s s' : Scanner} {before rest : List Char} {n : Nat}
    (hf : Found (.ofText (before ++ rest)) s rest s' n) (h : s.reading.Noted before rest) :
    (s'.pass (rest.take n)).reading.Noted (before ++ rest.take n) (rest.drop n) := by
  have hwidth := hf.width
  cases hf with
  | blockComment | inside | token | heredoc => exact h.pass hwidth.1 hwidth.2 rfl rfl rfl
  | comment hrest => exact h.comment (s.addComment _).reading hrest rfl rfl rfl

theorem walk_noted {s s' : Scanner} {before rest : List Char} (h : s.reading.Noted before rest)
    (hwalk : walk (.ofText (before ++ rest)) rest 0 s = .ok s') :
    ∃ taken left, rest = taken ++ left ∧ s'.reading.Noted (before ++ taken) left := by
  induction hlength : rest.length using Nat.strongRecOn generalizing rest before s with
  | ind k ih =>
    subst hlength
    rcases rest with _ | ⟨c, rest⟩
    · cases hwalk
      exact ⟨[], [], rfl, by simpa using h⟩
    cases hstep : step (.ofText (before ++ c :: rest)) s (c :: rest) with
    | error e => simp [walk, hstep] at hwalk
    | ok found? =>
      rcases found? with _ | ⟨t, n⟩
      · simp only [walk, hstep, Except.ok.injEq] at hwalk
        subst hwalk
        exact ⟨[], c :: rest, rfl, by simpa using h⟩
      · have hf := step_found hstep
        obtain ⟨hpos, hle⟩ := hf.width
        have htext : before ++ c :: rest = before ++ (c :: rest).take n ++ (c :: rest).drop n := by
          rw [List.append_assoc, List.take_append_drop]
        rw [walk_next (by simp) hpos hle hstep, htext] at hwalk
        obtain ⟨taken, left, hdrop, hnoted⟩ :=
          ih _ (by rw [List.length_drop]; omega) (hf.noted h) hwalk rfl
        refine ⟨(c :: rest).take n ++ taken, left, ?_, by rwa [← List.append_assoc]⟩
        rw [List.append_assoc, ← hdrop, List.take_append_drop]

/-- The comments of a manifest stand in it on ascending lines. -/
theorem scan_comments {text : List Char} {found : Scanned TokenKind} (h : scan text = .ok found) :
    Comment.Ascending found.comments ∧ ∀ c ∈ found.comments, c.Stands text := by
  unfold scan at h
  split at h
  · cases h
  next s hwalk =>
  cases h
  have hstart : ({} : Scanner).reading.Noted [] text := .start text
  obtain ⟨taken, left, rfl, hnoted⟩ := walk_noted hstart hwalk
  exact ⟨List.pairwise_reverse.mpr hnoted.descending, fun c hc => hnoted.stands c (List.mem_reverse.mp hc)⟩

end Manifest

/-! ## Files -/

namespace SyntaxTree

variable {path text : String} {grammar : Grammar} {tree : SyntaxTree}

theorem parse_comments_stand (h : SyntaxTree.parse path text grammar = .ok tree) :
    Comment.Ascending tree.comments ∧ ∀ c ∈ tree.comments, c.Stands text.toList := by
  cases grammar with
  | ruby =>
    cases hparse : Ruby.parse text.toList with
    | error e => simp [SyntaxTree.parse, hparse, bind, Except.bind] at h
    | ok found =>
      simp only [SyntaxTree.parse, hparse, bind, Except.bind, pure, Except.pure, Except.ok.injEq] at h
      subst h
      obtain ⟨s, -, hscan, hcomments, -⟩ := Ruby.parse_ok.mp hparse
      rw [← hcomments]
      exact Ruby.scan_comments hscan
  | puppet =>
    cases hparse : Manifest.parse text.toList with
    | error e => simp [SyntaxTree.parse, hparse, bind, Except.bind] at h
    | ok found =>
      simp only [SyntaxTree.parse, hparse, bind, Except.bind, pure, Except.pure, Except.ok.injEq] at h
      subst h
      obtain ⟨s, -, hscan, hcomments, -⟩ := Manifest.parse_ok hparse
      rw [← hcomments]
      exact Manifest.scan_comments hscan

/-- The comments of a file stand on ascending lines, and the block above a line is the maximal run of comments that
stand alone on the lines above it; there is none exactly if no comment stands alone on the line above. -/
theorem parse_comments (h : SyntaxTree.parse path text grammar = .ok tree) :
    tree.comments.Pairwise (fun c d => c.line < d.line) ∧ (∀ c ∈ tree.comments, c.Stands text.toList) ∧
    ∀ line, (tree.blockBefore line = none ↔ ∀ c ∈ tree.comments, c.ownLine = true → c.line + 1 ≠ line) ∧
      ∀ block, tree.blockBefore line = some block → block.endLine + 1 = line ∧
        ∃ run, Comment.MaximalRun tree.comments run block.startLine block.endLine ∧
          block.text = "\n".intercalate (run.map Comment.text) := by
  obtain ⟨hascending, hstands⟩ := parse_comments_stand h
  exact ⟨hascending, hstands, fun _ => ⟨Comment.blockBefore_eq_none_iff, fun _ => Comment.blockBefore_run hascending⟩⟩

/-- A comment behind code breaks the run above the function in two. -/
theorem parse_comments_definition :
    ∃ tree, SyntaxTree.parse "a.rb" "# a\nx # b\n# c\n# d\ndef y\nend\n" .ruby = .ok tree ∧
      tree.comments.Pairwise (fun c d => c.line < d.line) ∧
      tree.blockBefore 5 = some { startLine := 3, endLine := 4, text := "c\nd" } ∧
      tree.blockBefore 3 = none ∧
      ∃ run, Comment.MaximalRun tree.comments run 3 4 := by
  have hreads : (match SyntaxTree.parse "a.rb" "# a\nx # b\n# c\n# d\ndef y\nend\n" .ruby with
      | .ok tree => decide (tree.blockBefore 5 = some { startLine := 3, endLine := 4, text := "c\nd" } ∧
          tree.blockBefore 3 = none)
      | .error _ => false) = true := by decide +kernel
  cases hparse : SyntaxTree.parse "a.rb" "# a\nx # b\n# c\n# d\ndef y\nend\n" .ruby with
  | error e =>
    rw [hparse] at hreads
    cases hreads
  | ok tree =>
    rw [hparse] at hreads
    obtain ⟨hblock, hnone⟩ := of_decide_eq_true hreads
    obtain ⟨hascending, -, hblocks⟩ := parse_comments hparse
    obtain ⟨-, run, hrun, -⟩ := (hblocks 5).2 _ hblock
    exact ⟨tree, rfl, hascending, hblock, hnone, run, hrun⟩

end SyntaxTree

end PuppetDocs
