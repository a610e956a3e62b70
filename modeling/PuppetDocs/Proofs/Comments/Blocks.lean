import Mathlib.Data.List.Range
import Mathlib.Data.List.TakeWhile
import PuppetDocs.Source.Comment

/-
  PuppetDocs.Proofs.Comments.Blocks — which comments make the block above a line.

  The comments of a text stand on ascending lines, one a line at most. The search for a block
  walks over positions of the list and not over lines, from the latest comment up; as the lines
  are in order, the first comment that does not continue the run is also the only one that could
  (`runAbove_run`). So a block is the whole run of comments that stand alone on the lines above
  (`MaximalRun`), and comments behind code neither join nor hide it.
-/

namespace PuppetDocs.Comment

/-- The lines of the comments ascend. -/
def Ascending (comments : List Comment) : Prop := comments.Pairwise fun c d => c.line < d.line

/-- The comments of the run, some of all comments in their order, stand alone on each of the lines from `first` to
`last`, and no comment stands alone on the line above `first`. -/
structure MaximalRun (comments run : List Comment) (first last : Nat) : Prop where
  sublist : run.Sublist comments
  ownLine : ∀ c ∈ run, c.ownLine = true
  lines : run.map Comment.line = List.range' first (last + 1 - first)
  nonempty : first ≤ last
  above : ∀ c ∈ comments, c.ownLine = true → c.line + 1 ≠ first

/-! ## The walk upwards -/

/-- The latest comments first, as the search walks over them. -/
def Descending (comments : List Comment) : Prop := comments.Pairwise fun c d => d.line < c.line

theorem Ascending.reverse {comments : List Comment} (h : Ascending comments) : Descending comments.reverse :=
  List.pairwise_reverse.mpr h

/-- The run above a comment takes in every comment that continues it. -/
theorem runAbove_run {below : Comment} {above : List Comment} (h : Descending (below :: above)) :
    runAbove below above <+: above ∧ (∀ c ∈ runAbove below above, c.ownLine = true) ∧
    ∃ first, first + (runAbove below above).length = below.line ∧
      (runAbove below above).reverse.map Comment.line = List.range' first (runAbove below above).length ∧
      ∀ c ∈ above, c.ownLine = true → c.line + 1 ≠ first := by
  induction above generalizing below with
  | nil => exact ⟨List.nil_prefix, nofun, below.line, rfl, rfl, nofun⟩
  | cons c above ih =>
    obtain ⟨hbelow, hrest⟩ := List.pairwise_cons.mp h
    have hc := hbelow c List.mem_cons_self
    unfold runAbove
    split
    · next hjoins =>
      simp only [Bool.and_eq_true, beq_iff_eq] at hjoins
      obtain ⟨hown, hline⟩ := hjoins
      obtain ⟨hfront, hall, first, hlength, hlines, hmaximal⟩ := ih hrest
      refine ⟨(List.prefix_cons_inj c).mpr hfront, List.forall_mem_cons.mpr ⟨hown, hall⟩, first, ?_, ?_, ?_⟩
      · rw [List.length_cons]
        omega
      · rw [List.reverse_cons, List.map_append, hlines, List.length_cons, List.range'_concat]
        simp [hlength]
      · refine List.forall_mem_cons.mpr ⟨fun _ => ?_, hmaximal⟩
        omega
    · next hends =>
      refine ⟨List.nil_prefix, nofun, below.line, rfl, rfl, List.forall_mem_cons.mpr ⟨fun hown hline => ?_, ?_⟩⟩
      · exact hends (by simp [hown, hline])
      · -- Whatever stands further up is too far away.
        intro d hd _
        have := (List.pairwise_cons.mp hrest).1 d hd
        omega

/-! ## Blocks -/

theorem blockBefore_succ (comments : List Comment) (target : Nat) :
    (blockBefore comments (target + 1) = none ∧ ∀ c ∈ comments, c.ownLine = true → c.line ≠ target) ∨
    ∃ later last above, comments.reverse = later ++ last :: above ∧ last.ownLine = true ∧ last.line = target ∧
      blockBefore comments (target + 1) = some {
        startLine := ((last :: runAbove last above).reverse.head?.map Comment.line).getD target
        endLine := target
        text := "\n".intercalate ((last :: runAbove last above).reverse.map Comment.text) } := by
  rw [blockBefore]
  split
  · next hnone =>
    refine .inl ⟨rfl, fun c hc hown hline => ?_⟩
    have := List.dropWhile_eq_nil_iff.mp hnone c (List.mem_reverse.mpr hc)
    simp [hown, hline] at this
  · next last above hlast =>
    refine .inr ⟨comments.reverse.takeWhile fun c => !(c.ownLine && c.line == target), last, above, ?_, ?_⟩
    · rw [← hlast, List.takeWhile_append_dropWhile]
    · have hhead := List.head?_dropWhile_not (fun c : Comment => !(c.ownLine && c.line == target)) comments.reverse
      rw [hlast] at hhead
      simp only [List.head?_cons, Bool.not_eq_false', Bool.and_eq_true, beq_iff_eq] at hhead
      exact ⟨hhead.1, hhead.2, rfl⟩

/-- There is no block above a line exactly if no comment stands alone on the line above it. -/
theorem blockBefore_eq_none_iff {comments : List Comment} {line : Nat} :
    blockBefore comments line = none ↔ ∀ c ∈ comments, c.ownLine = true → c.line + 1 ≠ line := by
  cases line with
  | zero => simp [blockBefore]
  | succ target =>
    simp only [ne_eq, Nat.add_right_cancel_iff]
    rcases blockBefore_succ comments target with ⟨hnone, hall⟩ | ⟨later, last, above, hsplit, hown, hline, hsome⟩
    · exact ⟨fun _ => hall, fun _ => hnone⟩
    · refine ⟨fun hnone => ?_, fun hall => ?_⟩
      · rw [hsome] at hnone
        cases hnone
      · have hmem : last ∈ comments := List.mem_reverse.mp (by rw [hsplit]; simp)
        exact absurd hline (hall last hmem hown)

/-- A block is the maximal run that ends on the line above, with the texts of its comments in their order. -/
theorem blockBefore_run {comments : List Comment} (h : Ascending comments) {line : Nat} {block : CommentBlock}
    (hblock : blockBefore comments line = some block) :
    block.endLine + 1 = line ∧ ∃ run, MaximalRun comments run block.startLine block.endLine ∧
      block.text = "\n".intercalate (run.map Comment.text) := by
  cases line with
  | zero => cases hblock
  | succ target =>
    rcases blockBefore_succ comments target with ⟨hnone, -⟩ | ⟨later, last, above, hsplit, hown, hline, hsome⟩
    · rw [hnone] at hblock
      cases hblock
    have hdescending := h.reverse
    rw [hsplit] at hdescending
    obtain ⟨-, hlast, hlater⟩ := List.pairwise_append.mp hdescending
    obtain ⟨hfront, hall, first, hlength, hlines, hmaximal⟩ := runAbove_run hlast
    generalize hrun : (last :: runAbove last above).reverse = run at hsome
    have hmap : run.map Comment.line = List.range' first ((runAbove last above).length + 1) := by
      rw [← hrun, List.reverse_cons, List.map_append, hlines, List.range'_concat]
      simp [hlength]
    have hfirst : (run.head?.map Comment.line).getD target = first := by
      rw [← List.head?_map, hmap, List.range'_succ]
      rfl
    rw [hsome, hfirst] at hblock
    cases hblock
    refine ⟨rfl, run, ⟨?_, ?_, ?_, ?_, ?_⟩, rfl⟩
    · rw [← hrun, ← List.reverse_reverse comments, hsplit, List.reverse_sublist]
      exact ((List.Sublist.cons_cons last hfront.sublist)).trans (List.sublist_append_right later _)
    · rw [← hrun]
      intro c hc
      rcases List.mem_cons.mp (List.mem_reverse.mp hc) with rfl | hc
      · exact hown
      · exact hall c hc
    · rw [hmap]
      congr 1
      show _ = target + 1 - first
      omega
    · show first ≤ target
      omega
    · intro c hc hcown (hcline : c.line + 1 = first)
      rw [← List.mem_reverse, hsplit, List.mem_append, List.mem_cons] at hc
      rcases hc with hc | hc | hc
      · have := hlater c hc last List.mem_cons_self
        omega
      · rw [hc] at hcline
        omega
      · exact hmaximal c hc hcown hcline

end PuppetDocs.Comment
