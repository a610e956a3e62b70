import PuppetDocs.Proofs.Moved.Primary
import PuppetDocs.Proofs.Scan.Below

/-
  PuppetDocs.Proofs.Moved.Behind — a text behind one part of a line, and behind another text.

  The tokens of a text stand behind the one as they stand behind the other, as many bytes and
  lines further on as the texts in front differ (`Relocation.behind`). So what is read of them
  behind a part of a line is read behind any other text, moved (`block_behind`). Places inside
  the part of the line are those of no token; they go to where the other text ends.
-/

namespace PuppetDocs

namespace Text

theorem cut?_append (a b : List Char) (n : Nat) :
    cut? (byteLength a + n) (a ++ b) = (cut? n b).map fun (x, y) => (a ++ x, y) := by
  induction a with
  | nil => simp
  | cons c a ih =>
    have hpos := c.utf8Size_pos
    obtain ⟨k, hk⟩ : ∃ k, c.utf8Size + byteLength a + n = k + 1 := ⟨c.utf8Size + byteLength a + n - 1, by omega⟩
    have hrest : k + 1 - c.utf8Size = byteLength a + n := by omega
    rw [byteLength_cons, List.cons_append, hk, cut?, if_pos (by omega), hrest, ih, Option.map_map]
    rfl

end Text

/-- A slice of a text is the same slice of what it stands behind. -/
theorem Span.slice_shift (a b : List Char) (s : Span) : (s.shift (Text.byteLength a)).slice (a ++ b) = s.slice b := by
  have hlength : Text.byteLength a + s.stop - (Text.byteLength a + s.start) = s.stop - s.start := by omega
  have hle : Text.byteLength a + s.start ≤ Text.byteLength a + s.stop ↔ s.start ≤ s.stop := by omega
  simp only [Span.slice, Span.slice?, Span.shift, Span.length, Text.cut?_append, hlength, hle]
  cases Text.cut? s.start b <;> rfl

namespace LineIndex

open Text (byteLength)

/-- What stands behind a place does not matter for its line. -/
theorem line_front (a b : List Char) {k : Nat} (h : k ≤ byteLength a) : (ofText (a ++ b)).line k = (ofText a).line k := by
  have hbehind : (startsFrom (0 + byteLength a) b).countP (· ≤ k) = 0 := by
    refine List.countP_eq_zero.mpr fun x hx => ?_
    have hbounds := startsFrom_bounds hx
    simp only [decide_eq_true_eq]
    omega
  simp only [line, ofText, List.countP_cons, startsFrom_append, List.countP_append, hbehind, Nat.add_zero]

theorem line_zero (cs : List Char) : (ofText cs).line 0 = 1 := by
  have hline := line_eq_count [] cs
  rwa [List.nil_append, List.count_nil] at hline

theorem line_of_oneLine {cs : List Char} (h : '\n' ∉ cs) (k : Nat) : (ofText cs).line k = 1 := by
  have hstarts : startsFrom 0 cs = [] := by
    rw [← List.length_eq_zero_iff, startsFrom_length, List.count_eq_zero.mpr h]
  simp [line, ofText, hstarts]

/-- A place behind a part of a line lies, behind a text, further down by the line feeds of the text. -/
theorem line_behind {part : List Char} (h : '\n' ∉ part) (upper text : List Char) (k : Nat) :
    (ofText (upper ++ text)).line (byteLength upper + (k - byteLength part)) =
      upper.count '\n' + (ofText (part ++ text)).line k := by
  by_cases hk : byteLength part ≤ k
  · obtain ⟨j, rfl⟩ := Nat.exists_eq_add_of_le hk
    rw [Nat.add_sub_cancel_left, line_append, line_append, List.count_eq_zero.mpr h, Nat.zero_add]
  · have hzero : k - byteLength part = 0 := by omega
    rw [hzero, line_append, line_zero, line_front part text (by omega), line_of_oneLine h]

end LineIndex

namespace Ruby

open ParseM
open Text (byteLength)

variable {part upper text : List Char} {found : Scanned TokenKind}

/-- The place behind `upper` of what stands behind `part`. -/
def placeBehind (part upper : List Char) (k : Nat) : Nat := byteLength upper + (k - byteLength part)

theorem shift_move (t : Token TokenKind) : (t.shift (byteLength part)).move (placeBehind part upper) = t.shift (byteLength upper) := by
  simp [Token.shift, Token.move, Span.shift, Span.move, placeBehind]

theorem stop_pos (hscan : scan text = .ok found) (htext : text ≠ []) {t : Token TokenKind}
    (ht : t ∈ found.tokens ++ [found.stop]) : 0 < t.span.stop := by
  obtain ⟨⟨before, data, -, hcut, -⟩, hstop⟩ := scan_cut hscan
  rcases List.mem_append.mp ht with ht | ht
  · obtain ⟨a, cs, b, -, hne, hstands⟩ := hcut.stands ht
    have hpos := Text.byteLength_pos hne
    rw [hstands.span]
    dsimp only
    omega
  · rw [List.mem_singleton.mp ht, hstop]
    exact Text.byteLength_pos htext

/-- What stands behind `part` are the tokens of the text. -/
theorem exists_shift {t : Token TokenKind}
    (ht : t ∈ found.tokens.map (·.shift (byteLength part)) ++ [found.stop.shift (byteLength part)]) :
    ∃ s ∈ found.tokens ++ [found.stop], t = s.shift (byteLength part) := by
  rcases List.mem_append.mp ht with ht | ht
  · obtain ⟨s, hs, rfl⟩ := List.mem_map.mp ht
    exact ⟨s, List.mem_append_left _ hs, rfl⟩
  · exact ⟨found.stop, List.mem_append_right _ List.mem_cons_self, List.mem_singleton.mp ht⟩

theorem placeBehind_mono (part upper : List Char) : Monotone (placeBehind part upper) := by
  intro k l hkl
  unfold placeBehind
  omega

theorem slice_behind (part upper text : List Char) (t u : Token TokenKind) :
    (Span.mk (placeBehind part upper (t.shift (byteLength part)).span.start)
        (placeBehind part upper (u.shift (byteLength part)).span.stop)).slice (upper ++ text) =
      (Span.mk (t.shift (byteLength part)).span.start (u.shift (byteLength part)).span.stop).slice (part ++ text) := by
  have hplaces : Span.mk (placeBehind part upper (t.shift (byteLength part)).span.start)
      (placeBehind part upper (u.shift (byteLength part)).span.stop) =
        (Span.mk t.span.start u.span.stop).shift (byteLength upper) := by
    simp [placeBehind, Token.shift, Span.shift]
  rw [hplaces, Span.slice_shift upper text]
  exact (Span.slice_shift part text ⟨t.span.start, u.span.stop⟩).symm

theorem placeBehind_pred (upper : List Char) {k : Nat} (h : byteLength part < k) :
    placeBehind part upper k - 1 = placeBehind part upper (k - 1) := by
  unfold placeBehind
  omega

theorem placeBehind_succ (upper : List Char) {k : Nat} (h : byteLength part ≤ k) :
    placeBehind part upper k + 1 = placeBehind part upper (k + 1) := by
  unfold placeBehind
  omega

/-- The tokens of the text behind a part of a line, tracked behind the text `upper`. -/
def Relocation.behind (hscan : scan text = .ok found) (htext : text ≠ []) (hpart : '\n' ∉ part) (upper : List Char) :
    Relocation where
  text := part ++ text
  text' := upper ++ text
  lines := .ofText (part ++ text)
  lines' := .ofText (upper ++ text)
  tokens := found.tokens.map (·.shift (byteLength part))
  stop := found.stop.shift (byteLength part)
  place := placeBehind part upper
  drop := upper.count '\n'
  Refused _ := True
  mono := placeBehind_mono part upper
  line_eq := LineIndex.line_behind hpart upper text
  slice_eq t ht u hu := by
    obtain ⟨t, -, rfl⟩ := exists_shift ht
    obtain ⟨u, -, rfl⟩ := exists_shift hu
    exact slice_behind part upper text t u
  stop_eq t ht := by
    obtain ⟨s, hs, rfl⟩ := exists_shift ht
    exact placeBehind_pred upper (Nat.lt_add_of_pos_right (stop_pos hscan htext hs))
  start_eq t ht := by
    obtain ⟨t, -, rfl⟩ := exists_shift ht
    exact placeBehind_succ upper (Nat.le_add_right _ _)
  refuses _ _ _ _ := trivial
  exhausted := trivial

/-- A block behind a part of a line is read behind any other text, whatever ended in front of it. -/
theorem block_behind (hscan : scan text = .ok found) (htext : text ≠ []) (hpart : '\n' ∉ part) (upper : List Char)
    {depth pe pe' : Nat} {opener : Token TokenKind} {ts : List (Token TokenKind)} {b : Block Node} {s₁ : Stream TokenKind}
    (htokens : found.tokens = opener :: ts)
    (h : block (Rule.run depth) { text := part ++ text, lines := .ofText (part ++ text) }
      ⟨found.tokens.map (·.shift (byteLength part)), found.stop.shift (byteLength part), pe⟩ = .ok (b, s₁)) :
    block (Rule.run depth) { text := upper ++ text, lines := .ofText (upper ++ text) }
      ⟨found.tokens.map (·.shift (byteLength upper)), found.stop.shift (byteLength upper), pe'⟩ =
      .ok (relocateBlock (·.move (placeBehind part upper)) (upper.count '\n' + ·) b, s₁.move (placeBehind part upper)) := by
  let w := Relocation.behind hscan htext hpart upper
  let s : Stream TokenKind := ⟨found.tokens.map (·.shift (byteLength part)), found.stop.shift (byteLength part), pe⟩
  have hmove : s.move (placeBehind part upper) =
      ⟨found.tokens.map (·.shift (byteLength upper)), found.stop.shift (byteLength upper), placeBehind part upper pe⟩ := by
    simp only [s, Stream.move, List.map_map, shift_move]
    congr 1
    exact List.map_congr_left fun t _ => shift_move t
  have hholds : w.Holds { text := part ++ text, lines := .ofText (part ++ text) }
      { text := upper ++ text, lines := .ofText (upper ++ text) } s := ⟨rfl, rfl, rfl, rfl, rfl, rfl, List.suffix_rfl⟩
  obtain ⟨_, hblock, rfl, -⟩ := (tracks_block (tracks_run w depth) _ _ s hholds).2 b s₁ h
  rw [show s.move w.place = _ from hmove, htokens] at hblock
  rw [htokens]
  exact hblock

end Ruby

end PuppetDocs
