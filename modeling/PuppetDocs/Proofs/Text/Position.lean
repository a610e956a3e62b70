import Mathlib.Data.List.Count
import PuppetDocs.Text.Span

/-
  PuppetDocs.Proofs.Text.Position — offsets, slices and lines of a text and of its parts.

  An offset in the second part of a text is the length of the first part and an offset of its
  own. If the first part ends its last line, the lines of the whole are those of the two parts
  one behind the other (`ofText_append`), so that places move by a number of lines and keep
  their columns.
-/

namespace PuppetDocs

namespace Text

theorem byteLength_pos {cs : List Char} (h : cs ≠ []) : 0 < byteLength cs := by
  obtain ⟨c, cs, rfl⟩ := List.exists_cons_of_ne_nil h
  have := c.utf8Size_pos
  rw [byteLength_cons]
  omega

/-- A text is cut behind any front part of it. -/
theorem cut?_byteLength (a b : List Char) : cut? (byteLength a) (a ++ b) = some (a, b) := by
  induction a with
  | nil => cases b <;> rfl
  | cons c a ih =>
    have := c.utf8Size_pos
    obtain ⟨n, hn⟩ : ∃ n, c.utf8Size + byteLength a = n + 1 := ⟨c.utf8Size + byteLength a - 1, by omega⟩
    rw [byteLength_cons, List.cons_append, hn, cut?, if_pos (by omega), ← hn, Nat.add_sub_cancel_left, ih]
    rfl

/-- Front parts of one text that are equally long are the same. -/
theorem eq_of_byteLength {a b c d : List Char} (h : a ++ b = c ++ d) (hlength : byteLength a = byteLength c) :
    a = c ∧ b = d := by
  have hcut : cut? (byteLength a) (a ++ b) = cut? (byteLength c) (c ++ d) := by rw [h, hlength]
  rw [cut?_byteLength, cut?_byteLength] at hcut
  exact Prod.mk.inj (Option.some.inj hcut)

end Text

theorem Span.slice?_append (a cs b : List Char) :
    (Span.mk (Text.byteLength a) (Text.byteLength a + Text.byteLength cs)).slice? (a ++ cs ++ b) = some cs := by
  simp [Span.slice?, Span.length, Text.cut?_byteLength]

namespace LineIndex

open Text (byteLength)

/-! ## The starts of lines -/

theorem startsFrom_append (n : Nat) (a b : List Char) :
    startsFrom n (a ++ b) = startsFrom n a ++ startsFrom (n + byteLength a) b := by
  induction a generalizing n with
  | nil => rfl
  | cons c a ih =>
    simp only [List.cons_append, startsFrom, ih, Text.byteLength_cons, Nat.add_assoc]
    split <;> rfl

theorem startsFrom_add (m n : Nat) (cs : List Char) : startsFrom (m + n) cs = (startsFrom n cs).map (m + ·) := by
  induction cs generalizing n with
  | nil => rfl
  | cons c cs ih =>
    simp only [startsFrom, Nat.add_assoc, ih]
    split <;> rfl

theorem startsFrom_length (n : Nat) (cs : List Char) : (startsFrom n cs).length = cs.count '\n' := by
  induction cs generalizing n with
  | nil => rfl
  | cons c cs ih =>
    simp only [startsFrom, List.count_cons, beq_iff_eq]
    split <;> simp [ih]

theorem startsFrom_bounds {n k : Nat} {cs : List Char} (h : k ∈ startsFrom n cs) : n < k ∧ k ≤ n + byteLength cs := by
  induction cs generalizing n with
  | nil => cases h
  | cons c cs ih =>
    have := c.utf8Size_pos
    rw [Text.byteLength_cons]
    simp only [startsFrom] at h
    split at h
    · rcases List.mem_cons.mp h with rfl | h
      · omega
      · have := ih h
        omega
    · have := ih h
      omega

/-- The index of a text behind whole lines: the starts of these lines, then its own starts, moved. -/
theorem ofText_append (a b : List Char) :
    ∃ front, (ofText (a ++ ['\n'])).starts = front ++ [byteLength (a ++ ['\n'])] ∧
      (ofText (a ++ ['\n'] ++ b)).starts = front ++ (ofText b).starts.map (byteLength (a ++ ['\n']) + ·) ∧
      front.length = (a ++ ['\n']).count '\n' ∧ ∀ k ∈ front, k < byteLength (a ++ ['\n']) := by
  refine ⟨0 :: startsFrom 0 a, ?_, ?_, ?_, ?_⟩
  · simp [ofText, startsFrom_append, startsFrom]
  · have hb : startsFrom (byteLength (a ++ ['\n'])) b = (startsFrom 0 b).map (byteLength (a ++ ['\n']) + ·) :=
      startsFrom_add _ 0 b
    rw [Text.byteLength_append] at hb
    simpa [ofText, startsFrom_append, startsFrom] using hb
  · simp [startsFrom_length]
  · have hpos : 0 < byteLength ['\n'] := Text.byteLength_pos (by simp)
    intro k hk
    rw [Text.byteLength_append]
    rcases List.mem_cons.mp hk with rfl | hk
    · omega
    · have := startsFrom_bounds hk
      omega

/-! ## Lines -/

/-- Text behind whole lines does not change the lines of their offsets. -/
theorem line_above (a b : List Char) {k : Nat} (h : k < byteLength (a ++ ['\n'])) :
    (ofText (a ++ ['\n'] ++ b)).line k = (ofText (a ++ ['\n'])).line k := by
  obtain ⟨front, h1, h2, -, -⟩ := ofText_append a b
  rw [line, line, h1, h2, List.countP_append, List.countP_append]
  have hmap : ((ofText b).starts.map (byteLength (a ++ ['\n']) + ·)).countP (· ≤ k) = 0 := by
    refine List.countP_eq_zero.mpr fun x hx => ?_
    obtain ⟨y, -, rfl⟩ := List.mem_map.mp hx
    simp only [decide_eq_true_eq]
    omega
  have hlast : [byteLength (a ++ ['\n'])].countP (· ≤ k) = 0 := by
    refine List.countP_eq_zero.mpr fun x hx => ?_
    rw [List.mem_singleton.mp hx]
    simp only [decide_eq_true_eq]
    omega
  rw [hmap, hlast]

theorem line_pos (cs : List Char) (k : Nat) : 0 < (ofText cs).line k := by
  simp [line, ofText]

theorem line_mono (x : LineIndex) {k l : Nat} (h : k ≤ l) : x.line k ≤ x.line l := by
  refine List.countP_mono_left fun start _ hstart => ?_
  simp only [decide_eq_true_eq] at hstart ⊢
  omega

/-- A place lies on the line behind all line feeds in front of it. -/
theorem line_eq_count (a b : List Char) : (ofText (a ++ b)).line (byteLength a) = a.count '\n' + 1 := by
  have hbefore : (startsFrom 0 a).countP (· ≤ byteLength a) = a.count '\n' := by
    rw [← startsFrom_length 0 a]
    refine List.countP_eq_length.mpr fun k hk => ?_
    have := startsFrom_bounds hk
    simp only [decide_eq_true_eq]
    omega
  have hbehind : (startsFrom (0 + byteLength a) b).countP (· ≤ byteLength a) = 0 := by
    refine List.countP_eq_zero.mpr fun k hk => ?_
    have := startsFrom_bounds hk
    simp only [decide_eq_true_eq]
    omega
  simp only [line, ofText, List.countP_cons, startsFrom_append, List.countP_append, hbefore, hbehind]
  simp

/-- A place behind `a` is further down by the line feeds in `a`. -/
theorem line_append (a b : List Char) (k : Nat) :
    (ofText (a ++ b)).line (byteLength a + k) = a.count '\n' + (ofText b).line k := by
  have hbefore : (startsFrom 0 a).countP (· ≤ byteLength a + k) = a.count '\n' := by
    rw [← startsFrom_length 0 a]
    refine List.countP_eq_length.mpr fun x hx => ?_
    have := startsFrom_bounds hx
    simp only [decide_eq_true_eq]
    omega
  have hbehind : (startsFrom (0 + byteLength a) b).countP (· ≤ byteLength a + k) = (startsFrom 0 b).countP (· ≤ k) := by
    rw [Nat.zero_add, ← Nat.add_zero (byteLength a), startsFrom_add, List.countP_map]
    refine List.countP_congr fun x _ => ?_
    simp
  simp only [line, ofText, List.countP_cons, startsFrom_append, List.countP_append, hbefore, hbehind]
  simp [Nat.add_assoc]

/-- The column at which what follows `a` goes on. -/
def columnBehind (a : List Char) : Nat := ((ofText a).lineColumn (byteLength a)).2

/-- A place behind `a`; what is on the line on which `a` ends has a part of `a` in front of it. -/
theorem lineColumn_append (a b : List Char) (k : Nat) :
    (ofText (a ++ b)).lineColumn (byteLength a + k) =
      (a.count '\n' + ((ofText b).lineColumn k).1,
        if ((ofText b).lineColumn k).1 = 1 then columnBehind a + ((ofText b).lineColumn k).2
        else ((ofText b).lineColumn k).2) := by
  have hstarts : (ofText (a ++ b)).starts = (0 :: startsFrom 0 a) ++ (startsFrom 0 b).map (byteLength a + ·) := by
    rw [ofText, startsFrom_append, Nat.zero_add, ← Nat.add_zero (byteLength a), startsFrom_add]
    rfl
  have hfront : (0 :: startsFrom 0 a).length = a.count '\n' + 1 := by rw [List.length_cons, startsFrom_length]
  have hline : (ofText b).line k ≤ (startsFrom 0 b).length + 1 := List.countP_le_length
  obtain ⟨l, hl⟩ := Nat.exists_eq_succ_of_ne_zero (Nat.ne_of_gt (line_pos b k))
  rw [hl] at hline
  simp only [lineColumn, line_append, hl, Nat.succ_eq_add_one, ← Nat.add_assoc, lineStart?, hstarts, Prod.mk.injEq,
    true_and]
  cases l with
  | zero =>
    -- The line starts in `a`, where its last line does.
    have hlast : (ofText a).line (byteLength a) = a.count '\n' + 1 := by simpa using line_eq_count a []
    obtain ⟨start, hstart⟩ : ∃ start, (0 :: startsFrom 0 a)[a.count '\n']? = some start :=
      ⟨_, List.getElem?_eq_getElem (by omega)⟩
    have hle : start ≤ byteLength a := by
      rcases List.mem_cons.mp (List.mem_of_getElem? hstart) with rfl | hmem
      · exact Nat.zero_le _
      · have := startsFrom_bounds hmem
        omega
    rw [Nat.add_zero, List.getElem?_append_left (by omega), hstart, if_pos rfl, columnBehind, lineColumn, hlast]
    simp only [lineStart?, ofText, hstart, Option.getD_some, List.getElem?_cons_zero]
    omega
  | succ l =>
    have hget : l < (startsFrom 0 b).length := by omega
    rw [List.getElem?_append_right (by omega), hfront, if_neg (by omega),
      show a.count '\n' + (l + 1) - (a.count '\n' + 1) = l by omega, List.getElem?_map, List.getElem?_eq_getElem hget]
    simp only [ofText, List.getElem?_cons_succ, List.getElem?_eq_getElem hget, Option.map_some, Option.getD_some]
    omega
/-- A place behind whole lines is further down by their number, in the same column. -/
theorem lineColumn_below (a b : List Char) (k : Nat) :
    (ofText (a ++ ['\n'] ++ b)).lineColumn (byteLength (a ++ ['\n']) + k) =
      ((a ++ ['\n']).count '\n' + ((ofText b).lineColumn k).1, ((ofText b).lineColumn k).2) := by
  obtain ⟨front, -, h2, hlen, -⟩ := ofText_append a b
  have hle : (ofText b).line k ≤ (ofText b).starts.length := List.countP_le_length
  obtain ⟨l, hl⟩ := Nat.exists_eq_succ_of_ne_zero (Nat.ne_of_gt (line_pos b k))
  have hget : l < (ofText b).starts.length := by omega
  simp only [lineColumn, line_append, hl, Nat.succ_eq_add_one, ← Nat.add_assoc, lineStart?, h2]
  rw [← hlen, List.getElem?_append_right (by omega), Nat.add_sub_cancel_left, List.getElem?_map,
    List.getElem?_eq_getElem hget]
  simp only [Option.map_some, Option.getD_some, Prod.mk.injEq, true_and]
  omega

end LineIndex

end PuppetDocs
