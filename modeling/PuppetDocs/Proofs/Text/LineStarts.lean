import Mathlib.Data.List.Count
import Mathlib.Order.Monotone.Basic
import PuppetDocs.Proofs.Text.Position

/-
  PuppetDocs.Proofs.Text.LineStarts — the lines of a text, told by its bytes.

  An offset is a number of bytes and may lie inside a character, so lines are counted here by the
  bytes of the text and not by its characters. The starts of the lines ascend, and of an ascending
  list the number of members up to an offset says which members these are (`le_iff_lt_count`).
  Everything else rests on that: the line of an offset is the one a bisection of the starts ends
  at (`line_eq_bisect`), its start is the last one that does not lie behind the offset, and no line
  feed stands between the two (`lines_locate`).
-/

namespace PuppetDocs

namespace Text

def bytes (cs : List Char) : List UInt8 := cs.flatMap String.utf8EncodeChar

def lineFeed : UInt8 := 10

@[simp] theorem bytes_nil : bytes [] = [] := rfl

@[simp] theorem bytes_cons (c : Char) (cs : List Char) : bytes (c :: cs) = String.utf8EncodeChar c ++ bytes cs := rfl

theorem encode_lineFeed : String.utf8EncodeChar '\n' = [lineFeed] := rfl

/-- Only the line feed has its byte: all bytes of longer encodings are 128 or more. -/
theorem lineFeed_not_mem {c : Char} (h : c ≠ '\n') : lineFeed ∉ String.utf8EncodeChar c := by
  have hne : ∀ n, n < 256 → n ≠ 10 → lineFeed ≠ UInt8.ofNat n := by
    intro n hn hten heq
    have hvalue := congrArg UInt8.toNat heq
    rw [UInt8.toNat_ofNat', Nat.mod_eq_of_lt hn] at hvalue
    exact hten hvalue.symm
  have hcode : c.val.toNat ≠ 10 := by
    intro heq
    exact h (Char.ext (UInt32.toNat_inj.mp heq))
  unfold String.utf8EncodeChar
  dsimp only
  split
  · rw [List.mem_singleton]
    exact hne _ (by omega) hcode
  split
  · simp only [List.mem_cons, List.not_mem_nil, or_false, not_or]
    exact ⟨hne _ (by omega) (by omega), hne _ (by omega) (by omega)⟩
  split
  · simp only [List.mem_cons, List.not_mem_nil, or_false, not_or]
    exact ⟨hne _ (by omega) (by omega), hne _ (by omega) (by omega), hne _ (by omega) (by omega)⟩
  · simp only [List.mem_cons, List.not_mem_nil, or_false, not_or]
    exact ⟨hne _ (by omega) (by omega), hne _ (by omega) (by omega), hne _ (by omega) (by omega),
      hne _ (by omega) (by omega)⟩

end Text

namespace LineIndex

open Text (bytes lineFeed)

/-! ## Starts and bytes -/

/-- As many lines start up to an offset as line feeds stand in front of it. -/
theorem startsFrom_count (n m : Nat) (cs : List Char) :
    (startsFrom n cs).countP (· ≤ n + m) = ((bytes cs).take m).count lineFeed := by
  induction cs generalizing n m with
  | nil => simp [startsFrom]
  | cons c cs ih =>
    have hlength : (String.utf8EncodeChar c).length = c.utf8Size := String.length_utf8EncodeChar c
    have hrest : (startsFrom (n + c.utf8Size) cs).countP (· ≤ n + m) =
        ((bytes cs).take (m - c.utf8Size)).count lineFeed := by
      rcases Nat.lt_or_ge m c.utf8Size with hm | hm
      · -- The offset lies in front of the other characters.
        rw [Nat.sub_eq_zero_of_le (Nat.le_of_lt hm), List.take_zero, List.count_nil]
        refine List.countP_eq_zero.mpr fun k hk => ?_
        have := startsFrom_bounds hk
        simp only [decide_eq_true_eq]
        omega
      · rw [← ih, show n + c.utf8Size + (m - c.utf8Size) = n + m by omega]
    rw [Text.bytes_cons, List.take_append, List.count_append, hlength, ← hrest]
    simp only [startsFrom]
    split
    · next hc =>
      subst hc
      rw [List.countP_cons, Nat.add_comm, Text.encode_lineFeed]
      have hwidth : '\n'.utf8Size = 1 := rfl
      cases m with
      | zero => simp [hwidth]
      | succ m => simp [hwidth]
    · next hc =>
      have hnone : lineFeed ∉ (String.utf8EncodeChar c).take m :=
        fun hmem => Text.lineFeed_not_mem hc (List.mem_of_mem_take hmem)
      rw [List.count_eq_zero.mpr hnone, Nat.zero_add]

/-- The starts are the offsets right behind line feeds. -/
theorem mem_startsFrom {n k : Nat} {cs : List Char} :
    k ∈ startsFrom n cs ↔ ∃ i, k = n + i + 1 ∧ (bytes cs)[i]? = some lineFeed := by
  induction cs generalizing n with
  | nil => simp [startsFrom]
  | cons c cs ih =>
    have hlength : (String.utf8EncodeChar c).length = c.utf8Size := String.length_utf8EncodeChar c
    have hrest : k ∈ startsFrom (n + c.utf8Size) cs ↔
        ∃ i, k = n + (c.utf8Size + i) + 1 ∧ (bytes (c :: cs))[c.utf8Size + i]? = some lineFeed := by
      simp only [ih, Text.bytes_cons, ← hlength, List.getElem?_append_right (Nat.le_add_right _ _),
        Nat.add_sub_cancel_left, Nat.add_assoc]
    have hfirst : ∀ i < c.utf8Size, (bytes (c :: cs))[i]? = some lineFeed → c = '\n' := by
      intro i hi hget
      rw [Text.bytes_cons, List.getElem?_append_left (by omega)] at hget
      by_contra hc
      exact Text.lineFeed_not_mem hc (List.mem_of_getElem? hget)
    constructor
    · intro hk
      simp only [startsFrom] at hk
      split at hk
      · next hc =>
        rcases List.mem_cons.mp hk with rfl | hk
        · subst hc
          exact ⟨0, rfl, rfl⟩
        · obtain ⟨i, hi, hget⟩ := hrest.mp hk
          exact ⟨_, hi, hget⟩
      · obtain ⟨i, hi, hget⟩ := hrest.mp hk
        exact ⟨_, hi, hget⟩
    · intro hk
      obtain ⟨i, rfl, hget⟩ := hk
      simp only [startsFrom]
      rcases Nat.lt_or_ge i c.utf8Size with hi | hi
      · have hc := hfirst i hi hget
        subst hc
        have hzero : i = 0 := Nat.lt_one_iff.mp hi
        subst hzero
        exact List.mem_cons_self
      · obtain ⟨j, rfl⟩ := Nat.exists_eq_add_of_le hi
        have hmem := hrest.mpr ⟨j, rfl, hget⟩
        split
        · exact List.mem_cons_of_mem _ hmem
        · exact hmem

theorem startsFrom_ascending (n : Nat) (cs : List Char) : (startsFrom n cs).Pairwise (· < ·) := by
  induction cs generalizing n with
  | nil => exact .nil
  | cons c cs ih =>
    simp only [startsFrom]
    split
    · exact List.pairwise_cons.mpr ⟨fun k hk => (startsFrom_bounds hk).1, ih _⟩
    · exact ih _

theorem starts_ascending (cs : List Char) : (ofText cs).starts.Pairwise (· < ·) :=
  List.pairwise_cons.mpr ⟨fun _ hk => (startsFrom_bounds hk).1, startsFrom_ascending 0 cs⟩

/-- An index of lines whose starts ascend knows how many of them do not lie behind an offset. -/
theorem le_iff_lt_count {starts : List Nat} (h : starts.Pairwise (· < ·)) {i start : Nat} (hi : starts[i]? = some start)
    (offset : Nat) : start ≤ offset ↔ i < starts.countP (· ≤ offset) := by
  induction starts generalizing i with
  | nil => cases hi
  | cons first rest ih =>
    obtain ⟨hfirst, hrest⟩ := List.pairwise_cons.mp h
    cases i with
    | zero =>
      obtain rfl := Option.some.inj hi
      rw [List.countP_cons]
      by_cases hle : first ≤ offset
      · simp [hle]
      · have hnone : rest.countP (· ≤ offset) = 0 := by
          refine List.countP_eq_zero.mpr fun k hk => ?_
          have := hfirst k hk
          simp only [decide_eq_true_eq]
          omega
        simp [hle, hnone]
    | succ i =>
      rw [List.getElem?_cons_succ] at hi
      have hlt := hfirst start (List.mem_of_getElem? hi)
      rw [ih hrest hi, List.countP_cons]
      by_cases hle : first ≤ offset
      · simp [hle]
      · have hnot := (ih hrest hi).not.mp (by omega)
        simp only [hle, decide_false, Bool.false_eq_true, if_false]
        omega

/-! ## Bisection -/

/-- Looks for `offset` among the starts from place `lo` up to `hi`: the place where it stands, or the one in front of
which it would stand. -/
def bisect (starts : List Nat) (offset lo hi : Nat) : Except Nat Nat :=
  if lo < hi then
    match starts[(lo + hi) / 2]?.map (compare · offset) with
    | some .eq => .ok ((lo + hi) / 2)
    | some .lt => bisect starts offset ((lo + hi) / 2 + 1) hi
    | some .gt => bisect starts offset lo ((lo + hi) / 2)
    | none => .error lo
  else .error lo
termination_by hi - lo

/-- The line that starts at the place where an offset stands, or the last one that starts in front of it. -/
def lineAt : Except Nat Nat → Nat
  | .ok i => i + 1
  | .error i => i

theorem lineAt_bisect {starts : List Nat} (h : starts.Pairwise (· < ·)) (offset : Nat) {lo hi : Nat}
    (hlo : lo ≤ starts.countP (· ≤ offset)) (hhi : starts.countP (· ≤ offset) ≤ hi) (hlength : hi ≤ starts.length) :
    lineAt (bisect starts offset lo hi) = starts.countP (· ≤ offset) := by
  fun_induction bisect starts offset lo hi with
  | case1 lo hi hlt hcompare =>
    obtain ⟨start, hget, hstart⟩ := Option.map_eq_some_iff.mp hcompare
    obtain rfl := Nat.compare_eq_eq.mp hstart
    have hbelow := (le_iff_lt_count h hget start).mp (Nat.le_refl _)
    have habove : starts.countP (· ≤ start) ≤ (lo + hi) / 2 + 1 := by
      by_contra hmore
      -- The start behind the one that was hit is greater than the offset.
      have hnext : (lo + hi) / 2 + 1 < starts.length := by omega
      have hle := (le_iff_lt_count h (List.getElem?_eq_getElem hnext) start).mpr (by omega)
      obtain ⟨hmid, heq⟩ := List.getElem?_eq_some_iff.mp hget
      have hgreater := List.pairwise_iff_getElem.mp h _ _ hmid hnext (Nat.lt_succ_self _)
      omega
    show (lo + hi) / 2 + 1 = _
    omega
  | case2 lo hi hlt hcompare ih =>
    obtain ⟨start, hget, hstart⟩ := Option.map_eq_some_iff.mp hcompare
    have hless := Nat.compare_eq_lt.mp hstart
    have hbelow := (le_iff_lt_count h hget offset).mp (Nat.le_of_lt hless)
    exact ih hbelow hhi hlength
  | case3 lo hi hlt hcompare ih =>
    obtain ⟨start, hget, hstart⟩ := Option.map_eq_some_iff.mp hcompare
    have hgreater := Nat.compare_eq_gt.mp hstart
    have habove := (le_iff_lt_count h hget offset).not.mp (by omega)
    exact ih hlo (by omega) (by omega)
  | case4 lo hi hlt hcompare =>
    have := List.getElem?_eq_none_iff.mp (Option.map_eq_none_iff.mp hcompare)
    omega
  | case5 lo hi hge =>
    show lo = _
    omega

theorem line_eq_bisect (cs : List Char) (offset : Nat) :
    (ofText cs).line offset = lineAt (bisect (ofText cs).starts offset 0 (ofText cs).lineCount) :=
  (lineAt_bisect (starts_ascending cs) offset (Nat.zero_le _) List.countP_le_length (Nat.le_refl _)).symm

/-! ## Lines -/

theorem line_eq_count_bytes (cs : List Char) (offset : Nat) :
    (ofText cs).line offset = ((bytes cs).take offset).count lineFeed + 1 := by
  have hcount := startsFrom_count 0 offset cs
  rw [Nat.zero_add] at hcount
  simp [line, ofText, hcount]

theorem lineStart?_isSome_iff (x : LineIndex) (l : Nat) : (x.lineStart? l).isSome ↔ 1 ≤ l ∧ l ≤ x.lineCount := by
  cases l with
  | zero => simp [lineStart?]
  | succ l => simp [lineStart?, lineCount, Nat.succ_le_iff]

theorem lineStart?_ascending (cs : List Char) {l m s t : Nat} (hlm : l < m) (hs : (ofText cs).lineStart? l = some s)
    (ht : (ofText cs).lineStart? m = some t) : s < t := by
  cases l with
  | zero => cases hs
  | succ l =>
    obtain ⟨m, rfl⟩ : ∃ k, m = k + 1 := ⟨m - 1, by omega⟩
    obtain ⟨hl, rfl⟩ := List.getElem?_eq_some_iff.mp hs
    obtain ⟨hm, rfl⟩ := List.getElem?_eq_some_iff.mp ht
    exact List.pairwise_iff_getElem.mp (starts_ascending cs) l m hl hm (by omega)

theorem exists_lineStart?_iff (cs : List Char) (start : Nat) :
    (∃ l, (ofText cs).lineStart? l = some start) ↔ start = 0 ∨ ∃ i, start = i + 1 ∧ (bytes cs)[i]? = some lineFeed := by
  have hmem : (∃ l, (ofText cs).lineStart? l = some start) ↔ start ∈ (ofText cs).starts := by
    rw [List.mem_iff_getElem?]
    constructor
    · intro h
      obtain ⟨l, hl⟩ := h
      cases l with
      | zero => cases hl
      | succ l => exact ⟨l, hl⟩
    · intro h
      obtain ⟨i, hi⟩ := h
      exact ⟨i + 1, hi⟩
  rw [hmem, ofText, List.mem_cons, mem_startsFrom]
  simp only [Nat.zero_add]

/-- The start of the line of an offset is the last start that does not lie behind the offset. -/
theorem lineStart?_last (cs : List Char) (offset : Nat) :
    ∃ start, (ofText cs).lineStart? ((ofText cs).line offset) = some start ∧ start ≤ offset ∧
      ∀ l s, (ofText cs).lineStart? l = some s → s ≤ offset → s ≤ start := by
  have hascending := starts_ascending cs
  obtain ⟨n, hn⟩ := Nat.exists_eq_succ_of_ne_zero (Nat.ne_of_gt (line_pos cs offset))
  have hle : (ofText cs).line offset ≤ (ofText cs).starts.length := List.countP_le_length
  have hlt : n < (ofText cs).starts.length := by omega
  have hget := List.getElem?_eq_getElem hlt
  refine ⟨(ofText cs).starts[n], by rw [hn]; exact hget, ?_, ?_⟩
  · rw [le_iff_lt_count hascending hget, ← line, hn]
    exact Nat.lt_succ_self n
  · intro l s hs hsle
    cases l with
    | zero => cases hs
    | succ l =>
      have hbefore : l < (ofText cs).line offset := (le_iff_lt_count hascending hs offset).mp hsle
      rcases Nat.lt_or_ge l n with hln | hln
      · exact Nat.le_of_lt (lineStart?_ascending cs (Nat.succ_lt_succ hln) hs hget)
      · obtain rfl : l = n := by omega
        exact Nat.le_of_eq (Option.some.inj (hs.symm.trans hget))

/-- Of each offset the index knows the line, its start and the column; the starts are those of the text, in order. -/
theorem lines_locate (cs : List Char) :
    (∀ offset, ∃ start,
      (ofText cs).line offset = ((bytes cs).take offset).count lineFeed + 1 ∧
      (ofText cs).line offset = lineAt (bisect (ofText cs).starts offset 0 (ofText cs).lineCount) ∧
      (ofText cs).lineStart? ((ofText cs).line offset) = some start ∧ start ≤ offset ∧
      (∀ l s, (ofText cs).lineStart? l = some s → s ≤ offset → s ≤ start) ∧
      (ofText cs).lineColumn offset = ((ofText cs).line offset, offset - start) ∧
      lineFeed ∉ ((bytes cs).take offset).drop start) ∧
    Monotone (ofText cs).line ∧
    (∀ l, ((ofText cs).lineStart? l).isSome ↔ 1 ≤ l ∧ l ≤ (ofText cs).lineCount) ∧
    (∀ l m s t, l < m → (ofText cs).lineStart? l = some s → (ofText cs).lineStart? m = some t → s < t) ∧
    ∀ s, (∃ l, (ofText cs).lineStart? l = some s) ↔ s = 0 ∨ ∃ i, s = i + 1 ∧ (bytes cs)[i]? = some lineFeed := by
  refine ⟨fun offset => ?_, fun _ _ => line_mono _, lineStart?_isSome_iff _, fun _ _ _ _ => lineStart?_ascending cs,
    exists_lineStart?_iff cs⟩
  obtain ⟨start, hstart, hle, hlast⟩ := lineStart?_last cs offset
  refine ⟨start, line_eq_count_bytes cs offset, line_eq_bisect cs offset, hstart, hle, hlast, ?_, ?_⟩
  · simp [lineColumn, hstart]
  · -- A line would start behind a line feed that stands there.
    intro hmem
    obtain ⟨i, hi⟩ := List.mem_iff_getElem?.mp hmem
    rw [List.getElem?_drop] at hi
    obtain ⟨hlt, -⟩ := List.getElem?_eq_some_iff.mp hi
    rw [List.getElem?_take_of_lt (by rw [List.length_take] at hlt; omega)] at hi
    obtain ⟨l, hl⟩ := (exists_lineStart?_iff cs (start + i + 1)).mpr (.inr ⟨start + i, rfl, hi⟩)
    have := hlast l (start + i + 1) hl (by rw [List.length_take] at hlt; omega)
    omega

/-- An empty line, and an offset inside the character behind it. -/
theorem lines_locate_inside :
    let x := ofText "ab\n\né".toList
    x.lineStart? 2 = some 3 ∧ x.lineStart? 3 = some 4 ∧ 3 < 4 ∧ x.line 5 = 3 ∧
      ∃ start, x.lineStart? (x.line 5) = some start ∧ 4 ≤ start ∧ start ≤ 5 ∧ x.lineColumn 5 = (x.line 5, 5 - start) := by
  intro x
  have hsecond : x.lineStart? 2 = some 3 := by decide
  have hthird : x.lineStart? 3 = some 4 := by decide
  obtain ⟨hlocates, -, -, hascending, -⟩ := lines_locate "ab\n\né".toList
  obtain ⟨start, -, -, hstart, hle, hlast, hcolumn, -⟩ := hlocates 5
  exact ⟨hsecond, hthird, hascending 2 3 3 4 (by decide) hsecond hthird, by decide, start, hstart,
    hlast 3 4 hthird (by decide), hle, hcolumn⟩

end LineIndex

end PuppetDocs
