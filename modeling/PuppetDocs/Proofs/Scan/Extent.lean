import PuppetDocs.Proofs.Scan.Lexeme
import PuppetDocs.Ruby.Scan

/-
  PuppetDocs.Proofs.Scan.Extent — where the hand-scanned stretches of a text end.

  Literals, regular expressions, embedded documents and heredoc bodies may run over several
  lines. For each of them one lemma says what stands at its end, and one (`_append`) that more
  text behind the end changes nothing. `blanks` can only be stable if it stops in front of the
  end of the text, as a backslash there may still join two lines.
-/

namespace PuppetDocs

/-! ## Delimited literals -/

namespace Delimiters

/-- A character that starts no interpolated part, given what stands behind it. -/
theorem not_sigil_append {d : Delimiters} {c : Char} {r : List Char}
    (h : ¬(some c == d.sigil && r.head? == some '\x7b') = true) (hr : r ≠ []) (x : List Char) :
    ¬(some c == d.sigil && (r ++ x).head? == some '\x7b') = true := by
  cases r with
  | nil => exact absurd rfl hr
  | cons e r => exact h

theorem bodyFrom_cons (d : Delimiters) (depth : Nat) (c : Char) (r : List Char) :
    d.bodyFrom depth 0 (c :: r) =
      if c == '\\' then (match r with | [] => none | _ :: s => (d.bodyFrom depth 0 s).map (· + 2))
      else if some c == d.sigil && r.head? == some '\x7b' then
        (match r with | [] => none | _ :: s => (d.bodyFrom depth 1 s).map (· + 2))
      else if some c == d.nest then (d.bodyFrom (depth + 1) 0 r).map (· + 1)
      else if c == d.close then (match depth with | 0 => some 0 | depth + 1 => (d.bodyFrom depth 0 r).map (· + 1))
      else (d.bodyFrom depth 0 r).map (· + 1) :=
  bodyFrom.eq_def d depth 0 (c :: r)

theorem bodyFrom_nil (d : Delimiters) (depth braces : Nat) : d.bodyFrom depth braces [] = none := by
  cases braces <;> rfl

/-- Behind a body stands its closing delimiter. -/
theorem bodyFrom_close {d : Delimiters} {depth braces : Nat} {cs : List Char} {n : Nat}
    (h : d.bodyFrom depth braces cs = some n) : cs[n]? = some d.close := by
  fun_induction d.bodyFrom depth braces cs generalizing n with
  | case1 | case3 | case5 => cases h
  | case2 depth braces c r =>
    rename_i ih
    obtain ⟨m, hm, rfl⟩ := Option.map_eq_some_iff.mp h
    exact ih hm
  | case4 depth c hc e s ih =>
    obtain ⟨m, hm, rfl⟩ := Option.map_eq_some_iff.mp h
    exact ih hm
  | case6 depth c hc e s hs ih =>
    obtain ⟨m, hm, rfl⟩ := Option.map_eq_some_iff.mp h
    exact ih hm
  | case7 depth c r hc hs hn ih =>
    obtain ⟨m, hm, rfl⟩ := Option.map_eq_some_iff.mp h
    exact ih hm
  | case8 c r hc hs hn hclose =>
    cases h
    rw [List.getElem?_cons_zero, beq_iff_eq.mp hclose]
  | case9 c r hc hs hn hclose depth ih =>
    obtain ⟨m, hm, rfl⟩ := Option.map_eq_some_iff.mp h
    exact ih hm
  | case10 depth c r hc hs hn hclose ih =>
    obtain ⟨m, hm, rfl⟩ := Option.map_eq_some_iff.mp h
    exact ih hm

/-- Text behind the closing delimiter does not move it. -/
theorem bodyFrom_append {d : Delimiters} (hd : d.sigil ≠ some d.close) {depth braces : Nat} {cs : List Char} {n : Nat}
    (h : d.bodyFrom depth braces cs = some n) (x : List Char) : d.bodyFrom depth braces (cs ++ x) = some n := by
  fun_induction d.bodyFrom depth braces cs generalizing n with
  | case1 | case3 | case5 => cases h
  | case2 depth braces c r =>
    rename_i ih
    obtain ⟨m, hm, rfl⟩ := Option.map_eq_some_iff.mp h
    rw [List.cons_append, bodyFrom, ih hm]
    rfl
  | case4 depth c hc e s ih =>
    obtain ⟨m, hm, rfl⟩ := Option.map_eq_some_iff.mp h
    simp only [List.cons_append, bodyFrom_cons, if_pos hc, ih hm, Option.map_some]
  | case6 depth c hc e s hs ih =>
    obtain ⟨m, hm, rfl⟩ := Option.map_eq_some_iff.mp h
    have hs' : (some c == d.sigil && (e :: (s ++ x)).head? == some '\x7b') = true := hs
    simp only [List.cons_append, bodyFrom_cons, if_neg hc, if_pos hs', ih hm, Option.map_some]
  | case7 depth c r hc hs hn ih =>
    obtain ⟨m, hm, rfl⟩ := Option.map_eq_some_iff.mp h
    have hr : r ≠ [] := by rintro rfl; rw [bodyFrom_nil] at hm; cases hm
    simp only [List.cons_append, bodyFrom_cons, if_neg hc, if_neg (not_sigil_append hs hr x), if_pos hn, ih hm, Option.map_some]
  | case8 c r hc hs hn hclose =>
    have hs' : ¬(some c == d.sigil && (r ++ x).head? == some '\x7b') = true := by
      have : (some c == d.sigil) = false := by
        rw [beq_iff_eq.mp hclose]
        exact beq_false_of_ne hd.symm
      simp [this]
    simp only [List.cons_append, bodyFrom_cons, if_neg hc, if_neg hs', if_neg hn, if_pos hclose, h]
  | case9 c r hc hs hn hclose depth ih =>
    obtain ⟨m, hm, rfl⟩ := Option.map_eq_some_iff.mp h
    have hr : r ≠ [] := by rintro rfl; rw [bodyFrom_nil] at hm; cases hm
    simp only [List.cons_append, bodyFrom_cons, if_neg hc, if_neg (not_sigil_append hs hr x), if_neg hn, if_pos hclose, ih hm,
      Option.map_some]
  | case10 depth c r hc hs hn hclose ih =>
    obtain ⟨m, hm, rfl⟩ := Option.map_eq_some_iff.mp h
    have hr : r ≠ [] := by rintro rfl; rw [bodyFrom_nil] at hm; cases hm
    simp only [List.cons_append, bodyFrom_cons, if_neg hc, if_neg (not_sigil_append hs hr x), if_neg hn, if_neg hclose, ih hm,
      Option.map_some]

end Delimiters

namespace Ruby

open Text (run isNameChar)

/-! ## Regular expressions -/

theorem regexBody?_cons {c : Char} (hc : c = '\\' → False) (inClass : Bool) (r : List Char) :
    regexBody? inClass (c :: r) =
      if c == '[' then (regexBody? true r).map (· + 1)
      else if c == ']' then (regexBody? false r).map (· + 1)
      else if c == '/' && !inClass then some 0
      else (regexBody? inClass r).map (· + 1) := by
  rw [regexBody?.eq_def]
  simp

/-- Behind a regular expression stands its closing slash. -/
theorem regexBody?_slash {inClass : Bool} {cs : List Char} {n : Nat} (h : regexBody? inClass cs = some n) :
    cs[n]? = some '/' := by
  fun_induction regexBody? inClass cs generalizing n with
  | case1 | case2 => cases h
  | case3 inClass e s ih =>
    obtain ⟨m, hm, rfl⟩ := Option.map_eq_some_iff.mp h
    exact ih hm
  | case4 inClass c r hc ho ih =>
    obtain ⟨m, hm, rfl⟩ := Option.map_eq_some_iff.mp h
    exact ih hm
  | case5 inClass c r hc ho hcl ih =>
    obtain ⟨m, hm, rfl⟩ := Option.map_eq_some_iff.mp h
    exact ih hm
  | case6 inClass c r hc ho hcl hslash =>
    cases h
    simp only [Bool.and_eq_true, beq_iff_eq] at hslash
    rw [List.getElem?_cons_zero, hslash.1]
  | case7 inClass c r hc ho hcl hslash ih =>
    obtain ⟨m, hm, rfl⟩ := Option.map_eq_some_iff.mp h
    exact ih hm

theorem regexBody?_append {inClass : Bool} {cs : List Char} {n : Nat} (h : regexBody? inClass cs = some n)
    (x : List Char) : regexBody? inClass (cs ++ x) = some n := by
  fun_induction regexBody? inClass cs generalizing n with
  | case1 | case2 => cases h
  | case3 inClass e s ih =>
    obtain ⟨m, hm, rfl⟩ := Option.map_eq_some_iff.mp h
    simp only [List.cons_append, regexBody?, ih hm, Option.map_some]
  | case4 inClass c r hc ho ih =>
    obtain ⟨m, hm, rfl⟩ := Option.map_eq_some_iff.mp h
    simp only [List.cons_append, regexBody?_cons hc, if_pos ho, ih hm, Option.map_some]
  | case5 inClass c r hc ho hcl ih =>
    obtain ⟨m, hm, rfl⟩ := Option.map_eq_some_iff.mp h
    simp only [List.cons_append, regexBody?_cons hc, if_neg ho, if_pos hcl, ih hm, Option.map_some]
  | case6 inClass c r hc ho hcl hslash =>
    simp only [List.cons_append, regexBody?_cons hc, if_neg ho, if_neg hcl, if_pos hslash, h]
  | case7 inClass c r hc ho hcl hslash ih =>
    obtain ⟨m, hm, rfl⟩ := Option.map_eq_some_iff.mp h
    simp only [List.cons_append, regexBody?_cons hc, if_neg ho, if_neg hcl, if_neg hslash, ih hm, Option.map_some]

/-! ## Lines -/

/-- A line feed ends the text. -/
def EndsLine (cs : List Char) : Prop := ∃ a, cs = a ++ ['\n']

theorem EndsLine.of_append {a b : List Char} (h : EndsLine (a ++ b)) (hb : b ≠ []) : EndsLine b := by
  obtain ⟨x, hx⟩ := h
  refine ⟨b.dropLast, ?_⟩
  have hlast : b.getLast hb = '\n' := by
    have := congrArg List.getLast? hx
    rw [List.getLast?_append, List.getLast?_concat, List.getLast?_eq_some_getLast hb, Option.some_or] at this
    exact Option.some.inj this
  rw [← hlast, List.dropLast_concat_getLast]

theorem EndsLine.drop {cs : List Char} (h : EndsLine cs) {n : Nat} (hn : n < cs.length) : EndsLine (cs.drop n) := by
  rw [← List.take_append_drop n cs] at h
  exact h.of_append (by simpa using hn)

theorem EndsLine.ne_nil {cs : List Char} (h : EndsLine cs) : cs ≠ [] := by
  obtain ⟨a, rfl⟩ := h
  simp

/-- A text that ends its last line, cut behind its first line feed. -/
theorem EndsLine.first {cs : List Char} (h : EndsLine cs) : ∃ a x, '\n' ∉ a ∧ cs = a ++ '\n' :: x := by
  obtain ⟨a, rfl⟩ := h
  have hmem : '\n' ∈ a ++ ['\n'] := by simp
  obtain ⟨b, x, hx, hb⟩ := List.eq_append_cons_of_mem hmem
  exact ⟨b, x, hb, hx⟩

/-- What does not look behind a line feed does not see text appended to whole lines. -/
theorem EndsLine.append_eq {β : Sort _} {f : List Char → β} (hf : ∀ a x y, f (a ++ '\n' :: x) = f (a ++ '\n' :: y))
    {cs : List Char} (h : EndsLine cs) (x : List Char) : f (cs ++ x) = f cs := by
  obtain ⟨a, rfl⟩ := h
  simpa using hf a x []

/-- `l` is the line in front of `below`; only the last line of a text may lack its line feed. -/
def IsLine (l below : List Char) : Prop := ∃ a, '\n' ∉ a ∧ (l = a ++ ['\n'] ∨ l = a ∧ below = [])

theorem lineWidth_cons {c : Char} (hc : c ≠ '\n') (r : List Char) : Text.lineWidth (c :: r) = 1 + Text.lineWidth r := by
  rw [Text.lineWidth, if_neg (by simpa using hc)]

theorem lineWidth_le (cs : List Char) : Text.lineWidth cs ≤ cs.length := by
  induction cs with
  | nil => exact Nat.le_refl _
  | cons c r ih =>
    rw [Text.lineWidth, List.length_cons]
    split <;> omega

theorem isLine_lineWidth (cs : List Char) :
    IsLine (cs.take (Text.lineWidth cs)) (cs.drop (Text.lineWidth cs)) := by
  induction cs with
  | nil => exact ⟨[], by simp, .inr ⟨rfl, rfl⟩⟩
  | cons c r ih =>
    by_cases hc : c = '\n'
    · subst hc
      exact ⟨[], by simp, .inl rfl⟩
    · obtain ⟨a, ha, hl⟩ := ih
      rw [lineWidth_cons hc, Nat.add_comm, List.take_succ_cons, List.drop_succ_cons]
      refine ⟨c :: a, by simpa [ha] using Ne.symm hc, hl.imp ?_ ?_⟩
      · intro hl; rw [hl]; rfl
      · intro hl; exact ⟨by rw [hl.1], hl.2⟩

theorem lineWidth_line (a x y : List Char) : Text.lineWidth (a ++ '\n' :: x) = Text.lineWidth (a ++ '\n' :: y) := by
  induction a with
  | nil => simp [Text.lineWidth]
  | cons c a ih => simp only [List.cons_append, Text.lineWidth, ih]

/-! ## Embedded documents and the data marker -/

theorem embeddedDoc?_pos {cs : List Char} {w : Nat} (h : embeddedDoc? cs = some w) : 0 < w := by
  rcases cs with _ | ⟨c, r⟩
  · cases h
  · rw [embeddedDoc?] at h
    split at h
    · cases h; omega
    · obtain ⟨m, -, rfl⟩ := Option.map_eq_some_iff.mp h
      omega

theorem embeddedDoc?_le {cs : List Char} {w : Nat} (h : embeddedDoc? cs = some w) : w ≤ cs.length := by
  induction cs generalizing w with
  | nil => cases h
  | cons c r ih =>
    rw [embeddedDoc?] at h
    split at h
    · cases h
      have := lineWidth_le r
      rw [List.length_cons]; omega
    · obtain ⟨m, hm, rfl⟩ := Option.map_eq_some_iff.mp h
      have := ih hm
      rw [List.length_cons]; omega

/-- An embedded document ends with the line that starts with `=end`. -/
theorem embeddedDoc?_end {cs : List Char} {w : Nat} (h : embeddedDoc? cs = some w) :
    ∃ inside last, cs.take w = inside ++ '\n' :: last ∧ "=end".toList <+: last ∧ IsLine last (cs.drop w) := by
  induction cs generalizing w with
  | nil => cases h
  | cons c r ih =>
    rw [embeddedDoc?] at h
    split at h
    · rename_i hc
      simp only [Bool.and_eq_true, beq_iff_eq] at hc
      cases h
      rw [Nat.add_comm, List.take_succ_cons, List.drop_succ_cons]
      refine ⟨[], r.take (Text.lineWidth r), by rw [hc.1]; rfl, ?_, isLine_lineWidth r⟩
      obtain ⟨t, rfl⟩ := List.isPrefixOf_iff_prefix.mp hc.2
      refine ⟨t.take (Text.lineWidth t), ?_⟩
      have hwidth : Text.lineWidth ("=end".toList ++ t) = "=end".toList.length + Text.lineWidth t := by
        simp [Text.lineWidth]
        omega
      rw [hwidth, List.take_length_add_append]
    · obtain ⟨m, hm, rfl⟩ := Option.map_eq_some_iff.mp h
      obtain ⟨inside, last, htake, hend, hline⟩ := ih hm
      exact ⟨c :: inside, last, by rw [List.take_succ_cons, htake]; rfl, hend, hline⟩

theorem embeddedDoc?_append {cs : List Char} (hcs : EndsLine cs) {w : Nat} (h : embeddedDoc? cs = some w)
    (x : List Char) : embeddedDoc? (cs ++ x) = some w := by
  induction cs generalizing w with
  | nil => cases h
  | cons c r ih =>
    by_cases hr : r = []
    · subst hr
      rw [embeddedDoc?] at h
      split at h
      · rename_i hc
        simp at hc
      · cases h
    · have hr' : EndsLine r := EndsLine.of_append (a := [c]) hcs hr
      have hpre : "=end".toList.isPrefixOf (r ++ x) = "=end".toList.isPrefixOf r :=
        hr'.append_eq (fun a x y => by rw [isPrefixOf_line (by decide), isPrefixOf_line (by decide)]) x
      rw [embeddedDoc?] at h
      rw [List.cons_append, embeddedDoc?, hpre, hr'.append_eq lineWidth_line]
      split at h
      · rename_i hc
        rw [if_pos hc, h]
      · rename_i hc
        obtain ⟨m, hm, rfl⟩ := Option.map_eq_some_iff.mp h
        rw [if_neg hc, ih hr' hm]
        rfl

theorem isDataMarker_line (a x y : List Char) : isDataMarker (a ++ '\n' :: x) = isDataMarker (a ++ '\n' :: y) := by
  simp only [isDataMarker, Text.after?, isPrefixOf_line (e := '\n') (s := "__END__".toList) (by decide)]
  by_cases h : "__END__".toList.isPrefixOf a = true
  · have hlen := isPrefixOf_le h
    rw [if_pos h, if_pos h, drop_line hlen, drop_line hlen]
    rcases a.drop "__END__".toList.length with _ | ⟨c, _ | ⟨d, s⟩⟩
    · rfl
    · by_cases hc : c = '\n'
      · subst hc; rfl
      by_cases hr : c = '\r'
      · subst hr; rfl
      simp [hc, hr]
    · by_cases hc : c = '\n'
      · subst hc; rfl
      by_cases hr : c = '\r'
      · subst hr
        by_cases hd : d = '\n'
        · subst hd; rfl
        · simp [hd]
      simp [hc, hr]
  · rw [if_neg h, if_neg h]

/-- A line that starts with another character than `=` and `_` is no marker. -/
theorem not_marker {c : Char} (hc : c ≠ '=' ∧ c ≠ '_') (r : List Char) :
    "=begin".toList.isPrefixOf (c :: r) = false ∧ isDataMarker (c :: r) = false := by
  have hassign : ('=' == c) = false := by simpa using hc.1.symm
  have hbar : ('_' == c) = false := by simpa using hc.2.symm
  constructor
  · simp [List.isPrefixOf, hassign]
  · simp [isDataMarker, Text.after?, List.isPrefixOf, hbar]

/-! ## Blanks -/

theorem blanks_le (cs : List Char) : blanks cs ≤ cs.length := by
  fun_induction blanks cs <;> simp only [List.length_cons, List.length_nil] <;> omega

theorem blanks_text {c : Char} (hc : c ∉ [' ', '\t', '\r', '\x0c', '\\']) (r : List Char) : blanks (c :: r) = 0 := by
  simp only [List.mem_cons, List.not_mem_nil, or_false, not_or] at hc
  obtain ⟨hspace, htab, hreturn, hfeed, hslash⟩ := hc
  unfold blanks
  split
  · rename_i heq
    exact absurd (List.cons.inj heq).1 hslash
  · rename_i heq
    exact absurd (List.cons.inj heq).1 hslash
  · rename_i heq
    obtain ⟨rfl, -⟩ := List.cons.inj heq
    simp [hspace, htab, hreturn, hfeed]
  · rename_i heq
    cases heq

theorem blanks_gap {gap : List Char} (h : ∀ c ∈ gap, c = ' ') (cs : List Char) :
    blanks (gap ++ cs) = gap.length + blanks cs := by
  induction gap with
  | nil => simp
  | cons c gap ih =>
    have hc : c = ' ' := h c (by simp)
    subst hc
    have hgap := ih fun d hd => h d (by simp [hd])
    rw [List.cons_append, blanks]
    · simp only [beq_self_eq_true, Bool.true_or, if_true, hgap, List.length_cons]
      omega
    all_goals
      intro rest heq
      cases heq

/-- Blanks that stop in front of the end of the text stop there in any longer text too. -/
theorem blanks_append {cs : List Char} (hcs : EndsLine cs) (h : blanks cs < cs.length) (x : List Char) :
    blanks (cs ++ x) = blanks cs := by
  fun_induction blanks cs with
  | case1 r ih =>
    have hr : r ≠ [] := by rintro rfl; simp [blanks] at h
    rw [List.cons_append, List.cons_append, blanks,
      ih (hcs.of_append (a := ['\\', '\n']) hr) (by simp only [List.length_cons] at h; omega)]
  | case2 r ih =>
    have hr : r ≠ [] := by rintro rfl; simp [blanks] at h
    rw [List.cons_append, List.cons_append, List.cons_append, blanks,
      ih (hcs.of_append (a := ['\\', '\r', '\n']) hr) (by simp only [List.length_cons] at h; omega)]
  | case3 c r h1 h2 hc ih =>
    have hr : r ≠ [] := by rintro rfl; simp [blanks] at h
    have hb : c ≠ '\\' := by rintro rfl; simp at hc
    rw [List.cons_append, blanks, if_pos hc,
      ih (hcs.of_append (a := [c]) hr) (by simp only [List.length_cons] at h; omega)]
    · intro r' he; exact absurd he hb
    · intro r' he; exact absurd he hb
  | case4 c r h1 h2 hc =>
    rw [List.cons_append, blanks, if_neg hc]
    -- The line feed at the end keeps what follows a backslash within the text.
    · rintro r' rfl he
      have hr : r ≠ [] := by rintro rfl; obtain ⟨a, ha⟩ := hcs; simpa using congrArg List.getLast? ha
      obtain ⟨d, s, rfl⟩ := List.exists_cons_of_ne_nil hr
      obtain ⟨rfl, -⟩ := List.cons.inj he
      exact h1 s rfl rfl
    · rintro r' rfl he
      have hr : r ≠ [] := by rintro rfl; obtain ⟨a, ha⟩ := hcs; simpa using congrArg List.getLast? ha
      obtain ⟨d, s, rfl⟩ := List.exists_cons_of_ne_nil hr
      obtain ⟨rfl, he⟩ := List.cons.inj he
      have hs : s ≠ [] := by rintro rfl; obtain ⟨a, ha⟩ := hcs; simpa using congrArg List.getLast? ha
      obtain ⟨e, t, rfl⟩ := List.exists_cons_of_ne_nil hs
      simp only [List.cons_append, List.cons.injEq] at he
      exact h2 t rfl (by rw [he.2.1])
  | case5 => simp at h

/-! ## Heredoc bodies -/

theorem physicalLines_line {l : List Char} (hl : '\n' ∉ l) (r : List Char) :
    Text.physicalLines (l ++ '\n' :: r) = (l ++ ['\n']) :: Text.physicalLines r := by
  induction l with
  | nil => rfl
  | cons c l ih =>
    simp only [List.mem_cons, not_or] at hl
    rw [List.cons_append, Text.physicalLines, if_neg (by simpa using Ne.symm hl.1), ih hl.2]
    rfl

theorem physicalLines_last {l : List Char} (hl : '\n' ∉ l) (hne : l ≠ []) : Text.physicalLines l = [l] := by
  induction l with
  | nil => exact absurd rfl hne
  | cons c l ih =>
    simp only [List.mem_cons, not_or] at hl
    rw [Text.physicalLines, if_neg (by simpa using Ne.symm hl.1)]
    by_cases h : l = []
    · subst h; rfl
    · rw [ih hl.2 h]

/-- The first line of a text and the text below it. -/
theorem physicalLines_cons {cs l : List Char} {ls : List (List Char)} (h : Text.physicalLines cs = l :: ls) :
    ∃ below, cs = l ++ below ∧ l ≠ [] ∧ IsLine l below ∧ ls = Text.physicalLines below := by
  rcases line_cases cs with hn | ⟨a, x, ha, rfl⟩
  · by_cases hcs : cs = []
    · subst hcs; cases h
    · rw [physicalLines_last hn hcs] at h
      cases h
      exact ⟨[], by simp, hcs, ⟨cs, hn, .inr ⟨rfl, rfl⟩⟩, rfl⟩
  · rw [physicalLines_line ha] at h
    cases h
    exact ⟨x, by simp, by simp, ⟨a, ha, .inl rfl⟩, rfl⟩

theorem physicalLines_append {cs : List Char} (hcs : cs = [] ∨ EndsLine cs) (x : List Char) :
    Text.physicalLines (cs ++ x) = Text.physicalLines cs ++ Text.physicalLines x := by
  rcases hcs with rfl | hcs
  · rfl
  -- The induction is on the number of lines: each step takes off the first one.
  induction hn : cs.length using Nat.strongRecOn generalizing cs with
  | ind n ih =>
    subst hn
    obtain ⟨a, y, ha, rfl⟩ := hcs.first
    rw [List.append_assoc, List.cons_append, physicalLines_line ha, physicalLines_line ha, List.cons_append]
    by_cases hy : y = []
    · subst hy; rfl
    · have hy' : EndsLine y := (show EndsLine ((a ++ ['\n']) ++ y) by simpa using hcs).of_append hy
      rw [ih y.length (by simp; omega) hy' rfl]

theorem mapM_error {α β ε : Type} {f : α → Except ε β} {xs : List α} {e : ε} (h : xs.mapM f = .error e) :
    ∃ x ∈ xs, f x = .error e := by
  induction xs with
  | nil => cases h
  | cons x xs ih =>
    rw [List.mapM_cons] at h
    cases hx : f x with
    | error e' =>
      rw [hx] at h
      cases h
      exact ⟨x, List.mem_cons_self, hx⟩
    | ok y =>
      rw [hx] at h
      cases hxs : xs.mapM f with
      | error e' =>
        rw [hxs] at h
        cases h
        obtain ⟨z, hz, hfz⟩ := ih hxs
        exact ⟨z, List.mem_cons_of_mem x hz, hfz⟩
      | ok ys =>
        rw [hxs] at h
        cases h

/-- A body has no value only if it loses its indentation and a line of it cannot. -/
theorem Heredoc.value_error {d : Heredoc} {body : List (List Char)} {e : ParseFailure} (h : d.value body = .error e) :
    d.squiggly = true ∧ ∃ line ∈ body, unindent (commonIndent body) line = .error e := by
  unfold value at h
  split at h
  · next hsquiggly =>
    refine ⟨hsquiggly, mapM_error ?_⟩
    change dedent body = .error e
    cases hdedent : dedent body with
    | error e' =>
      rw [hdedent] at h
      exact congrArg Except.error (Except.error.inj h)
    | ok lines =>
      rw [hdedent] at h
      cases h
  · cases h

theorem takeBody?_append {h : Heredoc} {ls body after : List (List Char)} (hb : h.takeBody? ls = some (body, after))
    (ms : List (List Char)) : h.takeBody? (ls ++ ms) = some (body, after ++ ms) := by
  induction ls generalizing body with
  | nil => cases hb
  | cons l ls ih =>
    rw [Heredoc.takeBody?] at hb
    rw [List.cons_append, Heredoc.takeBody?]
    split at hb
    · rename_i hc
      cases hb
      rw [if_pos hc]
    · rename_i hc
      obtain ⟨⟨b, a⟩, hba, he⟩ := Option.map_eq_some_iff.mp hb
      cases he
      rw [if_neg hc, ih hba]
      rfl

/-- `body` is the lines of the open heredocs, in their order, each up to its closing tag; `below` follows. -/
inductive Bodies : List Heredoc → List Char → List Char → Prop
  | done (below : List Char) : Bodies [] [] below
  | line {h : Heredoc} {hs : List Heredoc} {l body below : List Char} :
      IsLine l (body ++ below) → h.closes (Heredoc.content l) = false → Bodies (h :: hs) body below →
      Bodies (h :: hs) (l ++ body) below
  | close {h : Heredoc} {hs : List Heredoc} {l body below : List Char} :
      IsLine l (body ++ below) → h.closes (Heredoc.content l) = true → Bodies hs body below →
      Bodies (h :: hs) (l ++ body) below

theorem takeBody?_bodies (hs : List Heredoc) {h : Heredoc} {cs : List Char} {body after : List (List Char)}
    (hb : h.takeBody? (Text.physicalLines cs) = some (body, after)) :
    ∃ front below, cs = front ++ below ∧ after = Text.physicalLines below ∧
      ∀ more rest, below = more ++ rest → Bodies hs more rest → Bodies (h :: hs) (front ++ more) rest := by
  generalize hls : Text.physicalLines cs = ls at hb
  induction ls generalizing cs body with
  | nil => cases hb
  | cons l ls ih =>
    obtain ⟨below, rfl, -, hline, rfl⟩ := physicalLines_cons hls
    rw [Heredoc.takeBody?] at hb
    split at hb
    · rename_i hc
      cases hb
      refine ⟨l, below, rfl, rfl, fun more rest hm hbs => ?_⟩
      subst hm
      exact .close hline hc hbs
    · rename_i hc
      obtain ⟨⟨b, a⟩, hba, he⟩ := Option.map_eq_some_iff.mp hb
      cases he
      obtain ⟨front, below', rfl, hafter, hmore⟩ := ih rfl hba
      refine ⟨l ++ front, below', by simp, hafter, fun more rest hm hbs => ?_⟩
      subst hm
      rw [List.append_assoc]
      exact .line (by simpa using hline) (by simpa using hc) (hmore more rest rfl hbs)

theorem readBodies_bodies {lines : LineIndex} {tokens tokens' : List (Token TokenKind)} {ps : List Pending}
    {cs : List Char} {rest : List (List Char)}
    (h : readBodies lines tokens ps (Text.physicalLines cs) = .ok (tokens', rest)) :
    ∃ body, cs = body ++ rest.flatten ∧ Bodies (ps.map Pending.heredoc) body rest.flatten := by
  induction ps generalizing cs tokens with
  | nil =>
    cases h
    exact ⟨[], by simp [Text.flatten_physicalLines], .done _⟩
  | cons p ps ih =>
    rw [readBodies] at h
    split at h
    · cases h
    rename_i body after hb
    split at h
    · cases h
    · obtain ⟨front, below, rfl, rfl, hmore⟩ := takeBody?_bodies (ps.map Pending.heredoc) hb
      obtain ⟨more, hm, hbs⟩ := ih h
      exact ⟨front ++ more, by rw [List.append_assoc, ← hm], hmore more rest.flatten hm hbs⟩

/-- Heredocs that are closed in front of `x` have the same bodies there. -/
theorem readBodies_append {lines lines' : LineIndex} {tokens tokens' : List (Token TokenKind)} {ps : List Pending}
    {ls rest : List (List Char)} (h : readBodies lines tokens ps ls = .ok (tokens', rest)) (ms : List (List Char)) :
    readBodies lines' tokens ps (ls ++ ms) = .ok (tokens', rest ++ ms) := by
  induction ps generalizing ls tokens with
  | nil => cases h; rfl
  | cons p ps ih =>
    rw [readBodies] at h
    split at h
    · cases h
    rename_i body after hb
    split at h
    · cases h
    · rename_i value hvalue
      rw [readBodies, takeBody?_append hb]
      dsimp only
      rw [hvalue]
      exact ih h

end Ruby
end PuppetDocs
