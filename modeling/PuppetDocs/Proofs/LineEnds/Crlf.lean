import PuppetDocs.Proofs.Scan.Extent
import Mathlib.Data.List.Induction

/-
  PuppetDocs.Proofs.LineEnds.Crlf — a text whose lines end in a carriage return and a line feed.

  `crlf` puts a carriage return in front of every line feed. Much of what the scanner asks of a
  text has the same answer for both: it stops at a carriage return as it does at a line feed
  (`crlf_eq`). What goes on over the ends of lines — bodies of literals, embedded documents,
  heredocs — takes in as many characters more as there are line feeds in it, so the front part
  `cs.take n` of one text becomes `crlf (cs.take n)` in the other.
-/

namespace PuppetDocs

namespace Text

open Ruby (breaks)

/-- The text with a carriage return in front of every line feed. -/
def crlf (cs : List Char) : List Char := cs.flatMap fun c => if c = '\n' then ['\r', '\n'] else [c]

@[simp] theorem crlf_nil : crlf [] = [] := rfl

@[simp] theorem crlf_newline (cs : List Char) : crlf ('\n' :: cs) = '\r' :: '\n' :: crlf cs := by simp [crlf]

theorem crlf_cons {c : Char} (hc : c ≠ '\n') (cs : List Char) : crlf (c :: cs) = c :: crlf cs := by simp [crlf, hc]

@[simp] theorem crlf_append (a b : List Char) : crlf (a ++ b) = crlf a ++ crlf b := List.flatMap_append

/-- A text within one line stays as it is. -/
theorem crlf_line {cs : List Char} (h : '\n' ∉ cs) : crlf cs = cs := by
  induction cs with
  | nil => rfl
  | cons c cs ih =>
    simp only [List.mem_cons, not_or] at h
    rw [crlf_cons (Ne.symm h.1), ih h.2]

theorem crlf_eq_nil {cs : List Char} : crlf cs = [] ↔ cs = [] := by
  rcases cs with _ | ⟨c, cs⟩
  · simp
  · by_cases hc : c = '\n'
    · subst hc; simp
    · simp [crlf_cons hc]

theorem take_crlf (cs : List Char) (n : Nat) : (crlf cs).take (crlf (cs.take n)).length = crlf (cs.take n) := by
  conv_lhs => rw [← List.take_append_drop n cs, crlf_append]
  simp

theorem drop_crlf (cs : List Char) (n : Nat) : (crlf cs).drop (crlf (cs.take n)).length = crlf (cs.drop n) := by
  conv_lhs => rw [← List.take_append_drop n cs, crlf_append]
  simp

theorem count_crlf (cs : List Char) : (crlf cs).count '\n' = cs.count '\n' := by
  induction cs with
  | nil => rfl
  | cons c cs ih =>
    by_cases hc : c = '\n'
    · subst hc; simp [ih]
    · simp [crlf_cons hc, hc, ih]

theorem crlf_flatten (ls : List (List Char)) : (ls.map crlf).flatten = crlf ls.flatten := by
  induction ls with
  | nil => rfl
  | cons l ls ih => simp [ih]

/-- The last line is the same in both texts. -/
theorem crlf_takeWhile_reverse (cs : List Char) :
    (crlf cs).reverse.takeWhile (· ≠ '\n') = cs.reverse.takeWhile (· ≠ '\n') := by
  induction cs using List.reverseRecOn with
  | nil => rfl
  | append_singleton cs c ih =>
    by_cases hc : c = '\n'
    · subst hc; simp
    · simpa [crlf_cons hc, hc] using ih

theorem crlf_getLast? (cs : List Char) : (crlf cs).getLast? = cs.getLast? := by
  rcases List.eq_nil_or_concat cs with rfl | ⟨cs, c, rfl⟩
  · rfl
  · by_cases hc : c = '\n'
    · subst hc; simp
    · simp [crlf_cons hc]

/-- What takes either end of a line for the end of the text does not tell the two texts apart. -/
theorem crlf_eq {β : Sort _} {f : List Char → β} (hf : ∀ e ∈ breaks, ∀ a x, f (a ++ e :: x) = f a) (cs : List Char) :
    f (crlf cs) = f cs := by
  rcases Ruby.line_cases cs with hn | ⟨a, x, ha, rfl⟩
  · rw [crlf_line hn]
  · rw [crlf_append, crlf_line ha, crlf_newline, hf '\r' (by decide), hf '\n' (by decide)]

theorem run_crlf {p : Char → Bool} (hp : p '\n' = false ∧ p '\r' = false) (cs : List Char) :
    run p (crlf cs) = run p cs :=
  crlf_eq (fun _ he => Ruby.run_line (Ruby.break_apart hp he)) cs

theorem isPrefixOf_crlf {s : List Char} (hs : '\n' ∉ s ∧ '\r' ∉ s) (cs : List Char) :
    s.isPrefixOf (crlf cs) = s.isPrefixOf cs :=
  crlf_eq (fun _ he => Ruby.isPrefixOf_line (Ruby.break_cases (p := (· ∉ s)) hs he)) cs

theorem head?_crlf {c : Char} (hc : c ∉ breaks) (cs : List Char) :
    ((crlf cs).head? == some c) = (cs.head? == some c) := by
  rcases cs with _ | ⟨d, cs⟩
  · rfl
  · by_cases hd : d = '\n'
    · subst hd
      simp only [breaks, List.mem_cons, List.not_mem_nil, or_false, not_or] at hc
      simp [Ne.symm hc.1, Ne.symm hc.2]
    · rw [crlf_cons hd]
      rfl

/-! ## Words -/

/-- The piece up to the first blank is the same, and the other pieces are so but for empty ones. -/
theorem splitBy_crlf (cs : List Char) : ∃ front pieces pieces', splitBy isBlank cs = front :: pieces ∧
    splitBy isBlank (crlf cs) = front :: pieces' ∧ pieces'.filter (!·.isEmpty) = pieces.filter (!·.isEmpty) := by
  have hnewline : isBlank '\n' = true := by decide
  have hreturn : isBlank '\r' = true := by decide
  induction cs with
  | nil => exact ⟨[], [], [], rfl, rfl, rfl⟩
  | cons c cs ih =>
    obtain ⟨front, pieces, pieces', h, h', hpieces⟩ := ih
    by_cases hc : c = '\n'
    · subst hc
      exact ⟨[], front :: pieces, [] :: front :: pieces', by simp [splitBy, hnewline, h],
        by simp [splitBy, hnewline, hreturn, h'], by simp [List.filter_cons, hpieces]⟩
    rw [crlf_cons hc, splitBy, splitBy, h, h']
    split
    · exact ⟨[], front :: pieces, front :: pieces', rfl, rfl, by simp [List.filter_cons, hpieces]⟩
    · exact ⟨c :: front, pieces, pieces', rfl, rfl, hpieces⟩

theorem words_crlf (cs : List Char) : words (crlf cs) = words cs := by
  obtain ⟨front, pieces, pieces', h, h', hpieces⟩ := splitBy_crlf cs
  rw [words, words, h, h', List.filter_cons, List.filter_cons, hpieces]

/-! ## Lines -/

theorem lineWidth_crlf (cs : List Char) : lineWidth (crlf cs) = (crlf (cs.take (lineWidth cs))).length := by
  induction cs with
  | nil => rfl
  | cons c cs ih =>
    by_cases hc : c = '\n'
    · subst hc; simp [lineWidth]
    · simp [lineWidth, crlf_cons hc, hc, ih, Nat.add_comm 1]

theorem physicalLines_crlf (cs : List Char) : physicalLines (crlf cs) = (physicalLines cs).map crlf := by
  generalize hls : physicalLines cs = ls
  induction ls generalizing cs with
  | nil =>
    have hcs := flatten_physicalLines cs
    rw [hls] at hcs
    subst hcs
    rfl
  | cons l ls ih =>
    obtain ⟨below, rfl, hne, ⟨a, ha, hl⟩, rfl⟩ := Ruby.physicalLines_cons hls
    rcases hl with rfl | ⟨rfl, rfl⟩
    · have hline : '\n' ∉ a ++ ['\r'] := by simpa using ha
      have hcut := Ruby.physicalLines_line hline (crlf below)
      simp only [List.append_assoc, List.cons_append, List.nil_append, ih below rfl] at hcut
      simpa [crlf_line ha] using hcut
    · simp only [List.append_nil, crlf_line ha, List.map_cons]
      exact Ruby.physicalLines_last ha hne

end Text

open Text

/-! ## Bodies of literals -/

namespace Delimiters

open Ruby (breaks)

/-- No delimiter is the end of a line. -/
structure OnLine (d : Delimiters) : Prop where
  close : d.close ∉ breaks
  nest : ∀ c ∈ d.nest, c ∉ breaks
  sigil : ∀ c ∈ d.sigil, c ∉ breaks

variable {d : Delimiters}

/-- The end of a line is an ordinary character of a body. -/
theorem bodyFrom_break (hd : d.OnLine) {e : Char} (he : e ∈ breaks) (depth braces : Nat) (r : List Char) :
    d.bodyFrom depth braces (e :: r) = (d.bodyFrom depth braces r).map (· + 1) := by
  have hslash : (e == '\\') = false := beq_false_of_ne (Ruby.break_ne (by decide) he)
  have hclose : (e == d.close) = false := beq_false_of_ne (Ruby.break_ne hd.close he)
  have hnest : (some e == d.nest) = false := beq_false_of_ne fun h => hd.nest e h.symm he
  have hsigil : (some e == d.sigil) = false := beq_false_of_ne fun h => hd.sigil e h.symm he
  cases braces with
  | zero => simp [bodyFrom_cons, hslash, hclose, hnest, hsigil]
  | succ braces =>
    have hopen : (e == '\x7b') = false := beq_false_of_ne (Ruby.break_ne (by decide) he)
    have hshut : (e == '\x7d') = false := beq_false_of_ne (Ruby.break_ne (by decide) he)
    simp [bodyFrom, hopen, hshut]

theorem bodyFrom_crlf (hd : d.OnLine) {depth braces : Nat} {cs : List Char} {n : Nat}
    (h : d.bodyFrom depth braces cs = some n) :
    d.bodyFrom depth braces (crlf cs) = some (crlf (cs.take n)).length := by
  have hnewline : '\n' ∈ breaks := by decide
  have hreturn : '\r' ∈ breaks := by decide
  fun_induction d.bodyFrom depth braces cs generalizing n with
  | case1 | case3 | case5 => cases h
  | case2 depth braces c r =>
    rename_i ih
    obtain ⟨m, hm, rfl⟩ := Option.map_eq_some_iff.mp h
    by_cases hc : c = '\n'
    · subst hc
      have hbody : d.bodyFrom depth (braces + 1) (crlf r) = some (crlf (r.take m)).length := ih hm
      simp [bodyFrom_break hd hnewline, bodyFrom_break hd hreturn, hbody]
    · rw [crlf_cons hc, bodyFrom, ih hm, List.take_succ_cons, crlf_cons hc]
      rfl
  | case4 depth c hc e s ih =>
    obtain ⟨m, hm, rfl⟩ := Option.map_eq_some_iff.mp h
    have hc' : c ≠ '\n' := by rintro rfl; revert hc; decide
    by_cases he : e = '\n'
    · subst he
      simp [crlf_cons hc', bodyFrom_cons d depth c, hc, bodyFrom_break hd hnewline, ih hm]
    · simp [crlf_cons hc', crlf_cons he, bodyFrom_cons, hc, ih hm]
  | case6 depth c hc e s hs ih =>
    obtain ⟨m, hm, rfl⟩ := Option.map_eq_some_iff.mp h
    simp only [Bool.and_eq_true, beq_iff_eq] at hs
    have hc' : c ≠ '\n' := fun he => hd.sigil c hs.1.symm (he ▸ hnewline)
    have he : e = '\x7b' := by simpa using hs.2
    subst he
    rw [crlf_cons hc', crlf_cons (by decide), bodyFrom_cons, if_neg hc, if_pos (by simpa using hs.1)]
    simp [crlf_cons hc', crlf_cons (c := '\x7b') (by decide), ih hm]
  | case7 depth c r hc hs hn ih =>
    obtain ⟨m, hm, rfl⟩ := Option.map_eq_some_iff.mp h
    have hc' : c ≠ '\n' := fun he => hd.nest c (beq_iff_eq.mp hn).symm (he ▸ hnewline)
    rw [← head?_crlf (by decide)] at hs
    rw [crlf_cons hc', bodyFrom_cons, if_neg hc, if_neg hs, if_pos hn, ih hm]
    simp [crlf_cons hc']
  | case8 c r hc hs hn hclose =>
    cases h
    have hc' : c ≠ '\n' := fun he => hd.close (beq_iff_eq.mp hclose ▸ he ▸ hnewline)
    rw [← head?_crlf (by decide)] at hs
    rw [crlf_cons hc', bodyFrom_cons, if_neg hc, if_neg hs, if_neg hn, if_pos hclose]
    rfl
  | case9 c r hc hs hn hclose depth ih =>
    obtain ⟨m, hm, rfl⟩ := Option.map_eq_some_iff.mp h
    have hc' : c ≠ '\n' := fun he => hd.close (beq_iff_eq.mp hclose ▸ he ▸ hnewline)
    rw [← head?_crlf (by decide)] at hs
    rw [crlf_cons hc', bodyFrom_cons, if_neg hc, if_neg hs, if_neg hn, if_pos hclose]
    simp [crlf_cons hc', ih hm]
  | case10 depth c r hc hs hn hclose ih =>
    obtain ⟨m, hm, rfl⟩ := Option.map_eq_some_iff.mp h
    by_cases hc' : c = '\n'
    · subst hc'
      simp [bodyFrom_break hd hnewline, bodyFrom_break hd hreturn, ih hm]
    · rw [← head?_crlf (by decide)] at hs
      rw [crlf_cons hc', bodyFrom_cons, if_neg hc, if_neg hs, if_neg hn, if_neg hclose, ih hm]
      simp [crlf_cons hc']

end Delimiters

namespace Ruby

theorem decodeRaw_cons {d : Delimiters} {c : Char} (hc : c ≠ '\\') (r : List Char) :
    decodeRaw d (c :: r) = c :: decodeRaw d r := by
  rw [decodeRaw]
  exact fun _ _ he => absurd he hc

theorem decodeRaw_crlf {d : Delimiters} (hd : d.OnLine) (cs : List Char) :
    decodeRaw d (crlf cs) = crlf (decodeRaw d cs) := by
  have hplain : ∀ e ∈ breaks, ¬(e == '\\' || e == d.close || some e == d.nest) = true := by
    intro e he
    have hslash : (e == '\\') = false := beq_false_of_ne (break_ne (by decide) he)
    have hclose : (e == d.close) = false := beq_false_of_ne (break_ne hd.close he)
    have hnest : (some e == d.nest) = false := beq_false_of_ne fun h => hd.nest e h.symm he
    simp [hslash, hclose, hnest]
  fun_induction decodeRaw d cs with
  | case1 => rfl
  | case2 c r hc ih =>
    have hc' : c ≠ '\n' := by rintro rfl; exact hplain '\n' (by decide) hc
    rw [crlf_cons (by decide), crlf_cons hc', crlf_cons hc', decodeRaw, if_pos hc, ih]
  | case3 c r hc ih =>
    rw [crlf_cons (c := '\\') (by decide), crlf_cons (c := '\\') (by decide), ← ih]
    by_cases hc' : c = '\n'
    · subst hc'
      rw [crlf_newline, decodeRaw, if_neg (hplain '\r' (by decide))]
    · rw [crlf_cons hc', decodeRaw, if_neg hc]
  | case4 c r hc ih =>
    by_cases hc' : c = '\n'
    · subst hc'
      rw [crlf_newline, crlf_newline, decodeRaw_cons (by decide), decodeRaw_cons (by decide), ih]
    rw [crlf_cons hc', crlf_cons hc', ← ih]
    by_cases hslash : c = '\\'
    · -- A backslash that escapes nothing is the last character.
      rcases r with _ | ⟨e, r⟩
      · subst hslash; rfl
      · exact (hc e r hslash rfl).elim
    · exact decodeRaw_cons hslash _

theorem regexBody?_crlf {inClass : Bool} {cs : List Char} {n : Nat} (h : regexBody? inClass cs = some n) :
    regexBody? inClass (crlf cs) = some (crlf (cs.take n)).length := by
  have hplain : ∀ e ∈ breaks, ∀ b r, regexBody? b (e :: r) = (regexBody? b r).map (· + 1) := by
    intro e he b r
    have hopen : (e == '[') = false := beq_false_of_ne (break_ne (by decide) he)
    have hshut : (e == ']') = false := beq_false_of_ne (break_ne (by decide) he)
    have hslash : (e == '/') = false := beq_false_of_ne (break_ne (by decide) he)
    rw [regexBody?_cons (break_ne (by decide) he)]
    simp [hopen, hshut, hslash]
  have hnewline := hplain '\n' (by decide)
  have hreturn := hplain '\r' (by decide)
  fun_induction regexBody? inClass cs generalizing n with
  | case1 | case2 => cases h
  | case3 inClass e s ih =>
    obtain ⟨m, hm, rfl⟩ := Option.map_eq_some_iff.mp h
    by_cases he : e = '\n'
    · subst he
      simp [crlf_cons (c := '\\') (by decide), regexBody?, hnewline, ih hm]
    · simp [crlf_cons (c := '\\') (by decide), crlf_cons he, regexBody?, ih hm]
  | case4 inClass c r hc ho ih =>
    obtain ⟨m, hm, rfl⟩ := Option.map_eq_some_iff.mp h
    have hc' : c ≠ '\n' := by rintro rfl; revert ho; decide
    rw [crlf_cons hc', regexBody?_cons hc, if_pos ho, ih hm]
    simp [crlf_cons hc']
  | case5 inClass c r hc ho hcl ih =>
    obtain ⟨m, hm, rfl⟩ := Option.map_eq_some_iff.mp h
    have hc' : c ≠ '\n' := by rintro rfl; revert hcl; decide
    rw [crlf_cons hc', regexBody?_cons hc, if_neg ho, if_pos hcl, ih hm]
    simp [crlf_cons hc']
  | case6 inClass c r hc ho hcl hslash =>
    cases h
    have hc' : c ≠ '\n' := by rintro rfl; revert hslash; simp
    rw [crlf_cons hc', regexBody?_cons hc, if_neg ho, if_neg hcl, if_pos hslash]
    rfl
  | case7 inClass c r hc ho hcl hslash ih =>
    obtain ⟨m, hm, rfl⟩ := Option.map_eq_some_iff.mp h
    by_cases hc' : c = '\n'
    · subst hc'
      simp [hnewline, hreturn, ih hm]
    · rw [crlf_cons hc', regexBody?_cons hc, if_neg ho, if_neg hcl, if_neg hslash, ih hm]
      simp [crlf_cons hc']

/-! ## Embedded documents and the data marker -/

theorem embeddedDoc?_crlf {cs : List Char} {w : Nat} (h : embeddedDoc? cs = some w) :
    embeddedDoc? (crlf cs) = some (crlf (cs.take w)).length := by
  have hend : '\n' ∉ "=end".toList ∧ '\r' ∉ "=end".toList := by decide
  induction cs generalizing w with
  | nil => cases h
  | cons c r ih =>
    rw [embeddedDoc?] at h
    split at h
    · rename_i hc
      simp only [Bool.and_eq_true, beq_iff_eq] at hc
      cases h
      rw [hc.1, crlf_newline, embeddedDoc?, embeddedDoc?, isPrefixOf_crlf hend, hc.2, lineWidth_crlf]
      simp [Nat.add_comm 1]
    · rename_i hc
      obtain ⟨m, hm, rfl⟩ := Option.map_eq_some_iff.mp h
      by_cases hc' : c = '\n'
      · subst hc'
        rw [crlf_newline, embeddedDoc?, embeddedDoc?, isPrefixOf_crlf hend, if_neg hc, ih hm]
        simp
      · rw [crlf_cons hc', embeddedDoc?, isPrefixOf_crlf hend, if_neg hc, ih hm, List.take_succ_cons, crlf_cons hc']
        rfl

theorem isDataMarker_crlf {cs : List Char} (hcs : '\r' ∉ cs) : isDataMarker (crlf cs) = isDataMarker cs := by
  simp only [isDataMarker, Text.after?, isPrefixOf_crlf (s := "__END__".toList) (by decide)]
  by_cases h : "__END__".toList.isPrefixOf cs = true
  · obtain ⟨r, rfl⟩ := List.isPrefixOf_iff_prefix.mp h
    have hcrlf : crlf "__END__".toList = "__END__".toList := crlf_line (by decide)
    simp only [if_pos h, crlf_append, hcrlf, List.drop_left]
    rcases r with _ | ⟨c, r⟩
    · rfl
    · by_cases hc : c = '\n'
      · subst hc; rfl
      · have hr : c ≠ '\r' := by rintro rfl; simp at hcs
        simp [crlf_cons hc, hc, hr]
  · simp only [if_neg h]

/-! ## Looking ahead -/

theorem isKey_crlf (r : Reading TokenKind) (cs : List Char) : isKey r (crlf cs) = isKey r cs := by
  refine crlf_eq (fun e he a x => ?_) cs
  have hcolon : e ≠ ':' := break_ne (by decide) he
  rcases a with _ | ⟨c, _ | ⟨d, a⟩⟩
  · simp [isKey, hcolon]
  · by_cases hc : c = ':'
    · subst hc; simp [isKey, hcolon]
    · simp [isKey, hc]
  · by_cases hc : c = ':'
    · subst hc
      by_cases hd : d = ':'
      · subst hd; rfl
      · simp [isKey, hd]
    · simp [isKey, hc]

theorem isSetter_crlf (symbol cs : List Char) : isSetter symbol (crlf cs) = isSetter symbol cs := by
  refine crlf_eq (fun e he a x => ?_) cs
  have hassign : e ≠ '=' := break_ne (by decide) he
  have hothers : e ≠ '>' ∧ e ≠ '~' := ⟨break_ne (by decide) he, break_ne (by decide) he⟩
  rcases a with _ | ⟨c, _ | ⟨d, a⟩⟩
  · simp [isSetter, hassign]
  · by_cases hc : c = '='
    · subst hc; simp [isSetter, hassign, hothers]
    · simp [isSetter, hc]
  · by_cases hc : c = '='
    · subst hc; rfl
    · simp [isSetter, hc]

theorem valueMayStart_crlf (r : Reading TokenKind) (cs : List Char) : valueMayStart r (crlf cs) = valueMayStart r cs := by
  simp only [valueMayStart, head?_crlf (c := ' ') (by decide), head?_crlf (c := '=') (by decide)]

end Ruby
end PuppetDocs
