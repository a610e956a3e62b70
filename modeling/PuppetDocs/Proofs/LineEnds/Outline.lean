import PuppetDocs.Proofs.LineEnds.Crlf
import PuppetDocs.Proofs.Scan.Coverage

/-
  PuppetDocs.Proofs.LineEnds.Outline — what two scanners have in common whose texts end their
  lines differently.

  The outline of a scanner is what it has found without the places: the kinds of its tokens, its
  comments, and the heredocs that wait for a body, each with a mark at the tokens that it fills.
  Heredoc bodies fill the marked tokens, so that bodies with the same lines have the same effect
  on two scanners with one outline (`readBodies_outline`).

  A scanner of the text with carriage returns stands where the other one stands (`Level.even`), or
  has already passed the carriage return of the line that the other one has come to the end of
  (`Level.ahead`). It does so behind blanks and comments.
-/

namespace PuppetDocs.Ruby

open Text (byteLength crlf)

/-! ## Outlines -/

structure Outline where
  kinds : List TokenKind
  comments : List Comment
  waiting : List (Heredoc × List Bool)

/-- Which tokens the heredoc will fill. -/
def Pending.marks (p : Pending) (tokens : List (Token TokenKind)) : List Bool := tokens.map (·.span.start == p.start)

def Scanner.outline (s : Scanner) : Outline where
  kinds := s.reading.tokens.map Token.kind
  comments := s.reading.comments
  waiting := s.pending.map fun p => (p.heredoc, p.marks s.reading.tokens)

/-- A token is found, and perhaps the heredoc that it opens. -/
def Outline.push (o : Outline) (kind : TokenKind) (opened : Option Heredoc) : Outline where
  kinds := kind :: o.kinds
  comments := o.comments
  waiting := o.waiting.map (fun w => (w.1, false :: w.2)) ++
    (opened.map fun heredoc => (heredoc, true :: o.kinds.map fun _ => false)).toList

/-- The scanner that waits for the body of one more heredoc. -/
def Scanner.expect (s : Scanner) (opened : Option Heredoc) (start : Nat) : Scanner :=
  { s with pending := s.pending ++ (opened.map fun heredoc => { heredoc, start }).toList }

theorem Scanner.expect_none (s : Scanner) (start : Nat) : s.expect none start = s := by
  simp [expect]

@[simp] theorem Scanner.outline_pass (s : Scanner) (cs : List Char) : (s.pass cs).outline = s.outline := by
  simp [outline]

/-- All that the scanner has found starts in front of where it stands. -/
theorem Placed.outline_found {s : Scanner} {before rest : List Char} (h : Placed s before rest) (gap cs : List Char)
    (kind : TokenKind) (opened : Option Heredoc) :
    ((s.expect opened (s.reading.skip gap).offset).add ((s.reading.skip gap).token kind cs)).outline =
      s.outline.push kind opened := by
  have hoffset : (s.reading.skip gap).offset = byteLength before + byteLength gap := by rw [Reading.skip_offset, h.offset]
  have hpending : ∀ p ∈ s.pending, ((s.reading.skip gap).offset == p.start) = false := by
    intro p hp
    have := (h.waiting p hp).1
    exact beq_false_of_ne (by omega)
  have htokens : ∀ t ∈ s.reading.tokens, (t.span.start == (s.reading.skip gap).offset) = false := by
    intro t ht
    have := h.cut.stop_le (List.mem_reverse.mpr ht)
    exact beq_false_of_ne (by omega)
  have hmarks : s.reading.tokens.map (fun t => t.span.start == (s.reading.skip gap).offset) =
      s.reading.tokens.map fun _ => false := List.map_congr_left htokens
  simp only [Scanner.outline, Scanner.expect, Scanner.add, Outline.push, Pending.marks, Reading.token, List.map_cons,
    List.map_append, List.map_map, Outline.mk.injEq, true_and]
  refine congrArg₂ (· ++ ·) (List.map_congr_left fun p hp => ?_) ?_
  · simp only [Function.comp_apply, hpending p hp]
  · cases opened with
    | none => rfl
    | some heredoc => simp only [Option.map_some, Option.toList_some, List.map_cons, List.map_nil, Function.comp_def,
        beq_self_eq_true, hmarks]

/-! ## Heredocs -/

theorem marks_fill (p : Pending) (tokens : List (Token TokenKind)) (start : Nat) (value : StrLit) :
    p.marks (fill tokens start value) = p.marks tokens := by
  simp only [Pending.marks, fill, List.map_map]
  refine List.map_congr_left fun t _ => ?_
  simp only [Function.comp_apply]
  split <;> rfl

/-- A body gives the same values to the same marks. -/
theorem kinds_fill {p p' : Pending} {tokens tokens' : List (Token TokenKind)} (value : StrLit)
    (hkinds : tokens'.map Token.kind = tokens.map Token.kind) (hmarks : p'.marks tokens' = p.marks tokens) :
    (fill tokens' p'.start value).map Token.kind = (fill tokens p.start value).map Token.kind := by
  induction tokens generalizing tokens' with
  | nil =>
    rw [List.map_nil, List.map_eq_nil_iff] at hkinds
    subst hkinds
    rfl
  | cons t tokens ih =>
    obtain ⟨t', tokens', rfl, hkind, hkinds⟩ := List.map_eq_cons_iff.mp hkinds
    obtain ⟨hmark, hmarks⟩ := List.cons.inj hmarks
    simp only [fill, List.map_cons] at ih ⊢
    refine congrArg₂ List.cons ?_ (ih hkinds hmarks)
    have hmark : (t'.span.start == p'.start) = (t.span.start == p.start) := hmark
    rw [hmark, apply_ite Token.kind, apply_ite Token.kind, hkind]

/-- The line of a text, with or without its line feed. -/
def Physical (line : List Char) : Prop := ∃ a, '\n' ∉ a ∧ (line = a ++ ['\n'] ∨ line = a)

theorem physical_of_mem {cs line : List Char} (h : line ∈ Text.physicalLines cs) : Physical line := by
  generalize hls : Text.physicalLines cs = ls at h
  induction ls generalizing cs with
  | nil => cases h
  | cons l ls ih =>
    obtain ⟨below, rfl, -, ⟨a, ha, hl⟩, rfl⟩ := physicalLines_cons hls
    rcases List.mem_cons.mp h with rfl | h
    · exact ⟨a, ha, hl.imp id And.left⟩
    · exact ih rfl h

/-- The carriage return does not belong to the content of a line. -/
theorem content_crlf {line : List Char} (h : Physical line) : Heredoc.content (crlf line) = Heredoc.content line := by
  obtain ⟨a, ha, rfl | rfl⟩ := h
  · simp [Heredoc.content, Text.crlf_line ha, Text.dropEndWhile]
  · rw [Text.crlf_line ha]

theorem takeBody?_crlf (h : Heredoc) {ls : List (List Char)} (hls : ∀ l ∈ ls, Physical l) :
    h.takeBody? (ls.map crlf) = (h.takeBody? ls).map fun found => (found.1, found.2.map crlf) := by
  induction ls with
  | nil => rfl
  | cons l ls ih =>
    rw [List.forall_mem_cons] at hls
    rw [List.map_cons, Heredoc.takeBody?, Heredoc.takeBody?, content_crlf hls.1]
    split
    · rfl
    · rw [ih hls.2, Option.map_map, Option.map_map]
      rfl

/-- What is behind a body are lines of the text as well. -/
theorem takeBody?_mem {h : Heredoc} {ls body after : List (List Char)} (hb : h.takeBody? ls = some (body, after))
    {l : List Char} (hl : l ∈ after) : l ∈ ls := by
  induction ls generalizing body with
  | nil => cases hb
  | cons k ls ih =>
    rw [Heredoc.takeBody?] at hb
    split at hb
    · cases hb
      exact List.mem_cons_of_mem k hl
    · obtain ⟨⟨b, a⟩, hba, he⟩ := Option.map_eq_some_iff.mp hb
      cases he
      exact List.mem_cons_of_mem k (ih hba)

theorem readBodies_outline {lines lines' : LineIndex} {tokens tokens' out : List (Token TokenKind)}
    {ps ps' : List Pending} {ls after : List (List Char)} (hls : ∀ l ∈ ls, Physical l)
    (hkinds : tokens'.map Token.kind = tokens.map Token.kind)
    (hwaiting : (ps'.map fun p => (p.heredoc, p.marks tokens')) = ps.map fun p => (p.heredoc, p.marks tokens))
    (h : readBodies lines tokens ps ls = .ok (out, after)) :
    ∃ out', readBodies lines' tokens' ps' (ls.map crlf) = .ok (out', after.map crlf) ∧
      out'.map Token.kind = out.map Token.kind := by
  induction ps generalizing tokens tokens' ps' ls with
  | nil =>
    rw [List.map_nil, List.map_eq_nil_iff] at hwaiting
    subst hwaiting
    cases h
    exact ⟨tokens', rfl, hkinds⟩
  | cons p ps ih =>
    obtain ⟨p', ps', rfl, hp, hps⟩ := List.map_eq_cons_iff.mp hwaiting
    obtain ⟨hheredoc, hmarks⟩ := Prod.mk.inj hp
    rw [readBodies] at h
    split at h
    · cases h
    rename_i body rest hbody
    split at h
    · cases h
    rename_i value hvalue
    have hfilled : (ps'.map fun q => (q.heredoc, q.marks (fill tokens' p'.start value))) =
        ps.map fun q => (q.heredoc, q.marks (fill tokens p.start value)) := by
      simpa only [marks_fill] using hps
    obtain ⟨out', hout', hk⟩ :=
      ih (fun l hl => hls l (takeBody?_mem hbody hl)) (kinds_fill value hkinds hmarks) hfilled h
    refine ⟨out', ?_, hk⟩
    rw [readBodies, hheredoc, takeBody?_crlf _ hls, hbody]
    simp only [Option.map_some, hvalue]
    exact hout'

/-! ## Places -/

/-- Where the two scanners stand: what is behind the one and in front of it, and the same of the other. -/
inductive Level : List Char → List Char → List Char → List Char → Prop
  | even (before rest : List Char) : Level before rest (crlf before) (crlf rest)
  | ahead (before below : List Char) : Level before ('\n' :: below) (crlf before ++ ['\r']) ('\n' :: crlf below)

variable {before rest before' rest' : List Char}

/-- One scanner goes through a text, the other through that text with carriage returns. -/
theorem Level.text (h : Level before rest before' rest') : before' ++ rest' = crlf (before ++ rest) := by
  cases h <;> simp

theorem Level.ends (h : Level before [] before' rest') : rest' = [] := by
  generalize hr : ([] : List Char) = rest at h
  cases h with
  | even => rw [← hr]; rfl
  | ahead => cases hr

theorem Level.ne_nil (h : Level before rest before' rest') (hrest : rest ≠ []) : rest' ≠ [] := by
  cases h with
  | even => exact fun he => hrest (Text.crlf_eq_nil.mp he)
  | ahead => simp

/-- A stretch from the start of a line, or from somewhere within it, that both take in. -/
theorem Level.take (before rest : List Char) (n : Nat) :
    Level (before ++ rest.take n) (rest.drop n) (crlf before ++ (crlf rest).take (crlf (rest.take n)).length)
      ((crlf rest).drop (crlf (rest.take n)).length) := by
  rw [Text.take_crlf, Text.drop_crlf, ← Text.crlf_append]
  exact .even _ _

/-! ## Blanks -/

/-- The carriage return is one of the blanks in front of its line feed. -/
theorem blanks_crlf {cs : List Char} (hcs : '\r' ∉ cs) :
    blanks (crlf cs) = (crlf (cs.take (blanks cs))).length + if (cs.drop (blanks cs)).head? = some '\n' then 1 else 0 := by
  fun_induction blanks cs with
  | case1 r ih =>
    have hr : '\r' ∉ r := fun h => hcs (by simp [h])
    rw [Nat.add_comm 2, List.take_succ_cons, List.take_succ_cons, List.drop_succ_cons, List.drop_succ_cons,
      Text.crlf_cons (by decide), Text.crlf_newline, Text.crlf_cons (by decide), Text.crlf_newline, blanks, ih hr]
    simp only [List.length_cons]
    omega
  | case2 r ih => simp at hcs
  | case3 c r h1 h2 hc ih =>
    have hr : '\r' ∉ r := fun h => hcs (by simp [h])
    have hc' : c ≠ '\n' := by rintro rfl; revert hc; decide
    have hslash : c ≠ '\\' := by rintro rfl; revert hc; decide
    rw [Nat.add_comm 1, List.take_succ_cons, List.drop_succ_cons, Text.crlf_cons hc', Text.crlf_cons hc', blanks,
      if_pos hc, ih hr]
    · simp only [List.length_cons]
      omega
    · exact fun _ h => absurd h hslash
    · exact fun _ h => absurd h hslash
  | case4 c r h1 h2 hc =>
    by_cases hc' : c = '\n'
    · subst hc'
      rfl
    · rw [Text.crlf_cons hc', blanks, if_neg hc]
      · simp [hc']
      -- In front of a backslash that joins no line stands neither end of a line.
      · rintro r' rfl he
        rcases r with _ | ⟨d, r⟩
        · cases he
        · by_cases hd : d = '\n'
          · subst hd; simp at he
          · rw [Text.crlf_cons hd] at he
            exact hd (List.cons.inj he).1
      · rintro r' rfl he
        rcases r with _ | ⟨d, r⟩
        · cases he
        · by_cases hd : d = '\n'
          · subst hd
            exact h1 r rfl rfl
          · rw [Text.crlf_cons hd] at he
            rw [(List.cons.inj he).1] at hcs
            simp at hcs
  | case5 => rfl

/-- Behind blanks the scanner is ahead at the end of a line, and nowhere else. -/
theorem Level.blanks (h : Level before rest before' rest') (hcr : '\r' ∉ rest) :
    (∃ below, rest.drop (Ruby.blanks rest) = '\n' :: below ∧ rest'.drop (Ruby.blanks rest') = '\n' :: crlf below ∧
      before' ++ rest'.take (Ruby.blanks rest') = crlf (before ++ rest.take (Ruby.blanks rest)) ++ ['\r']) ∨
    (rest.drop (Ruby.blanks rest)).head? ≠ some '\n' ∧
      rest'.drop (Ruby.blanks rest') = crlf (rest.drop (Ruby.blanks rest)) ∧
      before' ++ rest'.take (Ruby.blanks rest') = crlf (before ++ rest.take (Ruby.blanks rest)) := by
  cases h with
  | even =>
    have hwidth := blanks_crlf hcr
    have hsplit := congrArg crlf (List.take_append_drop (Ruby.blanks rest) rest)
    rw [Text.crlf_append] at hsplit
    by_cases hhead : (rest.drop (Ruby.blanks rest)).head? = some '\n'
    · obtain ⟨below, hbelow⟩ := List.head?_eq_some_iff.mp hhead
      rw [if_pos hhead] at hwidth
      refine .inl ⟨below, hbelow, ?_, ?_⟩
      · rw [hwidth, ← hsplit, hbelow, List.drop_append]
        simp
      · rw [hwidth, ← hsplit, hbelow, List.take_append, List.take_of_length_le (by omega)]
        simp
    · rw [if_neg hhead, Nat.add_zero] at hwidth
      refine .inr ⟨hhead, ?_, ?_⟩
      · rw [hwidth, Text.drop_crlf]
      · rw [hwidth, Text.take_crlf, Text.crlf_append]
  | ahead below => exact .inl ⟨below, rfl, rfl, by simp [Ruby.blanks]⟩

end PuppetDocs.Ruby
