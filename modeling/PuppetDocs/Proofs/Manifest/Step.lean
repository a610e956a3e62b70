import PuppetDocs.Manifest.Scan
import PuppetDocs.Proofs.Scan.Step

/-
  PuppetDocs.Proofs.Manifest.Step — what one step of the scanner of manifests can find.

  A step that finds something finds one of five things (`Found`), each behind blanks: a comment
  of either kind, the rest of a heredoc body, a token, or the header of a heredoc, with which
  its body becomes known. Whatever it finds is not empty and lies in the text (`Found.width`).
  `step_found` is the only place where the step is taken apart.
-/

namespace PuppetDocs.Manifest

open Text (byteLength run isNameChar)

namespace Scanner

/-- The scanner behind the characters `cs`. -/
def pass (s : Scanner) (cs : List Char) : Scanner := { s with reading := s.reading.skip cs }

@[simp] theorem pass_bodies (s : Scanner) (cs : List Char) : (s.pass cs).bodies = s.bodies := rfl
@[simp] theorem pass_reading (s : Scanner) (cs : List Char) : (s.pass cs).reading = s.reading.skip cs := rfl

/-- Adds the header of a heredoc with this body. -/
def open_ (s : Scanner) (t : Token TokenKind) (body : Span) : Scanner :=
  { s.add t with bodies := s.bodies ++ [body] }

end Scanner

/-! ## Widths of lexemes -/

theorem run_le (p : Char → Bool) (cs : List Char) : run p cs ≤ cs.length := by
  simpa [run] using (List.takeWhile_prefix p).length_le

theorem qualifiedTail_le (first : Char → Bool) (cs : List Char) : qualifiedTail first cs ≤ cs.length := by
  fun_induction qualifiedTail first cs <;> simp only [List.length_cons, List.length_nil] <;> omega

theorem qualified_le (first : Char → Bool) (cs : List Char) : qualified first cs ≤ cs.length := by
  unfold qualified
  split
  · next c r =>
    have := qualifiedTail_le first r
    split <;> simp only [List.length_cons] <;> omega
  · next c r _ =>
    have := qualifiedTail_le first r
    split <;> simp only [List.length_cons] <;> omega
  · exact Nat.le_refl 0

theorem headerTail_le (cs : List Char) : headerTail cs ≤ cs.length := by
  unfold headerTail
  dsimp only
  split
  · next below h =>
    have hlength := congrArg List.length h
    simp only [List.length_drop, List.length_cons] at hlength
    omega
  · exact Nat.zero_le _

/-- The header of a heredoc, with what is written between its parentheses. -/
def headerText (inside : List Char) : List Char := '@' :: '(' :: inside ++ [')']

theorem headerText_ne_nil {cs inside : List Char} (h : cs = headerText inside) : cs ≠ [] := by
  rw [h]
  exact nofun

/-- What a lexeme of width `w` begins with; none is the end of the text, and only a quote and a header open a string. -/
def Lexeme.Opens (w : Nat) : Lexeme → List Char → Prop
  | .comment, cs => ∃ r, cs = '#' :: r ∧ w = 1 + run (· != '\n') r
  | .blockComment, cs => ∃ r, cs = '/' :: '*' :: r ∧ w = 2
  | .heredoc, cs => ∃ inside below, cs = headerText inside ++ below ∧ '\n' ∉ inside ∧ w = (headerText inside).length
  | .quote q, cs => (q = '\'' ∨ q = '"') ∧ ∃ r, cs = q :: r
  | .plain kind, cs => kind ≠ .eof ∧ kind ≠ .string ∧ (kind = .slash → ['/'] <+: cs)

/-- The lexeme takes `w` of the characters `cs`, and at least one. -/
structure Lexeme.Fits (l : Lexeme) (w : Nat) (cs : List Char) : Prop where
  pos : 0 < w
  le : w ≤ cs.length
  opens : l.Opens w cs

theorem quote_ne_at {q : Char} (h : q = '\'' ∨ q = '"') : q ≠ '@' := by
  rcases h with rfl | rfl <;> decide

theorem wordKind_plain (w rest : List Char) :
    wordKind w rest ≠ .eof ∧ wordKind w rest ≠ .string ∧ wordKind w rest ≠ .slash := by
  unfold wordKind keyword?
  split
  · decide
  · split <;> decide

theorem bracket?_plain {c : Char} {kind : TokenKind} (h : bracket? c = some kind) :
    kind ≠ .eof ∧ kind ≠ .string ∧ kind ≠ .slash := by
  unfold bracket? at h
  split at h <;> cases h <;> decide

/-- A header ends with the first closing parenthesis of its line. -/
theorem headerTail_split {cs : List Char} (h : headerTail cs ≠ 0) :
    ∃ inside below, cs = inside ++ ')' :: below ∧ '\n' ∉ inside ∧ headerTail cs = inside.length + 1 := by
  unfold headerTail at h ⊢
  dsimp only at h ⊢
  split at h
  · next below hbelow =>
    rw [Ruby.drop_run] at hbelow
    refine ⟨cs.takeWhile fun c => c != ')' && c != '\n', below, ?_, fun hmem => ?_, ?_⟩
    · rw [← hbelow, List.takeWhile_append_dropWhile]
    · simpa using List.mem_takeWhile_imp hmem
    · rfl
  · exact absurd rfl h

theorem lexeme?_fits {cs : List Char} {l : Lexeme} {w : Nat} (h : lexeme? cs = some (l, w)) : l.Fits w cs := by
  rcases cs with _ | ⟨c, r⟩
  · cases h
  have hrun := fun p => run_le p r
  have hlower := qualified_le isLowerStart (c :: r)
  have hupper := qualified_le Char.isUpper (c :: r)
  have hname := qualified_le isLowerStart r
  have hheader := headerTail_le r.tail
  simp only [List.length_cons] at hlower hupper
  have hone : 1 ≤ (c :: r).length := by simp
  have hplain : ∀ {kind : TokenKind}, kind ≠ .eof ∧ kind ≠ .string ∧ kind ≠ .slash → (Lexeme.plain kind).Fits 1 (c :: r) :=
    fun ⟨hend, hstring, hslash⟩ => ⟨Nat.one_pos, hone, hend, hstring, fun he => absurd he hslash⟩
  unfold lexeme? at h
  dsimp only at h
  split at h
  · next hc =>
    cases h
    have := hrun (· != '\n')
    exact ⟨by omega, by simp only [List.length_cons]; omega, r, by rw [beq_iff_eq.mp hc], rfl⟩
  split at h
  · cases h
    exact ⟨by omega, by simpa only [List.length_cons] using hlower, (wordKind_plain _ _).1, (wordKind_plain _ _).2.1,
      fun he => absurd he (wordKind_plain _ _).2.2⟩
  split at h
  · cases h
    exact ⟨by omega, by simpa only [List.length_cons] using hupper, nofun, nofun, nofun⟩
  split at h
  · cases h
    have := hrun fun c => isNameChar c || c == '.'
    exact ⟨by omega, by simp only [List.length_cons]; omega, nofun, nofun, nofun⟩
  split at h
  · split at h
    · cases h
      exact ⟨by omega, by simp only [List.length_cons]; omega, nofun, nofun, nofun⟩
    · cases h
  split at h
  · next hc =>
    cases h
    exact ⟨Nat.one_pos, hone, by simpa using hc, r, rfl⟩
  split at h
  · cases h
    exact ⟨by omega, by simp, _, rfl, rfl⟩
  · cases h
    exact ⟨Nat.one_pos, hone, nofun, nofun, fun _ => ⟨r, rfl⟩⟩
  · next inside =>
    split at h
    · next htail =>
      cases h
      obtain ⟨header, below, rfl, hline, hwidth⟩ := headerTail_split htail
      rw [List.tail_cons] at hheader
      refine ⟨by omega, by simp only [List.length_cons]; omega, header, below, ?_, hline, ?_⟩
      · simp [headerText]
      · rw [hwidth]
        simp only [headerText, List.length_append, List.length_cons, List.length_nil]
        omega
    · cases h
  · cases h
    exact ⟨by omega, by simp, nofun, nofun, nofun⟩
  · cases h
    exact hplain (by decide)
  · cases h
    exact ⟨by omega, by simp, nofun, nofun, nofun⟩
  · cases h
    exact hplain (by decide)
  · cases h
    exact hplain (by decide)
  · split at h
    · next hbracket =>
      cases h
      exact hplain (bracket?_plain hbracket)
    · split at h
      · cases h
        exact hplain (by decide)
      · cases h

theorem blockComment?_le {cs : List Char} {n : Nat} (h : blockComment? cs = some n) : n ≤ cs.length := by
  fun_induction blockComment? cs generalizing n with
  | case1 => cases h
  | case2 c r hc =>
    cases h
    rcases r with _ | ⟨d, r⟩
    · simp at hc
    · simp
  | case3 c r hc ih =>
    obtain ⟨m, hm, rfl⟩ := Option.map_eq_some_iff.mp h
    have := ih hm
    simp only [List.length_cons]
    omega

theorem regexTail?_le {cs : List Char} {n : Nat} (h : regexTail? cs = some n) : n ≤ cs.length := by
  fun_induction regexTail? cs generalizing n with
  | case1 | case2 | case4 => cases h
  | case3 e s ih =>
    obtain ⟨m, hm, rfl⟩ := Option.map_eq_some_iff.mp h
    have := ih hm
    simp only [List.length_cons]
    omega
  | case5 =>
    cases h
    simp
  | case6 c r _ _ _ ih =>
    obtain ⟨m, hm, rfl⟩ := Option.map_eq_some_iff.mp h
    have := ih hm
    simp only [List.length_cons]
    omega

/-- A literal ends with its closing delimiter. -/
theorem body?_lt {d : Delimiters} {cs : List Char} {n : Nat} (h : d.body? cs = some n) : n < cs.length := by
  obtain ⟨hn, -⟩ := List.getElem?_eq_some_iff.mp (Delimiters.bodyFrom_close h)
  exact hn

/-! ## What a step finds -/

/-- The blanks in front of `rest`. -/
def gap (rest : List Char) : List Char := rest.take (run isGap rest)

/-- The place of the scanner behind the blanks in front of `rest`. -/
def Scanner.past (s : Scanner) (rest : List Char) : Reading TokenKind := s.reading.skip (gap rest)

/-- No body found so far covers the next character. -/
def Scanner.Outside (s : Scanner) (offset : Nat) : Prop := ∀ b ∈ s.bodies, ¬(b.start ≤ offset ∧ offset < b.stop)

/-- The body that covers an offset. -/
def cover? (bodies : List Span) (offset : Nat) : Option Span :=
  bodies.find? fun b => b.start ≤ offset && offset < b.stop

theorem cover?_eq_none {s : Scanner} {offset : Nat} : cover? s.bodies offset = none ↔ s.Outside offset := by
  simp only [cover?, List.find?_eq_none, Bool.and_eq_true, decide_eq_true_eq]
  rfl

/-- What stands behind the blanks in front of `rest`: the scanner `s` becomes the second one, and `width` characters
are taken. -/
inductive Found (lines : LineIndex) (s : Scanner) (rest : List Char) : Scanner → Nat → Prop
  | comment {cs : List Char} : rest = gap rest ++ '#' :: cs → s.Outside (s.past rest).offset →
      Found lines s rest (s.addComment ((s.past rest).comment lines ('#' :: cs.takeWhile (· != '\n'))))
        ((gap rest).length + (1 + run (· != '\n') cs))
  | blockComment {cs : List Char} {width : Nat} : rest = gap rest ++ '/' :: '*' :: cs → s.Outside (s.past rest).offset →
      blockComment? cs = some width → Found lines s rest s ((gap rest).length + (2 + width))
  | inside {inside below : List Char} {body : Span} : rest = gap rest ++ (inside ++ below) → body ∈ s.bodies →
      body.start ≤ (s.past rest).offset → (s.past rest).offset + byteLength inside = body.stop → inside ≠ [] →
      Found lines s rest s ((gap rest).length + inside.length)
  | token {kind : TokenKind} {cs below : List Char} : rest = gap rest ++ (cs ++ below) → cs ≠ [] → kind ≠ .eof →
      s.Outside (s.past rest).offset → (kind = .string → cs.head? ≠ some '@') →
      Found lines s rest (s.add ((s.past rest).token kind cs)) ((gap rest).length + cs.length)
  | heredoc {cs below inside : List Char} {body : Span} : rest = gap rest ++ (cs ++ below) → cs = headerText inside →
      '\n' ∉ inside → s.Outside (s.past rest).offset →
      heredocBody s.bodies (tagOf inside) ((s.past rest).offset + byteLength cs) below = .ok (some body) →
      Found lines s rest (s.open_ ((s.past rest).token .string cs) body) ((gap rest).length + cs.length)

section Steps

variable {lines : LineIndex} {s s' : Scanner} {rest cs : List Char} {n w : Nat}

theorem gap_length (rest : List Char) : (gap rest).length = run isGap rest := by
  rw [gap, List.length_take]
  exact Nat.min_eq_left (run_le _ _)

theorem Found.width (h : Found lines s rest s' n) : 0 < n ∧ n ≤ rest.length := by
  cases h with
  | @comment cs h =>
    have hlength := congrArg List.length h
    have := run_le (· != '\n') cs
    simp only [List.length_append, List.length_cons] at hlength
    omega
  | blockComment h _ hclose =>
    have hlength := congrArg List.length h
    have := blockComment?_le hclose
    simp only [List.length_append, List.length_cons] at hlength
    omega
  | inside h _ _ _ hne | token h hne _ =>
    have hlength := congrArg List.length h
    have := List.length_pos_iff.mpr hne
    simp only [List.length_append] at hlength
    omega
  | heredoc h hcs =>
    have hlength := congrArg List.length h
    have := List.length_pos_iff.mpr (headerText_ne_nil hcs)
    simp only [List.length_append] at hlength
    omega

/-- The scanner stays where it is until what it found is passed. -/
theorem Found.offset (h : Found lines s rest s' n) : s'.reading.offset = s.reading.offset := by
  cases h <;> rfl

theorem found_token {kind : TokenKind} (hrest : rest = gap rest ++ cs) (houtside : s.Outside (s.past rest).offset)
    (hpos : 0 < w) (hle : w ≤ cs.length)
    (h : found s (s.past rest) (gap rest).length cs kind w = .ok (some (s', n))) (hkind : kind ≠ .eof)
    (hstring : kind = .string → cs.head? ≠ some '@') : Found lines s rest s' n := by
  cases h
  have hwidth : (cs.take w).length = w := List.length_take_of_le hle
  have hne : cs.take w ≠ [] := List.ne_nil_of_length_pos (by omega)
  have hcut : rest = gap rest ++ (cs.take w ++ cs.drop w) := by rw [List.take_append_drop]; exact hrest
  have hfound : Found lines s rest (s.add ((s.past rest).token kind (cs.take w)))
      ((gap rest).length + (cs.take w).length) := by
    refine .token hcut hne hkind houtside fun hk => ?_
    rw [List.head?_take, if_neg (Nat.ne_of_gt hpos)]
    exact hstring hk
  rwa [hwidth] at hfound

theorem accept_found {l : Lexeme} (hrest : rest = gap rest ++ cs) (houtside : s.Outside (s.past rest).offset)
    (hl : l.Fits w cs) (h : accept lines s (s.past rest) (gap rest).length cs w l = .ok (some (s', n))) :
    Found lines s rest s' n := by
  obtain ⟨hpos, hle, hopens⟩ := hl
  unfold accept at h
  split at h
  · obtain ⟨r, rfl, rfl⟩ := hopens
    cases h
    rw [Nat.add_comm 1, List.take_succ_cons, Ruby.take_run, ← Nat.add_comm 1]
    exact .comment hrest houtside
  · obtain ⟨r, rfl, rfl⟩ := hopens
    split at h
    · cases h
    · next width hclose =>
      cases h
      rw [Nat.add_assoc]
      exact .blockComment hrest houtside hclose
  · split at h
    · cases h
    · next hbody =>
      have hlt := body?_lt hbody
      rw [List.length_drop] at hlt
      obtain ⟨hquote, r, rfl⟩ := hopens
      exact found_token hrest houtside (by omega) (by omega) h nofun fun _ he => quote_ne_at hquote (Option.some.inj he)
  · obtain ⟨inside, below, rfl, hline, rfl⟩ := hopens
    dsimp only at h
    rw [List.take_left, List.drop_left] at h
    split at h
    · cases h
    · cases h
    · next body hbody =>
      have htag : ((headerText inside).drop 2).dropLast = inside := by simp [headerText]
      rw [htag] at hbody
      cases h
      rw [List.take_left]
      exact .heredoc hrest rfl hline houtside hbody
  · split at h
    · split at h
      · cases h
      · next hregex =>
        have := regexTail?_le hregex
        rw [List.length_drop] at this
        exact found_token hrest houtside (by omega) (by omega) h nofun nofun
    · exact found_token hrest houtside hpos hle h nofun nofun
  · exact found_token hrest houtside hpos hle h hopens.1 fun he => absurd he hopens.2.1

theorem step_found (h : step lines s rest = .ok (some (s', n))) : Found lines s rest s' n := by
  unfold step at h
  dsimp only at h
  have hrest : rest = gap rest ++ rest.drop (run isGap rest) := (List.take_append_drop _ _).symm
  have hpast : s.reading.skip (rest.take (run isGap rest)) = s.past rest := rfl
  rw [hpast, ← gap_length] at h
  rw [← gap_length] at hrest
  generalize rest.drop (gap rest).length = cs at h hrest
  split at h
  · cases h
  next hne =>
  split at h
  · next body hbody =>
    have hmem := List.mem_of_find?_eq_some hbody
    have hwithin := List.find?_some hbody
    simp only [Bool.and_eq_true, decide_eq_true_eq] at hwithin
    split at h
    · cases h
    · next inside below hcut =>
      cases h
      unfold cutAt at hcut
      split at hcut
      · next hsplit =>
        cases hcut
        obtain ⟨rfl, hlength⟩ := Text.append_eq_of_cut? hsplit
        refine .inside hrest hmem hwithin.1 (by omega) ?_
        rintro rfl
        simp only [Text.byteLength_nil] at hlength
        omega
      · cases hcut
  · next hnone =>
    have houtside : s.Outside (s.past rest).offset := cover?_eq_none.mp hnone
    split at h
    · have hlength : 1 ≤ cs.length := by
        rcases cs with _ | ⟨c, cs⟩
        · simp at hne
        · simp
      exact found_token hrest houtside Nat.one_pos hlength h nofun nofun
    · next hl => exact accept_found hrest houtside (lexeme?_fits hl) h

end Steps

end PuppetDocs.Manifest
