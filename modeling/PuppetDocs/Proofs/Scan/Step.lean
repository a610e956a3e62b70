import PuppetDocs.Proofs.Scan.Extent
import Mathlib.Data.List.TakeWhile

/-
  PuppetDocs.Proofs.Scan.Step — what one step of the scanner can find, and runs of steps.

  A step that finds something finds one of four things (`Found`): an embedded document at the
  start of a line, a comment, a token other than a line feed, or a line feed with the bodies of
  the heredocs its line opened. Comments, tokens and line feeds may have blanks in front of
  them. The scanner's step is taken apart twice, for whatever it may find (`step_found`) and for
  a lexeme that is known to stand in front of it (`step_accept`).

  `Run` is the walk of the scanner as a relation: `walk` ends where a run ends at which there
  is no further step (`walk_run`).
-/

namespace PuppetDocs

namespace Reading

variable {κ : Type}

@[simp] theorem skip_nil (r : Reading κ) : r.skip [] = r := rfl

@[simp] theorem skip_cons (r : Reading κ) (c : Char) (cs : List Char) : r.skip (c :: cs) = (r.next c).skip cs := rfl

@[simp] theorem skip_behind (r : Reading κ) (cs : List Char) : (r.skip cs).behind = cs.reverse ++ r.behind := by
  induction cs generalizing r with
  | nil => rfl
  | cons c cs ih => simp [ih, next]

@[simp] theorem skip_offset (r : Reading κ) (cs : List Char) : (r.skip cs).offset = r.offset + Text.byteLength cs := by
  induction cs generalizing r with
  | nil => rfl
  | cons c cs ih => simp [ih, next, Nat.add_assoc]

@[simp] theorem skip_tokens (r : Reading κ) (cs : List Char) : (r.skip cs).tokens = r.tokens := by
  induction cs generalizing r with
  | nil => rfl
  | cons c cs ih => simp [ih, next]

@[simp] theorem skip_comments (r : Reading κ) (cs : List Char) : (r.skip cs).comments = r.comments := by
  induction cs generalizing r with
  | nil => rfl
  | cons c cs ih => simp [ih, next]

theorem skip_eq (r : Reading κ) (cs : List Char) :
    r.skip cs = { r with behind := cs.reverse ++ r.behind, offset := r.offset + Text.byteLength cs } := by
  rw [← skip_behind, ← skip_offset, ← skip_tokens r cs, ← skip_comments r cs]

end Reading

namespace Ruby

open Text (run isNameChar)

/-- The heredoc that a token opens: its text is a marker, and its value the body found later. -/
def heredocOf? (t : Token TokenKind) : Option Heredoc :=
  match t.kind with
  | .string _ =>
    match t.text.toList with
    | '<' :: '<' :: marker => some (.ofMarker marker)
    | _ => none
  | _ => none

namespace Scanner

/-- The scanner behind the characters `cs`. -/
def pass (s : Scanner) (cs : List Char) : Scanner := { s with reading := s.reading.skip cs }

@[simp] theorem pass_pending (s : Scanner) (cs : List Char) : (s.pass cs).pending = s.pending := rfl
@[simp] theorem pass_reading (s : Scanner) (cs : List Char) : (s.pass cs).reading = s.reading.skip cs := rfl

/-- Adds a token, and the heredoc that it opens to those without a body. -/
def push (s : Scanner) (t : Token TokenKind) : Scanner :=
  { reading := { s.reading with tokens := t :: s.reading.tokens }
    pending := s.pending ++ ((heredocOf? t).map fun heredoc => { heredoc, start := t.span.start }).toList }

end Scanner

/-! ## What a step finds -/

/-- What stands at the front of `rest`: the scanner `s` becomes the second one, and `width` characters are taken. -/
inductive Found (lines : LineIndex) (s : Scanner) (rest : List Char) : Scanner → Nat → Prop
  | document {width : Nat} : s.reading.atLineStart = true → "=begin".toList.isPrefixOf rest = true →
      embeddedDoc? rest = some width → Found lines s rest s width
  | comment {cs : List Char} : rest.drop (blanks rest) = '#' :: cs →
      Found lines s rest
        (s.addComment ((s.reading.skip (rest.take (blanks rest))).comment lines ('#' :: cs.takeWhile (· != '\n'))))
        (blanks rest + (1 + run (· != '\n') cs))
  | token {kind : TokenKind} {cs : List Char} {width : Nat} : rest.drop (blanks rest) = cs → 0 < width →
      width ≤ cs.length → kind ≠ .newline → (cs.take width).getLast? ≠ some '\n' →
      Found lines s rest (s.push ((s.reading.skip (rest.take (blanks rest))).token kind (cs.take width)))
        (blanks rest + width)
  | newline {below : List Char} {tokens : List (Token TokenKind)} {after : List (List Char)} :
      rest.drop (blanks rest) = '\n' :: below →
      readBodies lines ((s.reading.skip (rest.take (blanks rest))).token .newline ['\n'] :: s.reading.tokens)
        s.pending (Text.physicalLines below) = .ok (tokens, after) →
      Found lines s rest { reading := { s.reading with tokens }, pending := [] }
        (blanks rest + 1 + (below.length - after.flatten.length))

/-! ## Ends of tokens -/

theorem take_run (p : Char → Bool) (cs : List Char) : cs.take (run p cs) = cs.takeWhile p :=
  (List.prefix_iff_eq_take.mp (List.takeWhile_prefix p)).symm

theorem drop_run (p : Char → Bool) (cs : List Char) : cs.drop (run p cs) = cs.dropWhile p := by
  have h : cs.takeWhile p ++ cs.drop (run p cs) = cs.takeWhile p ++ cs.dropWhile p := by
    rw [List.takeWhile_append_dropWhile, ← take_run, List.take_append_drop]
  exact List.append_cancel_left h

/-- The line feed ends a comment. -/
theorem take_comment (cs : List Char) :
    ('#' :: cs).take (1 + run (· != '\n') cs) = '#' :: cs.takeWhile (· != '\n') := by
  rw [Nat.add_comm, List.take_succ_cons, take_run]

theorem takeWhile_line {a : List Char} (ha : '\n' ∉ a) (x : List Char) :
    (a ++ '\n' :: x).takeWhile (· != '\n') = a := by
  rw [List.takeWhile_append_of_pos (fun c hc => by simpa using ne_of_mem_of_not_mem hc ha), List.takeWhile_cons]
  simp

theorem take_ne_nil {cs : List Char} {n : Nat} (h : 0 < n) (hle : n ≤ cs.length) : cs.take n ≠ [] :=
  List.ne_nil_of_length_pos (by rw [List.length_take]; omega)

theorem getLast?_take_succ {cs : List Char} {n : Nat} {c : Char} (h : cs[n]? = some c) :
    (cs.take (n + 1)).getLast? = some c := by
  rw [List.take_add_one, h, Option.toList_some, List.getLast?_concat]

/-- Letters behind a text do not make it end with a line feed. -/
theorem getLast?_take_run {p : Char → Bool} (hp : p '\n' = false) {cs : List Char} {n : Nat}
    (h : (cs.take n).getLast? ≠ some '\n') : (cs.take (n + run p (cs.drop n))).getLast? ≠ some '\n' := by
  rw [List.take_add, take_run, List.getLast?_append]
  intro he
  rcases Option.or_eq_some_iff.mp he with he | ⟨-, he⟩
  · have := List.mem_takeWhile_imp (List.mem_of_getLast? he)
    rw [hp] at this
    cases this
  · exact h he

theorem getLast?_ne_of_not_mem {cs : List Char} (h : '\n' ∉ cs) : cs.getLast? ≠ some '\n' :=
  fun he => h (List.mem_of_getLast? he)

/-- A token that opens no heredoc. -/
theorem push_eq_add {s : Scanner} {r : Reading TokenKind} {kind : TokenKind} {cs : List Char}
    (h : heredocOf? (r.token kind cs) = none) : s.push (r.token kind cs) = s.add (r.token kind cs) := by
  simp [Scanner.push, Scanner.add, h]

/-! ## Each kind of lexeme -/

section Accept

variable {lines : LineIndex} {s s' : Scanner} {r : Reading TokenKind} {gap n : Nat} {cs : List Char}

/-- The steps that find a token: what `accept` answers for every lexeme but a comment and a line feed. -/
def FoundToken (s : Scanner) (r : Reading TokenKind) (gap : Nat) (cs : List Char) (s' : Scanner) (n : Nat) : Prop :=
  ∃ kind width, 0 < width ∧ width ≤ cs.length ∧ kind ≠ .newline ∧ (cs.take width).getLast? ≠ some '\n' ∧
    s' = s.push (r.token kind (cs.take width)) ∧ n = gap + width

/-- No character of a marker stands at the front of a token that is no heredoc. -/
theorem foundToken_of_found {kind : TokenKind} {width : Nat} (h : found s r gap cs kind width = .ok (some (s', n)))
    (hpos : 0 < width) (hle : width ≤ cs.length) (hk : kind ≠ .newline)
    (hlast : (cs.take width).getLast? ≠ some '\n')
    (hopen : heredocOf? (r.token kind (cs.take width)) = none) : FoundToken s r gap cs s' n := by
  cases h
  exact ⟨kind, width, hpos, hle, hk, hlast, (push_eq_add hopen).symm, rfl⟩

theorem heredocOf?_plain {t : Token TokenKind} (h : ∀ v, t.kind ≠ .string v) : heredocOf? t = none := by
  unfold heredocOf?
  split
  · rename_i v hkind
    exact absurd hkind (h v)
  · rfl

theorem heredocOf?_of_not_string {kind : TokenKind} {text : List Char} (hk : ∀ v, kind ≠ .string v) :
    heredocOf? (r.token kind text) = none := heredocOf?_plain hk

theorem heredocOf?_of_head {kind : TokenKind} {c : Char} {text : List Char} (hc : c ≠ '<') {width : Nat} (hw : 0 < width) :
    heredocOf? (r.token kind ((c :: text).take width)) = none := by
  obtain ⟨w, rfl⟩ := Nat.exists_eq_succ_of_ne_zero (Nat.ne_of_gt hw)
  simp only [heredocOf?, Reading.token, List.take_succ_cons, String.toList_ofList]
  split
  · split
    · rename_i heq; exact absurd (List.cons.inj heq).1 hc
    · rfl
  · rfl

theorem literal_found {d : Delimiters} {width : Nat} {flags : Bool} {kind : StrLit → TokenKind}
    (h : literal lines s r gap cs width d flags kind = .ok (some (s', n))) (hd : d.close ≠ '\n') (hw : 0 < width)
    (hk : ∀ v, kind v ≠ .newline) (hc : cs.head? ≠ some '<') : FoundToken s r gap cs s' n := by
  simp only [literal] at h
  split at h
  · cases h
  rename_i m hbody
  have hclose := Delimiters.bodyFrom_close hbody
  rw [List.getElem?_drop] at hclose
  have hlast : (cs.take (width + m + 1)).getLast? ≠ some '\n' := by
    rw [getLast?_take_succ hclose]
    exact fun he => hd (Option.some.inj he)
  have hlen : width + m < cs.length := (List.getElem?_eq_some_iff.mp hclose).1
  have hopen : ∀ v w, 0 < w → heredocOf? (r.token (kind v) (cs.take w)) = none := by
    intro v w hw
    rcases cs with _ | ⟨c, cs⟩
    · simp at hlen
    · exact heredocOf?_of_head (by simpa using hc) hw
  cases flags with
  | false =>
    exact foundToken_of_found h (by simp) (by simp; omega) (hk _) (by simpa using hlast) (hopen _ _ (by simp))
  | true =>
    have hrun := run_le Char.isAlpha (cs.drop (width + m + 1))
    rw [List.length_drop] at hrun
    refine foundToken_of_found h (by omega) (by simp only [if_true]; omega) (hk _) ?_ (hopen _ _ (by omega))
    exact getLast?_take_run (by decide) hlast

theorem closingOf_ne {c : Char} (hc : c ≠ '\n') : closingOf c ≠ '\n' := by
  unfold closingOf
  split <;> first | decide | exact hc

theorem percent_opener {rest : List Char} (h : percentOpening rest ≠ 0) :
    ∃ c, (('%' :: rest).take (1 + percentOpening rest)).getLast? = some c ∧ isPercentDelimiter c = true := by
  unfold percentOpening at h ⊢
  rcases rest with _ | ⟨c, r⟩
  · simp at h
  · dsimp only at h ⊢
    split at h
    · rename_i hc
      exact ⟨c, by simp [hc], hc⟩
    · rename_i hc
      split at h
      · rename_i hf
        rcases r with _ | ⟨d, r⟩
        · simp at h
        · dsimp only at h
          split at h
          · rename_i hd
            exact ⟨d, by simp [hc, hf, hd], hd⟩
          · exact absurd rfl h
      · exact absurd rfl h

theorem percentLiteral_found {rest : List Char} (hopen : percentOpening rest ≠ 0)
    (h : percentLiteral lines s r gap ('%' :: rest) (1 + percentOpening rest) = .ok (some (s', n))) :
    FoundToken s r gap ('%' :: rest) s' n := by
  obtain ⟨c, hc, hdel⟩ := percent_opener hopen
  have hne : closingOf c ≠ '\n' := closingOf_ne (by rintro rfl; revert hdel; decide)
  simp only [percentLiteral, hc, Option.getD_some] at h
  split at h <;> exact literal_found h hne (by omega) (by simp) (by simp)

/-- A name that stands in front of a colon is followed by it. -/
theorem isKey_head {rest : List Char} (h : isKey r rest = true) : ∃ x, rest = ':' :: x := by
  simp only [isKey, Bool.and_eq_true] at h
  rcases rest with _ | ⟨c, x⟩
  · simp at h
  · by_cases hc : c = ':'
    · exact ⟨x, by rw [hc]⟩
    · simp [hc] at h

theorem isSetter_head {symbol rest : List Char} (h : isSetter symbol rest = true) : ∃ x, rest = '=' :: x := by
  simp only [isSetter, Bool.and_eq_true] at h
  rcases rest with _ | ⟨c, x⟩
  · simp at h
  · by_cases hc : c = '='
    · exact ⟨x, by rw [hc]⟩
    · simp [hc] at h

/-- One more character, other than a line feed, belongs to the token. -/
theorem take_succ_of_drop {w : Nat} {c : Char} {x : List Char} (h : cs.drop w = c :: x) (hc : c ≠ '\n') :
    w + 1 ≤ cs.length ∧ (cs.take (w + 1)).getLast? ≠ some '\n' := by
  have hget : cs[w]? = some c := by rw [← List.head?_drop, h]; rfl
  refine ⟨(List.getElem?_eq_some_iff.mp hget).1, ?_⟩
  rw [getLast?_take_succ hget]
  exact fun he => hc (Option.some.inj he)

theorem accept_found {l : Lexeme} {width : Nat} (hl : lexeme? cs = some (l, width)) (hne : l ≠ .plain .newline)
    (hcomment : l ≠ .comment) (h : accept lines s r gap cs width l = .ok (some (s', n))) :
    FoundToken s r gap cs s' n := by
  obtain ⟨hstarts, hpos, hle⟩ := lexeme?_fits hl
  have hmem := lexeme?_not_mem hl hne
  have hlast := getLast?_ne_of_not_mem hmem
  cases l with
  | comment => exact absurd rfl hcomment
  | word =>
    rw [accept] at h
    split at h
    · rename_i hkey
      obtain ⟨x, hx⟩ := isKey_head hkey
      obtain ⟨hle', hlast'⟩ := take_succ_of_drop hx (by decide)
      exact foundToken_of_found h (by omega) hle' (by simp) hlast' (heredocOf?_of_not_string (by simp))
    · split at h
      · exact foundToken_of_found h hpos hle (by simp) hlast (heredocOf?_of_not_string (by simp))
      · exact foundToken_of_found h hpos hle (by simp) hlast (heredocOf?_of_not_string (by simp))
  | opening o =>
    cases o with
    | singleQuote =>
      obtain ⟨x, rfl⟩ := hstarts
      exact literal_found h (by simp [Delimiters.quote]) hpos (by simp) (by simp)
    | doubleQuote =>
      obtain ⟨x, rfl⟩ := hstarts
      exact literal_found h (by simp [Delimiters.quote]) hpos (by simp) (by simp)
    | backtick =>
      obtain ⟨x, rfl⟩ := hstarts
      exact literal_found h (by simp [Delimiters.quote]) hpos (by simp) (by simp)
    | symbolQuote q =>
      obtain ⟨hq, x, rfl⟩ := hstarts
      have hq' : q ≠ '\n' := by rcases hq with rfl | rfl <;> decide
      exact literal_found h (by simpa [Delimiters.quote] using hq') hpos (by simp) (by simp)
    | percent =>
      obtain ⟨x, rfl, hopen, rfl⟩ := hstarts
      rw [accept] at h
      split at h
      · exact percentLiteral_found hopen h
      · exact foundToken_of_found h (by omega) (by simp) (by simp) (by simp) (heredocOf?_of_not_string (by simp))
    | heredoc =>
      obtain ⟨x, rfl, -, rfl⟩ := hstarts
      rw [accept] at h
      split at h
      · cases h
        refine ⟨.string { value := "", interpolated := false }, _, hpos, hle, by simp, hlast, ?_, rfl⟩
        rw [Nat.add_comm 2] at *
        simp [Scanner.push, Scanner.add, heredocOf?, Reading.token]
      · exact foundToken_of_found h (by omega) (by simp) (by simp) (by simp) (heredocOf?_of_not_string (by simp))
  | plain kind =>
    -- Every other plain lexeme is a token as it stands, some with one more character or as a literal.
    have hplain : kind ≠ .newline := fun he => hne (he ▸ rfl)
    have hstring : ∀ v, kind ≠ .string v := by
      intro v he
      subst he
      exact hstarts.2.1 v rfl
    cases kind with
    | newline => exact absurd rfl hplain
    | string v => exact absurd rfl (hstring v)
    | constant =>
      rw [accept] at h
      split at h
      · rename_i hkey
        obtain ⟨x, hx⟩ := isKey_head hkey
        obtain ⟨hle', hlast'⟩ := take_succ_of_drop hx (by decide)
        exact foundToken_of_found h (by omega) hle' (by simp) hlast' (heredocOf?_of_not_string (by simp))
      · exact foundToken_of_found h hpos hle (by simp) hlast (heredocOf?_of_not_string (by simp))
    | symbol =>
      rw [accept] at h
      split at h
      · rename_i hset
        obtain ⟨x, hx⟩ := isSetter_head hset
        obtain ⟨hle', hlast'⟩ := take_succ_of_drop hx (by decide)
        exact foundToken_of_found h (by omega) hle' (by simp) hlast' (heredocOf?_of_not_string (by simp))
      · exact foundToken_of_found h hpos hle (by simp) hlast (heredocOf?_of_not_string (by simp))
    | slash =>
      rw [accept] at h
      split at h
      · split at h
        · cases h
        rename_i m hbody
        have hslash := regexBody?_slash hbody
        rw [List.getElem?_drop, Nat.add_comm] at hslash
        have hlen := (List.getElem?_eq_some_iff.mp hslash).1
        have hlast' : (cs.take (m + 2)).getLast? ≠ some '\n' := by
          rw [getLast?_take_succ hslash]
          simp
        have hrun := run_le Char.isAlpha (cs.drop (m + 2))
        rw [List.length_drop] at hrun
        exact foundToken_of_found h (by omega) (by omega) (by simp) (getLast?_take_run (by decide) hlast')
          (heredocOf?_of_not_string (by simp))
      · exact foundToken_of_found h hpos hle (by simp) hlast (heredocOf?_of_not_string (by simp))
    | _ => exact foundToken_of_found h hpos hle hplain hlast (heredocOf?_of_not_string hstring)

end Accept

/-! ## Steps and runs -/

section Lexeme

variable {lines : LineIndex} {s : Scanner} {l : Lexeme} {width : Nat}

/-- Where the line starts with no marker, the step accepts the lexeme behind the blanks. -/
theorem step_accept {rest x : List Char} {c : Char} (hcs : rest.drop (blanks rest) = c :: x)
    (hdocument : "=begin".toList.isPrefixOf rest = false) (hdata : isDataMarker rest = false)
    (hl : lexeme? (c :: x) = some (l, width)) :
    step lines s rest =
      accept lines s (s.reading.skip (rest.take (blanks rest))) (blanks rest) (c :: x) width l := by
  rw [step, hdocument, hdata, Bool.and_false, if_neg (by simp), if_neg (by simp)]
  simp only [hcs, hl, List.isEmpty_cons, Bool.false_eq_true, if_false]

theorem step_gap (gap : List Char) {cs : List Char} (hgap : ∀ c ∈ gap, c = ' ')
    (hhead : ∃ c r, cs = c :: r ∧ c ∉ [' ', '\t', '\r', '\x0c', '\\'])
    (hdocument : "=begin".toList.isPrefixOf (gap ++ cs) = false) (hdata : isDataMarker (gap ++ cs) = false)
    (hl : lexeme? cs = some (l, width)) :
    step lines s (gap ++ cs) = accept lines s (s.reading.skip gap) gap.length cs width l := by
  obtain ⟨c, r, rfl, hc⟩ := hhead
  have hblanks : blanks (gap ++ c :: r) = gap.length := by rw [blanks_gap hgap, blanks_text hc, Nat.add_zero]
  have hcs : (gap ++ c :: r).drop (blanks (gap ++ c :: r)) = c :: r := by rw [hblanks, List.drop_left]
  rw [step_accept hcs hdocument hdata hl, hblanks, List.take_left]

end Lexeme

/-- Whatever a step finds is one of the four things. -/
theorem step_found {lines : LineIndex} {s s' : Scanner} {rest : List Char} {n : Nat}
    (h : step lines s rest = .ok (some (s', n))) : Found lines s rest s' n := by
  rw [step] at h
  split at h
  · rename_i hdoc
    simp only [Bool.and_eq_true] at hdoc
    split at h
    · rename_i width hwidth
      cases h
      exact .document hdoc.1 hdoc.2 hwidth
    · cases h
  split at h
  · cases h
  dsimp only at h
  split at h
  · cases h
  rename_i hne
  generalize hcs : rest.drop (blanks rest) = cs at h hne
  split at h
  · rename_i hl
    rcases cs with _ | ⟨c, cs⟩
    · exact absurd rfl hne
    have hc : c ≠ '\n' := by
      rintro rfl
      rw [lexeme?_newline] at hl
      cases hl
    obtain ⟨kind, width, hpos, hle, hk, hlast, rfl, rfl⟩ :=
      foundToken_of_found h (by omega) (by simp) (by simp) (by simpa using hc) (heredocOf?_of_not_string (by simp))
    exact .token hcs hpos hle hk hlast
  · rename_i l width hl
    by_cases hcomment : l = .comment
    · subst hcomment
      obtain ⟨r, rfl, rfl⟩ := (lexeme?_fits hl).starts
      cases h
      rw [Nat.add_comm 1, List.take_succ_cons, take_run, Nat.add_comm _ 1]
      exact .comment hcs
    by_cases hnl : l = .plain .newline
    · subst hnl
      obtain ⟨below, rfl, rfl⟩ := (lexeme?_fits hl).starts
      simp only [accept, newline] at h
      split at h
      · rename_i hp
        cases h
        have hp : s.pending = [] := List.isEmpty_iff.mp hp
        have hbodies : readBodies lines ((s.reading.skip (rest.take (blanks rest))).token .newline ['\n'] ::
            s.reading.tokens) s.pending (Text.physicalLines below) =
            .ok ((s.reading.skip (rest.take (blanks rest))).token .newline ['\n'] :: s.reading.tokens,
              Text.physicalLines below) := by
          rw [hp]
          rfl
        have hfound := Found.newline hcs hbodies
        rw [Text.flatten_physicalLines, Nat.sub_self, Nat.add_zero] at hfound
        have hs : s.add ((s.reading.skip (rest.take (blanks rest))).token .newline ['\n']) =
            { reading := { s.reading with tokens := (s.reading.skip (rest.take (blanks rest))).token .newline ['\n'] ::
                s.reading.tokens }, pending := [] } := by rw [← hp]; rfl
        simpa only [List.take_succ_cons, List.take_zero, hs] using hfound
      · split at h
        · cases h
        · rename_i tokens after hbodies
          cases h
          exact .newline hcs hbodies
    · obtain ⟨kind, width, hpos, hle, hk, hlast, rfl, rfl⟩ := accept_found hl hnl hcomment h
      exact .token hcs hpos hle hk hlast

theorem Found.width {lines : LineIndex} {s s' : Scanner} {rest : List Char} {n : Nat} (h : Found lines s rest s' n) :
    0 < n ∧ n ≤ rest.length := by
  have hb := blanks_le rest
  have hdrop : (rest.drop (blanks rest)).length = rest.length - blanks rest := List.length_drop
  cases h with
  | document _ _ hw => exact ⟨embeddedDoc?_pos hw, embeddedDoc?_le hw⟩
  | comment hcs =>
    rename_i cs
    have := run_le (· != '\n') cs
    rw [hcs, List.length_cons] at hdrop
    omega
  | token hcs hpos hle => rw [hcs] at hdrop; omega
  | newline hcs =>
    rw [hcs, List.length_cons] at hdrop
    omega

/-- Something is found only in front of other characters than blanks. -/
theorem Found.blanks_lt {lines : LineIndex} {s s' : Scanner} {rest : List Char} {n : Nat}
    (h : Found lines s rest s' n) : blanks rest < rest.length := by
  have hdrop : (rest.drop (blanks rest)).length = rest.length - blanks rest := List.length_drop
  cases h with
  | document _ hbegin =>
    obtain ⟨r, rfl⟩ := List.isPrefixOf_iff_prefix.mp hbegin
    simp [blanks]
  | comment hcs => rw [hcs, List.length_cons] at hdrop; omega
  | token hcs hpos hle => rw [hcs] at hdrop; omega
  | newline hcs => rw [hcs, List.length_cons] at hdrop; omega

/-- From `s` in front of the first text the scanner comes, step by step, to the second scanner in front of the
second text. -/
inductive Run (lines : LineIndex) : Scanner → List Char → Scanner → List Char → Prop
  | here (s : Scanner) (rest : List Char) : Run lines s rest s rest
  | next {s t s' : Scanner} {rest rest' : List Char} {n : Nat} : rest ≠ [] → step lines s rest = .ok (some (t, n)) →
      Run lines (t.pass (rest.take n)) (rest.drop n) s' rest' → Run lines s rest s' rest'

theorem walk_taken {lines : LineIndex} {rest : List Char} {n : Nat} (h : n ≤ rest.length) (s : Scanner) :
    walk lines rest n s = walk lines (rest.drop n) 0 (s.pass (rest.take n)) := by
  induction n generalizing rest s with
  | zero => rfl
  | succ n ih =>
    rcases rest with _ | ⟨c, rest⟩
    · simp at h
    · simp only [walk, List.take_succ_cons, List.drop_succ_cons]
      rw [ih (by simpa using h)]
      rfl

theorem walk_next {lines : LineIndex} {s t : Scanner} {rest : List Char} {n : Nat} (hne : rest ≠ [])
    (h : step lines s rest = .ok (some (t, n))) :
    walk lines rest 0 s = walk lines (rest.drop n) 0 (t.pass (rest.take n)) := by
  obtain ⟨hpos, hle⟩ := (step_found h).width
  obtain ⟨c, rest, rfl⟩ := List.exists_cons_of_ne_nil hne
  obtain ⟨m, rfl⟩ := Nat.exists_eq_succ_of_ne_zero (Nat.ne_of_gt hpos)
  simp only [walk, h, Nat.succ_eq_add_one, Nat.add_sub_cancel]
  rw [walk_taken (by simpa using hle)]
  rfl

theorem Run.walk_eq {lines : LineIndex} {s s' : Scanner} {rest rest' : List Char} (h : Run lines s rest s' rest') :
    walk lines rest 0 s = walk lines rest' 0 s' := by
  induction h with
  | here => rfl
  | next hne hstep _ ih => rw [walk_next hne hstep, ih]

/-- A walk that goes on takes a step. -/
theorem walk_cases {lines : LineIndex} {s z : Scanner} {c : Char} {cs : List Char}
    (h : walk lines (c :: cs) 0 s = .ok z) :
    step lines s (c :: cs) = .ok none ∧ z = s ∨
      ∃ t n, step lines s (c :: cs) = .ok (some (t, n)) ∧
        walk lines ((c :: cs).drop n) 0 (t.pass ((c :: cs).take n)) = .ok z := by
  rcases hstep : step lines s (c :: cs) with e | _ | ⟨t, n⟩
  · simp [walk, hstep] at h
  · simp only [walk, hstep, Except.ok.injEq] at h
    exact .inl ⟨rfl, h.symm⟩
  · rw [walk_next (by simp) hstep] at h
    exact .inr ⟨t, n, rfl, h⟩

/-- A walk that succeeds is a run up to the end of the text or to where no further step is. -/
theorem walk_run {lines : LineIndex} {s s' : Scanner} {rest : List Char} (h : walk lines rest 0 s = .ok s') :
    ∃ rest', Run lines s rest s' rest' ∧ (rest' = [] ∨ step lines s' rest' = .ok none) := by
  induction hn : rest.length using Nat.strongRecOn generalizing rest s with
  | ind k ih =>
    subst hn
    rcases rest with _ | ⟨c, rest⟩
    · cases h
      exact ⟨[], .here _ [], .inl rfl⟩
    rcases walk_cases h with ⟨hnone, rfl⟩ | ⟨t, n, hstep, hwalk⟩
    · exact ⟨_, .here _ _, .inr hnone⟩
    · obtain ⟨hpos, hle⟩ := (step_found hstep).width
      obtain ⟨rest', hrun, hend⟩ := ih ((c :: rest).drop n).length (by rw [List.length_drop]; omega) hwalk rfl
      exact ⟨rest', .next (by simp) hstep hrun, hend⟩

/-! ## Where a scan ends -/

theorem literal_ne_none {lines : LineIndex} {s : Scanner} {r : Reading TokenKind} {gap : Nat} {cs : List Char} {width : Nat}
    {d : Delimiters} {flags : Bool} {kind : StrLit → TokenKind} : literal lines s r gap cs width d flags kind ≠ .ok none := by
  rw [literal]
  split <;> nofun

theorem percentLiteral_ne_none {lines : LineIndex} {s : Scanner} {r : Reading TokenKind} {gap : Nat} {cs : List Char}
    {width : Nat} : percentLiteral lines s r gap cs width ≠ .ok none := by
  simp only [percentLiteral]
  split <;> exact literal_ne_none

theorem newline_ne_none {lines : LineIndex} {s : Scanner} {r : Reading TokenKind} {gap : Nat} {cs : List Char} :
    newline lines s r gap cs ≠ .ok none := by
  simp only [newline]
  split
  · nofun
  · split <;> nofun

theorem accept_ne_none {lines : LineIndex} {s : Scanner} {r : Reading TokenKind} {gap : Nat} {cs : List Char} {width : Nat}
    {l : Lexeme} : accept lines s r gap cs width l ≠ .ok none := by
  cases l with
  | comment => nofun
  | word =>
    rw [accept]
    split
    · nofun
    · split <;> nofun
  | opening o =>
    cases o with
    | singleQuote | doubleQuote | backtick | symbolQuote => exact literal_ne_none
    | percent =>
      rw [accept]
      split
      · exact percentLiteral_ne_none
      · nofun
    | heredoc =>
      rw [accept]
      split <;> nofun
  | plain kind =>
    cases kind with
    | newline => exact newline_ne_none
    | constant | symbol =>
      rw [accept]
      split <;> nofun
    | slash =>
      rw [accept]
      split
      · split <;> nofun
      · nofun
    | _ => nofun

/-- There is no further step only in front of data, or if nothing but blanks are left. -/
theorem step_none {lines : LineIndex} {s : Scanner} {rest : List Char} (h : step lines s rest = .ok none) :
    s.reading.atLineStart = true ∧ isDataMarker rest = true ∨ rest.drop (blanks rest) = [] := by
  rw [step] at h
  split at h
  · split at h <;> cases h
  split at h
  · rename_i hdata
    exact .inl (by simpa using hdata)
  dsimp only at h
  split at h
  · rename_i hcs
    exact .inr (List.isEmpty_iff.mp hcs)
  · split at h
    · cases h
    · exact absurd h accept_ne_none

end Ruby
end PuppetDocs
