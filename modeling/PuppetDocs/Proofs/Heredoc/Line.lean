import PuppetDocs.Proofs.Decl.Chain
import PuppetDocs.Proofs.Heredoc.Bodies

/-
  PuppetDocs.Proofs.Heredoc.Line — a line that opens heredocs.

  A marker is read as a string token without a value where a value may start: behind an opening
  parenthesis, a comma, or a method name and a blank (`WrittenHeredoc.follows`). The values are
  filled in at the end of the line, when the bodies below it have been read; what each token of
  the line becomes is said by its part of the line (`LinePart.filled`).
-/

namespace PuppetDocs.Ruby

open Decl (Word Chain placed opened print)
open Text (byteLength isNameChar run)

namespace WrittenHeredoc

variable (h : WrittenHeredoc)

/-! ## The marker -/

theorem markerSign_marker {c : Char} (hc : c ≠ '-' ∧ c ≠ '~') (r : List Char) :
    markerSign (h.sign.chars ++ c :: r) = (h.sign.chars.length, c :: r) := by
  cases h.sign with
  | plain => simp [HeredocSign.chars, markerSign, hc]
  | dash => rfl
  | squiggle => rfl

theorem heredocMarker_bare {more : List Char} (hmore : ∀ c ∈ more.head?, isNameChar c = false) :
    heredocMarker (h.sign.chars ++ (h.tag ++ more)) = h.sign.chars.length + h.tag.length := by
  obtain ⟨c, r, htag, hc, hr⟩ := h.isTag
  have hapart : c ≠ '-' ∧ c ≠ '~' := by
    constructor <;> (rintro rfl; revert hc; decide)
  rw [htag, List.cons_append, heredocMarker, h.markerSign_marker hapart]
  simp only [hc, if_true, Decl.run_append hr hmore, List.length_cons]
  omega

theorem heredocMarker_quoted {q : Char} (hq : q = '\'' ∨ q = '"') (more : List Char) :
    heredocMarker (h.sign.chars ++ (q :: (h.tag ++ q :: more))) = h.sign.chars.length + (h.tag.length + 2) := by
  have hapart : isVarStart q = false ∧ isNameChar q = false ∧ q ≠ '-' ∧ q ≠ '~' := by
    rcases hq with rfl | rfl <;> decide
  obtain ⟨hstart, hname, hsign⟩ := hapart
  have hinside : run (fun c => c != q && c != '\n') (h.tag ++ q :: more) = h.tag.length := by
    refine Decl.run_append (fun d hd => ?_) (by simp)
    have hd := h.tag_name d hd
    have hquote : d ≠ q := by rintro rfl; rw [hname] at hd; cases hd
    have hfeed : d ≠ '\n' := by rintro rfl; cases hd
    simp [hquote, hfeed]
  have hlength : 0 < h.tag.length := List.length_pos_iff.mpr h.tag_ne_nil
  have hwide : (h.tag.length != 0) = true := by simpa using h.tag_ne_nil
  have hmark : (q == '\'' || q == '"') = true := by simpa using hq
  rw [heredocMarker, h.markerSign_marker hsign]
  simp only [hstart, Bool.false_eq_true, if_false, hmark, if_true, hinside, List.drop_left, beq_self_eq_true, hwide,
    Bool.and_self]
  omega

theorem lexeme?_marker {more : List Char} (hmore : ∀ c ∈ more.head?, isNameChar c = false) :
    lexeme? (h.marker ++ more) = some (.opening .heredoc, h.marker.length) := by
  have hwidth : heredocMarker (h.sign.chars ++ (h.quote.marks ++ (h.tag ++ h.quote.marks)) ++ more) + 2 =
      h.marker.length := by
    rw [marker]
    cases h.quote with
    | bare => simp [TagQuote.marks, h.heredocMarker_bare hmore]
    | single => simp [TagQuote.marks, h.heredocMarker_quoted (.inl rfl)]
    | double => simp [TagQuote.marks, h.heredocMarker_quoted (.inr rfl)]
  have hpos : heredocMarker (h.sign.chars ++ (h.quote.marks ++ (h.tag ++ h.quote.marks)) ++ more) ≠ 0 := by
    have hlength : 0 < h.tag.length := List.length_pos_iff.mpr h.tag_ne_nil
    have hlong : 2 + h.tag.length ≤ h.marker.length := by simp [marker]; omega
    omega
  have hlexeme : lexeme? (h.marker ++ more) =
      some (.opening .heredoc, 2 + heredocMarker (h.sign.chars ++ (h.quote.marks ++ (h.tag ++ h.quote.marks)) ++ more)) :=
    if_pos hpos
  rw [hlexeme, Nat.add_comm, hwidth]

/-- The marker with blanks in front of it, as a word of the kind that its token has. -/
def word (gap : List Char) (value : StrLit) : Word := ⟨gap, .string value, h.marker⟩

theorem marker_solid : ∃ front c, h.marker = front ++ [c] ∧ c ∉ [' ', '\t', '\n', '\r', '\\'] := by
  have hend : ∃ front c, h.tag ++ h.quote.marks = front ++ [c] ∧ c ∉ [' ', '\t', '\n', '\r', '\\'] := by
    cases h.quote with
    | bare => simpa [TagQuote.marks] using Decl.name_solid h.tag_ne_nil h.tag_name
    | single => exact ⟨h.tag, '\'', rfl, by decide⟩
    | double => exact ⟨h.tag, '"', rfl, by decide⟩
  obtain ⟨front, c, hfront, hc⟩ := hend
  exact ⟨'<' :: '<' :: (h.sign.chars ++ (h.quote.marks ++ front)), c, by simp [marker, hfront], hc⟩

theorem heredocOf?_marker {t : Token TokenKind} {v : StrLit} (hkind : t.kind = .string v)
    (htext : t.text = String.ofList h.marker) : heredocOf? t = some h.heredoc := by
  rw [← h.ofMarker_marker]
  simp [heredocOf?, hkind, htext, marker]

/-- Where a marker may stand: a value may start there. -/
def Opens (last : Option TokenKind) (gap : List Char) : Prop :=
  last = some .lparen ∨ last = some .comma ∨ last = some .ident ∧ gap ≠ []

variable {gap : List Char} {last : Option TokenKind} {more : List Char}

theorem readsAfter (hlast : Opens last gap) (hmore : ∀ c ∈ more.head?, isNameChar c = false) :
    (h.word gap { value := "", interpolated := false }).ReadsAfter last more := by
  intro lines s r n hr hspace
  refine ⟨.opening .heredoc, h.marker.length, h.lexeme?_marker hmore, ?_⟩
  have hmay : valueMayStart r ((h.marker ++ more).drop 1) = true := by
    rw [valueMayStart, hr]
    rcases hlast with rfl | rfl | ⟨rfl, hgap⟩
    · rfl
    · rfl
    · simp [TokenKind.endsValue, hspace hgap, marker]
  have hopened : heredocOf? (r.token (.string { value := "", interpolated := false }) h.marker) = some h.heredoc :=
    h.heredocOf?_marker rfl rfl
  simp only [accept, word, hmay, if_true, List.take_left, h.ofMarker_marker, found, Scanner.push, hopened,
    Option.map_some, Option.toList_some]
  rfl

theorem follows (hgap : ∀ c ∈ gap, c = ' ') (hlast : Opens last gap) (hmore : ∀ c ∈ more.head?, isNameChar c = false) :
    (h.word gap { value := "", interpolated := false }).Follows last more := by
  have hfirst : ∃ c r, gap ++ h.marker ++ more = c :: r ∧ c ≠ '=' ∧ c ≠ '_' := by
    cases gap with
    | nil => exact ⟨'<', _, rfl, by decide⟩
    | cons c gap => exact ⟨c, _, rfl, by rw [hgap c (by simp)]; decide⟩
  obtain ⟨c, r, hchars, hc⟩ := hfirst
  obtain ⟨hdocument, hdata⟩ := not_marker hc r
  rw [← hchars] at hdocument hdata
  exact ⟨hgap, ⟨'<', _, rfl, by decide⟩, h.marker_solid, hdocument, hdata, h.readsAfter hlast hmore⟩

end WrittenHeredoc

/-! ## Parts of a line -/

/-- A word of the line, or the marker of a heredoc behind blanks. -/
inductive LinePart where
  | word (w : Word)
  | heredoc (gap : List Char) (h : WrittenHeredoc)

namespace LinePart

/-- The part as it is read, before the end of the line. -/
def unfilled : LinePart → Word
  | word w => w
  | heredoc gap h => h.word gap { value := "", interpolated := false }

/-- The part when the bodies have been read. -/
def filled : LinePart → Word
  | word w => w
  | heredoc gap h => h.word gap h.value

theorem filled_chars (p : LinePart) : p.filled.chars = p.unfilled.chars := by
  cases p <;> rfl

end LinePart

/-- The heredocs of a line that starts at `offset`, each with the offset of its marker. -/
def waiting (offset : Nat) : List LinePart → List Marked
  | [] => []
  | .word w :: ps => waiting (offset + byteLength w.chars) ps
  | .heredoc gap h :: ps => ⟨h, offset + byteLength gap⟩ :: waiting (offset + byteLength (gap ++ h.marker)) ps

def LinePart.heredoc? : LinePart → Option WrittenHeredoc
  | word _ => none
  | heredoc _ h => some h

theorem waiting_heredoc (offset : Nat) (ps : List LinePart) :
    (waiting offset ps).map Marked.heredoc = ps.filterMap LinePart.heredoc? := by
  induction ps generalizing offset with
  | nil => rfl
  | cons p ps ih => cases p <;> simp [waiting, LinePart.heredoc?, List.filterMap_cons, ih]

theorem print_filled (ps : List LinePart) : print (ps.map LinePart.filled) = print (ps.map LinePart.unfilled) := by
  induction ps with
  | nil => rfl
  | cons p ps ih => simp [ih, p.filled_chars]

/-- The words of the line other than its markers are not empty, and no strings. -/
def PlainWords (ps : List LinePart) : Prop := ∀ w, .word w ∈ ps → w.text ≠ [] ∧ ∀ v, w.kind ≠ .string v

theorem PlainWords.tail {p : LinePart} {ps : List LinePart} (h : PlainWords (p :: ps)) : PlainWords ps :=
  fun w hw => h w (List.mem_cons_of_mem _ hw)

variable {ps : List LinePart}

/-- The heredocs that the tokens open are those of the line. -/
theorem opened_placed (offset : Nat) (spaced : Bool) (hps : PlainWords ps) :
    opened (placed offset spaced (ps.map LinePart.unfilled)) = (waiting offset ps).map Marked.pending := by
  induction ps generalizing offset spaced with
  | nil => rfl
  | cons p ps ih =>
    have hrest := fun offset => ih offset false hps.tail
    unfold opened at hrest ⊢
    cases p with
    | word w =>
      rw [List.map_cons, placed, List.filterMap_cons, hrest, heredocOf?_plain (hps w (by simp)).2]
      rfl
    | heredoc gap h =>
      rw [List.map_cons, placed, List.filterMap_cons, hrest, h.heredocOf?_marker rfl rfl]
      rfl

/-! ## Filling in the values -/

theorem fill_apart {tokens : List (Token TokenKind)} {start : Nat} {value : StrLit}
    (h : ∀ t ∈ tokens, t.span.start ≠ start) : fill tokens start value = tokens := by
  unfold fill
  refine (List.map_congr_left fun t ht => ?_).trans (List.map_id _)
  rw [if_neg (by simpa using h t ht), id]

theorem fill_at {before behind : List (Token TokenKind)} {t : Token TokenKind} {value : StrLit}
    (hbefore : ∀ u ∈ before, u.span.start ≠ t.span.start) (hbehind : ∀ u ∈ behind, u.span.start ≠ t.span.start) :
    fill (before ++ t :: behind) t.span.start value = before ++ { t with kind := .string value } :: behind := by
  have hsplit : fill (before ++ t :: behind) t.span.start value =
      fill before t.span.start value ++ (if t.span.start == t.span.start then { t with kind := .string value } else t) ::
        fill behind t.span.start value := by
    rw [fill, List.map_append, List.map_cons]
    rfl
  rw [hsplit, fill_apart hbefore, fill_apart hbehind, if_pos (by simp)]

theorem fillAll_reverse (tokens : List (Token TokenKind)) (ms : List Marked) :
    fillAll tokens.reverse ms = (fillAll tokens ms).reverse := by
  induction ms generalizing tokens with
  | nil => rfl
  | cons m ms ih =>
    have hfill : fill tokens.reverse m.start m.heredoc.value = (fill tokens m.start m.heredoc.value).reverse :=
      List.map_reverse
    rw [fillAll, List.foldl_cons, hfill]
    exact ih _

theorem byteLength_gap_lt {w : Word} (h : w.text ≠ []) : byteLength w.gap < byteLength w.chars := by
  have := Text.byteLength_pos h
  rw [Word.chars, Text.byteLength_append]
  omega

/-- Every marker's token gets the value of its heredoc, and no other token changes. -/
theorem fillAll_placed (offset : Nat) (spaced : Bool) (hps : PlainWords ps) {before behind : List (Token TokenKind)}
    (hbefore : ∀ t ∈ before, t.span.start < offset)
    (hbehind : ∀ t ∈ behind, offset + byteLength (print (ps.map LinePart.unfilled)) ≤ t.span.start) :
    fillAll (before ++ (placed offset spaced (ps.map LinePart.unfilled) ++ behind)) (waiting offset ps) =
      before ++ (placed offset spaced (ps.map LinePart.filled) ++ behind) := by
  induction ps generalizing offset spaced before with
  | nil => rfl
  | cons p ps ih =>
    have hbehind : ∀ t ∈ behind, offset + byteLength p.unfilled.chars +
        byteLength (print (ps.map LinePart.unfilled)) ≤ t.span.start := by
      intro t ht
      have := hbehind t ht
      rw [List.map_cons, Decl.print_cons, Text.byteLength_append] at this
      omega
    -- The tokens up to this part are put in front of the others, once its own token has its value.
    have hrest : ∀ t : Token TokenKind, t.span.start = offset + byteLength p.unfilled.gap →
        fillAll (before ++ t :: (placed (offset + byteLength p.unfilled.chars) false (ps.map LinePart.unfilled) ++ behind))
            (waiting (offset + byteLength p.unfilled.chars) ps) =
          before ++ t :: (placed (offset + byteLength p.unfilled.chars) false (ps.map LinePart.filled) ++ behind) := by
      intro t ht
      have hlt : byteLength p.unfilled.gap < byteLength p.unfilled.chars := by
        refine byteLength_gap_lt ?_
        cases p with
        | word w => exact (hps w (by simp)).1
        | heredoc gap h => simp [LinePart.unfilled, WrittenHeredoc.word, WrittenHeredoc.marker]
      have hfront : ∀ u ∈ before ++ [t], u.span.start < offset + byteLength p.unfilled.chars := by
        intro u hu
        rcases List.mem_append.mp hu with hu | hu
        · exact Nat.lt_add_right _ (hbefore u hu)
        · rw [List.mem_singleton.mp hu, ht]
          omega
      simpa using ih (offset + byteLength p.unfilled.chars) false hps.tail hfront hbehind
    cases p with
    | word w => exact hrest _ rfl
    | heredoc gap h =>
      let t : Token TokenKind := {
        kind := .string { value := "", interpolated := false }
        text := String.ofList h.marker
        span := ⟨offset + byteLength gap, offset + byteLength (gap ++ h.marker)⟩
        spaced := spaced || !gap.isEmpty }
      let tail := placed (offset + byteLength (gap ++ h.marker)) false (ps.map LinePart.unfilled)
      have hwide : byteLength gap < byteLength (gap ++ h.marker) :=
        byteLength_gap_lt (w := h.word gap h.value) (by simp [WrittenHeredoc.word, WrittenHeredoc.marker])
      have htail : ∀ u ∈ tail ++ behind, u.span.start ≠ t.span.start := by
        intro u hu
        refine Nat.ne_of_gt (Nat.lt_of_lt_of_le (Nat.add_lt_add_left hwide offset) ?_)
        rcases List.mem_append.mp hu with hu | hu
        · exact Decl.placed_start hu
        · exact Nat.le_trans (Nat.le_add_right _ _) (hbehind u hu)
      have hfill : fill (before ++ t :: (tail ++ behind)) t.span.start h.value =
          before ++ { t with kind := .string h.value } :: (tail ++ behind) :=
        fill_at (fun u hu => Nat.ne_of_lt (Nat.lt_add_right _ (hbefore u hu))) htail
      exact (congrArg (fillAll · (waiting (offset + byteLength (gap ++ h.marker)) ps)) hfill).trans (hrest _ rfl)

/-! ## The end of the line -/

/-- A line feed asks for the bodies of the heredocs that are open. -/
theorem step_newline {lines : LineIndex} {s : Scanner} (hopen : s.pending ≠ []) {below : List Char}
    {tokens : List (Token TokenKind)} {rest : List (List Char)}
    (h : readBodies lines (s.reading.token .newline ['\n'] :: s.reading.tokens) s.pending (Text.physicalLines below) =
      .ok (tokens, rest)) :
    step lines s ('\n' :: below) =
      .ok (some ({ reading := { s.reading with tokens }, pending := [] }, 1 + (below.length - rest.flatten.length))) := by
  obtain ⟨hdocument, hdata⟩ := not_marker (c := '\n') (by decide) below
  have hstep : step lines s ('\n' :: below) = newline lines s s.reading 0 ('\n' :: below) :=
    step_gap [] (by simp) ⟨'\n', below, rfl, by decide⟩ hdocument hdata (lexeme?_newline below)
  have hpending : s.pending.isEmpty = false := by simpa using hopen
  rw [hstep, newline, hpending]
  simp only [Bool.false_eq_true, if_false, Scanner.add, List.take_succ_cons, List.take_zero, List.drop_succ_cons,
    List.drop_zero, h, Nat.zero_add]

end PuppetDocs.Ruby
