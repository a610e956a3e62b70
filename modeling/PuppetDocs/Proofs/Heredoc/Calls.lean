import PuppetDocs.Proofs.Heredoc.Line
import PuppetDocs.Proofs.Scan.Below
import PuppetDocs.Proofs.Text.Lines

/-
  PuppetDocs.Proofs.Heredoc.Calls — calls whose arguments are heredocs.

  The heredocs of a call open on its line, one behind the other, and their bodies stand below it
  in the same order. The tokens of the line are those of its words, each marker with the value
  of its own heredoc, and the text below the bodies is read as if it stood alone (`scan_heredocs`):
  whatever the bodies hold, they are found and passed as a whole.
-/

namespace PuppetDocs.Ruby

open Decl (Word Chain Piece placed print sign)
open Text (byteLength isNameChar)

/-- An argument, and the number of blanks in front of it. -/
structure HeredocArg where
  blanks : Nat
  heredoc : WrittenHeredoc

structure HeredocCall where
  receiver : Option Decl.Path
  method : Decl.MethodName
  parens : Bool
  first : HeredocArg
  others : List HeredocArg

namespace HeredocCall

def spaces (n : Nat) : List Char := List.replicate n ' '

/-- The receiver, if there is one, and the method name. -/
def head (c : HeredocCall) : List Word :=
  match c.receiver with
  | none => [⟨[], .ident, c.method.chars⟩]
  | some path => path.words [] ++ [sign .dot ".", ⟨[], .ident, c.method.chars⟩]

def opening (c : HeredocCall) : List LinePart := if c.parens then [.word (sign .lparen "(")] else []

/-- Without a parenthesis a blank sets the first argument off from the method name. -/
def firstGap (c : HeredocCall) : List Char := spaces (if c.parens then c.first.blanks else c.first.blanks + 1)

def closing (c : HeredocCall) : List LinePart := if c.parens then [.word (sign .rparen ")")] else []

def further : List HeredocArg → List LinePart
  | [] => []
  | a :: as => .word (sign .comma ",") :: .heredoc (spaces a.blanks) a.heredoc :: further as

def args (c : HeredocCall) : List LinePart := .heredoc c.firstGap c.first.heredoc :: (further c.others ++ c.closing)

def parts (c : HeredocCall) : List LinePart := c.head.map .word ++ (c.opening ++ c.args)

/-- The words of the line, each marker with the value of its heredoc. -/
def words (c : HeredocCall) : List Word := c.parts.map LinePart.filled

def heredocs (c : HeredocCall) : List WrittenHeredoc := c.first.heredoc :: c.others.map HeredocArg.heredoc

/-- The call and, each on a line of its own, the lines of its heredocs. -/
def upper (c : HeredocCall) (rest : Remainder) : List Char :=
  print c.words ++ ((c.heredocs.flatMap WrittenHeredoc.lines).flatMap ('\n' :: ·) ++ rest.feed)

/-- The tokens of the line and of the line feed at its end. -/
def tokens (c : HeredocCall) : List (Token TokenKind) := placed 0 true (c.words ++ [Decl.newline])

end HeredocCall

/-! ## The lines below -/

/-- The lines of a text are those it is written as and those of what remains. -/
theorem physicalLines_lines (line : List Char) {lines : List (List Char)}
    (hlines : ∀ l ∈ line :: lines, '\n' ∉ l) (hlast : (line :: lines).getLast? ≠ some []) (rest : Remainder) :
    ∃ upper, Text.physicalLines (line ++ (lines.flatMap ('\n' :: ·) ++ (rest.feed ++ rest.text))) =
        upper ++ Text.physicalLines rest.text ∧
      upper.map Heredoc.content = (line :: lines).map withoutReturns := by
  have hline : '\n' ∉ line := hlines line (by simp)
  induction lines generalizing line with
  | nil =>
    cases rest with
    | none =>
      refine ⟨[line], ?_, ?_⟩
      · simpa [Remainder.feed, Remainder.text, Text.physicalLines] using
          physicalLines_last hline (by simpa using hlast)
      · simpa using WrittenHeredoc.content_line hline (.inr rfl)
    | below text =>
      refine ⟨[line ++ ['\n']], ?_, ?_⟩
      · simpa [Remainder.feed, Remainder.text] using physicalLines_line hline text
      · simpa using WrittenHeredoc.content_line hline (.inl rfl)
  | cons next lines ih =>
    obtain ⟨upper, hphysical, hcontent⟩ := ih next (fun l hl => hlines l (List.mem_cons_of_mem _ hl))
      (by simpa using hlast) (hlines next (by simp))
    refine ⟨(line ++ ['\n']) :: upper, ?_, ?_⟩
    · rw [List.flatMap_cons, List.cons_append, List.cons_append, physicalLines_line hline, List.append_assoc, hphysical,
        List.cons_append]
    · rw [List.map_cons, hcontent, WrittenHeredoc.content_line hline (.inl rfl)]
      rfl

namespace HeredocCall

variable (c : HeredocCall)

/-! ## The line -/

theorem spaces_blank (n : Nat) : ∀ d ∈ spaces n, d = ' ' := fun _ hd => List.eq_of_mem_replicate hd

variable {more : List Char} (hmore : ∀ d ∈ more.head?, d = '\n')

theorem chain_closing (last : Option TokenKind) : Chain more last (c.closing.map LinePart.unfilled) := by
  unfold closing
  split
  · exact .cons (Decl.follows_sign (by simp) (Decl.startsWord_cons (by decide) _ _) ⟨[], ')', rfl, by decide⟩ (by decide)
      (by simp) rfl last) .nil
  · exact .nil

include hmore

/-- No marker runs into what stands behind it. -/
theorem further_head (as : List HeredocArg) :
    ∀ d ∈ (print ((further as ++ c.closing).map LinePart.unfilled) ++ more).head?, isNameChar d = false := by
  intro d hd
  cases as with
  | nil =>
    unfold closing at hd
    split at hd
    · obtain rfl : ')' = d := Option.some.inj hd
      decide
    · rw [hmore d hd]
      decide
  | cons a as =>
    obtain rfl : ',' = d := Option.some.inj hd
    decide

theorem chain_further (as : List HeredocArg) (last : Option TokenKind) :
    Chain more last ((further as ++ c.closing).map LinePart.unfilled) := by
  induction as generalizing last with
  | nil => exact c.chain_closing last
  | cons a as ih =>
    have hcomma : (sign .comma ",").Follows last
        (print ((.heredoc (spaces a.blanks) a.heredoc :: (further as ++ c.closing)).map LinePart.unfilled) ++ more) :=
      Decl.follows_sign (by simp) (Decl.startsWord_cons (by decide) _ _) ⟨[], ',', rfl, by decide⟩ (by decide) (by simp)
        rfl last
    exact .cons hcomma (.cons (a.heredoc.follows (spaces_blank _) (.inr (.inl rfl)) (c.further_head hmore as)) (ih _))

/-- The first argument and all that follows it. -/
theorem chain_args : Chain more (some (if c.parens then .lparen else .ident)) (c.args.map LinePart.unfilled) := by
  have hopens : WrittenHeredoc.Opens (some (if c.parens then .lparen else .ident)) c.firstGap := by
    unfold firstGap
    cases c.parens with
    | true => exact .inl rfl
    | false => exact .inr (.inr ⟨rfl, by simp [spaces, List.replicate_succ]⟩)
  exact .cons (c.first.heredoc.follows (spaces_blank _) hopens (c.further_head hmore c.others))
    (c.chain_further hmore c.others _)

theorem chain_opening : Chain more (some .ident) ((c.opening ++ c.args).map LinePart.unfilled) := by
  have hargs := c.chain_args hmore
  unfold opening
  cases hparens : c.parens with
  | true =>
    rw [hparens] at hargs
    exact .cons (Decl.follows_sign (by simp) (Decl.startsWord_cons (by decide) _ _) ⟨[], '(', rfl, by decide⟩ (by decide)
      (by simp) rfl _) hargs
  | false =>
    rw [hparens] at hargs
    exact hargs

omit hmore in
/-- Behind the method name stands a parenthesis or a blank. -/
theorem opening_head :
    ∃ d r, print ((c.opening ++ c.args).map LinePart.unfilled) ++ more = d :: r ∧ d ∈ ['(', ' '] := by
  unfold opening args firstGap
  cases c.parens with
  | true => exact ⟨'(', _, rfl, by simp⟩
  | false => exact ⟨' ', _, rfl, by simp⟩

theorem chain : Chain more none (c.parts.map LinePart.unfilled) := by
  obtain ⟨d, r, hhead, hd⟩ : ∃ d r, print ((c.opening ++ c.args).map LinePart.unfilled) ++ more = d :: r ∧
      d ∈ ['(', ' '] := c.opening_head
  have hends : Decl.EndsName (d :: r) := by
    refine Decl.endsName_cons ?_ ?_ r <;>
      (simp only [List.mem_cons, List.not_mem_nil, or_false] at hd; rcases hd with rfl | rfl <;> decide)
  have hmethod : ∀ last,
      Chain more last (⟨[], .ident, c.method.chars⟩ :: (c.opening ++ c.args).map LinePart.unfilled) := by
    intro last
    refine .cons (Decl.follows_method (by simp) c.method ?_ (fun _ => ?_) last) (c.chain_opening hmore)
    · rw [hhead]
      exact .inr hends
    · rw [hhead]
      exact Decl.method_not_data c.method hd r
  have hwords : c.parts.map LinePart.unfilled = c.head ++ (c.opening ++ c.args).map LinePart.unfilled := by
    rw [parts, List.map_append, List.map_map]
    exact congrArg (· ++ _) (List.map_id _)
  rw [hwords]
  unfold head
  cases c.receiver with
  | none => exact hmethod none
  | some path =>
    rw [List.append_assoc]
    refine path.chain (by simp) (.inr (Decl.endsName_cons (by decide) (by decide) _)) (.cons ?_ (hmethod _))
    have hdot : ∀ x, lexeme? ('.' :: (c.method.chars ++ x)) = some (.plain .dot, 1) := by
      intro x
      obtain ⟨e, body, mark, hchars, he, -⟩ := c.method.isName
      rw [hchars]
      exact Decl.lexeme?_dot (Decl.ne_of_holds he (by decide)) _
    refine Decl.follows_sign (by simp) (Decl.startsWord_cons (by decide) _ _) ⟨[], '.', rfl, by decide⟩ (by decide)
      (by simp) ?_ _
    refine Eq.trans (congrArg lexeme? ?_) (hdot (print ((c.opening ++ c.args).map LinePart.unfilled) ++ more))
    simp [Word.chars]

omit hmore

theorem path_plain (p : Decl.Path) (gap : List Char) :
    ∀ w ∈ p.words gap, w.text ≠ [] ∧ ∀ v, w.kind ≠ .string v := by
  have hconst : ∀ n : Decl.ConstName, n.chars ≠ [] := by
    intro n
    obtain ⟨d, body, hchars, -⟩ := n.isName
    simp [hchars]
  induction p with
  | name n => simp [Decl.Path.words, hconst]
  | member p n ih =>
    intro w hw
    rw [Decl.Path.words, List.mem_append] at hw
    rcases hw with hw | hw
    · exact ih w hw
    · simp only [List.mem_cons, List.not_mem_nil, or_false] at hw
      rcases hw with rfl | rfl <;> simp [hconst]

theorem plainWords : PlainWords c.parts := by
  have hfurther : ∀ as w, .word w ∈ further as → w.text ≠ [] ∧ ∀ v, w.kind ≠ .string v := by
    intro as w hw
    induction as with
    | nil => cases hw
    | cons a as ih =>
      simp only [further, List.mem_cons, LinePart.word.injEq, reduceCtorEq, false_or] at hw
      rcases hw with rfl | hw
      · simp
      · exact ih hw
  have hhead : ∀ w ∈ c.head, w.text ≠ [] ∧ ∀ v, w.kind ≠ .string v := by
    intro w hw
    unfold head at hw
    split at hw
    · rw [List.mem_singleton.mp hw]
      simp [c.method.ne_nil]
    · rcases List.mem_append.mp hw with hw | hw
      · exact path_plain _ _ w hw
      · simp only [List.mem_cons, List.not_mem_nil, or_false] at hw
        rcases hw with rfl | rfl <;> simp [c.method.ne_nil]
  intro w hw
  simp only [parts, args, List.mem_append, List.mem_map, LinePart.word.injEq, exists_eq_right, List.mem_cons,
    reduceCtorEq, false_or] at hw
  rcases hw with hw | hw | hw | hw
  · exact hhead w hw
  · unfold opening at hw
    split at hw
    · obtain rfl := LinePart.word.inj (List.mem_singleton.mp hw)
      simp
    · cases hw
  · exact hfurther _ w hw
  · unfold closing at hw
    split at hw
    · obtain rfl := LinePart.word.inj (List.mem_singleton.mp hw)
      simp
    · cases hw

theorem further_heredocs (as : List HeredocArg) :
    (further as).filterMap LinePart.heredoc? = as.map HeredocArg.heredoc := by
  induction as with
  | nil => rfl
  | cons a as ih => simp [further, List.filterMap_cons, LinePart.heredoc?, ih]

theorem waiting_heredocs (offset : Nat) : (waiting offset c.parts).map Marked.heredoc = c.heredocs := by
  have hwords : ∀ ws : List Word, (ws.map LinePart.word).filterMap LinePart.heredoc? = [] := by
    intro ws
    simp [List.filterMap_eq_nil_iff, LinePart.heredoc?]
  have hopening : c.opening.filterMap LinePart.heredoc? = [] := by
    unfold opening
    split <;> rfl
  have hclosing : c.closing.filterMap LinePart.heredoc? = [] := by
    unfold closing
    split <;> rfl
  simp [waiting_heredoc, parts, args, heredocs, hwords, hopening, hclosing, further_heredocs, LinePart.heredoc?]

/-! ## The scan -/

/-- The scanner in front of the line feed: every heredoc waits for its body. -/
def atFeed : Scanner where
  reading := {
    behind := (print c.words).reverse
    offset := byteLength (print c.words)
    tokens := (placed 0 true (c.parts.map LinePart.unfilled)).reverse }
  pending := (waiting 0 c.parts).map Marked.pending

theorem walk_line (lines : LineIndex) (below : List Char) :
    walk lines (print c.words ++ '\n' :: below) 0 {} = walk lines ('\n' :: below) 0 c.atFeed := by
  have hmore : ∀ d ∈ ('\n' :: below).head?, d = '\n' := by simp
  have h := (c.chain hmore).walk lines {} rfl
  have hspaced : ({} : Reading TokenKind).afterSpace = true := rfl
  simp only [hspaced, List.append_nil, Nat.zero_add, List.nil_append, opened_placed 0 true c.plainWords] at h
  rw [atFeed, words, print_filled]
  exact h

/-- The lines of the bodies, the first of them apart. -/
theorem lines_cons : ∃ line lines, c.heredocs.flatMap WrittenHeredoc.lines = line :: lines ∧
    (∀ l ∈ line :: lines, '\n' ∉ l) ∧ (line :: lines).getLast? ≠ some [] := by
  have hfeed : ∀ l ∈ c.heredocs.flatMap WrittenHeredoc.lines, '\n' ∉ l := by
    intro l hl
    obtain ⟨h, -, hl⟩ := List.mem_flatMap.mp hl
    rcases List.mem_append.mp hl with hl | hl
    · exact (h.isBody l hl).1
    · rw [List.mem_singleton.mp hl]
      exact h.isClosing.1
  obtain ⟨init, h, hinit⟩ := (List.eq_nil_or_concat c.heredocs).resolve_left (by simp [heredocs])
  have hlast : (c.heredocs.flatMap WrittenHeredoc.lines).getLast? = some h.closing := by
    rw [hinit]
    simp [WrittenHeredoc.lines]
  obtain ⟨line, lines, hlines⟩ := List.exists_cons_of_ne_nil (l := c.heredocs.flatMap WrittenHeredoc.lines) (by
    rintro hnil
    rw [hnil] at hlast
    cases hlast)
  rw [hlines] at hlast hfeed
  exact ⟨line, lines, hlines, hfeed, by simp [hlast, h.closing_ne_nil]⟩

theorem words_ne_nil : c.words ≠ [] := by simp [words, parts, args]

/-- The token of the line feed stands directly behind the line. -/
theorem feed_token : c.atFeed.reading.token .newline ['\n'] =
    { kind := .newline, text := "\n", span := ⟨byteLength (print c.words), byteLength (print c.words) + 1⟩, spaced := false } := by
  have hchain : Chain [] none (c.parts.map LinePart.unfilled) := c.chain (by simp)
  obtain ⟨front, d, hfront, hd⟩ := hchain.solid (by simp [parts, args])
  have hspaced : c.atFeed.reading.afterSpace = false := by
    simp only [List.mem_cons, List.not_mem_nil, or_false, not_or] at hd
    simp [Reading.afterSpace, atFeed, words, print_filled, hfront, hd]
  rw [Reading.token, hspaced]
  rfl

theorem tokens_eq : c.tokens =
    placed 0 true (c.parts.map LinePart.filled) ++ [c.atFeed.reading.token .newline ['\n']] := by
  have hne : c.words.isEmpty = false := by simpa using c.words_ne_nil
  rw [tokens, Decl.placed_append, hne, feed_token]
  simp [placed, words, Word.chars]
  rfl

/-- With the values filled in, the tokens are those of the line. -/
theorem tokens_filled : fillAll (c.atFeed.reading.token .newline ['\n'] :: c.atFeed.reading.tokens) (waiting 0 c.parts) =
    c.tokens.reverse := by
  have hreverse : c.atFeed.reading.token .newline ['\n'] :: c.atFeed.reading.tokens =
      (placed 0 true (c.parts.map LinePart.unfilled) ++ [c.atFeed.reading.token .newline ['\n']]).reverse := by
    simp [atFeed]
  rw [hreverse, fillAll_reverse, tokens_eq]
  have hbehind : ∀ t ∈ [c.atFeed.reading.token .newline ['\n']],
      0 + byteLength (print (c.parts.map LinePart.unfilled)) ≤ t.span.start := by
    intro t ht
    rw [List.mem_singleton.mp ht, feed_token, words, print_filled, Nat.zero_add]
  have hnone : ∀ t ∈ ([] : List (Token TokenKind)), t.span.start < 0 := by simp
  exact congrArg List.reverse (fillAll_placed 0 true c.plainWords hnone hbehind)

/-- The line feed takes all the bodies with it. -/
theorem step_feed (lines : LineIndex) (rest : Remainder) :
    ∃ below, c.upper rest = print c.words ++ '\n' :: below ∧
      step lines c.atFeed ('\n' :: (below ++ rest.text)) =
        .ok (some ({ reading := { c.atFeed.reading with tokens := c.tokens.reverse }, pending := [] },
          1 + below.length)) := by
  obtain ⟨line, more, hlines, hfeed, hlast⟩ := c.lines_cons
  obtain ⟨above, hphysical, hcontent⟩ := physicalLines_lines line hfeed hlast rest
  refine ⟨line ++ (more.flatMap ('\n' :: ·) ++ rest.feed), by simp [upper, hlines], ?_⟩
  have hflat : (waiting 0 c.parts).flatMap (·.heredoc.lines) = line :: more := by
    rw [← hlines, ← c.waiting_heredocs 0, List.flatMap_map]
  have hlength : (line :: more).length = above.length := by simpa using (congrArg List.length hcontent).symm
  have hopen : c.atFeed.pending ≠ [] := by
    intro hnil
    rw [List.map_eq_nil_iff.mp hnil] at hflat
    cases hflat
  have hbodies : readBodies lines (c.atFeed.reading.token .newline ['\n'] :: c.atFeed.reading.tokens) c.atFeed.pending
      (Text.physicalLines (line ++ (more.flatMap ('\n' :: ·) ++ rest.feed) ++ rest.text)) =
      .ok (c.tokens.reverse, Text.physicalLines rest.text) := by
    have htext : line ++ (more.flatMap ('\n' :: ·) ++ rest.feed) ++ rest.text =
        line ++ (more.flatMap ('\n' :: ·) ++ (rest.feed ++ rest.text)) := by simp
    have hcontents : (above ++ Text.physicalLines rest.text).map Heredoc.content =
        ((waiting 0 c.parts).flatMap (·.heredoc.lines)).map withoutReturns ++
          (Text.physicalLines rest.text).map Heredoc.content := by
      rw [List.map_append, hcontent, hflat]
    have hread := readBodies_written lines (c.atFeed.reading.token .newline ['\n'] :: c.atFeed.reading.tokens)
      (waiting 0 c.parts) hcontents
    rw [htext, hphysical]
    rwa [tokens_filled, hflat, hlength, List.drop_left] at hread
  rw [step_newline hopen hbodies, Text.flatten_physicalLines, List.length_append, Nat.add_sub_cancel]

/-- Behind the bodies the scanner stands with the tokens of the line, and no heredoc is open. -/
def atRest (rest : Remainder) : Scanner where
  reading := {
    behind := (c.upper rest).reverse
    offset := byteLength (c.upper rest)
    tokens := c.tokens.reverse }

theorem walk_upper (lines : LineIndex) (rest : Remainder) :
    walk lines (c.upper rest ++ rest.text) 0 {} = walk lines rest.text 0 (c.atRest rest) := by
  obtain ⟨below, hupper, hstep⟩ := c.step_feed lines rest
  have htext : c.upper rest ++ rest.text = print c.words ++ '\n' :: (below ++ rest.text) := by simp [hupper]
  rw [htext, walk_line, walk_next (by simp) hstep, Nat.add_comm, List.drop_succ_cons, List.take_succ_cons, List.drop_left,
    List.take_left]
  congr 1
  simp [atRest, Scanner.pass, atFeed, hupper, Reading.skip_eq]

theorem lineEnd (text : List Char) : LineEnd (c.atRest (.below text)) where
  behind := ⟨(print c.words ++ (c.heredocs.flatMap WrittenHeredoc.lines).flatMap ('\n' :: ·)).reverse, by
    simp [atRest, upper, Remainder.feed]⟩
  pending := rfl
  last := .inr (by simp [atRest, tokens_eq, Reading.lastKind?, Reading.token])
  starts t ht := by
    have hwide : byteLength (print c.words) < byteLength (c.upper (.below text)) := by
      have := Char.utf8Size_pos '\n'
      simp only [upper, Remainder.feed, Text.byteLength_append, Text.byteLength_cons]
      omega
    refine Nat.lt_of_le_of_lt ?_ hwide
    rw [atRest, tokens_eq, List.mem_reverse] at ht
    rcases List.mem_append.mp ht with ht | ht
    · exact Nat.le_trans (Decl.placed_start_le ht) (by rw [words]; omega)
    · rw [List.mem_singleton.mp ht, feed_token]

end HeredocCall

/-- A call with heredocs is its tokens, each heredoc with its own value, and the text below the bodies is scanned apart
from them. -/
theorem scan_heredocs (c : HeredocCall) (rest : Remainder) :
    scan (c.upper rest ++ rest.text) =
      match scan rest.text with
      | .error e => .error (e.below ((c.upper rest).count '\n'))
      | .ok below => .ok {
          tokens := c.tokens ++ below.tokens.map (·.shift (byteLength (c.upper rest)))
          stop := below.stop.shift (byteLength (c.upper rest))
          comments := below.comments.map (·.below ((c.upper rest).count '\n')) } := by
  have hwalk := c.walk_upper (.ofText (c.upper rest ++ rest.text)) rest
  cases rest with
  | none =>
    have hempty : scan [] = .ok {
      tokens := [], stop := { kind := .eof, text := "", span := ⟨0, 0⟩, spaced := true }, comments := [] } := rfl
    simp only [Remainder.text, List.append_nil] at hwalk ⊢
    rw [hempty]
    simp [scan, hwalk, walk, HeredocCall.atRest, Token.shift, Span.shift]
  | below text =>
    have hends : EndsLine (c.upper (.below text)) :=
      ⟨print c.words ++ (c.heredocs.flatMap WrittenHeredoc.lines).flatMap ('\n' :: ·), by
        simp [HeredocCall.upper, Remainder.feed]⟩
    rw [scan_below hends (c.lineEnd text) rfl hwalk]
    rcases scan (Remainder.below text).text with e | below
    · rfl
    · simp [HeredocCall.atRest]

/-- A `~` heredoc loses its margin, one with a tag in single quotes keeps what could be an interpolation. -/
theorem scan_heredocs_pair : ∃ (c : HeredocCall) (s : Scanned TokenKind),
    c.upper (.below ['x']) = "p <<~A, <<'B'\n  a\n\n   b\n A\n#\x7b\"\nB\n".toList ∧
      scan (c.upper (.below ['x']) ++ ['x']) = .ok s ∧
      s.tokens.map Token.kind = [.ident, .string ⟨"a\n\n b\n", false⟩, .comma, .string ⟨"#\x7b\"\n", false⟩, .newline, .ident] ∧
      s.comments = [] := by
  have hinside : ∀ {sign : HeredocSign} {tag : Char} {line : List Char}, isNameChar tag = true →
      ¬(if sign = .plain then Text.dropEndWhile (· == '\r') line = [tag] else Text.trim line = [tag]) →
      ¬sign.Closes [tag] line := by
    intro sign tag line htag hline hcloses
    exact hline ((HeredocSign.closes_iff (by simp) (by simpa using htag)).mp hcloses)
  let first : WrittenHeredoc := {
    sign := .squiggle, quote := .bare, tag := ['A'], body := ["  a".toList, [], "   b".toList], closing := " A".toList
    isTag := ⟨'A', [], rfl, rfl, by simp⟩
    isBody := by
      simp only [List.forall_mem_cons]
      refine ⟨⟨by decide, by decide, hinside rfl (by decide)⟩, ⟨by decide, by decide, hinside rfl (by decide)⟩,
        ⟨by decide, by decide, hinside rfl (by decide)⟩, by simp⟩
    isClosing := ⟨by decide, [' '], [], rfl, by simp [Text.isBlank]⟩
    indent := by simp [Text.isBlank] }
  let second : WrittenHeredoc := {
    sign := .plain, quote := .single, tag := ['B'], body := ["#\x7b\"".toList], closing := ['B']
    isTag := ⟨'B', [], rfl, rfl, by simp⟩
    isBody := by
      simp only [List.forall_mem_cons]
      exact ⟨⟨by decide, by decide, hinside rfl (by decide)⟩, by simp⟩
    isClosing := ⟨by decide, [], rfl, by simp⟩
    indent := by
      intro hsign
      cases hsign }
  let c : HeredocCall := {
    receiver := none, method := ⟨['p'], ⟨'p', [], [], rfl, rfl, by simp, .inl rfl⟩, by decide⟩, parens := false
    first := ⟨0, first⟩, others := [⟨1, second⟩] }
  have h := scan_heredocs c (.below ['x'])
  obtain ⟨below, hbelow, hkinds, hcomments⟩ : ∃ below, scan ['x'] = .ok below ∧ below.tokens.map Token.kind = [.ident] ∧
      below.comments = [] := ⟨_, rfl, rfl, rfl⟩
  have hshift : ∀ n, (below.tokens.map (·.shift n)).map Token.kind = [.ident] := fun n => by rw [List.map_map]; exact hkinds
  rw [show (Remainder.below ['x']).text = ['x'] from rfl, hbelow] at h
  refine ⟨c, _, rfl, h, ?_, ?_⟩
  · rw [List.map_append, hshift]
    rfl
  · simp [hcomments]

end PuppetDocs.Ruby
