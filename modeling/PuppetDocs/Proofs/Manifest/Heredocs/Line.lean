import PuppetDocs.Proofs.Manifest.Heredocs.Syntax
import PuppetDocs.Proofs.Manifest.Heredocs.Twin
import PuppetDocs.Proofs.Manifest.Outline.Words

/-
  PuppetDocs.Proofs.Manifest.Heredocs.Line — a line that opens heredocs, and the bodies below it.

  While the line is read, the bodies of the heredocs opened so far stand right below it, one
  behind the other (`OnLine`): the next header finds its body behind the last of them. None of
  them reaches into the line, so its words are read as if there were no bodies. From the end of
  the line each body is passed over in one step (`walk_bodies`).
-/

namespace PuppetDocs.Manifest

open Outline (Word)
open Text (byteLength run isNameChar)

/-! ## Bodies below each other -/

/-- Where texts stand that start at `n` and follow each other. -/
def spansFrom (n : Nat) : List (List Char) → List Span
  | [] => []
  | b :: bs => ⟨n, n + byteLength b⟩ :: spansFrom (n + byteLength b) bs

theorem spansFrom_append (n : Nat) (bs bs' : List (List Char)) :
    spansFrom n (bs ++ bs') = spansFrom n bs ++ spansFrom (n + byteLength bs.flatten) bs' := by
  induction bs generalizing n with
  | nil => rfl
  | cons b bs ih => simp [spansFrom, ih, Nat.add_assoc]

theorem spansFrom_bounds {n : Nat} {bs : List (List Char)} {b : Span} (hb : b ∈ spansFrom n bs) :
    n ≤ b.start ∧ b.stop ≤ n + byteLength bs.flatten := by
  induction bs generalizing n with
  | nil => cases hb
  | cons c bs ih =>
    rw [List.flatten_cons, Text.byteLength_append]
    rcases List.mem_cons.mp hb with rfl | hb
    · exact ⟨Nat.le_refl _, by simp⟩
    · have := ih hb
      omega

theorem spansFrom_inOrder {bs : List (List Char)} (hne : ∀ b ∈ bs, b ≠ []) (n : Nat) : InOrder (spansFrom n bs) := by
  induction bs generalizing n with
  | nil => exact ⟨by simp [spansFrom], .nil⟩
  | cons b bs ih =>
    have hpos := Text.byteLength_pos (hne b List.mem_cons_self)
    have htail := ih (fun c hc => hne c (List.mem_cons_of_mem _ hc)) (n + byteLength b)
    refine ⟨List.forall_mem_cons.mpr ⟨?_, htail.pos⟩, List.pairwise_cons.mpr ⟨fun c hc => ?_, htail.order⟩⟩
    · show n < n + byteLength b
      omega
    · exact (spansFrom_bounds hc).1

theorem behindBodies_spansFrom (n : Nat) (bs : List (List Char)) :
    behindBodies (spansFrom n bs) n = n + byteLength bs.flatten := by
  induction bs generalizing n with
  | nil => rfl
  | cons b bs ih =>
    have hfirst : behindBodies (spansFrom n (b :: bs)) n =
        behindBodies (spansFrom (n + byteLength b) bs) (n + byteLength b) := by
      simp [behindBodies, spansFrom]
    rw [hfirst, ih, List.flatten_cons, Text.byteLength_append, Nat.add_assoc]

/-- Of bodies in order only one covers an offset. -/
theorem cover?_eq_some {bodies : List Span} {b : Span} {x : Nat} (h : InOrder bodies) (hb : b ∈ bodies)
    (hstart : b.start ≤ x) (hstop : x < b.stop) : cover? bodies x = some b := by
  induction bodies with
  | nil => cases hb
  | cons c bodies ih =>
    obtain ⟨hbehind, horder⟩ := List.pairwise_cons.mp h.order
    unfold cover?
    rcases List.mem_cons.mp hb with rfl | hb
    · rw [List.find?_cons_of_pos (by simp [hstart, hstop])]
    · have hc := hbehind b hb
      rw [List.find?_cons_of_neg (by simp only [Bool.and_eq_true, decide_eq_true_eq]; omega)]
      exact ih ⟨fun d hd => h.pos d (List.mem_cons_of_mem _ hd), horder⟩ hb

/-! ## Headers -/

section Header

variable {tag : List Char} (htag : ∀ c ∈ tag, isNameChar c = true)
include htag

theorem lexeme?_header (more : List Char) :
    lexeme? (headerText tag ++ more) = some (.heredoc, (headerText tag).length) := by
  have hrun : run (fun c => c != ')' && c != '\n') (tag ++ ')' :: more) = tag.length := by
    refine Ruby.Decl.run_append (fun c hc => ?_) (by simp)
    have := htag c hc
    rw [Bool.and_eq_true, bne_iff_ne, bne_iff_ne]
    exact ⟨Ruby.Decl.ne_of_holds this (by decide), Ruby.Decl.ne_of_holds this (by decide)⟩
  have htail : headerTail (tag ++ ')' :: more) = tag.length + 1 := by
    unfold headerTail
    rw [hrun]
    simp
  have hheader : headerText tag ++ more = '@' :: '(' :: (tag ++ ')' :: more) := by simp [headerText]
  have hlexeme : lexeme? ('@' :: '(' :: (tag ++ ')' :: more)) =
      if headerTail (tag ++ ')' :: more) ≠ 0 then some (.heredoc, 2 + headerTail (tag ++ ')' :: more)) else none := rfl
  rw [hheader, hlexeme, htail, if_pos (by simp)]
  simp [headerText]
  omega

theorem tagOf_name : tagOf tag = tag := by
  have hsolid : ∀ c ∈ tag, Text.isBlank c = false := fun c hc => Text.isBlank_of_isNameChar (htag c hc)
  have hquote : ∀ c ∈ tag, ¬(c == '"') = true := by
    intro c hc
    rw [beq_iff_eq]
    exact Ruby.Decl.ne_of_holds (htag c hc) (by decide)
  have htake : tag.takeWhile (fun c => c != ':' && c != '/') = tag := by
    refine List.takeWhile_eq_self_iff.mpr fun c hc => ?_
    rw [Bool.and_eq_true, bne_iff_ne, bne_iff_ne]
    exact ⟨Ruby.Decl.ne_of_holds (htag c hc) (by decide), Ruby.Decl.ne_of_holds (htag c hc) (by decide)⟩
  have hdrop : tag.dropWhile (· == '"') = tag := by
    cases tag with
    | nil => rfl
    | cons c r => exact List.dropWhile_cons_of_neg (hquote c (by simp))
  rw [tagOf, htake, Text.trim_of_solid hsolid, Text.trimMatches, hdrop]
  refine Text.dropEndWhile_of_last fun c hc => ?_
  exact Bool.eq_false_iff.mpr (hquote c (List.mem_of_getLast? hc))

end Header

/-- The body of a header starts behind the bodies that start below its line. -/
theorem heredocBody_below {bs : List (List Char)} {tag l body below : List Char} {n stop : Nat} (hl : '\n' ∉ l)
    (hn : stop + byteLength l + 1 = n) (hbody : Body tag body below) :
    heredocBody (spansFrom n bs) tag stop (l ++ '\n' :: (bs.flatten ++ (body ++ below))) =
      .ok (some ⟨n + byteLength bs.flatten, n + byteLength bs.flatten + byteLength body⟩) := by
  have hwidth : Text.lineWidth (l ++ '\n' :: (bs.flatten ++ (body ++ below))) = (l ++ ['\n']).length := by
    rcases Ruby.lineWidth_append l ('\n' :: (bs.flatten ++ (body ++ below))) with ⟨hmem, -⟩ | ⟨-, hwidth⟩
    · exact absurd hmem hl
    · rw [hwidth, List.length_append]
      simp [Text.lineWidth]
  have hrest : l ++ '\n' :: (bs.flatten ++ (body ++ below)) = (l ++ ['\n']) ++ (bs.flatten ++ (body ++ below)) := by simp
  have hline : stop + byteLength (l ++ ['\n']) = n := by
    rw [Text.byteLength_append, ← hn, Nat.add_assoc]
    rfl
  have hskip : n + byteLength bs.flatten - stop = byteLength (l ++ ['\n'] ++ bs.flatten) := by
    rw [Text.byteLength_append]
    omega
  unfold heredocBody cutAt
  rw [hwidth, hrest, List.take_left, hline, behindBodies_spansFrom]
  dsimp only
  rw [hskip, ← List.append_assoc, Text.cut?_byteLength]
  simp only [bind, Except.bind, pure, Except.pure, hbody.width, Option.map_some]

/-! ## The words of the line -/

/-- The scanner reads a line of which `left` remains; the line below starts at `n`, with these bodies. -/
structure OnLine (s : Scanner) (n : Nat) (left : List Char) (bs : List (List Char)) (kinds : List TokenKind) : Prop where
  offset : s.reading.offset + byteLength left + 1 = n
  bodies : s.bodies = spansFrom n bs
  kinds : s.kinds = kinds
  remarks : s.remarks = []

/-- Words that stand one behind the other in front of `more`. -/
def Stand (more : List Char) : List Word → Prop
  | [] => True
  | w :: ws => w.Stands (Outline.chars ws ++ more) ∧ Stand more ws

theorem Stand.append {ws ws' : List Word} {more : List Char} (h : Stand (Outline.chars ws' ++ more) ws)
    (h' : Stand more ws') : Stand more (ws ++ ws') := by
  induction ws with
  | nil => exact h'
  | cons w ws ih =>
    have hfirst : w.Stands (Outline.chars (ws ++ ws') ++ more) := by
      rw [Outline.chars_append, List.append_assoc]
      exact h.1
    exact ⟨hfirst, ih h.2⟩

abbrev comma : Word := Outline.sign .comma ","

theorem comma_stands (more : List Char) : comma.Stands more :=
  ⟨Outline.blanks_nil, ⟨',', [], rfl, rfl⟩, Outline.reads_plain (by decide) rfl⟩

theorem further_line (hs : List WrittenHeredoc) : '\n' ∉ Outline.chars (further hs) := by
  induction hs with
  | nil => exact List.not_mem_nil
  | cons d hs ih =>
    have hwords : further (d :: hs) = comma :: d.word [' '] :: further hs := rfl
    rw [hwords, Outline.chars_cons, Outline.chars_cons, List.mem_append, List.mem_append, not_or, not_or]
    exact ⟨by decide, d.word_line (by decide), ih⟩

namespace OnLine

variable (lines : LineIndex) {s : Scanner} {n : Nat} {left below : List Char} {bs : List (List Char)}
variable {kinds : List TokenKind}

/-- No body reaches into the line. -/
theorem outside {front : List Char} (h : OnLine s n (front ++ left) bs kinds) :
    s.Outside (s.reading.skip front).offset := by
  intro b hb hwithin
  rw [h.bodies] at hb
  have hstart := (spansFrom_bounds hb).1
  have hoffset := h.offset
  rw [Text.byteLength_append] at hoffset
  rw [Reading.skip_offset] at hwithin
  omega

theorem word {w : Word} (h : OnLine s n (w.chars ++ left) bs kinds) (hw : w.Stands (left ++ below)) :
    ∃ t, walk lines (w.chars ++ (left ++ below)) 0 s = walk lines (left ++ below) 0 t ∧
      OnLine t n left bs (w.kind :: kinds) := by
  have houtside : s.Outside (s.reading.skip w.gap).offset := by
    have h := h
    rw [Word.chars, List.append_assoc] at h
    exact h.outside
  refine ⟨_, Outline.walk_stands hw houtside, ?_, h.bodies, ?_, by simpa using h.remarks⟩
  · have hoffset := h.offset
    rw [Text.byteLength_append] at hoffset
    simp only [Scanner.pass_reading, Reading.skip_offset, Scanner.add]
    omega
  · simp [h.kinds, Reading.token]

/-- The step in front of a header finds its token and its body. -/
theorem step_header {d : WrittenHeredoc} {gap body : List Char} (h : OnLine s n ((d.word gap).chars ++ left) bs kinds)
    (hgap : Outline.Blanks gap) (hleft : '\n' ∉ left) (hbody : Body d.tag body below) :
    step lines s ((d.word gap).chars ++ (left ++ '\n' :: (bs.flatten ++ (body ++ below)))) =
      .ok (some (s.open_ ((s.reading.skip gap).token .string (headerText d.tag))
          ⟨n + byteLength bs.flatten, n + byteLength bs.flatten + byteLength body⟩,
        (d.word gap).chars.length)) := by
  have hchars : (d.word gap).chars = gap ++ headerText d.tag := rfl
  rw [hchars] at h ⊢
  have houtside : s.Outside (s.reading.skip gap).offset := by
    have h := h
    rw [List.append_assoc] at h
    exact h.outside
  have hhead : ∃ c r, headerText d.tag = c :: r ∧ isGap c = false := ⟨'@', _, rfl, rfl⟩
  have hinside : ((headerText d.tag).drop 2).dropLast = d.tag := by simp [headerText]
  have hheredoc : heredocBody s.bodies d.tag ((s.reading.skip gap).offset + byteLength (headerText d.tag))
      (left ++ '\n' :: (bs.flatten ++ (body ++ below))) =
      .ok (some ⟨n + byteLength bs.flatten, n + byteLength bs.flatten + byteLength body⟩) := by
    rw [h.bodies]
    refine heredocBody_below hleft ?_ hbody
    have hoffset := h.offset
    rw [Text.byteLength_append, Text.byteLength_append] at hoffset
    rw [Reading.skip_offset]
    omega
  rw [List.append_assoc, Outline.step_lexeme hgap hhead houtside (lexeme?_header d.isTag.2 _)]
  unfold accept
  dsimp only
  rw [List.take_left, List.drop_left, hinside, tagOf_name d.isTag.2, hheredoc]
  dsimp only
  rw [found, List.take_left, List.length_append]
  rfl

/-- A header adds the body behind those found so far. -/
theorem header {d : WrittenHeredoc} {gap body : List Char} (h : OnLine s n ((d.word gap).chars ++ left) bs kinds)
    (hgap : Outline.Blanks gap) (hleft : '\n' ∉ left) (hbody : Body d.tag body below) :
    ∃ t, walk lines ((d.word gap).chars ++ (left ++ '\n' :: (bs.flatten ++ (body ++ below)))) 0 s =
        walk lines (left ++ '\n' :: (bs.flatten ++ (body ++ below))) 0 t ∧
      OnLine t n left (bs ++ [body]) (.string :: kinds) := by
  refine ⟨_, walk_front (h.step_header lines hgap hleft hbody), ?_, ?_, ?_, ?_⟩
  · have hoffset := h.offset
    rw [Text.byteLength_append] at hoffset
    simp only [Scanner.pass_reading, Reading.skip_offset, Scanner.open_, Scanner.add]
    omega
  · simp [Scanner.open_, h.bodies, spansFrom_append, spansFrom]
  · rw [Scanner.kinds_pass, ← h.kinds]
    rfl
  · rw [Scanner.remarks_pass, ← h.remarks]
    rfl

/-- Each argument adds its body. -/
theorem arguments {hs : List WrittenHeredoc} {feed : List Char}
    (h : OnLine s n (Outline.chars (further hs) ++ left) bs kinds) (hleft : '\n' ∉ left)
    (hfeed : feed = ['\n'] ∨ feed = [] ∧ below = []) :
    ∃ t, walk lines (Outline.chars (further hs) ++ (left ++ '\n' :: ((bs ++ bodyTexts hs feed).flatten ++ below))) 0 s =
        walk lines (left ++ '\n' :: ((bs ++ bodyTexts hs feed).flatten ++ below)) 0 t ∧
      OnLine t n left (bs ++ bodyTexts hs feed) (((further hs).map Word.kind).reverse ++ kinds) := by
  induction hs generalizing s bs kinds with
  | nil => exact ⟨s, rfl, by simpa [bodyTexts, further] using h⟩
  | cons d hs ih =>
    obtain ⟨body, htexts, hbody, -⟩ := bodyTexts_cons d hs hfeed
    have hwords : further (d :: hs) = comma :: d.word [' '] :: further hs := rfl
    have hpage : (bs ++ bodyTexts (d :: hs) feed).flatten ++ below =
        bs.flatten ++ (body ++ ((bodyTexts hs feed).flatten ++ below)) := by simp [htexts]
    have hpage' : (bs ++ [body] ++ bodyTexts hs feed).flatten ++ below =
        bs.flatten ++ (body ++ ((bodyTexts hs feed).flatten ++ below)) := by simp
    rw [hwords, Outline.chars_cons, Outline.chars_cons, List.append_assoc, List.append_assoc] at h
    rw [hpage, hwords, Outline.chars_cons, Outline.chars_cons]
    obtain ⟨t, hcomma, ht⟩ := h.word lines (comma_stands
      (_ ++ '\n' :: (bs.flatten ++ (body ++ ((bodyTexts hs feed).flatten ++ below)))))
    obtain ⟨u, hheader, hu⟩ := ht.header lines Outline.blanks_space (by simp [further_line hs, hleft]) hbody
    obtain ⟨v, hfurther, hv⟩ := ih hu
    rw [hpage'] at hfurther
    refine ⟨v, ?_, ?_⟩
    · simp only [List.append_assoc] at hcomma hheader ⊢
      rw [hcomma, hheader, hfurther]
    · simpa [htexts, Outline.sign, WrittenHeredoc.word] using hv

theorem words {ws : List Word} (h : OnLine s n (Outline.chars ws ++ left) bs kinds) (hws : Stand (left ++ below) ws) :
    ∃ t, walk lines (Outline.chars ws ++ (left ++ below)) 0 s = walk lines (left ++ below) 0 t ∧
      OnLine t n left bs ((ws.map Word.kind).reverse ++ kinds) := by
  induction ws generalizing s kinds with
  | nil => exact ⟨s, rfl, h⟩
  | cons w ws ih =>
    rw [Outline.chars_cons, List.append_assoc] at h
    obtain ⟨hfirst, hrest⟩ := hws
    rw [← List.append_assoc] at hfirst
    obtain ⟨t, hword, ht⟩ := h.word lines hfirst
    obtain ⟨u, hwords, hu⟩ := ih ht hrest
    refine ⟨u, ?_, by simpa using hu⟩
    rw [Outline.chars_cons, List.append_assoc, ← hwords]
    rwa [List.append_assoc] at hword

end OnLine

/-! ## Bodies -/

/-- A body is passed over to its end, with the blanks in front of it. -/
theorem walk_body {lines : LineIndex} {s : Scanner} {g body : List Char} {n : Nat} (horder : InOrder s.bodies)
    (hmem : ⟨n, n + byteLength body⟩ ∈ s.bodies) (hg : ∀ c ∈ g, isGap c = true) (hn : s.reading.offset + byteLength g = n)
    (hsolid : ¬∀ c ∈ body, isGap c = true) (rest : List Char) :
    walk lines (g ++ (body ++ rest)) 0 s = walk lines rest 0 (s.pass (g ++ body)) := by
  have hsplit : body.takeWhile isGap ++ body.dropWhile isGap = body := List.takeWhile_append_dropWhile
  have hblanks : ∀ c ∈ body.takeWhile isGap, isGap c = true := fun c hc => List.mem_takeWhile_imp hc
  obtain ⟨c, inside, hinside⟩ := List.exists_cons_of_ne_nil (mt List.dropWhile_eq_nil_iff.mp hsolid)
  have hc : isGap c = false := by
    have hfirst := List.head?_dropWhile_not isGap body
    rw [hinside] at hfirst
    simpa using hfirst
  -- The body may itself start with blanks, which the step takes for a part of those in front.
  rw [hinside] at hsplit
  generalize body.takeWhile isGap = blanks at hsplit hblanks
  subst hsplit
  have hrun : run isGap ((g ++ blanks) ++ ((c :: inside) ++ rest)) = (g ++ blanks).length := by
    refine Ruby.Decl.run_append (List.forall_mem_append.mpr ⟨hg, hblanks⟩) fun d hd => ?_
    cases hd
    exact hc
  have hoffset : (s.reading.skip (g ++ blanks)).offset = n + byteLength blanks := by
    rw [Reading.skip_offset, Text.byteLength_append]
    omega
  have hpos : 0 < byteLength (c :: inside) := Text.byteLength_pos (by simp)
  have hcover : cover? s.bodies (n + byteLength blanks) = some ⟨n, n + byteLength (blanks ++ c :: inside)⟩ := by
    refine cover?_eq_some horder hmem (Nat.le_add_right _ _) ?_
    show n + byteLength blanks < n + byteLength (blanks ++ c :: inside)
    rw [Text.byteLength_append]
    omega
  have hwidth : n + byteLength (blanks ++ c :: inside) - (n + byteLength blanks) = byteLength (c :: inside) := by
    rw [Text.byteLength_append]
    omega
  have hstep : step lines s ((g ++ (blanks ++ c :: inside)) ++ rest) =
      .ok (some (s, (g ++ (blanks ++ c :: inside)).length)) := by
    have htext : (g ++ (blanks ++ c :: inside)) ++ rest = (g ++ blanks) ++ ((c :: inside) ++ rest) := by simp
    have hlength : (g ++ (blanks ++ c :: inside)).length = (g ++ blanks).length + (c :: inside).length := by
      simp [Nat.add_assoc]
    rw [htext, hlength]
    unfold step
    dsimp only
    rw [hrun, List.drop_left, List.take_left, hoffset, ← cover?, hcover, if_neg (by simp)]
    dsimp only
    rw [cutAt, hwidth, Text.cut?_byteLength]
  rw [← List.append_assoc]
  exact walk_front hstep

/-- The bodies below a line are passed over one by one. -/
theorem walk_bodies (lines : LineIndex) {s : Scanner} {n : Nat} (done : List (List Char)) {todo : List (List Char)}
    {g : List Char} (hbodies : s.bodies = spansFrom n (done ++ todo)) (hg : ∀ c ∈ g, isGap c = true) (hfront : todo = [] → g = [])
    (hn : s.reading.offset + byteLength g = n + byteLength done.flatten)
    (hsolid : ∀ body ∈ done ++ todo, ¬∀ c ∈ body, isGap c = true) (rest : List Char) :
    walk lines (g ++ (todo.flatten ++ rest)) 0 s = walk lines rest 0 (s.pass (g ++ todo.flatten)) := by
  have hne : ∀ body ∈ done ++ todo, body ≠ [] := by
    rintro body hbody rfl
    exact hsolid _ hbody (by simp)
  induction todo generalizing done s g with
  | nil =>
    rw [hfront rfl]
    rfl
  | cons body todo ih =>
    have horder : InOrder s.bodies := by
      rw [hbodies]
      exact spansFrom_inOrder hne n
    have hmem : ⟨n + byteLength done.flatten, n + byteLength done.flatten + byteLength body⟩ ∈ s.bodies := by
      simp [hbodies, spansFrom_append, spansFrom]
    rw [List.flatten_cons, List.append_assoc, walk_body horder hmem hg hn (hsolid body (by simp))]
    have hbehind : (s.pass (g ++ body)).reading.offset + byteLength [] = n + byteLength (done ++ [body]).flatten := by
      simp only [Scanner.pass_reading, Reading.skip_offset, Text.byteLength_append, Text.byteLength_nil, List.flatten_append,
        List.flatten_singleton]
      omega
    rw [← List.nil_append (todo.flatten ++ rest),
      ih (done ++ [body]) (g := []) (by simpa using hbodies) (by simp) (fun _ => rfl) hbehind (by simpa using hsolid)
        (by simpa using hne)]
    simp [Scanner.pass, Reading.skip]

end PuppetDocs.Manifest
