import PuppetDocs.Proofs.Manifest.Heredocs.Line
import PuppetDocs.Proofs.Manifest.Outline.Spelled

/-
  PuppetDocs.Proofs.Manifest.Heredocs.Hidden — what stands in a heredoc does not matter.

  Behind the bodies of its heredocs a call has left the scanner as the call without arguments
  does: the last token is a closing parenthesis, and no body reaches into what follows. So the
  two go on alike (`walk_twin`), and the tokens of the call with its heredocs are those of its
  line and of the text below, whatever the bodies hold (`heredocs_hidden`).
-/

namespace PuppetDocs.Manifest

open Outline (Word sign chars)
open Text (byteLength)

namespace HeredocCall

variable (c : HeredocCall)

/-! ## The call -/

theorem stand_opening (more : List Char) : Stand more c.opening := by
  refine ⟨⟨Outline.blanks_nil, ⟨'$', _, rfl, rfl⟩, Outline.reads_plain (by decide) ?_⟩,
    ⟨Outline.blanks_space, ⟨'=', [], rfl, rfl⟩, Outline.reads_plain (by decide) rfl⟩,
    ⟨Outline.blanks_space, Outline.IsReference.starts (.inl c.function.isName) (by decide),
      Outline.reads_plain (by decide) ?_⟩,
    ⟨Outline.blanks_nil, ⟨'(', [], rfl, rfl⟩, Outline.reads_plain (by decide) rfl⟩, trivial⟩
  · exact Outline.lexeme?_variable (.inl c.target.isName) (Outline.delimited_cons (c := ' ') (by decide) _)
  · have hl := Outline.lexeme?_word (.inl c.function.isName) (Outline.delimited_cons (c := '(') (by decide) more)
    rwa [c.function.notKeyword] at hl

omit c in
theorem stand_rparen (more : List Char) : Stand more [sign .rparen ")"] :=
  ⟨⟨Outline.blanks_nil, ⟨')', [], rfl, rfl⟩, Outline.reads_plain (by decide) rfl⟩, trivial⟩

/-- The call without arguments leaves its tokens and no bodies. -/
theorem walk_bare (lines : LineIndex) (more : List Char) :
    ∃ y, walk lines (chars c.bareWords ++ more) 0 {} = walk lines more 0 y ∧ y.bodies = [] ∧
      y.kinds = (c.bareWords.map Word.kind).reverse ∧ y.remarks = [] := by
  have hstand : Stand ([] ++ more) c.bareWords := (c.stand_opening _).append (stand_rparen _)
  have hstart : OnLine {} (byteLength (chars c.bareWords) + 1) (chars c.bareWords ++ []) [] [] := by
    refine ⟨?_, rfl, rfl, rfl⟩
    rw [List.append_nil, Nat.zero_add]
  obtain ⟨y, hwalk, hy⟩ := hstart.words lines hstand
  exact ⟨y, hwalk, hy.bodies, by simpa using hy.kinds, hy.remarks⟩

/-- At the end of its line the call has opened all its heredocs. -/
theorem walk_line (lines : LineIndex) (rest : Remainder) :
    ∃ s, walk lines (c.text rest) 0 {} = walk lines ('\n' :: ((bodyTexts c.heredocs rest.feed).flatten ++ rest.text)) 0 s ∧
      OnLine s (byteLength (chars c.words) + 1) [] (bodyTexts c.heredocs rest.feed) (c.words.map Word.kind).reverse := by
  let closing : List Char := chars [sign .rparen ")"]
  obtain ⟨body, htexts, hbody, -⟩ := bodyTexts_cons c.first c.others rest.feed_cases
  let texts := bodyTexts c.others rest.feed
  let page : List Char := '\n' :: (body ++ (texts.flatten ++ rest.text))
  have hpage : '\n' :: ((bodyTexts c.heredocs rest.feed).flatten ++ rest.text) = page := by
    rw [heredocs, htexts]
    simp [page, texts]
  have hchars : chars c.words = chars c.opening ++ ((c.first.word []).chars ++ (chars (further c.others) ++ closing)) := by
    simp [words, closing]
  have hstart : OnLine {} (byteLength (chars c.words) + 1)
      (chars c.opening ++ ((c.first.word []).chars ++ (chars (further c.others) ++ closing))) [] [] := by
    refine ⟨?_, rfl, rfl, rfl⟩
    rw [← hchars, Nat.zero_add]
  have hclosing : '\n' ∉ closing := by decide
  have hopen : Stand (((c.first.word []).chars ++ (chars (further c.others) ++ closing)) ++ page) c.opening :=
    c.stand_opening _
  have hclose : Stand ([] ++ page) [sign .rparen ")"] := stand_rparen _
  obtain ⟨s₁, hopening, h₁⟩ := hstart.words lines hopen
  obtain ⟨s₂, hheader, h₂⟩ := h₁.header lines Outline.blanks_nil
    (by simp [further_line c.others, hclosing]) hbody
  obtain ⟨s₃, hothers, h₃⟩ := h₂.arguments lines hclosing rest.feed_cases
  rw [← List.append_nil closing] at h₃
  obtain ⟨s₄, hrparen, h₄⟩ := h₃.words lines hclose
  refine ⟨s₄, ?_, ?_⟩
  · rw [hpage]
    calc walk lines (c.text rest) 0 {}
      _ = walk lines (chars c.opening ++ ((c.first.word []).chars ++ (chars (further c.others) ++ (closing ++ page)))) 0 {} := by
        rw [text, hpage, hchars]
        simp
      _ = walk lines ((c.first.word []).chars ++ (chars (further c.others) ++ (closing ++ page))) 0 s₁ := by
        simpa using hopening
      _ = walk lines (chars (further c.others) ++ (closing ++ page)) 0 s₂ := by simpa [page, texts] using hheader
      _ = walk lines (closing ++ page) 0 s₃ := by simpa [page, texts] using hothers
      _ = walk lines page 0 s₄ := hrparen
  · rw [heredocs, htexts]
    simpa [words, WrittenHeredoc.word] using h₄

/-- The call with its heredocs leaves the tokens of its line, and bodies that end where the scanner is. -/
theorem walk_text (lines : LineIndex) (rest : Remainder) :
    ∃ z, walk lines (c.text rest) 0 {} = walk lines rest.text 0 z ∧ z.Behind z.reading.offset ∧
      z.kinds = (c.words.map Word.kind).reverse ∧ z.remarks = [] := by
  obtain ⟨s, hline, hs⟩ := c.walk_line lines rest
  let texts := bodyTexts c.heredocs rest.feed
  have hsolid : ∀ body ∈ texts, ¬∀ d ∈ body, isGap d = true := fun body hbody => bodyTexts_solid hbody
  have hne : ∀ body ∈ texts, body ≠ [] := by
    rintro body hbody rfl
    exact hsolid _ hbody (by simp)
  have hfeed : ∀ d ∈ ['\n'], isGap d = true := by simp [isGap]
  have hsome : texts ≠ [] := by
    obtain ⟨body, htexts, -⟩ := bodyTexts_cons c.first c.others rest.feed_cases
    simp [texts, heredocs, htexts]
  have hbodies := walk_bodies lines [] hs.bodies hfeed (fun hnil => absurd hnil hsome) hs.offset hsolid
    rest.text
  refine ⟨_, hline.trans hbodies, fun b hb => ?_, ?_, ?_⟩
  · rw [Scanner.pass_bodies, hs.bodies] at hb
    have hstop := (spansFrom_bounds hb).2
    have hpos := (spansFrom_inOrder hne _).pos b hb
    have hoffset := hs.offset
    have hend : (s.pass (['\n'] ++ texts.flatten)).reading.offset =
        byteLength (chars c.words) + 1 + byteLength texts.flatten := by
      rw [Scanner.pass_reading, Reading.skip_offset, Text.byteLength_append, ← hoffset]
      simp [Nat.add_assoc]
      rfl
    rw [hend]
    exact ⟨Nat.lt_of_lt_of_le hpos hstop, hstop⟩
  · rw [Scanner.kinds_pass, hs.kinds]
  · rw [Scanner.remarks_pass, hs.remarks]

/-! ## Scans -/

/-- The text below the bodies is read as it is behind the call without arguments. -/
theorem scan_text (rest : Remainder) {sep : List Char} (hsep : ∀ d ∈ sep, isGap d = true) {plain : Scanned TokenKind}
    (hplain : scan (chars c.bareWords ++ (sep ++ rest.text)) = .ok plain) :
    ∃ full below, scan (c.text rest) = .ok full ∧ plain.tokens.map Token.kind = c.bareWords.map Word.kind ++ below ∧
      full.tokens.map Token.kind = c.words.map Word.kind ++ below ∧
      full.comments.map Comment.text = plain.comments.map Comment.text := by
  obtain ⟨y, hbare, hbodies, hkinds, hremarks⟩ :=
    c.walk_bare (.ofText (chars c.bareWords ++ (sep ++ rest.text))) (sep ++ rest.text)
  obtain ⟨z, htext, hbehind, hkinds', hremarks'⟩ := c.walk_text (.ofText (c.text rest)) rest
  rw [scan, hbare] at hplain
  split at hplain
  · cases hplain
  next t hwalk =>
  cases hplain
  have hbehind' : y.Behind (y.reading.offset + byteLength sep) := by
    rw [Scanner.Behind, hbodies]
    simp
  -- Both have found a closing parenthesis last.
  have hlast : z.kinds.head? = y.kinds.head? := by
    rw [hkinds, hkinds', words, bareWords]
    simp
  obtain ⟨s, hwalk', htwin⟩ := walk_twin hbehind hbehind' (.ofText (c.text rest)) (x := 0) (Twin.refl hlast)
    (g := []) (by simp) hsep rfl rfl hwalk
  obtain ⟨ks, hs, ht⟩ := htwin.kinds
  obtain ⟨cs, hs', ht'⟩ := htwin.remarks
  have hscan : scan (c.text rest) = .ok {
      tokens := s.reading.tokens.reverse
      stop := { kind := .eof, text := "", span := ⟨byteLength (c.text rest), byteLength (c.text rest)⟩, spaced := true }
      comments := s.reading.comments.reverse } := by
    rw [scan, htext]
    simp only [List.nil_append] at hwalk'
    rw [hwalk']
  refine ⟨_, ks.reverse, hscan, ?_, ?_, ?_⟩
  · rw [List.map_reverse, ← Scanner.kinds, ht, hkinds, List.reverse_append, List.reverse_reverse]
  · rw [List.map_reverse, ← Scanner.kinds, hs, hkinds', List.reverse_append, List.reverse_reverse]
  · rw [List.map_reverse, List.map_reverse, ← Scanner.remarks, ← Scanner.remarks, hs', ht', hremarks, hremarks']

end HeredocCall

/-- The tokens and comments of a text with heredocs are those it has when the heredocs are empty: the tokens of the
line that opens them, and what is found below the bodies, which is what stands behind the call without arguments. -/
theorem heredocs_hidden (c : HeredocCall) (rest : Remainder) {sep : List Char} (hsep : ∀ d ∈ sep, isGap d = true)
    {plain : Scanned TokenKind} (hplain : scan (chars c.bareWords ++ (sep ++ rest.text)) = .ok plain) :
    ∃ full empty below, scan (c.text rest) = .ok full ∧ scan (c.emptied.text rest) = .ok empty ∧
      full.tokens.map Token.kind = empty.tokens.map Token.kind ∧
      full.comments.map Comment.text = empty.comments.map Comment.text ∧
      full.tokens.map Token.kind = c.words.map Word.kind ++ below ∧
      plain.tokens.map Token.kind = c.bareWords.map Word.kind ++ below ∧
      full.comments.map Comment.text = plain.comments.map Comment.text := by
  obtain ⟨full, below, hfull, hbare, hkinds, hcomments⟩ := c.scan_text rest hsep hplain
  obtain ⟨empty, below', hempty, hbare', hkinds', hcomments'⟩ := c.emptied.scan_text rest hsep hplain
  have hsame : below' = below := List.append_cancel_left (hbare'.symm.trans hbare)
  have hwords : c.emptied.words = c.words := by
    rw [HeredocCall.words, HeredocCall.emptied, further, List.flatMap_map]
    rfl
  refine ⟨full, empty, below, hfull, hempty, ?_, ?_, hkinds, hbare, hcomments⟩
  · rw [hkinds, hkinds', hwords, hsame]
  · rw [hcomments, hcomments']

/-- A quote, a bracket, a header and comments of both kinds in the bodies, and a comment below them. -/
theorem heredocs_hidden_pair : ∃ (c : HeredocCall) (full empty : Scanned TokenKind),
    c.text (.below "# d\ny".toList) = "$v = f(@(A), @(B))\n@(A) /* '\n| A\n# \x7b\"\n\t|- B\n# d\ny".toList ∧
      c.emptied.text (.below "# d\ny".toList) = "$v = f(@(A), @(B))\n| A\n\t|- B\n# d\ny".toList ∧
      scan (c.text (.below "# d\ny".toList)) = .ok full ∧
      scan (c.emptied.text (.below "# d\ny".toList)) = .ok empty ∧
      full.tokens.map Token.kind = empty.tokens.map Token.kind ∧
      full.tokens.map Token.kind =
        [.variable, .assign, .name, .lparen, .string, .comma, .string, .rparen, .name] ∧
      full.comments.map Comment.text = empty.comments.map Comment.text ∧
      full.comments.map Comment.text = ["d"] := by
  let first : WrittenHeredoc := {
    tag := ['A'], body := ["@(A) /* '".toList], indent := [], mark := .bar
    isTag := ⟨by simp, by simp [Text.isNameChar]⟩
    isBody := List.forall_mem_singleton.mpr ⟨by decide, by decide⟩
    isIndent := by simp }
  let second : WrittenHeredoc := {
    tag := ['B'], body := ["# \x7b\"".toList], indent := ['\t'], mark := .chomp
    isTag := ⟨by simp, by simp [Text.isNameChar]⟩
    isBody := List.forall_mem_singleton.mpr ⟨by decide, by decide⟩
    isIndent := by simp }
  let c : HeredocCall := {
    target := ⟨['v'], .part rfl (by simp)⟩, function := ⟨['f'], .part rfl (by simp), rfl⟩
    first := first, others := [second] }
  have hfeed : ∀ d ∈ ['\n'], isGap d = true := by simp [isGap]
  obtain ⟨plain, hplain, hkinds, hcomments⟩ : ∃ plain,
      scan (Outline.chars c.bareWords ++ (['\n'] ++ "# d\ny".toList)) = .ok plain ∧
      plain.tokens.map Token.kind = [.variable, .assign, .name, .lparen, .rparen, .name] ∧
      plain.comments.map Comment.text = ["d"] := ⟨_, rfl, rfl, rfl⟩
  obtain ⟨full, empty, below, hfull, hempty, hsame, hsame', hall, hbare, hremarks⟩ :=
    heredocs_hidden c (.below "# d\ny".toList) hfeed hplain
  have hbelow : below = [.name] := List.append_cancel_left (hbare.symm.trans hkinds)
  refine ⟨c, full, empty, rfl, rfl, hfull, hempty, hsame, ?_, hsame', hremarks.trans hcomments⟩
  rw [hall, hbelow]
  rfl

end PuppetDocs.Manifest
