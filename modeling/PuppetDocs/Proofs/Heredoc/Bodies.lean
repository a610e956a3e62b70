import PuppetDocs.Proofs.Heredoc.Syntax
import PuppetDocs.Proofs.Scan.Outcome

/-
  PuppetDocs.Proofs.Heredoc.Bodies — the bodies of written heredocs are read to their ends.

  Below a line feed the heredocs of the line take their bodies one after the other, each up to
  its closing line (`readBodies_written`). The value of each goes to the token at which its
  marker starts; no two tokens start at the same place, so every token gets its own
  (`fill_placed`).
-/

namespace PuppetDocs.Ruby

open Text (byteLength isBlank allBlank)

/-! ## Values -/

theorem byteLength_spaces {cs : List Char} (h : ∀ c ∈ cs, c = ' ' ∨ c = '\t') : byteLength cs = cs.length := by
  induction cs with
  | nil => rfl
  | cons c cs ih =>
    have hc : c.utf8Size = 1 := by rcases h c (by simp) with rfl | rfl <;> rfl
    rw [Text.byteLength_cons, ih fun d hd => h d (by simp [hd]), hc, List.length_cons, Nat.add_comm]

theorem mapM_ok {α β ε : Type} {f : α → Except ε β} {g : α → β} {xs : List α} (h : ∀ x ∈ xs, f x = .ok (g x)) :
    xs.mapM f = .ok (xs.map g) := by
  induction xs with
  | nil => rfl
  | cons x xs ih =>
    rw [List.mapM_cons, h x (by simp), ih fun y hy => h y (by simp [hy])]
    rfl

namespace Heredoc

/-- In front of spaces and tabs bytes are characters. -/
theorem unindent_spaces {n : Nat} {line : List Char} (hspaces : ∀ c ∈ line.takeWhile isBlank, c = ' ' ∨ c = '\t')
    (hn : allBlank line = false → n ≤ (line.takeWhile isBlank).length) : unindent n line = .ok (line.drop n) := by
  by_cases hle : n ≤ (line.takeWhile isBlank).length
  · have htake : line.take n = (line.takeWhile isBlank).take n := by
      conv_lhs => rw [← List.takeWhile_append_dropWhile (p := isBlank) (l := line)]
      exact List.take_append_of_le_length hle
    have hbytes : byteLength (line.take n) = n := by
      rw [htake, byteLength_spaces fun c hc => hspaces c (List.mem_of_mem_take hc), List.length_take]
      omega
    have hcut : Text.cut? n line = some (line.take n, line.drop n) := by
      have h := Text.cut?_byteLength (line.take n) (line.drop n)
      rwa [hbytes, List.take_append_drop] at h
    have hlong : ¬byteLength line < n := by
      have h := congrArg byteLength (List.take_append_drop n line)
      rw [Text.byteLength_append, hbytes] at h
      omega
    rw [unindent, if_neg hlong, hcut]
  · -- Only a blank line can be shorter than the margin.
    have hblank : allBlank line = true := by
      by_contra h
      exact hle (hn (Bool.eq_false_iff.mpr h))
    have hall : line.takeWhile isBlank = line := List.takeWhile_eq_self_iff.mpr (List.all_eq_true.mp hblank)
    rw [hall] at hspaces hle
    rw [unindent, if_pos (by rw [byteLength_spaces hspaces]; omega), List.drop_eq_nil_of_le (by omega)]

variable {body : List (List Char)}

theorem commonIndent_eq (h : ∀ line ∈ body, ∀ c ∈ line.takeWhile isBlank, c = ' ' ∨ c = '\t') :
    commonIndent body = margin body := by
  have hmap : (body.filter (!allBlank ·)).map indentation =
      (body.filter (!allBlank ·)).map fun line => (line.takeWhile isBlank).length := by
    refine List.map_congr_left fun line hline => ?_
    rw [indentation_eq, byteLength_spaces (h line (List.mem_filter.mp hline).1)]
  rw [commonIndent, margin, hmap]

theorem dedent_eq (h : ∀ line ∈ body, ∀ c ∈ line.takeWhile isBlank, c = ' ' ∨ c = '\t') :
    dedent body = .ok (body.map (·.drop (margin body))) := by
  rw [dedent, commonIndent_eq h]
  refine mapM_ok fun line hline => unindent_spaces (h line hline) fun hcontent => ?_
  have hle := commonIndent_le hline hcontent
  rwa [commonIndent_eq h, indentation_eq, byteLength_spaces (h line hline)] at hle

end Heredoc

namespace WrittenHeredoc

theorem value_eq (h : WrittenHeredoc) : h.heredoc.value h.body = .ok h.value := by
  have hvalue : h.heredoc.valueOf h.content = h.value := by
    unfold Heredoc.valueOf WrittenHeredoc.value heredoc
    cases h.quote <;> rfl
  rw [← hvalue, Heredoc.value]
  cases hsign : h.sign with
  | squiggle => simp [heredoc, content, hsign, Heredoc.dedent_eq (h.indent hsign), Except.map]
  | _ => simp [heredoc, content, hsign]

end WrittenHeredoc

/-! ## Bodies -/

/-- A body ends at the first line that closes it. -/
theorem takeBody?_lines {d : Heredoc} {lines : List (List Char)} {last : List Char}
    (hlines : ∀ line ∈ lines, d.closes line = false) (hlast : d.closes last = true) {ls rest : List (List Char)}
    (hls : ls.map Heredoc.content = lines ++ last :: rest) :
    d.takeBody? ls = some (lines, ls.drop (lines.length + 1)) := by
  induction lines generalizing ls with
  | nil =>
    obtain ⟨l, ls, rfl, hl, -⟩ := List.map_eq_cons_iff.mp hls
    rw [Heredoc.takeBody?, hl, if_pos hlast]
    rfl
  | cons line lines ih =>
    obtain ⟨l, ls, rfl, hl, hls⟩ := List.map_eq_cons_iff.mp hls
    rw [Heredoc.takeBody?, hl, if_neg (by simp [hlines line (by simp)]),
      ih (fun m hm => hlines m (by simp [hm])) hls]
    rfl

/-- What the scanner makes of the line, its ending left out. -/
abbrev withoutReturns (line : List Char) : List Char := Text.dropEndWhile (· == '\r') line

namespace WrittenHeredoc

theorem body_kept (h : WrittenHeredoc) {line : List Char} (hline : line ∈ h.body) : withoutReturns line = line := by
  refine Text.dropEndWhile_of_last fun c hc => ?_
  rw [beq_eq_false_iff_ne]
  rintro rfl
  exact (h.isBody line hline).2.1 hc

theorem takeBody?_eq (h : WrittenHeredoc) {ls rest : List (List Char)}
    (hls : ls.map Heredoc.content = h.lines.map withoutReturns ++ rest) :
    h.heredoc.takeBody? ls = some (h.body, ls.drop h.lines.length) := by
  have hbody : h.body.map withoutReturns = h.body :=
    (List.map_congr_left fun line hline => h.body_kept hline).trans (List.map_id _)
  have hlines : ls.map Heredoc.content = h.body ++ withoutReturns h.closing :: rest := by
    rw [hls, lines, List.map_append, hbody]
    simp
  rw [takeBody?_lines (fun line hline => ?_) ((h.closes_iff _).mpr h.isClosing.2) hlines, lines, List.length_append,
    List.length_singleton]
  rw [Bool.eq_false_iff, ← h.body_kept hline]
  exact fun hcloses => (h.isBody line hline).2.2 ((h.closes_iff line).mp hcloses)

end WrittenHeredoc

/-- A heredoc of a line, and the offset of its marker. -/
structure Marked where
  heredoc : WrittenHeredoc
  start : Nat

def Marked.pending (m : Marked) : Pending := { heredoc := m.heredoc.heredoc, start := m.start }

/-- Gives each heredoc's value to the token at its marker. -/
def fillAll (tokens : List (Token TokenKind)) (ms : List Marked) : List (Token TokenKind) :=
  ms.foldl (fun tokens m => fill tokens m.start m.heredoc.value) tokens

/-- The heredocs take their bodies in their order, and what is left is behind the last of them. -/
theorem readBodies_written (lines : LineIndex) (tokens : List (Token TokenKind)) (ms : List Marked)
    {ls rest : List (List Char)}
    (hls : ls.map Heredoc.content = (ms.flatMap (·.heredoc.lines)).map withoutReturns ++ rest) :
    readBodies lines tokens (ms.map Marked.pending) ls =
      .ok (fillAll tokens ms, ls.drop (ms.flatMap (·.heredoc.lines)).length) := by
  induction ms generalizing tokens ls with
  | nil => rfl
  | cons m ms ih =>
    have hsplit : ls.map Heredoc.content =
        m.heredoc.lines.map withoutReturns ++ ((ms.flatMap (·.heredoc.lines)).map withoutReturns ++ rest) := by
      rw [hls, List.flatMap_cons, List.map_append, List.append_assoc]
    have hrest : (ls.drop m.heredoc.lines.length).map Heredoc.content =
        (ms.flatMap (·.heredoc.lines)).map withoutReturns ++ rest := by
      rw [List.map_drop, hsplit, List.drop_left' (by simp)]
    rw [List.map_cons, Marked.pending, readBodies, m.heredoc.takeBody?_eq hsplit]
    dsimp only
    rw [m.heredoc.value_eq]
    dsimp only
    rw [ih _ hrest, List.drop_drop, List.flatMap_cons, List.length_append]
    rfl

end PuppetDocs.Ruby
