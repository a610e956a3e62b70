import PuppetDocs.Proofs.Command.Scan
import PuppetDocs.Proofs.Scan.Below

/-
  PuppetDocs.Proofs.Command.Tail — what stands behind the arguments of a call.

  Behind its arguments a call has nothing, or a block between `do` and `end` (`IsTail`). The block
  is scanned behind the arguments as it is scanned alone, some bytes and some lines further on
  (`scan_behind`): the `do` is found either way, and with a token and a letter between, nothing
  that is found later depends on what stands in front.
-/

namespace PuppetDocs.Ruby.Command

open Decl (Word print placed EndsName)
open Text (byteLength)

/-- Nothing, or `do` behind a blank and anything else that no longer name goes on with. -/
inductive IsTail : List Char → Prop
  | none : IsTail []
  | block {rest : List Char} : EndsName rest → IsTail (" do".toList ++ rest)

theorem IsTail.ends {tail : List Char} (h : IsTail tail) : Ends tail := by
  cases h with
  | none => exact .inl rfl
  | block => exact ends_blank _

def doWord : Word := ⟨[' '], .keyword .doKw, "do".toList⟩

theorem do_strung {rest : List Char} (h : EndsName rest) : Strung rest [doWord] :=
  strung_keyword (k := .doKw) (by simp) (by simp) (.inr h) .nil

/-- What is found in a text behind these words. -/
def foundBehind (ws : List Word) (found : Scanned TokenKind) : Scanned TokenKind where
  tokens := placed 0 true ws ++ found.tokens.map (·.shift (byteLength (print ws)))
  stop := found.stop.shift (byteLength (print ws))
  comments := found.comments.map (·.below ((print ws).count '\n'))

theorem Strung.solid {more : List Char} {ws : List Word} (h : Strung more ws) : ∀ w ∈ ws, w.text ≠ [] := by
  induction h with
  | nil => nofun
  | cons hw _ _ ih =>
    refine List.forall_mem_cons.mpr ⟨?_, ih⟩
    obtain ⟨c, r, htext, -⟩ := (hw none).head
    rw [htext]
    exact List.cons_ne_nil c r

theorem placed_start_lt {ws : List Word} (h : ∀ w ∈ ws, w.text ≠ []) {offset : Nat} {spaced : Bool}
    {t : Token TokenKind} (ht : t ∈ placed offset spaced ws) : t.span.start < offset + byteLength (print ws) := by
  induction ws generalizing offset spaced with
  | nil => cases ht
  | cons w ws ih =>
    obtain ⟨hw, hws⟩ := List.forall_mem_cons.mp h
    rw [Decl.print_cons, Text.byteLength_append, ← Nat.add_assoc]
    rcases List.mem_cons.mp ht with rfl | ht
    · have hpos : 0 < byteLength w.text := Text.byteLength_pos hw
      rw [Word.chars, Text.byteLength_append]
      dsimp only
      omega
    · exact ih hws ht

/-- The scanner is behind `do` as it is where nothing is in front, but for the places. -/
theorem behind_do (ws : List Word) (n : Nat) : behind (ws ++ [doWord]) = (behind ws).below n (behind [doWord]) := by
  have hprint : print (ws ++ [doWord]) = print ws ++ print [doWord] := List.flatMap_append
  have hplaced : placed 0 true (ws ++ [doWord]) =
      placed 0 true ws ++ (placed 0 true [doWord]).map (·.shift (byteLength (print ws))) := by
    rw [Decl.placed_append, Nat.zero_add]
    simp [placed, doWord, Token.shift, Span.shift]
  simp only [behind, hprint, hplaced, Scanner.below, Reading.below, List.reverse_append, List.map_reverse,
    Text.byteLength_append]
  rfl

/-- The walk over the words and what is behind them is that over what is behind them. -/
theorem walk_behind {ws : List Word} {rest : List Char} (hends : EndsName rest) (hws : Strung rest (ws ++ [doWord])) :
    walk (.ofText (print ws ++ (" do".toList ++ rest))) (print ws ++ (" do".toList ++ rest)) 0 {} =
      match walk (.ofText (" do".toList ++ rest)) (" do".toList ++ rest) 0 {} with
      | .error e => .error (e.behind ((print ws).count '\n') (LineIndex.columnBehind (print ws)))
      | .ok s => .ok ((behind ws).below ((print ws).count '\n') s) := by
  have hprint : print (ws ++ [doWord]) ++ rest = print ws ++ (" do".toList ++ rest) := by
    simp [print, doWord, Word.chars]
  have hapart : Apart (behind ws) (behind [doWord]).reading := by
    refine .token (by simp [behind, placed]) ⟨'o', by simp [behind, doWord, print, Word.chars], .inr rfl⟩ fun t ht => ?_
    have htext : ∀ w ∈ ws, w.text ≠ [] := fun w hw => hws.solid w (List.mem_append_left _ hw)
    have hlt := placed_start_lt htext (List.mem_reverse.mp ht)
    rwa [Nat.zero_add] at hlt
  have hlower : walk (.ofText (" do".toList ++ rest)) (" do".toList ++ rest) 0 {} =
      walk (.ofText (" do".toList ++ rest)) rest 0 (behind [doWord]) := (do_strung hends).walk _
  have hupper := hws.walk (.ofText (print ws ++ (" do".toList ++ rest)))
  rw [hprint, behind_do ws ((print ws).count '\n'), walk_below hapart (LineIndex.lineColumn_append _ _)] at hupper
  rw [hlower]
  refine hupper.trans ?_
  cases walk (.ofText (" do".toList ++ rest)) rest 0 (behind [doWord]) <;> rfl

/-- The words and what is behind them are scanned apart from each other. -/
theorem scan_behind {ws : List Word} {tail : List Char} (htail : IsTail tail)
    (hws : ∀ {more vs}, print vs ++ more = tail → Ends (print vs ++ more) → Strung more vs → Strung more (ws ++ vs)) :
    scan (print ws ++ tail) =
      match scan tail with
      | .error e => .error (e.behind ((print ws).count '\n') (LineIndex.columnBehind (print ws)))
      | .ok found => .ok (foundBehind ws found) := by
  have hwalk : walk (.ofText (print ws ++ tail)) (print ws ++ tail) 0 {} =
      match walk (.ofText tail) tail 0 {} with
      | .error e => .error (e.behind ((print ws).count '\n') (LineIndex.columnBehind (print ws)))
      | .ok s => .ok ((behind ws).below ((print ws).count '\n') s) := by
    cases htail with
    | none =>
      have hwords : Strung [] (ws ++ []) := hws rfl (.inl rfl) .nil
      have hstrung : Strung [] ws := by rwa [List.append_nil] at hwords
      have hempty : (behind ws).below ((print ws).count '\n') {} = behind ws := by simp [Scanner.below, Reading.below, behind]
      exact (hstrung.walk _).trans (congrArg Except.ok hempty.symm)
    | block hends => exact walk_behind hends (hws rfl (ends_blank _) (do_strung hends))
  have hlines : PlacesBelow (behind ws) ((print ws).count '\n') (LineIndex.columnBehind (print ws)) (.ofText tail)
      (.ofText (print ws ++ tail)) := LineIndex.lineColumn_append _ _
  simp only [scan, hwalk]
  rcases walk (.ofText tail) tail 0 {} with e | s
  · rfl
  · rcases hs : s.pending with _ | ⟨p, ps⟩
    · simp [Scanner.below, hs, Reading.below, behind, foundBehind, Token.shift, Span.shift, List.map_reverse]
    · simp only [Scanner.below, hs, List.map_cons]
      exact congrArg Except.error (fault_below hlines _ _)

/-- The block behind the arguments begins with the token `do`. -/
theorem tail_tokens {rest : List Char} (hends : EndsName rest) {found : Scanned TokenKind}
    (hfound : scan (" do".toList ++ rest) = .ok found) : ∃ t ts, found.tokens = t :: ts ∧ t.kind = .keyword .doKw := by
  simp only [scan] at hfound
  split at hfound
  · cases hfound
  rename_i s hwalk
  split at hfound
  · cases hfound
  cases hfound
  let t : Token TokenKind := { kind := .keyword .doKw, text := "do", span := ⟨1, 3⟩, spaced := true }
  have hkind : t.kind ≠ .newline := by decide
  have hplaced : Placed (behind [doWord]) " do".toList rest := {
    behind := rfl
    offset := rfl
    cut := .token (t := t) (.blank (.start (" do".toList ++ rest)) .space) (List.cons_ne_nil 'd' ['o']) hkind
      ⟨by decide, by decide⟩
    waiting := fun _ hp => absurd hp List.not_mem_nil }
  have hwalk' : walk (.ofText (" do".toList ++ rest)) rest 0 (behind [doWord]) = .ok s :=
    ((do_strung hends).walk _).symm.trans hwalk
  obtain ⟨left, hrun, -⟩ := walk_run hwalk'
  obtain ⟨ts, f, htokens, hf⟩ := hplaced.kept hrun
  have hdo : Refilled t (f t) := hf t (.head _)
  refine ⟨f t, ts.reverse, ?_, ?_⟩
  · rw [htokens, List.reverse_append]
    rfl
  · rcases hdo.kind with hkind | ⟨⟨v, hv⟩, -⟩
    · exact hkind
    · cases hv

end PuppetDocs.Ruby.Command
