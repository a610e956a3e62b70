import PuppetDocs.Proofs.Formula.Reads
import PuppetDocs.Proofs.Formula.Scan

/-
  PuppetDocs.Proofs.Formula.RoundTrip — the line of a formula is read back as the formula.

  The parentheses that a formula is written with are enough, and those it is written without are
  not missed: the parser groups the line as the formula does (`parse_formula`). A line that
  holds nothing but `__END__` is the data marker, so the formula that is this name alone is
  lost (`data_marker_lost`); inside a longer formula the name is a name.
-/

namespace PuppetDocs.Ruby

open Decl

namespace Formula

variable (e : Formula) {feed : List Word}

theorem closed_feed (hfeed : feed = [] ∨ feed = [Decl.newline]) : Closed feed := by
  rcases hfeed with rfl | rfl
  · exact ⟨by simp [closers, headKind], by simp [headKind]⟩
  · exact closed_newline rfl

/-- The words of a formula are read as one statement. -/
theorem reads_line (hfeed : feed = [] ∨ feed = [Decl.newline]) :
    Takes (Rule.run (16 * (e.words 0 [' '] ++ feed).length + 15) (.items [])) (e.words 0 [' '] ++ feed) []
      fun ns => ∃ x, ns = [x] ∧ e.Shows x := by
  have hclosed : Closed feed := closed_feed hfeed
  obtain ⟨hends, hbelow⟩ : headKind feed ∈ [TokenKind.newline, .eof, .rparen, .keyword .doKw] ∧
      feed.dropWhile (fun w => isTerminator w.kind) = [] := by
    rcases hfeed with rfl | rfl
    · exact ⟨by simp [headKind], rfl⟩
    · exact ⟨by simp, rfl⟩
  have hhead : headKind (e.words 0 [' '] ++ feed) ∉ [.eof, .keyword .notKw] := by
    have hapart : ∀ k ∈ [TokenKind.ident, .number, .lparen], k ∉ [TokenKind.eof, .keyword .notKw] := by decide
    exact hapart _ e.headKind_words
  simp only [List.mem_cons, List.not_mem_nil, or_false, not_or] at hhead
  obtain ⟨n, hn⟩ := Nat.exists_eq_add_of_le' (show 6 ≤ 16 * (e.words 0 [' '] ++ feed).length + 15 by omega)
  rw [hn]
  rw [List.length_append] at hn
  have hbinary : Takes (Rule.run n (.binary 0)) (e.words 0 [' '] ++ feed) feed e.Shows := by
    refine e.reads (k := 1) (Nat.le_refl _) (.closed hclosed) (fun j start x hj hx => ?_) (by omega)
    obtain ⟨j, rfl⟩ := Nat.exists_eq_add_of_le' hj
    have hoperand : headKind feed ∈ operandClosers := List.mem_cons_of_mem _ (List.mem_cons_of_mem _ hclosed.1)
    exact (takes_operators hoperand 0 x).mono fun y hy => hy ▸ hx
  have hexpr : Takes (Rule.run (n + 2) .expr) (e.words 0 [' '] ++ feed) feed e.Shows :=
    takes_ternary_expr (takes_binary_ternary hbinary (ne_of_mem_of_not_mem hclosed.1 (by decide)))
      (List.mem_cons_of_mem _ hclosed.1)
  exact takes_single e.dropWhile_words (by simp [hhead]) (takes_statement hexpr hhead.2 hends) hbelow (by simp [headKind])

/-- A formula on a line of its own is parsed back, grouped as it was, unless it is the name that marks the end of a
program. -/
theorem parse_formula (he : ∀ m, e = .name m → m.chars ≠ "__END__".toList) {feed : List Char}
    (hfeed : feed = [] ∨ feed = ['\n']) :
    ∃ root x, Ruby.parse (e.line ++ feed) = .ok (root, []) ∧ root.kind = .statements [x] ∧ e.Shows x := by
  obtain ⟨ws, rfl, hws⟩ : ∃ ws, feed = print ws ∧ (ws = [] ∨ ws = [Decl.newline]) := by
    rcases hfeed with rfl | rfl
    · exact ⟨[], rfl, .inl rfl⟩
    · exact ⟨[Decl.newline], rfl, .inr rfl⟩
  have hdata : ∀ m, e = .name m → isDataMarker (m.chars ++ print ws) = false := by
    intro m hm
    rw [Bool.eq_false_iff]
    intro hmarker
    have hhead : ∀ c ∈ (print ws).head?, c ∈ ['(', ' ', '\n'] := by
      rcases hws with rfl | rfl
      · simp
      · simp [Word.chars]
    exact he m hm (data_method m hhead hmarker).1
  obtain ⟨s, hscan, hcomments, hstop, hspells⟩ := e.scan_line hws hdata
  obtain ⟨root, items, hparse, hkind, x, rfl, hx⟩ := parse_scanned hscan hcomments hstop hspells (e.reads_line hws)
  exact ⟨root, x, hparse, hkind, hx⟩

/-- A quotient whose divisor needs parentheses inside a power, with the name `__END__` at the start of the line. -/
theorem parse_formula_quotient : ∃ (e : Formula) (root x : Node),
    (∀ m, e = .name m → m.chars ≠ "__END__".toList) ∧ e.line = "__END__ / (b - 1.5e3) ** c".toList ∧
      Ruby.parse "__END__ / (b - 1.5e3) ** c\n".toList = .ok (root, []) ∧ root.kind = .statements [x] ∧ e.Shows x := by
  let marker : Formula := .name ⟨"__END__".toList, isName_letters rfl rfl, rfl⟩
  let b : Formula := .name ⟨['b'], isName_letters rfl rfl, rfl⟩
  let c : Formula := .name ⟨['c'], isName_letters rfl rfl, rfl⟩
  let number : Formula := .number {
    whole := ['1'], fraction := ['.', '5'], exponent := ['e', '3']
    isWhole := ⟨'1', [], rfl, rfl, by simp⟩
    isFraction := .inr ⟨'5', [], rfl, rfl, by simp⟩
    isExponent := .inr ⟨'e', [], ['3'], rfl, by simp, by simp, by simp, by simp⟩ }
  let e : Formula := .binary .divide marker (.binary .power (.binary .minus b number) c)
  have he : ∀ m, e = .name m → m.chars ≠ "__END__".toList := by simp [e]
  obtain ⟨root, x, hparse, hkind, hx⟩ := parse_formula e he (.inr rfl)
  exact ⟨e, root, x, he, rfl, hparse, hkind, hx⟩

/-- The name `__END__` alone is written as the data marker, and nothing is left of it. -/
theorem data_marker_lost : ∃ e : Formula, e.line = "__END__".toList ∧
    (∃ root, Ruby.parse e.line = .ok (root, []) ∧ root.kind = .statements []) ∧
      ¬∃ root x, Ruby.parse e.line = .ok (root, []) ∧ root.kind = .statements [x] ∧ e.Shows x := by
  have hparse : ∃ root, Ruby.parse "__END__".toList = .ok (root, []) ∧ root.kind = .statements [] := ⟨_, rfl, rfl⟩
  refine ⟨.name ⟨"__END__".toList, isName_letters rfl rfl, rfl⟩, rfl, hparse, ?_⟩
  rintro ⟨root, x, hroot, hkind, -⟩
  obtain ⟨root', hroot', hkind'⟩ := hparse
  have hsame : root' = root := (Prod.mk.inj (Except.ok.inj (hroot'.symm.trans hroot))).1
  rw [hsame, hkind] at hkind'
  cases hkind'

end Formula

end PuppetDocs.Ruby
