import PuppetDocs.Proofs.Decl.Calls
import PuppetDocs.Proofs.Tree.Order
import Mathlib.Data.List.Forall2

/-
  PuppetDocs.Proofs.Decl.RoundTrip — a written program is read back.

  A line ends behind a call or behind the `end` of its block, and the next line does not start
  with a dot, so nothing on it belongs to the value above. `lines_read` reads statement after
  statement, and each block as the lines inside it; `parse_write` is the round trip through
  the scanner and the parser.
-/

namespace PuppetDocs.Ruby.Decl

open ParseM

variable {rest : List Word} {n start : Nat} {hold : Bool}

/-! ## Lines -/

/-- A line of a written program starts with such a token, or the text ends. -/
def opensLine (k : TokenKind) : Bool := startsValue k || k == .eof || k == .keyword .endKw

theorem opensLine_ne {k : TokenKind} (h : opensLine (headKind rest) = true) (hk : opensLine k = false) :
    headKind rest ≠ k := by
  intro he
  rw [← he, h] at hk
  cases hk

theorem closed_newline (h : opensLine (headKind rest) = true) : Closed (newline :: rest) := by
  have hdrop : (newline :: rest).dropWhile (fun w => isNewline w.kind) = rest := by
    rw [List.dropWhile_cons_of_pos (by rfl)]
    exact dropWhile_newline (opensLine_ne h rfl)
  refine ⟨List.mem_cons_self .., ?_⟩
  rw [hdrop]
  simp only [List.mem_cons, List.not_mem_nil, or_false, not_or]
  exact ⟨opensLine_ne h rfl, opensLine_ne h rfl⟩

theorem dropWhile_terminators (h : opensLine (headKind rest) = true) :
    rest.dropWhile (fun w => isTerminator w.kind) = rest := by
  cases rest with
  | nil => rfl
  | cons w ws =>
    refine List.dropWhile_cons_of_neg ?_
    have hnewline : w.kind ≠ .newline := opensLine_ne h rfl
    have hsemicolon : w.kind ≠ .semicolon := opensLine_ne h rfl
    unfold isTerminator
    split
    · rename_i heq
      exact absurd heq hnewline
    · rename_i heq
      exact absurd heq hsemicolon
    · simp

/-- The lines behind a line feed. -/
theorem dropWhile_newline_terminators (h : opensLine (headKind rest) = true) :
    (newline :: rest).dropWhile (fun w => isTerminator w.kind) = rest := by
  rw [List.dropWhile_cons_of_pos (by rfl)]
  exact dropWhile_terminators h

theorem takes_sentence {before after : List Word} {Q : Node → Prop} (h : TakesIn hold (Rule.run n .expr) before after Q)
    (hbefore : headKind before ≠ .keyword .notKw)
    (hafter : headKind after ∈ [TokenKind.newline, .eof, .rparen, .keyword .doKw]) :
    TakesIn hold (Rule.run (n + 2) .sentence) before after Q := by
  show TakesIn hold (readSentence (Rule.run (n + 1))) before after Q
  apply takes_here.next
  intro start
  apply (takes_negation h hbefore).bind
  intro x hx
  show TakesIn hold (readJoined (Rule.run n) start x) after after Q
  have hany : [TokenKind.keyword .andKw, .keyword .orKw].contains (headKind after) = false := by
    have hapart : ∀ k ∈ [TokenKind.newline, .eof, .rparen, .keyword .doKw],
        [TokenKind.keyword .andKw, .keyword .orKw].contains k = false := by decide
    exact hapart _ hafter
  apply (takes_atAny hany).known
  exact takes_pure hx

/-- A statement is what its expression is, if the line, the text or the parentheses around it end behind it, or a `do`
that is held back follows. -/
theorem takes_statement {before after : List Word} {Q : Node → Prop} (h : TakesIn hold (Rule.run n .expr) before after Q)
    (hbefore : headKind before ≠ .keyword .notKw)
    (hafter : headKind after ∈ [TokenKind.newline, .eof, .rparen, .keyword .doKw]) :
    TakesIn hold (Rule.run (n + 3) .statement) before after Q := by
  show TakesIn hold (readStatement (Rule.run (n + 2))) before after Q
  apply takes_here.next
  intro start
  apply (takes_sentence h hbefore hafter).bind
  intro x hx
  show TakesIn hold (readModifiers (Rule.run (n + 1)) start x) after after Q
  refine (takes_peekKind rfl).bind fun k hk => ?_
  split
  · rename_i keyword
    have hmodifier : isModifier keyword = false := by
      rw [← hk] at hafter
      simp only [List.mem_cons, TokenKind.keyword.injEq, reduceCtorEq, List.not_mem_nil, or_false, false_or] at hafter
      rw [hafter]
      rfl
    rw [hmodifier, if_neg (by simp)]
    exact takes_pure hx
  · exact takes_pure hx

/-! ## Lists of statements -/

theorem takes_skipTerminators {ws : List Word} (hws : ws.dropWhile (fun w => isTerminator w.kind) = rest) :
    TakesIn hold skipTerminators ws rest fun _ => True := by
  rw [← hws]
  exact takes_skipWhile isTerminator

theorem takes_statements {stops : List TokenKind} {before after : List Word} {S : List Node → Prop}
    (h : TakesIn hold (Rule.run n (.items stops)) before after S) :
    TakesIn hold (Rule.run (n + 1) (.statements stops)) before after
      fun y => ∃ ns, y.kind = .statements ns ∧ S ns := by
  show TakesIn hold (readStatements (Rule.run n) stops) _ _ _
  apply takes_here.next
  intro start
  apply h.bind
  intro ns hns
  exact (takes_mkNode _ _).mono fun y hy => ⟨ns, hy, hns⟩

/-- A body without clauses is its statements. -/
theorem takes_body {before : List Word} {w : Word} {S : List Node → Prop} (hw : w.kind = .keyword .endKw)
    (h : TakesIn hold (Rule.run n (.items bodyStops)) before (w :: rest) S) :
    TakesIn hold (Rule.run (n + 2) .body) before (w :: rest) fun y => ∃ ns, y.kind = .statements ns ∧ S ns := by
  show TakesIn hold (readBody (Rule.run (n + 1))) _ _ _
  apply takes_here.next
  intro start
  apply (takes_statements h).bind
  intro y hy
  have hany : [TokenKind.keyword .rescueKw, .keyword .elseKw, .keyword .ensureKw].contains (headKind (w :: rest)) =
      false := by
    rw [headKind_cons, hw]
    rfl
  apply (takes_atAny hany).known
  exact takes_pure hy

theorem takes_needEnd {w : Word} (hw : w.kind = .keyword .endKw) :
    TakesIn hold needEnd (w :: rest) rest fun _ => True :=
  (takes_need hw _).next fun _ => takes_pure trivial

/-! ## Blocks -/

theorem Call.Shows.takesDo {c : Call} {x : Node} (h : c.Shows none x) : takesDo x = true := by
  obtain ⟨receiver, m, args⟩ := c
  obtain ⟨r, ns, hkind, -⟩ := h
  simp [Ruby.takesDo, hkind]

theorem Call.Shows.withBlock {c : Call} {x y : Node} {b : Block Node} (h : c.Shows none x)
    (hy : y.kind = withBlock x b) : c.Shows (some b) y := by
  obtain ⟨receiver, m, args⟩ := c
  obtain ⟨r, ns, hkind, hr, hns⟩ := h
  refine ⟨r, ns, ?_, hr, hns⟩
  rw [hy]
  simp [Ruby.withBlock, hkind]

/-- A block between `do` and `end` belongs to the call in front of it. -/
theorem takes_block {x : Node} (hx : takesDo x = true) {body : List Word} {S : List Node → Prop}
    {indent : List Char} (hitems : Takes (Rule.run n (.items bodyStops)) (newline :: body)
      (⟨indent, .keyword .endKw, "end".toList⟩ :: rest) S) (hrest : Closed rest) :
    Takes (Rule.run (n + 3) (.trailers start x))
      (⟨[' '], .keyword .doKw, "do".toList⟩ :: newline :: body) rest
      fun y => ∃ b ns, y.kind = withBlock x b ∧ b.params = [] ∧ b.body.kind = .statements ns ∧ S ns := by
  have hbody : Takes (Rule.run (n + 2) .body) (newline :: body) (⟨indent, .keyword .endKw, "end".toList⟩ :: rest)
      fun y => ∃ ns, y.kind = .statements ns ∧ S ns := takes_body rfl hitems
  have hblock : Takes (block (Rule.run (n + 2))) (⟨[' '], .keyword .doKw, "do".toList⟩ :: newline :: body) rest
      fun b => b.params = [] ∧ ∃ ns, b.body.kind = .statements ns ∧ S ns := by
    apply takes_bump.bind
    intro t ht
    have hkeyword : t.kind = .keyword .doKw := ht.kind
    have hparts : Takes (nested (do
          let params ← blockParams (Rule.run (n + 2))
          let body ← Rule.run (n + 2) .body
          return (params, body))) (newline :: body) (⟨indent, .keyword .endKw, "end".toList⟩ :: rest)
        fun p => p.1 = [] ∧ ∃ ns, p.2.kind = .statements ns ∧ S ns := by
      refine TakesIn.nested ?_
      have hparams : Takes (blockParams (Rule.run (n + 2))) (newline :: body) (newline :: body) fun ps => ps = [] := by
        apply (takes_not_eat (by simp)).known
        apply (takes_not_eat (by simp)).known
        exact takes_pure rfl
      apply hparams.bind
      intro params hparams
      exact hbody.bind fun y hy => takes_pure ⟨hparams, hy⟩
    simp only [hkeyword, decide_true, if_true]
    refine hparts.bind ?_
    rintro ⟨params, y⟩ ⟨hparams, hy⟩
    apply (takes_needEnd rfl).next
    intro _
    apply takes_prevEnd.next
    intro _
    apply (takes_lineOf _).next
    intro _
    exact takes_pure ⟨hparams, hy⟩
  show Takes (readTrailers (Rule.run (n + 2)) start x) _ rest _
  apply takes_peek.bind
  intro t ht
  rw [ht.kind]
  apply takes_holdDo.bind
  intro env henv
  rw [if_pos (by simp [henv, hx])]
  have hattach : Takes (attachBlock (Rule.run (n + 2)) x) (⟨[' '], .keyword .doKw, "do".toList⟩ :: newline :: body) rest
      fun y => ∃ b ns, y.kind = withBlock x b ∧ b.params = [] ∧ b.body.kind = .statements ns ∧ S ns := by
    refine hblock.bind ?_
    rintro b ⟨hparams, ns, hkind, hns⟩
    apply takes_prevEnd.next
    intro _
    exact takes_pure ⟨b, ns, rfl, hparams, hkind, hns⟩
  exact hattach.bind fun y hy => (takes_closed_trailers hrest y).mono fun z hz => hz ▸ hy

/-! ## Programs -/

theorem Statement.starts (st : Statement) (indent : List Char) : StartsValue (st.words indent) := by
  cases st with
  | call c =>
    rw [Statement.words]
    exact (c.reads.starts indent).append (by simp)
  | block c body =>
    rw [Statement.words]
    exact (c.reads.starts indent).append (by simp)

theorem opensLine_lines (program : List Statement) {indent : List Char} (h : opensLine (headKind rest) = true) :
    opensLine (headKind (lines indent program ++ rest)) = true := by
  cases program with
  | nil => exact h
  | cons st program =>
    obtain ⟨w, ws, heq, hw, -⟩ := st.starts indent
    rw [lines, heq]
    simp [opensLine, hw]

/-- A list of statements ends where one of the tokens it stops at comes next. -/
theorem takes_no_items {stops : List TokenKind} {ws : List Word} {S : List Node → Prop}
    (hws : ws.dropWhile (fun w => isTerminator w.kind) = rest) (hstop : headKind rest ∈ TokenKind.eof :: stops)
    (hS : S []) : TakesIn hold (Rule.run (n + 1) (.items stops)) ws rest S := by
  show TakesIn hold (readItems (Rule.run n) stops) ws rest _
  apply (takes_skipTerminators hws).next
  intro _
  have hany : (TokenKind.eof :: stops).contains (headKind rest) = true := List.contains_iff_mem.mpr hstop
  apply (takes_atAny hany).known
  exact takes_pure hS

/-- A statement, and the statements behind it. -/
theorem takes_items {stops : List TokenKind} {ws before after : List Word} {Q : Node → Prop} {S : List Node → Prop}
    (hws : ws.dropWhile (fun w => isTerminator w.kind) = before) (hstop : headKind before ∉ TokenKind.eof :: stops)
    (hitem : TakesIn hold (Rule.run n .statement) before after Q)
    (hmore : ∀ x, Q x → TakesIn hold (Rule.run n (.items stops)) after rest fun ns => S (x :: ns)) :
    TakesIn hold (Rule.run (n + 1) (.items stops)) ws rest S := by
  show TakesIn hold (readItems (Rule.run n) stops) ws rest _
  apply (takes_skipTerminators hws).next
  intro _
  have hany : (TokenKind.eof :: stops).contains (headKind before) = false := by
    rw [← Bool.not_eq_true, List.contains_iff_mem]
    exact hstop
  apply (takes_atAny hany).known
  apply hitem.bind
  intro x hx
  exact (hmore x hx).bind fun ns hns => takes_pure hns

/-- One statement, and nothing behind it but the end of its line. -/
theorem takes_single {stops : List TokenKind} {before between : List Word} {Q : Node → Prop}
    (hbefore : before.dropWhile (fun w => isTerminator w.kind) = before) (hstop : headKind before ∉ TokenKind.eof :: stops)
    (hitem : TakesIn hold (Rule.run (n + 1) .statement) before between Q)
    (hbetween : between.dropWhile (fun w => isTerminator w.kind) = rest) (hrest : headKind rest ∈ TokenKind.eof :: stops) :
    TakesIn hold (Rule.run (n + 2) (.items stops)) before rest fun ns => ∃ x, ns = [x] ∧ Q x :=
  takes_items hbefore hstop hitem fun x hx => takes_no_items hbetween hrest ⟨x, rfl, hx⟩

/-- A statement on lines of its own, and the statements behind it. -/
theorem takes_line {stops : List TokenKind} {ws before more : List Word} {Q : Node → Prop} {S : List Node → Prop}
    (hws : ws.dropWhile (fun w => isTerminator w.kind) = before ++ more) (hbefore : StartsValue before)
    (hstops : ∀ k ∈ stops, startsValue k = false) (hmore : headKind more ≠ .colon)
    (hitem : TakesIn hold (Rule.run n .statement) (before ++ more) (newline :: more) Q)
    (htail : ∀ x, Q x → TakesIn hold (Rule.run n (.items stops)) (newline :: more) rest fun ns => S (x :: ns)) :
    TakesIn hold (Rule.run (n + 1) (.items stops)) ws rest S := by
  have hstarts : StartsValue (before ++ more) := hbefore.append hmore
  refine takes_items hws (fun hmem => ?_) hitem htail
  rcases List.mem_cons.mp hmem with heq | hmem
  · exact hstarts.ne rfl heq
  · exact hstarts.ne (hstops _ hmem) rfl

mutual

theorem Statement.reads : ∀ (st : Statement) {indent : List Char} {rest : List Word} {n : Nat},
    opensLine (headKind rest) = true → 16 * (st.words indent).length + 3 ≤ n →
      Takes (Rule.run n .statement) (st.words indent ++ rest) (newline :: rest) st.Shows
  | .call c, indent, rest, n, hrest, hn => by
    have hc := c.reads
    rw [Statement.words, List.length_append, List.length_singleton] at hn
    rw [Statement.words, List.append_assoc]
    obtain ⟨n, rfl⟩ := Nat.exists_eq_add_of_le' (show 7 ≤ n by omega)
    refine takes_statement (takes_expr (hc.reads (k := 1) (fun m start x hm hx => ?_) (by omega))
      (by simp [closers])) (((hc.starts indent).append (by simp)).ne rfl) (List.mem_cons_self ..)
    obtain ⟨m, rfl⟩ := Nat.exists_eq_add_of_le' hm
    exact (takes_closed_trailers (closed_newline hrest) x).mono fun y hy => hy ▸ hx
  | .block c body, indent, rest, n, hrest, hn => by
    have hc := c.reads
    let close : List Word := ⟨indent, .keyword .endKw, "end".toList⟩ :: newline :: rest
    have hlength : ((Statement.block c body).words indent).length =
        (c.words indent).length + ((lines (indent ++ [' ', ' ']) body).length + 4) := by
      simp [Statement.words]
    have hwords : (Statement.block c body).words indent ++ rest =
        c.words indent ++ ⟨[' '], .keyword .doKw, "do".toList⟩ :: newline ::
          (lines (indent ++ [' ', ' ']) body ++ close) := by
      simp [Statement.words, close]
    rw [hlength] at hn
    rw [hwords]
    obtain ⟨n, rfl⟩ := Nat.exists_eq_add_of_le' (show 7 ≤ n by omega)
    refine takes_statement (takes_expr (hc.reads (k := 16 * (lines (indent ++ [' ', ' ']) body).length + 7)
      (fun m start x hm hx => ?_) (by omega)) (by simp [closers])) (((hc.starts indent).append (by simp)).ne rfl)
      (List.mem_cons_self ..)
    obtain ⟨m, rfl⟩ := Nat.exists_eq_add_of_le' (show 3 ≤ m by omega)
    have hbelow : (newline :: (lines (indent ++ [' ', ' ']) body ++ close)).dropWhile (fun w => isTerminator w.kind) =
        lines (indent ++ [' ', ' ']) body ++ close := dropWhile_newline_terminators (opensLine_lines body rfl)
    have hitems : Takes (Rule.run m (.items bodyStops)) (newline :: (lines (indent ++ [' ', ' ']) body ++ close)) close
        (Shows body) :=
      lines_read body (by decide) (by simp [bodyStops, close]) rfl hbelow (by omega)
    refine (takes_block hx.takesDo hitems (closed_newline hrest)).mono fun y hy => ?_
    obtain ⟨b, ns, hkind, hparams, hbody, hns⟩ := hy
    exact ⟨b, ns, hx.withBlock hkind, hparams, hbody, hns⟩

theorem lines_read : ∀ (program : List Statement) {indent : List Char} {ws rest : List Word} {stops : List TokenKind}
    {n : Nat}, (∀ k ∈ stops, startsValue k = false) → headKind rest ∈ TokenKind.eof :: stops →
    opensLine (headKind rest) = true →
    ws.dropWhile (fun w => isTerminator w.kind) = lines indent program ++ rest →
    16 * (lines indent program).length + 4 ≤ n → Takes (Rule.run n (.items stops)) ws rest (Shows program)
  | [], indent, ws, rest, stops, n, _, hstop, _, hws, hn => by
    obtain ⟨n, rfl⟩ := Nat.exists_eq_add_of_le' (show 1 ≤ n by omega)
    exact takes_no_items hws hstop rfl
  | st :: program, indent, ws, rest, stops, n, hstops, hstop, hrest, hws, hn => by
    rw [lines, List.length_append] at hn
    rw [lines, List.append_assoc] at hws
    obtain ⟨n, rfl⟩ := Nat.exists_eq_add_of_le' (show 1 ≤ n by omega)
    have hnext : opensLine (headKind (lines indent program ++ rest)) = true := opensLine_lines program hrest
    have hpos : 1 ≤ (st.words indent).length := by
      obtain ⟨w, ws, hw, -⟩ := st.starts indent
      rw [hw]
      exact Nat.succ_pos _
    refine takes_line hws (st.starts indent) hstops (opensLine_ne hnext rfl) (st.reads hnext (by omega)) fun x hx => ?_
    refine (lines_read program hstops hstop hrest (dropWhile_newline_terminators hnext) (by omega)).mono fun ns hns => ?_
    exact ⟨x, ns, rfl, hx, hns⟩

end

/-- A text whose tokens spell words that are read as statements is parsed, and its tree has these statements. -/
theorem parse_scanned {text : List Char} {s : Scanned TokenKind} {ws : List Word} {S : List Node → Prop}
    (hscan : scan text = .ok s) (hcomments : s.comments = []) (hstop : s.stop.kind = .eof)
    (hspells : List.Forall₂ Word.Spells ws s.tokens)
    (hitems : Takes (Rule.run (16 * ws.length + 15) (.items [])) ws [] S) :
    ∃ root items, Ruby.parse text = .ok (root, []) ∧ root.kind = .statements items ∧ S items := by
  have hlength : s.tokens.length = ws.length := hspells.length_eq.symm
  have hprogram : Takes (Ruby.program (Rule.run (depthBound s.tokens.length))) ws []
      fun root => ∃ items, root.kind = .statements items ∧ S items := by
    have hstatements : Takes (Rule.run (depthBound s.tokens.length) (.statements [])) ws []
        fun root => ∃ items, root.kind = .statements items ∧ S items := by
      rw [hlength]
      exact takes_statements hitems
    apply hstatements.bind
    intro root hroot
    have heof : headKind [] = .eof := rfl
    apply (takes_peek_kind heof).bind
    intro t ht
    rw [if_pos ht]
    exact takes_pure hroot
  obtain ⟨root, tokens, prevEnd, heq, -, items, hkind, hshow⟩ :=
    hprogram { text, lines := .ofText text } s.stop s.tokens 0 rfl hstop hspells
  refine ⟨root, items, ?_, hkind, hshow⟩
  rw [parse_ok]
  exact ⟨s, _, hscan, hcomments, heq⟩

/-- Spelled words whose statements are read are a text that is parsed, and its tree has these statements. -/
theorem parse_spelled {ws : List Word} {S : List Node → Prop} (h : Spelled ws)
    (hitems : Takes (Rule.run (16 * ws.length + 15) (.items [])) ws [] S) :
    ∃ root items, Ruby.parse (print ws) = .ok (root, []) ∧ root.kind = .statements items ∧ S items := by
  obtain ⟨s, hscan, hcomments, hstop, -, hspells⟩ := scan_spelled h
  exact parse_scanned hscan hcomments hstop hspells hitems

/-- Every program of declarations is read back from its text: the parser succeeds, and the tree is the program. -/
theorem parse_write (program : List Statement) :
    ∃ root items, Ruby.parse (write program) = .ok (root, []) ∧ root.kind = .statements items ∧
      Shows program items := by
  refine parse_spelled (write_spelled program) ?_
  have hbefore : (lines [] program).dropWhile (fun w => isTerminator w.kind) = lines [] program ++ [] := by
    rw [List.append_nil]
    refine dropWhile_terminators ?_
    rw [← List.append_nil (lines [] program)]
    exact opensLine_lines program rfl
  exact lines_read program (by simp) (List.mem_cons_self ..) rfl hbefore (by omega)

end PuppetDocs.Ruby.Decl
