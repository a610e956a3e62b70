import PuppetDocs.Proofs.Construct.Reads

/-
  PuppetDocs.Proofs.Construct.Held — constructs in whose body no `do` binds.

  In the arguments of a call without parentheses a `do` is held back for that call, and a
  construct there does not lift this for its body. So `g do` is read as two statements, and the
  `end` of the innermost first block closes the construct. What is left of the body is read
  behind the call, up to an `end` that nothing there has opened (`Refuses`).

  `construct_outcomes` says what becomes of a construct in each of the places where it stands.
-/

namespace PuppetDocs.Ruby.Decl

open ParseM

variable {rest : List Word} {n start : Nat} {indent : List Char}

/-! ## A `do` that is held back -/

theorem takes_held_trailers (x : Node) :
    TakesIn true (Rule.run (n + 1) (.trailers start x)) (doWord :: rest) (doWord :: rest) fun y => y = x := by
  show TakesIn true (readTrailers (Rule.run n) start x) _ _ _
  apply takes_peek.bind
  intro t ht
  rw [ht.kind]
  apply takes_holdDo.bind
  intro env henv
  rw [if_neg (by simp [henv])]
  exact takes_pure rfl

/-- The name in front of it is a statement. -/
theorem takes_heldName (m : MethodName) :
    TakesIn true (Rule.run (n + 8) .statement) (nameWord indent m :: doWord :: rest) (doWord :: rest)
      fun _ => True := by
  have hunary : TakesIn true (Rule.run (n + 2) .unary) (nameWord indent m :: doWord :: rest) (doWord :: rest)
      fun _ => True :=
    takes_unary rfl (takes_name m (by simp [loneClosers])) fun x _ _ =>
      (takes_held_trailers x).mono fun _ _ => trivial
  exact takes_statement (takes_expr hunary (by simp)) (by simp) (by simp)

/-- And it is a statement of its own. -/
theorem takes_heldDo (hrest : Closed (newline :: rest)) :
    TakesIn true (Rule.run (n + 8) .statement) (doWord :: newline :: rest) (newline :: rest) fun _ => True := by
  have hprimary : TakesIn true (Rule.run (n + 1) .primary) (doWord :: newline :: rest) (newline :: rest)
      fun _ => True := by
    show TakesIn true (readPrimary (Rule.run n)) _ _ _
    apply takes_peek.bind
    intro t ht
    rw [ht.kind]
    exact takes_bump.bind fun _ _ => (takes_mkNode _ _).mono fun _ _ => trivial
  have hunary : TakesIn true (Rule.run (n + 2) .unary) (doWord :: newline :: rest) (newline :: rest) fun _ => True :=
    takes_operand (by simp [signKinds]) hprimary fun x _ _ => (takes_closed_trailers hrest x).mono fun _ _ => trivial
  exact takes_statement (takes_expr hunary (by simp [closers])) (by simp) (by simp)

/-! ## Where the construct ends instead -/

/-- Calls, and behind them an `end` that none of them has opened. -/
def Dangling (ws : List Word) : Prop :=
  ∃ indent calls indent' more, ws = doLines indent calls ++ endWord indent' :: more

theorem Dangling.opens {ws : List Word} (h : Dangling ws) : opensLine (headKind ws) = true := by
  obtain ⟨indent, calls, indent', more, rfl⟩ := h
  exact opensLine_doLines calls rfl

/-- A call with its block, where the `do` is held back: the name, the `do`, and what is read behind them. -/
theorem takes_heldCall (name : MethodName) {body after ws : List Word} {stops : List TokenKind}
    (hstops : stops ∈ constructStops) (hopens : opensLine (headKind body) = true)
    (hws : ws.dropWhile (fun w => isTerminator w.kind) = nameWord indent name :: doWord :: newline :: body)
    (h : TakesIn true (Rule.run (n + 8) (.items stops)) (newline :: body) after fun _ => True) :
    TakesIn true (Rule.run (n + 10) (.items stops)) ws after fun _ => True := by
  obtain ⟨-, hvalues, hdo⟩ := constructStops_apart stops hstops
  have hname : headKind (nameWord indent name :: doWord :: newline :: body) ∉ TokenKind.eof :: stops := by
    intro hmem
    rcases List.mem_cons.mp hmem with heq | hmem
    · cases heq
    · cases hvalues _ hmem
  have hheld : headKind (doWord :: newline :: body) ∉ TokenKind.eof :: stops := by simpa using hdo
  refine takes_items hws hname (takes_heldName name) fun x _ => ?_
  exact takes_items rfl hheld (takes_heldDo (closed_newline hopens)) fun y _ => h.mono fun _ _ => trivial

/-- The first `end` in the body closes the construct, and leaves one `end` too many. -/
theorem held_body : ∀ (c : DoCall) (calls : List DoCall) (indent indent' : List Char) (more : List Word),
    ∃ indent'' ws, Dangling ws ∧ ws.length ≤ (doLines indent (c :: calls)).length + more.length ∧
      BodyTaken true (16 * (doLines indent (c :: calls)).length) (doLines indent (c :: calls) ++ endWord indent' :: more)
        (endWord indent'' :: newline :: ws) fun _ => True
  | .mk name [], calls, indent, indent', more => by
    refine ⟨indent, doLines indent calls ++ endWord indent' :: more, ⟨indent, calls, indent', more, rfl⟩, ?_, ?_⟩
    · rw [doLines, List.length_append, List.length_append, DoCall.length_words, List.length_cons]
      omega
    intro m stops ws hm hstops hws
    rw [doLines, List.length_append, DoCall.length_words] at hm
    rw [doLines, List.append_assoc, DoCall.words_append] at hws
    obtain ⟨m, rfl⟩ := Nat.exists_eq_add_of_le' (show 10 ≤ m by omega)
    refine takes_heldCall name hstops rfl hws ?_
    exact takes_no_items rfl (List.mem_cons_of_mem _ (constructStops_apart stops hstops).1) trivial
  | .mk name (c :: body), calls, indent, indent', more => by
    obtain ⟨indent'', rest, hrest, hlength, hinner⟩ := held_body c body (indent ++ [' ', ' ']) indent
      (newline :: (doLines indent calls ++ endWord indent' :: more))
    refine ⟨indent'', rest, hrest, ?_, ?_⟩
    · rw [doLines, List.length_append, DoCall.length_words]
      simp only [List.length_append, List.length_cons] at hlength ⊢
      omega
    intro m stops ws hm hstops hws
    rw [doLines, List.length_append, DoCall.length_words] at hm
    rw [doLines, List.append_assoc, DoCall.words_append] at hws
    obtain ⟨m, rfl⟩ := Nat.exists_eq_add_of_le' (show 10 ≤ m by omega)
    have hopens : opensLine (headKind (doLines (indent ++ [' ', ' ']) (c :: body) ++ endWord indent :: newline ::
        (doLines indent calls ++ endWord indent' :: more))) = true := opensLine_doLines _ rfl
    refine takes_heldCall name hstops hopens hws ?_
    exact hinner (m + 8) stops _ (by omega) hstops (dropWhile_newline_terminators hopens)

/-! ## The `end` too many -/

/-- From tokens that spell `before` the parser fails on an `end` without partner; a `do` binds here. -/
def Refuses {α : Type} (p : P α) (before : List Word) : Prop :=
  ∀ env stop tokens prevEnd, env.holdDo = false → stop.kind = .eof → List.Forall₂ Word.Spells before tokens →
    ∃ e, p env ⟨tokens, stop, prevEnd⟩ = .error (.rejected e) ∧ e.fault = .unbalanced "end"

variable {α β : Type} {p : P α} {f : α → P β} {before between : List Word}

theorem Refuses.bind (h : Refuses p before) : Refuses (p >>= f) before := by
  intro env stop tokens prevEnd henv hstop hspells
  obtain ⟨e, heq, he⟩ := h env stop tokens prevEnd henv hstop hspells
  exact ⟨e, by rw [bind_eq, heq], he⟩

theorem TakesIn.refuses {R : α → Prop} (h : Takes p before between R) (hf : ∀ a, R a → Refuses (f a) between) :
    Refuses (p >>= f) before := by
  intro env stop tokens prevEnd henv hstop hspells
  obtain ⟨a, tokens', prevEnd', heq, hbetween, ha⟩ := h env stop tokens prevEnd henv hstop hspells
  obtain ⟨e, heq', he⟩ := hf a ha env stop tokens' prevEnd' henv hstop hbetween
  exact ⟨e, by rw [bind_eq, heq]; exact heq', he⟩

theorem refuses_end_primary : Refuses (Rule.run (n + 1) .primary) (endWord indent :: rest) := by
  show Refuses (readPrimary (Rule.run n)) _
  refine takes_peek.refuses fun t ht => ?_
  rw [ht.kind]
  show Refuses (unbalanced t) _
  rw [unbalanced, ht.text]
  intro env stop tokens prevEnd _ _ _
  exact ⟨_, rfl, rfl⟩

theorem refuses_end_unary : Refuses (Rule.run (n + 2) .unary) (endWord indent :: rest) := by
  intro env stop tokens prevEnd henv hstop hspells
  have hpeek : (Stream.mk tokens stop prevEnd).peek.kind ∉ signKinds := by
    rw [peek_kind hstop hspells, headKind_cons]
    simp [signKinds]
  change ∃ e, readUnary (Rule.run (n + 1)) env _ = _ ∧ _
  rw [readUnary_plain _ env hpeek]
  exact refuses_end_primary.bind env stop tokens prevEnd henv hstop hspells

theorem refuses_end_expr : Refuses (Rule.run (n + 5) .expr) (endWord indent :: rest) := by
  have hbinary : Refuses (Rule.run (n + 3) (.binary 0)) (endWord indent :: rest) := by
    show Refuses (readBinary (Rule.run (n + 2)) 0) _
    exact takes_here.refuses fun _ _ => refuses_end_unary.bind
  have hternary : Refuses (Rule.run (n + 4) .ternary) (endWord indent :: rest) := by
    show Refuses (readTernary (Rule.run (n + 3))) _
    exact takes_here.refuses fun _ _ => hbinary.bind
  show Refuses (readExpr (Rule.run (n + 4))) _
  exact takes_here.refuses fun _ _ => hternary.bind

theorem refuses_end_statement : Refuses (Rule.run (n + 8) .statement) (endWord indent :: rest) := by
  have hnegation : Refuses (Rule.run (n + 6) .negation) (endWord indent :: rest) := by
    show Refuses (readNegation (Rule.run (n + 5))) _
    refine (takes_at (decide_eq_false (by simp))).refuses fun a ha => ?_
    rw [ha]
    exact refuses_end_expr
  have hsentence : Refuses (Rule.run (n + 7) .sentence) (endWord indent :: rest) := by
    show Refuses (readSentence (Rule.run (n + 6))) _
    exact takes_here.refuses fun _ _ => hnegation.bind
  show Refuses (readStatement (Rule.run (n + 7))) _
  exact takes_here.refuses fun _ _ => hsentence.bind

/-- Statements of a whole file are refused where one of them is. -/
theorem refuses_items {ws : List Word} (hws : ws.dropWhile (fun w => isTerminator w.kind) = before)
    (heof : headKind before ≠ .eof) (h : Refuses (do
      let n' ← Rule.run n .statement
      return n' :: (← Rule.run n (.items []))) before) : Refuses (Rule.run (n + 1) (.items [])) ws := by
  show Refuses (readItems (Rule.run n) []) ws
  refine (takes_skipTerminators hws).refuses fun _ _ => ?_
  have hmore : Takes (atAny [.eof]) before before fun a => a = false := takes_atAny (by simpa using heof)
  refine hmore.refuses fun a ha => ?_
  rw [ha]
  exact h

theorem refuses_calls (calls : List DoCall) {indent' : List Char} {more ws : List Word}
    (hws : ws.dropWhile (fun w => isTerminator w.kind) = doLines indent calls ++ endWord indent' :: more)
    (hn : 16 * (doLines indent calls).length + 9 ≤ n) : Refuses (Rule.run n (.items [])) ws := by
  induction calls generalizing ws n with
  | nil =>
    obtain ⟨n, rfl⟩ := Nat.exists_eq_add_of_le' (show 9 ≤ n by omega)
    exact refuses_items hws (by simp [doLines]) refuses_end_statement.bind
  | cons c calls ih =>
    rw [doLines, List.length_append] at hn
    rw [doLines, List.append_assoc] at hws
    have hpos : 5 ≤ (c.words indent).length := by
      obtain ⟨name, body⟩ := c
      rw [DoCall.length_words]
      exact Nat.le_add_left ..
    obtain ⟨n, rfl⟩ := Nat.exists_eq_add_of_le' (show 1 ≤ n by omega)
    have hnext : opensLine (headKind (doLines indent calls ++ endWord indent' :: more)) = true :=
      opensLine_doLines calls rfl
    have hstarts : StartsValue (c.words indent ++ (doLines indent calls ++ endWord indent' :: more)) :=
      (c.starts indent).append (opensLine_ne hnext rfl)
    refine refuses_items hws (hstarts.ne rfl) ((c.reads hnext (by omega)).refuses fun x _ => ?_)
    exact (ih (dropWhile_newline_terminators hnext) (by omega)).bind

theorem Dangling.refused {ws : List Word} (h : Dangling ws) (hn : 16 * ws.length + 9 ≤ n) :
    Refuses (Rule.run n (.items [])) (newline :: ws) := by
  have hopens := h.opens
  obtain ⟨indent, calls, indent', more, rfl⟩ := h
  rw [List.length_append] at hn
  exact refuses_calls calls (dropWhile_newline_terminators hopens) (by omega)

/-- Behind the call stands what is left of its construct. -/
theorem Construct.refuses_command (f : MethodName) (key : SymbolName) {k : Construct} (hk : k.body ≠ []) :
    Refuses (Rule.run (16 * (commandWords f key k).length + 15) (.items [])) (commandWords f key k) := by
  obtain ⟨c, calls, hcalls⟩ := List.exists_cons_of_ne_nil hk
  obtain ⟨indent, ws, hdangling, hleft, hbody⟩ := held_body c calls [' ', ' '] [] [newline]
  rw [← hcalls] at hleft hbody
  have hwords : commandWords f key k = nameWord [] f :: ⟨[' '], .symbol, ':' :: key.chars⟩ ::
      ⟨[' '], .fatArrow, "=>".toList⟩ :: (k.words [' '] ++ [newline]) := rfl
  have hlength := k.length_words [' ']
  obtain ⟨n, hn⟩ := Nat.exists_eq_add_of_le'
    (show 16 * (doLines [' ', ' '] k.body).length + 40 ≤ 16 * (commandWords f key k).length + 15 by
      rw [hwords]
      simp only [List.length_cons, List.length_append]
      omega)
  rw [List.length_singleton] at hleft
  rw [hn, hwords]
  have hprimary : TakesIn true (Rule.run (n + 16 * (doLines [' ', ' '] k.body).length + 25) .primary)
      (k.words [' '] ++ [newline]) (newline :: ws) fun _ => True := by
    rw [k.words_append]
    exact (k.opening.takes hbody (opensLine_doLines k.body rfl) (by omega)).mono fun _ _ => trivial
  have hcall := takes_pairCommand f key ((k.starts [' ']).append (by simp)) hprimary (closed_newline hdangling.opens)
  have hleftOver : Refuses (Rule.run (n + 16 * (doLines [' ', ' '] k.body).length + 39) (.items [])) (newline :: ws) :=
    hdangling.refused (by omega)
  exact refuses_items (dropWhile_terminators rfl) (by simp) (hcall.refuses fun _ _ => hleftOver.bind)

/-- Spelled words whose statements are refused are a text that is not parsed. -/
theorem parse_refused {ws : List Word} (h : Spelled ws)
    (hitems : Refuses (Rule.run (16 * ws.length + 15) (.items [])) ws) :
    ∃ e, Ruby.parse (print ws) = .error e ∧ e.fault = .unbalanced "end" := by
  obtain ⟨s, hscan, -, hstop, -, hspells⟩ := scan_spelled h
  have hlength : s.tokens.length = ws.length := hspells.length_eq.symm
  have hstatements : Refuses (Rule.run (16 * ws.length + 16) (.statements [])) ws := by
    show Refuses (readStatements (Rule.run (16 * ws.length + 15)) []) ws
    exact takes_here.refuses fun _ _ => hitems.bind
  have hprogram : Refuses (Ruby.program (Rule.run (depthBound s.tokens.length))) ws := by
    rw [hlength]
    exact hstatements.bind
  obtain ⟨e, heq, he⟩ := hprogram { text := print ws, lines := .ofText (print ws) } s.stop s.tokens 0 rfl hstop hspells
  have hparse : parseTokens (print ws) (.ofText (print ws)) s.tokens s.stop =
      (Ruby.program (Rule.run (depthBound s.tokens.length)) { text := print ws, lines := .ofText (print ws) }
        { rest := s.tokens, stop := s.stop }).map Prod.fst := rfl
  refine ⟨e, ?_, he⟩
  simp only [Ruby.parse, Ruby.read, bind, Except.bind, hscan, hparse, heq, Except.map, settle,
    ParseFailure.toSyntaxError]

/-! ## Where a construct stands -/

/-- As the value of an assignment and as the value of a pair in parentheses, a construct is read with every block bound to
its name. As the value of a pair without parentheses it is read so only if its body is empty; with any body
the whole text is refused, on an `end` too many. -/
theorem construct_outcomes (x f : MethodName) (key : SymbolName) (k : Construct) :
    (∃ root n t v, Ruby.parse (writeAssign x k) = .ok (root, []) ∧ root.kind = .statements [n] ∧
      n.kind = .assign t v ∧ NameShows x t ∧ k.Shows v) ∧
    (∃ root n, Ruby.parse (writeParens f key k) = .ok (root, []) ∧ root.kind = .statements [n] ∧
      PairCallShows f key true k.Shows n) ∧
    (k.body = [] → ∃ root n, Ruby.parse (writeCommand f key k) = .ok (root, []) ∧ root.kind = .statements [n] ∧
      PairCallShows f key false k.Shows n) ∧
    (k.body ≠ [] → ∃ e, Ruby.parse (writeCommand f key k) = .error e ∧ e.fault = .unbalanced "end") := by
  refine ⟨?_, ?_, fun hk => ?_, fun hk => ?_⟩
  · obtain ⟨root, items, hparse, hroot, n, rfl, t, v, hn, ht, hv⟩ :=
      parse_spelled (assignWords_spelled x k) (k.reads_assign x)
    exact ⟨root, n, t, v, hparse, hroot, hn, ht, hv⟩
  · obtain ⟨root, items, hparse, hroot, n, rfl, hn⟩ :=
      parse_spelled (parenWords_spelled f key k) (k.reads_parens f key)
    exact ⟨root, n, hparse, hroot, hn⟩
  · obtain ⟨root, items, hparse, hroot, n, rfl, hn⟩ :=
      parse_spelled (commandWords_spelled f key k) (Construct.reads_command f key hk)
    exact ⟨root, n, hparse, hroot, hn⟩
  · exact parse_refused (commandWords_spelled f key k) (Construct.refuses_command f key hk)

/-- One block in a `begin` is enough: the program is fine with parentheses, and lost without them. -/
theorem command_loses_block : ¬∀ (f : MethodName) (key : SymbolName) (k : Construct),
    ∃ root n, Ruby.parse (writeCommand f key k) = .ok (root, []) ∧ root.kind = .statements [n] ∧
      PairCallShows f key false k.Shows n := by
  intro h
  let f : MethodName := ⟨['f'], ⟨'f', [], [], rfl, rfl, nofun, .inl rfl⟩, rfl⟩
  let g : MethodName := ⟨['g'], ⟨'g', [], [], rfl, rfl, nofun, .inl rfl⟩, rfl⟩
  let key : SymbolName := ⟨['k'], 'k', [], [], rfl, rfl, nofun, .inl rfl⟩
  have htext : writeCommand f key ⟨.begin_, [.mk g []]⟩ = "f :k => begin\n  g do\n  end\nend\n".toList := by decide
  have hrefused : (Ruby.parse "f :k => begin\n  g do\n  end\nend\n".toList).isOk = false := by decide +kernel
  obtain ⟨root, n, hparse, -⟩ := h f key ⟨.begin_, [.mk g []]⟩
  rw [htext] at hparse
  rw [hparse] at hrefused
  cases hrefused

end PuppetDocs.Ruby.Decl
