import PuppetDocs.Proofs.Decl.Takes

/-
  PuppetDocs.Proofs.Decl.Values — how the words of a value are read.

  Between a value and its words stand the rules for operators, which read on only if an
  operator follows; in a written program none does (`Closed`). What is read first is a primary
  value, and what comes behind it goes to the trailers. All lemmas say which bound on the depth
  is enough, and each rule needs one more than the rules inside it.
-/

namespace PuppetDocs.Ruby.Decl

open ParseM

variable {before after rest ws : List Word} {Q R : Node → Prop} {n start : Nat} {hold : Bool}

/-! ## Where a value ends -/

/-- The kinds of the tokens behind an item of a list in brackets. -/
def itemClosers : List TokenKind := [.comma, .rparen, .rbracket, .rbrace]

/-- The kinds of the tokens behind a value in a written program, a block aside. -/
def closers : List TokenKind := .newline :: .eof :: .fatArrow :: itemClosers

/-- Nothing follows that belongs to the value in front; the next line does not go on with it. -/
def Closed (ws : List Word) : Prop :=
  headKind ws ∈ closers ∧ headKind (ws.dropWhile fun w => isNewline w.kind) ∉ [.dot, .safeNav]

/-- The kinds of the tokens that may go on with a value. -/
def trailerKinds : List TokenKind := [.newline, .dot, .safeNav, .colonColon, .lbracket, .lbrace, .keyword .doKw]

theorem takes_no_trailers (h : headKind ws ∉ trailerKinds) (x : Node) :
    TakesIn hold (Rule.run (n + 1) (.trailers start x)) ws ws fun y => y = x := by
  show TakesIn hold (readTrailers (Rule.run n) start x) ws ws _
  apply (takes_peek_kind rfl).bind
  intro t ht
  rw [← ht] at h
  split
  case h_8 => exact takes_pure rfl
  all_goals
    rename_i hk
    exact absurd (by rw [hk]; decide) h

theorem takes_closed_trailers (h : Closed ws) (x : Node) :
    TakesIn hold (Rule.run (n + 1) (.trailers start x)) ws ws fun y => y = x := by
  obtain ⟨hkind, hline⟩ := h
  by_cases hnewline : headKind ws = .newline
  · show TakesIn hold (readTrailers (Rule.run n) start x) ws ws _
    apply (takes_peek_kind hnewline).bind
    intro t ht
    rw [ht]
    apply (takes_lineGoesOn (decide_eq_false (by simpa using hline))).known
    exact takes_pure rfl
  · refine takes_no_trailers (fun hmem => ?_) x
    have hapart : ∀ k ∈ closers, k ∈ trailerKinds → k = .newline := by decide
    exact hnewline (hapart _ hkind hmem)

/-- The kinds of the tokens behind an operand that no operator goes on with; a `do` that is held back ends it too. -/
def operandClosers : List TokenKind := .assign :: .keyword .doKw :: closers

theorem precedence?_closed {t : Token TokenKind} (h : t.kind ∈ operandClosers) : precedence? t = none := by
  simp only [operandClosers, closers, itemClosers, List.mem_cons, List.not_mem_nil, or_false] at h
  unfold precedence?
  rcases h with h | h | h | h | h | h | h | h | h <;> rw [h]

/-- No operator follows. -/
theorem takes_operators (h : headKind ws ∈ operandClosers) (min : Nat) (x : Node) :
    TakesIn hold (Rule.run (n + 1) (.operators min start x)) ws ws fun y => y = x := by
  show TakesIn hold (readOperators (Rule.run n) min start x) ws ws _
  apply (takes_peek_kind rfl).bind
  intro t ht
  rw [precedence?_closed (ht ▸ h)]
  exact takes_pure rfl

/-- An operand, and what the operators behind it make of it. -/
theorem takes_binary {between : List Word} {min : Nat} (h : TakesIn hold (Rule.run n .unary) before between R)
    (hmore : ∀ start x, R x → TakesIn hold (Rule.run n (.operators min start x)) between after Q) :
    TakesIn hold (Rule.run (n + 1) (.binary min)) before after Q := by
  show TakesIn hold (readBinary (Rule.run n) min) before after Q
  apply takes_here.next
  intro start
  exact h.bind fun x hx => hmore start x hx

/-- Operators and their operands are what may stand on either side of an assignment, if no `?` follows. -/
theorem takes_binary_ternary (h : TakesIn hold (Rule.run n (.binary 0)) before after Q)
    (hafter : headKind after ≠ .question) : TakesIn hold (Rule.run (n + 1) .ternary) before after Q := by
  show TakesIn hold (readTernary (Rule.run n)) before after Q
  apply takes_here.next
  intro start
  apply h.bind
  intro x hx
  apply (takes_not_eat hafter).known
  exact takes_pure hx

/-- From an operand to what may stand on either side of an assignment, if no operator or `?` follows. -/
theorem takes_ternary (h : TakesIn hold (Rule.run (n + 1) .unary) before after Q)
    (hafter : headKind after ∈ operandClosers) :
    TakesIn hold (Rule.run (n + 3) .ternary) before after Q := by
  have hbinary : TakesIn hold (Rule.run (n + 2) (.binary 0)) before after Q :=
    takes_binary h fun start x hx => (takes_operators hafter 0 x).mono fun y hy => hy ▸ hx
  exact takes_binary_ternary hbinary (ne_of_mem_of_not_mem hafter (by decide))

/-- No assignment follows. -/
theorem takes_ternary_expr (h : TakesIn hold (Rule.run n .ternary) before after Q)
    (hafter : headKind after ∈ TokenKind.keyword .doKw :: closers) :
    TakesIn hold (Rule.run (n + 1) .expr) before after Q := by
  show TakesIn hold (readExpr (Rule.run n)) before after Q
  apply takes_here.next
  intro start
  apply h.bind
  intro x hx
  split
  · refine (takes_peekKind rfl).bind fun k hk => ?_
    split
    · rename_i heq
      exact absurd hk.symm (ne_of_mem_of_not_mem hafter (by decide))
    · exact absurd hk.symm (ne_of_mem_of_not_mem hafter (by decide))
    · exact takes_pure hx
  · exact takes_pure hx

theorem takes_expr (h : TakesIn hold (Rule.run (n + 1) .unary) before after Q)
    (hafter : headKind after ∈ TokenKind.keyword .doKw :: closers) :
    TakesIn hold (Rule.run (n + 4) .expr) before after Q :=
  takes_ternary_expr (takes_ternary h (List.mem_cons_of_mem _ hafter)) hafter

/-- A target, the sign of assignment and one value. -/
theorem takes_assign {between : List Word} {w : Word} (hw : w.kind = .assign)
    (htarget : TakesIn hold (Rule.run (n + 1) .unary) before (w :: between) Q) (hQ : ∀ x, Q x → isAssignable x = true)
    (hvalue : TakesIn hold (Rule.run (n + 3) .expr) between after R) (hbetween : headKind between ≠ .newline)
    (hafter : headKind after ≠ .comma) :
    TakesIn hold (Rule.run (n + 4) .expr) before after fun y => ∃ t v, y.kind = .assign t v ∧ Q t ∧ R v := by
  have hassign : headKind (w :: between) = .assign := hw
  show TakesIn hold (readExpr (Rule.run (n + 3))) before after _
  apply takes_here.next
  intro start
  apply (takes_ternary htarget (hassign ▸ List.mem_cons_self ..)).bind
  intro target htarget
  rw [if_pos (hQ target htarget)]
  apply (takes_peekKind hassign).known
  apply takes_bump.bind
  intro _ _
  apply (takes_skipNewlines hbetween).next
  intro _
  have hone : TakesIn hold (assignedValue (Rule.run (n + 3))) between after R := by
    apply takes_here.next
    intro start
    apply hvalue.bind
    intro v hv
    apply (takes_at (decide_eq_false hafter)).known
    exact takes_pure hv
  apply hone.bind
  intro v hv
  exact (takes_mkNode _ _).mono fun y hy => ⟨target, v, hy, htarget, hv⟩

theorem takes_negation (h : TakesIn hold (Rule.run n .expr) before after Q)
    (hbefore : headKind before ≠ .keyword .notKw) :
    TakesIn hold (Rule.run (n + 1) .negation) before after Q := by
  show TakesIn hold (readNegation (Rule.run n)) before after Q
  apply (takes_at (decide_eq_false hbefore)).known
  exact h

/-! ## What a value starts with -/

def startsValue : TokenKind → Bool
  | .symbol | .quotedSymbol _ | .string _ | .number | .constant | .ident | .instanceVar | .lbracket | .lbrace => true
  | .keyword k =>
    k == .nilKw || k == .trueKw || k == .falseKw || k == .selfKw || k == .beginKw || k == .ifKw || k == .unlessKw ||
      k == .caseKw
  | _ => false

/-- The words start like a value, and a string at their front is no key. -/
def StartsValue (ws : List Word) : Prop :=
  ∃ w rest, ws = w :: rest ∧ startsValue w.kind = true ∧ ((∃ v, w.kind = .string v) → headKind rest ≠ .colon)

theorem StartsValue.append (h : StartsValue ws) (hrest : headKind rest ≠ .colon) : StartsValue (ws ++ rest) := by
  obtain ⟨w, ws, rfl, hw, hcolon⟩ := h
  refine ⟨w, ws ++ rest, rfl, hw, fun hstring => ?_⟩
  cases ws with
  | nil => exact hrest
  | cons v ws => exact hcolon hstring

theorem StartsValue.ne {k : TokenKind} (h : StartsValue ws) (hk : startsValue k = false) : headKind ws ≠ k := by
  obtain ⟨w, rest, rfl, hw, -⟩ := h
  intro he
  rw [← he, headKind_cons, hw] at hk
  cases hk

/-- The kinds of the tokens that are signs and splats in front of an operand. -/
def signKinds : List TokenKind := [.bang, .plus, .minus, .star, .doubleStar, .operator]

/-- Without a sign an operand is a primary value and what its trailers make of it. -/
theorem readUnary_plain (self : Reader) (env : ParseEnv) {s : Stream TokenKind} (h : s.peek.kind ∉ signKinds) :
    readUnary self env s = (do
      let n ← self .primary
      self (.trailers n.span.start n)) env s := by
  unfold readUnary
  rw [bind_eq, show peek env s = .ok (s.peek, s) from rfl]
  generalize s.peek = t at h ⊢
  refine congrFun (congrFun ?_ env) s
  dsimp only
  split
  case h_6 =>
    have hoperator : ¬(t.kind = .operator ∧ t.text = "~") := fun hk => h (by simp [hk.1, signKinds])
    rw [if_neg hoperator]
  all_goals
    rename_i hk
    exact absurd (by rw [hk]; decide) h

theorem takes_operand {between : List Word} (hstart : headKind before ∉ signKinds)
    (hprimary : TakesIn hold (Rule.run n .primary) before between R)
    (htrailers : ∀ x start, R x → TakesIn hold (Rule.run n (.trailers start x)) between after Q) :
    TakesIn hold (Rule.run (n + 1) .unary) before after Q := by
  intro env stop tokens prevEnd henv hstop hspells
  have hpeek : (Stream.mk tokens stop prevEnd).peek.kind ∉ signKinds := by rwa [peek_kind hstop hspells]
  have hread := readUnary_plain (Rule.run n) env hpeek
  change ∃ a tokens' prevEnd', readUnary (Rule.run n) env _ = _ ∧ _
  rw [hread]
  exact (hprimary.bind fun x hx => htrailers x _ hx) env stop tokens prevEnd henv hstop hspells

theorem startsValue_not_sign {k : TokenKind} (h : startsValue k = true) : k ∉ signKinds := by
  intro hmem
  have hsigns : ∀ k ∈ signKinds, startsValue k = false := by decide
  rw [hsigns k hmem] at h
  cases h

/-- An operand that starts like a value. -/
theorem takes_unary {between : List Word} (hstart : startsValue (headKind before) = true)
    (hprimary : TakesIn hold (Rule.run n .primary) before between R)
    (htrailers : ∀ x start, R x → TakesIn hold (Rule.run n (.trailers start x)) between after Q) :
    TakesIn hold (Rule.run (n + 1) .unary) before after Q :=
  takes_operand (startsValue_not_sign hstart) hprimary htrailers

/-- An argument that is a value, or the key of a pair. -/
theorem takes_arg (hstart : StartsValue before)
    (h : ∀ start, TakesIn hold (plainArg (Rule.run n) start) before after Q) :
    TakesIn hold (Rule.run (n + 1) .arg) before after Q := by
  obtain ⟨w, ws, rfl, hw, hcolon⟩ := hstart
  show TakesIn hold (readArg (Rule.run n)) (w :: ws) after Q
  apply takes_here.next
  intro start
  apply (takes_peekKind rfl).bind
  intro k hk
  rw [headKind_cons] at hk
  rw [← hk] at hw hcolon
  split
  · cases hw
  · cases hw
  · rename_i v
    apply (takes_colonAt_one (hcolon ⟨v, rfl⟩)).known
    exact h start
  · exact h start

/-! ## Lists in brackets -/

/-- A piece that is read as an item of a list in brackets, as a node that satisfies `Q`. -/
structure ReadsItem (p : Piece) (Q : Node → Prop) : Prop where
  starts : ∀ gap, StartsValue (p gap)
  reads : ∀ {gap rest n}, headKind rest ∈ itemClosers → 16 * (p gap).length ≤ n →
    Takes (Rule.run n .arg) (p gap ++ rest) rest Q

/-- A piece that is read as a value on its own. -/
structure ReadsValue (p : Piece) (Q : Node → Prop) : Prop where
  starts : ∀ gap, StartsValue (p gap)
  reads : ∀ {gap rest n}, Closed rest → 16 * (p gap).length ≤ n + 1 →
    Takes (Rule.run n .negation) (p gap ++ rest) rest Q

/-- In front of anything but a line feed, only the next token matters. -/
theorem closed_of_kind (h : headKind ws ∈ TokenKind.fatArrow :: itemClosers) : Closed ws := by
  have hnewline : headKind ws ≠ .newline := ne_of_mem_of_not_mem h (by decide)
  have hws : ws.dropWhile (fun w => isNewline w.kind) = ws := dropWhile_newline hnewline
  refine ⟨List.mem_cons_of_mem _ (List.mem_cons_of_mem _ h), ?_⟩
  rw [hws]
  intro hmem
  have hapart : ∀ k ∈ TokenKind.fatArrow :: itemClosers, k ∉ [TokenKind.dot, .safeNav] := by decide
  exact hapart _ h hmem

theorem ReadsValue.item {p : Piece} (h : ReadsValue p Q) : ReadsItem p Q := by
  refine ⟨h.starts, fun {gap rest n} hrest hn => ?_⟩
  obtain ⟨w, ws, hw, -⟩ := h.starts gap
  have hpos : 0 < (p gap).length := by
    rw [hw]
    exact Nat.succ_pos _
  obtain ⟨n, rfl⟩ := Nat.exists_eq_add_of_le' (show 1 ≤ n by omega)
  refine takes_arg ((h.starts gap).append (ne_of_mem_of_not_mem hrest (by decide))) fun start => ?_
  apply (h.reads (closed_of_kind (List.mem_cons_of_mem _ hrest)) (by omega)).bind
  intro x hx
  apply (takes_not_eat (ne_of_mem_of_not_mem hrest (by decide))).known
  exact takes_pure hx

/-- A key, an arrow and a value are read as a pair. -/
theorem reads_pair {p q : Piece} (hp : ReadsValue p Q) (hq : ReadsValue q R) :
    ReadsItem (fun gap => p gap ++ ⟨[' '], .fatArrow, "=>".toList⟩ :: q [' '])
      fun x => ∃ k v, x.kind = .pair k v ∧ Q k ∧ R v := by
  have harrow : headKind (⟨[' '], .fatArrow, "=>".toList⟩ :: q [' ']) ≠ .colon := nofun
  refine ⟨fun gap => (hp.starts gap).append harrow, fun {gap rest n} hrest hn => ?_⟩
  rw [List.length_append, List.length_cons] at hn
  obtain ⟨n, rfl⟩ := Nat.exists_eq_add_of_le' (show 1 ≤ n by omega)
  rw [List.append_assoc]
  refine takes_arg ((hp.starts gap).append nofun) fun start => ?_
  apply (hp.reads (closed_of_kind (List.mem_cons_self ..)) (by omega)).bind
  intro k hk
  apply (takes_eat rfl).known
  have hvalue : headKind (q [' '] ++ rest) ≠ .newline :=
    ((hq.starts [' ']).append (ne_of_mem_of_not_mem hrest (by decide))).ne rfl
  apply (takes_skipNewlines hvalue).next
  intro _
  apply (hq.reads (closed_of_kind (List.mem_cons_of_mem _ hrest)) (by omega)).bind
  intro v hv
  exact (takes_mkNode _ start).mono fun x hx => ⟨k, v, hx, hk, hv⟩

/-- The first item of a list is read, and then what `tail` says. -/
theorem takes_first {p : Piece} {gap : List Char} {closer : TokenKind} {tail : List Word} {S : List Node → Prop}
    (hp : ReadsItem p Q) (hcloser : startsValue closer = false) (htail : headKind tail ∈ itemClosers)
    (hn : 16 * (p gap).length ≤ n)
    (h : ∀ x, Q x → Takes (do
      if ← eat .comma then return x :: (← Rule.run n (.args closer)) else return [x]) tail after S) :
    Takes (Rule.run (n + 1) (.args closer)) (p gap ++ tail) after S := by
  have hstarts : StartsValue (p gap ++ tail) := (hp.starts gap).append (ne_of_mem_of_not_mem htail (by decide))
  have hany : [closer, TokenKind.eof].contains (headKind (p gap ++ tail)) = false := by
    have heof : headKind (p gap ++ tail) ≠ .eof := hstarts.ne rfl
    simp [hstarts.ne hcloser, heof]
  show Takes (readArgs (Rule.run n) closer) (p gap ++ tail) after S
  apply (takes_skipNewlines (hstarts.ne rfl)).next
  intro _
  apply (takes_atAny hany).known
  apply (hp.reads htail hn).bind
  intro x hx
  apply (takes_skipNewlines (ne_of_mem_of_not_mem htail (by decide))).next
  intro _
  exact h x hx

/-- Pieces that are read as the items of a list in brackets, as nodes that satisfy the predicate. -/
inductive ReadsList : List Piece → (List Node → Prop) → Prop
  | nil {S : List Node → Prop} : S [] → ReadsList [] S
  | cons {p : Piece} {ps : List Piece} {Q : Node → Prop} {S : List Node → Prop} : ReadsItem p Q →
      (∀ x, Q x → ReadsList ps fun ns => S (x :: ns)) → ReadsList (p :: ps) S

theorem ReadsList.mono {ps : List Piece} {S T : List Node → Prop} (h : ReadsList ps S) (hST : ∀ ns, S ns → T ns) :
    ReadsList ps T := by
  induction h generalizing T with
  | nil h => exact .nil (hST [] h)
  | cons hp _ ih => exact .cons hp fun x hx => ih x hx fun ns hns => hST (x :: ns) hns

/-- The items of a list in brackets are read in their order. -/
theorem takes_args {ps : List Piece} {S : List Node → Prop} (h : ReadsList ps S) {gap : List Char} {closer : Word}
    (hcloser : closer.kind ∈ [.rparen, .rbracket, .rbrace]) (hn : 16 * (separated gap ps).length + 1 ≤ n) :
    Takes (Rule.run n (.args closer.kind)) (separated gap ps ++ closer :: rest) (closer :: rest) S := by
  have hitem : headKind (closer :: rest) ∈ itemClosers := List.mem_cons_of_mem _ hcloser
  have hstop : startsValue closer.kind = false := by
    have hall : ∀ k ∈ [TokenKind.rparen, .rbracket, .rbrace], startsValue k = false := by decide
    exact hall _ hcloser
  induction h generalizing gap n with
  | nil hS =>
    obtain ⟨n, rfl⟩ := Nat.exists_eq_add_of_le' (show 1 ≤ n by omega)
    show Takes (readArgs (Rule.run n) closer.kind) (closer :: rest) (closer :: rest) _
    apply (takes_skipNewlines (ne_of_mem_of_not_mem hitem (by decide))).next
    intro _
    have hany : [closer.kind, TokenKind.eof].contains (headKind (closer :: rest)) = true := by simp
    apply (takes_atAny hany).known
    exact takes_pure hS
  | @cons p ps Q S hp hps ih =>
    obtain ⟨n, rfl⟩ := Nat.exists_eq_add_of_le' (show 1 ≤ n by omega)
    cases ps with
    | nil =>
      rw [separated] at hn ⊢
      refine takes_first hp hstop hitem (by omega) fun x hx => ?_
      have hcomma : headKind (closer :: rest) ≠ .comma := by
        intro he
        rw [← headKind_cons closer rest, he] at hcloser
        revert hcloser
        decide
      apply (takes_not_eat hcomma).known
      cases hps x hx with
      | nil hS => exact takes_pure hS
    | cons q ps =>
      rw [separated, List.length_append, List.length_cons] at hn
      rw [separated, List.append_assoc]
      refine takes_first hp hstop (List.mem_cons_self ..) (by omega) fun x hx => ?_
      apply (takes_eat rfl).known
      exact (ih x hx (by omega)).bind fun ns hns => takes_pure hns

/-! ## Trailing pairs -/

theorem groupEntries_cons {x : Node} (h : isEntry x = false) (ns : List Node) :
    groupEntries (x :: ns) = x :: groupEntries ns := by
  have hentries : ((x :: ns).reverse.takeWhile isEntry) = ns.reverse.takeWhile isEntry := by
    rw [List.reverse_cons, List.takeWhile_append]
    split
    · rename_i hall
      rw [List.takeWhile_cons_of_neg (by simp [h]), List.append_nil]
      exact ((List.takeWhile_prefix isEntry).eq_of_length hall).symm
    · rfl
  have hle : (ns.reverse.takeWhile isEntry).length ≤ ns.length := by
    have := (List.takeWhile_prefix isEntry (l := ns.reverse)).length_le
    simpa using this
  simp only [groupEntries, hentries, List.length_cons, List.length_reverse, Nat.succ_sub hle, List.take_succ_cons]
  split <;> rfl

/-- An argument that is no entry stays in front of what becomes of the others. -/
theorem groupPairs_cons {x : Node} (hentry : isEntry x = false) (hpass : isBlockPass x = false) (ns : List Node) :
    groupPairs (x :: ns) = x :: groupPairs ns := by
  cases ns with
  | nil =>
    simp only [groupPairs, List.getLast?_singleton, hpass, Bool.false_eq_true, if_false, groupEntries_cons hentry]
    rfl
  | cons y ns =>
    have hlast : (x :: y :: ns).getLast? = (y :: ns).getLast? := List.getLast?_cons_cons
    simp only [groupPairs, hlast]
    split
    · split
      · rw [List.dropLast_cons_of_ne_nil (by simp), groupEntries_cons hentry, List.cons_append]
      · rw [groupEntries_cons hentry]
    · rfl

/-- Entries alone become one hash. -/
theorem groupPairs_entries {ns : List Node} (hne : ns ≠ []) (hentry : ∀ x ∈ ns, isEntry x = true)
    (hpass : ∀ x ∈ ns, isBlockPass x = false) : ∃ x, groupPairs ns = [x] ∧ x.kind = .hash ns := by
  have hentries : (ns.reverse.takeWhile isEntry).reverse = ns := by
    rw [List.takeWhile_eq_self_iff.mpr fun x hx => hentry x (List.mem_reverse.mp hx), List.reverse_reverse]
  obtain ⟨first, more, rfl⟩ := List.exists_cons_of_ne_nil hne
  have hlast := List.getLast?_eq_some_getLast (List.cons_ne_nil first more)
  refine ⟨{
    kind := .hash (first :: more)
    span := first.span.merge ((first :: more).getLast (by simp)).span
    line := first.line }, ?_, rfl⟩
  simp only [groupPairs, hlast, hpass _ (List.getLast_mem _), Bool.false_eq_true, if_false, groupEntries, hentries,
    List.head?_cons, Nat.sub_self, List.take_zero, List.nil_append]

end PuppetDocs.Ruby.Decl
