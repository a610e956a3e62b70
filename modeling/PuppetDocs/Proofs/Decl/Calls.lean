import PuppetDocs.Proofs.Decl.Values

/-
  PuppetDocs.Proofs.Decl.Calls — how literals, constant paths and calls are read.

  A path or a call is read from its innermost receiver outwards: the receiver is a primary
  value, and every name behind it is a trailer of what has been read so far. So the lemmas on
  paths and calls say what is read if the words behind them are read in a certain way
  (`Path.reads`, `ReadsCall`).
-/

namespace PuppetDocs.Ruby.Decl

open ParseM

variable {after rest : List Word} {Q : Node → Prop} {gap : List Char} {n start : Nat} {hold : Bool}

/-! ## Literals -/

theorem takes_symbol (name : SymbolName) :
    TakesIn hold (Rule.run (n + 1) .primary) (⟨gap, .symbol, ':' :: name.chars⟩ :: rest) rest
      (Arg.symbol name).Shows := by
  show TakesIn hold (readPrimary (Rule.run n)) _ rest _
  apply takes_peek.bind
  intro t ht
  rw [ht.kind]
  refine (takes_leaf _).mono fun x hx => ?_
  rw [ht.text] at hx
  simpa [withoutFirst, Arg.Shows] using hx

theorem takes_number (text : List Char) :
    Takes (Rule.run (n + 1) .primary) (⟨gap, .number, text⟩ :: rest) rest
      fun x => x.kind = .number (String.ofList text) := by
  show Takes (readPrimary (Rule.run n)) _ rest _
  apply takes_peek.bind
  intro t ht
  rw [ht.kind]
  refine (takes_leaf _).mono fun x hx => ?_
  rw [ht.text] at hx
  exact hx

theorem takes_keyword {k : Keyword} {kind : NodeKind Node} (hk : ∀ self t, keywordPrimary self t k = leaf kind) :
    TakesIn hold (Rule.run (n + 1) .primary) (⟨gap, .keyword k, k.word.toList⟩ :: rest) rest
      fun x => x.kind = kind := by
  show TakesIn hold (readPrimary (Rule.run n)) _ rest _
  apply takes_peek.bind
  intro t ht
  rw [ht.kind]
  show TakesIn hold (keywordPrimary (Rule.run n) t k) _ rest _
  rw [hk]
  exact takes_leaf kind

/-- Only a string right behind a string is joined to it. -/
theorem joinStrings_closed {tokens : List (Token TokenKind)} (h : List.Forall₂ Word.Spells rest tokens)
    (hrest : headKind rest ∈ closers) (v : StrLit) (prevEnd : Nat) :
    joinStrings v prevEnd tokens = (v, tokens, prevEnd) := by
  cases h with
  | nil => rfl
  | @cons w t ws tokens ht _ =>
    have hkind : t.kind ∈ closers := ht.kind ▸ hrest
    unfold joinStrings
    split
    · rename_i heq
      rw [heq] at hkind
      simp [closers, itemClosers] at hkind
    · rfl

theorem takes_string {v : StrLit} {text : List Char} (hrest : headKind rest ∈ closers) :
    TakesIn hold (Rule.run (n + 1) .primary) (⟨gap, .string v, text⟩ :: rest) rest fun x => x.kind = .str v := by
  show TakesIn hold (readPrimary (Rule.run n)) _ rest _
  apply takes_peek.bind
  intro t ht
  rw [ht.kind]
  apply takes_bump.bind
  intro u _ env stop tokens prevEnd henv hstop hspells
  obtain ⟨x, tokens', prevEnd', heq, hafter, hx⟩ :=
    takes_mkNode (.str v) u.span.start env stop tokens prevEnd henv hstop hspells
  refine ⟨x, tokens', prevEnd', ?_, hafter, hx⟩
  rw [← heq]
  show (let joined := joinStrings v prevEnd tokens
    mkNode (.str joined.1) u.span.start env ⟨joined.2.1, stop, joined.2.2⟩) = _
  rw [joinStrings_closed hspells hrest]

theorem takes_array {items : List Arg} (h : ReadsList (itemPieces items) (ArgsShow items))
    (hn : 16 * (separated [] (itemPieces items)).length + 1 ≤ n) :
    Takes (Rule.run (n + 1) .primary) ((Arg.array items).words gap ++ rest) rest (Arg.array items).Shows := by
  show Takes (readPrimary (Rule.run n)) _ rest _
  rw [Arg.words, List.cons_append, List.append_assoc]
  apply takes_peek.bind
  intro t ht
  rw [ht.kind]
  apply takes_bump.bind
  intro u _
  have hargs : Takes (Rule.run n (.args .rbracket)) (separated [] (itemPieces items) ++ sign .rbracket "]" :: rest)
      (sign .rbracket "]" :: rest) (ArgsShow items) := takes_args h (by simp) hn
  apply hargs.nested.bind
  intro ns hns
  apply (takes_need rfl _).next
  intro _
  exact (takes_mkNode _ _).mono fun x hx => ⟨ns, hx, hns⟩

theorem takes_hash {braces : Bool} {entries : List Entry} (h : ReadsList (entryPieces entries) (EntriesShow entries))
    (hn : 16 * (separated [] (entryPieces entries)).length + 1 ≤ n) :
    Takes (Rule.run (n + 1) .primary) ((Arg.hash braces entries).words gap ++ rest) rest
      (Arg.hash braces entries).Shows := by
  show Takes (readPrimary (Rule.run n)) _ rest _
  rw [Arg.words, List.cons_append, List.append_assoc]
  apply takes_peek.bind
  intro t ht
  rw [ht.kind]
  apply takes_bump.bind
  intro u _
  have hargs : Takes (Rule.run n (.args .rbrace)) (separated [] (entryPieces entries) ++ sign .rbrace "\x7d" :: rest)
      (sign .rbrace "\x7d" :: rest) (EntriesShow entries) := takes_args h (by simp) hn
  apply hargs.nested.bind
  intro ns hns
  apply (takes_need rfl _).next
  intro _
  exact (takes_mkNode _ _).mono fun x hx => ⟨ns, hx, hns⟩

/-! ## Paths -/

/-- A constant in front of anything but an opening parenthesis. -/
theorem takes_const (c : ConstName) (hrest : headKind rest ≠ .lparen) :
    Takes (Rule.run (n + 1) .primary) (⟨gap, .constant, c.chars⟩ :: rest) rest (Path.name c).Shows := by
  show Takes (readPrimary (Rule.run n)) _ rest _
  apply takes_peek.bind
  intro t ht
  rw [ht.kind]
  apply takes_bump.bind
  intro u hu
  apply (takes_no_parenAt_zero hrest).known
  refine (takes_mkNode _ _).mono fun x hx => ?_
  rw [hu.text] at hx
  exact hx

/-- A constant behind `::` belongs to the path in front. -/
theorem takes_member (p : Path) (c : ConstName) (hrest : headKind rest ≠ .lparen) {x : Node} (hx : p.Shows x)
    (h : ∀ y, (p.member c).Shows y → Takes (Rule.run n (.trailers start y)) rest after Q) :
    Takes (Rule.run (n + 1) (.trailers start x)) (sign .colonColon "::" :: ⟨[], .constant, c.chars⟩ :: rest) after
      Q := by
  show Takes (readTrailers (Rule.run n) start x) _ after Q
  apply takes_peek.bind
  intro t ht
  rw [ht.kind]
  have hname : Takes (scopedName (Rule.run n) x start) (sign .colonColon "::" :: ⟨[], .constant, c.chars⟩ :: rest) rest
      (p.member c).Shows := by
    apply takes_bump.bind
    intro _ _
    apply (takes_at (decide_eq_true rfl)).known
    apply (takes_parenAt_one hrest).known
    apply takes_bump.bind
    intro u hu
    refine (takes_mkNode _ _).mono fun y hy => ⟨x, ?_, hx⟩
    rw [hu.text] at hy
    exact hy
  exact hname.bind fun y hy => h y hy

/-- What is read in front of `rest` once the path has been read is read behind its words. -/
theorem Path.reads (p : Path) {k : Nat} (hrest : headKind rest ≠ .lparen)
    (h : ∀ m start x, k ≤ m → p.Shows x → Takes (Rule.run m (.trailers start x)) rest after Q)
    (hn : 16 * (p.words gap).length + k ≤ n + 8) : Takes (Rule.run n .unary) (p.words gap ++ rest) after Q := by
  induction p generalizing rest k with
  | name c =>
    rw [Path.words, List.length_singleton] at hn
    obtain ⟨n, rfl⟩ := Nat.exists_eq_add_of_le' (show 2 ≤ n by omega)
    exact takes_unary rfl (takes_const c hrest) fun x start hx => h (n + 1) start x (by omega) hx
  | member p c ih =>
    rw [Path.words, List.length_append] at hn
    rw [Path.words, List.append_assoc]
    refine ih (k := k + 1) (by simp) (fun m start x hm hx => ?_) (by simp at hn; omega)
    obtain ⟨m, rfl⟩ := Nat.exists_eq_add_of_le' (show 1 ≤ m by omega)
    exact takes_member p c hrest hx fun y hy => h m start y (by omega) hy

/-! ## Calls -/

/-- The arguments of a call in parentheses; the pairs at their end are one hash. -/
theorem takes_parenArgs {ps : List Piece} {S : List Node → Prop} (h : ReadsList ps fun ns => S (groupPairs ns))
    (hn : 16 * (separated [] ps).length + 1 ≤ n) :
    TakesIn hold (parenArgs (Rule.run n)) (sign .lparen "(" :: (separated [] ps ++ sign .rparen ")" :: rest)) rest
      S := by
  apply (takes_need rfl _).next
  intro _
  have hargs : Takes (Rule.run n (.args .rparen)) (separated [] ps ++ sign .rparen ")" :: rest)
      (sign .rparen ")" :: rest) fun ns => S (groupPairs ns) := takes_args h (by simp) hn
  apply hargs.nested.bind
  intro ns hns
  apply (takes_need rfl _).next
  intro _
  exact takes_pure hns

/-- A call without receiver. -/
theorem takes_named (m : MethodName) {ps : List Piece} {S : List Node → Prop}
    (h : ReadsList ps fun ns => S (groupPairs ns)) (hn : 16 * (separated [] ps).length + 1 ≤ n) :
    Takes (Rule.run (n + 1) .primary)
      (⟨gap, .ident, m.chars⟩ :: sign .lparen "(" :: (separated [] ps ++ sign .rparen ")" :: rest)) rest
      fun x => ∃ ns, x.kind = .call ⟨none, String.ofList m.chars, ns, true, none⟩ ∧ S ns := by
  show Takes (readPrimary (Rule.run n)) _ rest _
  apply takes_peek.bind
  intro t ht
  rw [ht.kind]
  apply takes_bump.bind
  intro u hu
  apply (takes_parenAt_zero rfl rfl).known
  apply (takes_parenArgs h hn).bind
  intro ns hns
  refine (takes_mkNode _ _).mono fun x hx => ⟨ns, ?_, hns⟩
  rw [hu.text] at hx
  exact hx

/-- A call of a method of `x`, with arguments in parentheses. -/
theorem takes_member_call (m : MethodName) {ps : List Piece} {S : List Node → Prop}
    (hargs : ReadsList ps fun ns => S (groupPairs ns)) {k : Nat} (hn : 16 * (separated [] ps).length + k + 2 ≤ n)
    {x : Node} (h : ∀ i y ns, k ≤ i → y.kind = .call ⟨some x, String.ofList m.chars, ns, true, none⟩ → S ns →
      Takes (Rule.run i (.trailers start y)) rest after Q) :
    Takes (Rule.run n (.trailers start x)) (sign .dot "." :: ⟨[], .ident, m.chars⟩ :: sign .lparen "(" ::
      (separated [] ps ++ sign .rparen ")" :: rest)) after Q := by
  obtain ⟨n, rfl⟩ := Nat.exists_eq_add_of_le' (show 1 ≤ n by omega)
  show Takes (readTrailers (Rule.run n) start x) _ after Q
  apply takes_peek.bind
  intro t ht
  rw [ht.kind]
  apply takes_bump.bind
  intro _ _
  apply (takes_skipNewlines (by simp)).next
  intro _
  have hcall : Takes (methodCall (Rule.run n) x start) (⟨[], .ident, m.chars⟩ :: sign .lparen "(" ::
      (separated [] ps ++ sign .rparen ")" :: rest)) rest
        fun y => ∃ ns, y.kind = .call ⟨some x, String.ofList m.chars, ns, true, none⟩ ∧ S ns := by
    apply takes_peek.bind
    intro u hu
    have hparen : u.kind ≠ .lparen := by simp [hu.kind]
    have hmethod : methodName? u = some (String.ofList m.chars) := by
      rw [methodName?, hu.kind, hu.text]
    rw [if_neg hparen, hmethod]
    apply takes_bump.bind
    intro _ _
    have hcallArgs : Takes (callArgs (Rule.run n)) (sign .lparen "(" ::
        (separated [] ps ++ sign .rparen ")" :: rest)) rest fun r => S r.1 ∧ r.2 = true := by
      apply (takes_parenAt_zero rfl rfl).known
      exact (takes_parenArgs hargs (by omega)).bind fun ns hns => takes_pure ⟨hns, rfl⟩
    refine hcallArgs.bind ?_
    rintro ⟨ns, _⟩ ⟨hns, rfl⟩
    exact (takes_mkNode _ _).mono fun y hy => ⟨ns, hy, hns⟩
  refine hcall.bind fun y hy => ?_
  obtain ⟨ns, hkind, hns⟩ := hy
  exact h n y ns (by omega) hkind hns

theorem takes_dot {receiver : Receiver} (m : MethodName) {args : List Arg}
    (hargs : ReadsList (argPieces args) fun ns => ArgsShow args (groupPairs ns))
    {k : Nat} (hn : 16 * (separated [] (argPieces args)).length + k + 2 ≤ n) {x : Node} (hx : receiver.Shows (some x))
    (h : ∀ i start y, k ≤ i → (Call.mk receiver m args).Shows none y →
      Takes (Rule.run i (.trailers start y)) rest after Q) :
    Takes (Rule.run n (.trailers start x)) (sign .dot "." :: ⟨[], .ident, m.chars⟩ :: sign .lparen "(" ::
      (separated [] (argPieces args) ++ sign .rparen ")" :: rest)) after Q :=
  takes_member_call m hargs hn fun i y ns hi hkind hns => h i start y hi ⟨some x, ns, hkind, hx, hns⟩

/-- What is read in front of `rest` once the call has been read is read behind its words. -/
structure ReadsCall (c : Call) : Prop where
  starts : ∀ gap, StartsValue (c.words gap)
  reads : ∀ {gap rest after Q k n},
    (∀ m start x, k ≤ m → c.Shows none x → Takes (Rule.run m (.trailers start x)) rest after Q) →
    16 * (c.words gap).length + k ≤ n + 8 → Takes (Rule.run n .unary) (c.words gap ++ rest) after Q

theorem Path.starts (p : Path) (gap : List Char) : StartsValue (p.words gap) := by
  induction p with
  | name c => exact ⟨_, [], rfl, rfl, nofun⟩
  | member p c ih => exact ih.append (by simp)

/-- An operand that its trailers leave as it is, is read as a value. -/
theorem readsValue_of_unary {p : Piece} (hstarts : ∀ gap, StartsValue (p gap))
    (h : ∀ {gap rest n}, headKind rest ∈ closers →
      (∀ m start x, 1 ≤ m → Q x → Takes (Rule.run m (.trailers start x)) rest rest Q) →
      16 * (p gap).length ≤ n + 7 → Takes (Rule.run n .unary) (p gap ++ rest) rest Q) : ReadsValue p Q := by
  refine ⟨hstarts, fun {gap rest n} hrest hn => ?_⟩
  have hpos : 1 ≤ (p gap).length := by
    obtain ⟨w, ws, hw, -⟩ := hstarts gap
    rw [hw]
    exact Nat.succ_pos _
  obtain ⟨n, rfl⟩ := Nat.exists_eq_add_of_le' (show 5 ≤ n by omega)
  have hbefore : StartsValue (p gap ++ rest) := (hstarts gap).append (ne_of_mem_of_not_mem hrest.1 (by decide))
  refine takes_negation (takes_expr (h hrest.1 (fun m start x hm hx => ?_) (by omega)) (List.mem_cons_of_mem _ hrest.1))
    (hbefore.ne rfl)
  obtain ⟨m, rfl⟩ := Nat.exists_eq_add_of_le' hm
  exact (takes_closed_trailers hrest x).mono fun y hy => hy ▸ hx

theorem readsValue_of_primary {p : Piece} (hstarts : ∀ gap, StartsValue (p gap))
    (h : ∀ {gap rest n}, headKind rest ∈ closers → 16 * (p gap).length ≤ n + 8 →
      Takes (Rule.run n .primary) (p gap ++ rest) rest Q) : ReadsValue p Q := by
  refine readsValue_of_unary hstarts fun {gap rest n} hrest htrailers hn => ?_
  obtain ⟨w, ws, hw, hstart, -⟩ := hstarts gap
  have hpos : 1 ≤ (p gap).length := by
    rw [hw]
    exact Nat.succ_pos _
  obtain ⟨n, rfl⟩ := Nat.exists_eq_add_of_le' (show 2 ≤ n by omega)
  have hbefore : startsValue (headKind (p gap ++ rest)) = true := by
    rw [hw]
    exact hstart
  exact takes_unary hbefore (h hrest (by omega)) fun x start hx => htrailers (n + 1) start x (by omega) hx

/-- A token that is a value by itself. -/
theorem readsValue_of_token {kind : TokenKind} {text : List Char} (hkind : startsValue kind = true)
    (h : ∀ {gap rest n}, headKind rest ∈ closers →
      Takes (Rule.run (n + 1) .primary) (⟨gap, kind, text⟩ :: rest) rest Q) :
    ReadsValue (fun gap => [⟨gap, kind, text⟩]) Q := by
  refine readsValue_of_primary (fun gap => ⟨_, [], rfl, hkind, fun _ => nofun⟩) fun {gap rest n} hrest hn => ?_
  rw [List.length_singleton] at hn
  obtain ⟨n, rfl⟩ := Nat.exists_eq_add_of_le' (show 1 ≤ n by omega)
  exact h hrest

theorem ReadsCall.value {c : Call} (h : ReadsCall c) : ReadsValue c.words (c.Shows none) :=
  readsValue_of_unary h.starts fun _ htrailers hn => h.reads htrailers (by omega)

theorem Path.value (p : Path) : ReadsValue p.words p.Shows :=
  readsValue_of_unary p.starts fun hrest htrailers hn =>
    p.reads (ne_of_mem_of_not_mem hrest (by decide)) htrailers (by omega)

/-! ## Arguments -/

theorem not_entry_of_kind {x : Node} (hpair : ∀ k v, x.kind ≠ .pair k v) (hsplat : ∀ b v, x.kind ≠ .splat b v)
    (hpass : ∀ v, x.kind ≠ .blockPass v) : isEntry x = false ∧ isBlockPass x = false := by
  constructor
  · unfold isEntry
    split
    · rename_i heq
      exact absurd heq (hpair _ _)
    · rename_i heq
      exact absurd heq (hsplat _ _)
    · rfl
  · unfold Ruby.isBlockPass
    split
    · rename_i heq
      exact absurd heq (hpass _)
    · rfl

theorem Arg.Shows.not_entry {a : Arg} {x : Node} (h : a.Shows x) : isEntry x = false ∧ isBlockPass x = false := by
  have hkind : (∀ k v, x.kind ≠ .pair k v) ∧ (∀ b v, x.kind ≠ .splat b v) ∧ ∀ v, x.kind ≠ .blockPass v := by
    cases a with
    | symbol | str | int | nil | true_ | false_ =>
      rw [Arg.Shows] at h
      rw [h]
      exact ⟨nofun, nofun, nofun⟩
    | path p =>
      cases p with
      | name c =>
        rw [Arg.Shows, Path.Shows] at h
        rw [h]
        exact ⟨nofun, nofun, nofun⟩
      | member p c =>
        obtain ⟨_, h, -⟩ := h
        rw [h]
        exact ⟨nofun, nofun, nofun⟩
    | array | hash =>
      obtain ⟨_, h, -⟩ := h
      rw [h]
      exact ⟨nofun, nofun, nofun⟩
    | call c =>
      obtain ⟨receiver, m, args⟩ := c
      obtain ⟨_, _, h, -⟩ := h
      rw [h]
      exact ⟨nofun, nofun, nofun⟩
  exact not_entry_of_kind hkind.1 hkind.2.1 hkind.2.2

theorem EntriesShow.entries {entries : List Entry} {ns : List Node} (h : EntriesShow entries ns) :
    ∀ x ∈ ns, isEntry x = true ∧ isBlockPass x = false := by
  induction entries generalizing ns with
  | nil =>
    rw [EntriesShow] at h
    simp [h]
  | cons e entries ih =>
    obtain ⟨m, ms, rfl, he, hms⟩ := h
    obtain ⟨key, value⟩ := e
    obtain ⟨k, v, hkind, -⟩ := he
    intro x hx
    rcases List.mem_cons.mp hx with rfl | hx
    · simp [isEntry, Ruby.isBlockPass, hkind]
    · exact ih hms x hx

/-! ## Every argument and every call is read -/

theorem Call.words_append (r : Receiver) (m : MethodName) (args : List Arg) (gap : List Char) (rest : List Word) :
    (Call.mk r m args).words gap ++ rest = r.words gap ++ ⟨r.gapBehind gap, .ident, m.chars⟩ :: sign .lparen "(" ::
      (separated [] (argPieces args) ++ sign .rparen ")" :: rest) := by
  simp [Call.words]

theorem Call.length_words (r : Receiver) (m : MethodName) (args : List Arg) (gap : List Char) :
    ((Call.mk r m args).words gap).length = (r.words gap).length + ((separated [] (argPieces args)).length + 3) := by
  simp [Call.words]

mutual

theorem Arg.reads : ∀ a : Arg, ReadsValue a.words a.Shows
  | .symbol name => readsValue_of_token rfl fun _ => takes_symbol name
  | .str _ => readsValue_of_token rfl fun hrest => takes_string hrest
  | .int i => readsValue_of_token rfl fun _ => takes_number i.digits
  | .nil => readsValue_of_token rfl fun _ => takes_keyword fun _ _ => rfl
  | .true_ => readsValue_of_token rfl fun _ => takes_keyword fun _ _ => rfl
  | .false_ => readsValue_of_token rfl fun _ => takes_keyword fun _ _ => rfl
  | .path p => p.value
  | .array items => by
    refine readsValue_of_primary (fun gap => ⟨_, _, rfl, rfl, nofun⟩) fun {_ _ n} _ hn => ?_
    rw [Arg.words, List.length_cons, List.length_append] at hn
    obtain ⟨n, rfl⟩ := Nat.exists_eq_add_of_le' (show 1 ≤ n by omega)
    exact takes_array (items_read items) (by simp at hn; omega)
  | .hash _ entries => by
    refine readsValue_of_primary (fun gap => ⟨_, _, rfl, rfl, nofun⟩) fun {_ _ n} _ hn => ?_
    rw [Arg.words, List.length_cons, List.length_append] at hn
    obtain ⟨n, rfl⟩ := Nat.exists_eq_add_of_le' (show 1 ≤ n by omega)
    exact takes_hash (entries_read entries) (by simp at hn; omega)
  | .call c => c.reads.value

theorem items_read : ∀ items : List Arg, ReadsList (itemPieces items) (ArgsShow items)
  | [] => .nil rfl
  | a :: items => .cons a.reads.item fun x hx => (items_read items).mono fun ns hns => ⟨x, ns, rfl, hx, hns⟩

theorem Entry.reads : ∀ e : Entry, ReadsItem e.words e.Shows
  | .mk key value => reads_pair key.reads value.reads

theorem entries_read : ∀ entries : List Entry, ReadsList (entryPieces entries) (EntriesShow entries)
  | [] => .nil rfl
  | e :: entries => .cons e.reads fun x hx => (entries_read entries).mono fun ns hns => ⟨x, ns, rfl, hx, hns⟩

theorem args_read (args : List Arg) : ReadsList (argPieces args) fun ns => ArgsShow args (groupPairs ns) := by
  unfold argPieces
  split
  · exact .nil rfl
  · rename_i e entries
    refine (entries_read (e :: entries)).mono fun ns hns => ?_
    have hne : ns ≠ [] := by
      obtain ⟨m, ms, rfl, -⟩ := hns
      exact List.cons_ne_nil m ms
    obtain ⟨x, hx, hkind⟩ := groupPairs_entries hne (fun x hx => (hns.entries x hx).1) fun x hx => (hns.entries x hx).2
    exact ⟨x, [], hx, ⟨ns, hkind, hns⟩, rfl⟩
  · rename_i a args _
    refine .cons a.reads.item fun x hx => (args_read args).mono fun ns hns => ?_
    rw [groupPairs_cons hx.not_entry.1 hx.not_entry.2]
    exact ⟨x, _, rfl, hx, hns⟩

theorem Call.reads : ∀ c : Call, ReadsCall c
  | .mk receiver m args => receiver.reads m (args_read args)

theorem Receiver.reads : ∀ (r : Receiver) (m : MethodName) {args : List Arg},
    (ReadsList (argPieces args) fun ns => ArgsShow args (groupPairs ns)) → ReadsCall (.mk r m args)
  | .none, m, args, hargs => by
    refine ⟨fun gap => ⟨_, _, rfl, rfl, nofun⟩, fun {gap rest after Q k n} htrailers hn => ?_⟩
    rw [Call.length_words, Receiver.words, List.length_nil] at hn
    rw [Call.words_append]
    obtain ⟨n, rfl⟩ := Nat.exists_eq_add_of_le' (show 2 ≤ n by omega)
    refine takes_unary rfl (takes_named (S := ArgsShow args) m hargs (by omega)) fun x start hx => ?_
    obtain ⟨ns, hkind, hns⟩ := hx
    exact htrailers (n + 1) start x (by omega) ⟨none, ns, hkind, rfl, hns⟩
  | .path p, m, args, hargs => by
    refine ⟨fun gap => ?_, fun {gap rest after Q k n} htrailers hn => ?_⟩
    · rw [Call.words, Receiver.words, List.append_assoc]
      exact (p.starts gap).append (by simp)
    rw [Call.length_words, Receiver.words, List.length_append, List.length_singleton] at hn
    rw [Call.words_append, Receiver.words, List.append_assoc]
    refine p.reads (k := 16 * (separated [] (argPieces args)).length + k + 2) (by simp)
      (fun i start x hi hx => ?_) (by omega)
    have hreceiver : (Receiver.path p).Shows (some x) := ⟨x, rfl, hx⟩
    exact takes_dot m hargs hi hreceiver htrailers
  | .call c, m, args, hargs => by
    have hc := c.reads
    refine ⟨fun gap => ?_, fun {gap rest after Q k n} htrailers hn => ?_⟩
    · rw [Call.words, Receiver.words, List.append_assoc]
      exact (hc.starts gap).append (by simp)
    rw [Call.length_words, Receiver.words, List.length_append, List.length_singleton] at hn
    rw [Call.words_append, Receiver.words, List.append_assoc]
    refine hc.reads (k := 16 * (separated [] (argPieces args)).length + k + 2)
      (fun i start x hi hx => ?_) (by omega)
    have hreceiver : (Receiver.call c).Shows (some x) := ⟨x, rfl, hx⟩
    exact takes_dot m hargs hi hreceiver htrailers

end

end PuppetDocs.Ruby.Decl
