import PuppetDocs.Proofs.Construct.Syntax
import PuppetDocs.Proofs.Decl.Commands
import PuppetDocs.Proofs.Decl.RoundTrip

/-
  PuppetDocs.Proofs.Construct.Reads — constructs that are read with every block in its place.

  Where a `do` binds, a list of calls with blocks is read call by call (`doLines_read`). What a
  construct is read as depends on the surroundings only through the reading of its body
  (`Opening.takes`): an empty body is read alike everywhere, and any body where a `do` binds.
-/

namespace PuppetDocs.Ruby.Decl

open ParseM

variable {rest : List Word} {n start : Nat} {gap : List Char} {hold : Bool}

/-! ## Calls with blocks -/

theorem DoCall.starts (c : DoCall) (indent : List Char) : StartsValue (c.words indent) := by
  obtain ⟨name, body⟩ := c
  exact ⟨_, _, rfl, rfl, by simp⟩

theorem DoCall.length_words (name : MethodName) (body : List DoCall) (indent : List Char) :
    ((DoCall.mk name body).words indent).length = (doLines (indent ++ [' ', ' ']) body).length + 5 := by
  simp [DoCall.words]

theorem DoCall.words_append (name : MethodName) (body : List DoCall) (indent : List Char) (rest : List Word) :
    (DoCall.mk name body).words indent ++ rest = nameWord indent name :: doWord :: newline ::
      (doLines (indent ++ [' ', ' ']) body ++ endWord indent :: newline :: rest) := by
  simp [DoCall.words]

theorem opensLine_doLines (calls : List DoCall) {indent : List Char} (h : opensLine (headKind rest) = true) :
    opensLine (headKind (doLines indent calls ++ rest)) = true := by
  cases calls with
  | nil => exact h
  | cons c calls =>
    obtain ⟨w, ws, heq, hw, -⟩ := c.starts indent
    rw [doLines, heq]
    simp [opensLine, hw]

mutual

theorem DoCall.reads : ∀ (c : DoCall) {indent : List Char} {rest : List Word} {n : Nat},
    opensLine (headKind rest) = true → 16 * (c.words indent).length + 3 ≤ n →
      Takes (Rule.run n .statement) (c.words indent ++ rest) (newline :: rest) c.Shows
  | .mk name body, indent, rest, n, hrest, hn => by
    rw [DoCall.length_words] at hn
    rw [DoCall.words_append]
    obtain ⟨n, rfl⟩ := Nat.exists_eq_add_of_le' (show 10 ≤ n by omega)
    have hitems : Takes (Rule.run n (.items bodyStops))
        (newline :: (doLines (indent ++ [' ', ' ']) body ++ endWord indent :: newline :: rest))
        (endWord indent :: newline :: rest) (DoCallsShow body) :=
      doLines_read body (by decide) (by simp [bodyStops]) rfl
        (dropWhile_newline_terminators (opensLine_doLines body rfl)) (by omega)
    have hunary : Takes (Rule.run (n + 4) .unary) (nameWord indent name :: doWord :: newline ::
        (doLines (indent ++ [' ', ' ']) body ++ endWord indent :: newline :: rest)) (newline :: rest)
        (DoCall.mk name body).Shows := by
      refine takes_unary rfl (takes_name name (by simp [loneClosers])) fun x start hx => ?_
      have hdo : takesDo x = true := by simp [takesDo, hx]
      refine (takes_block hdo hitems (closed_newline hrest)).mono fun y hy => ?_
      obtain ⟨b, ns, hkind, hparams, hbody, hns⟩ := hy
      refine ⟨b, ns, ?_, hparams, hbody, hns⟩
      rw [hkind]
      simp [withBlock, hx]
    exact takes_statement (takes_expr hunary (by simp [closers])) (by simp [headKind]) (by simp)

theorem doLines_read : ∀ (calls : List DoCall) {indent : List Char} {ws rest : List Word} {stops : List TokenKind}
    {n : Nat}, (∀ k ∈ stops, startsValue k = false) → headKind rest ∈ TokenKind.eof :: stops →
    opensLine (headKind rest) = true →
    ws.dropWhile (fun w => isTerminator w.kind) = doLines indent calls ++ rest →
    16 * (doLines indent calls).length + 4 ≤ n → Takes (Rule.run n (.items stops)) ws rest (DoCallsShow calls)
  | [], indent, ws, rest, stops, n, _, hstop, _, hws, hn => by
    obtain ⟨n, rfl⟩ := Nat.exists_eq_add_of_le' (show 1 ≤ n by omega)
    exact takes_no_items hws hstop rfl
  | c :: calls, indent, ws, rest, stops, n, hstops, hstop, hrest, hws, hn => by
    have hpos : 5 ≤ (c.words indent).length := by
      obtain ⟨name, body⟩ := c
      rw [DoCall.length_words]
      exact Nat.le_add_left ..
    rw [doLines, List.length_append] at hn
    rw [doLines, List.append_assoc] at hws
    obtain ⟨n, rfl⟩ := Nat.exists_eq_add_of_le' (show 1 ≤ n by omega)
    have hnext : opensLine (headKind (doLines indent calls ++ rest)) = true := opensLine_doLines calls hrest
    refine takes_line hws (c.starts indent) hstops (opensLine_ne hnext rfl) (c.reads hnext (by omega)) fun x hx => ?_
    refine (doLines_read calls hstops hstop hrest (dropWhile_newline_terminators hnext) (by omega)).mono
      fun ns hns => ?_
    exact ⟨x, ns, rfl, hx, hns⟩

end

/-! ## Names in front of a line feed -/

theorem takes_nameExpr (m : MethodName) (hrest : Closed (newline :: rest)) :
    TakesIn hold (Rule.run (n + 5) .expr) (nameWord gap m :: newline :: rest) (newline :: rest) (NameShows m) := by
  have hunary : TakesIn hold (Rule.run (n + 2) .unary) (nameWord gap m :: newline :: rest) (newline :: rest)
      (NameShows m) :=
    takes_unary rfl (takes_name m (by simp [loneClosers])) fun x _ hx =>
      (takes_closed_trailers hrest x).mono fun y hy => hy ▸ hx
  exact takes_expr hunary (by simp [closers])

theorem takes_nameSentence (m : MethodName) (hrest : Closed (newline :: rest)) :
    TakesIn hold (Rule.run (n + 7) .sentence) (nameWord gap m :: newline :: rest) (newline :: rest) (NameShows m) :=
  takes_sentence (takes_nameExpr m hrest) (by simp [headKind]) (by simp)

theorem takes_nameArg (m : MethodName) (hrest : Closed (newline :: rest)) :
    TakesIn hold (Rule.run (n + 7) .arg) (nameWord gap m :: newline :: rest) (newline :: rest) (NameShows m) := by
  refine takes_arg ⟨_, _, rfl, rfl, by simp⟩ fun start => ?_
  apply (takes_negation (takes_nameExpr m hrest) (by simp [headKind])).bind
  intro x hx
  apply (takes_not_eat (by simp)).known
  exact takes_pure hx

/-! ## Constructs -/

/-- Where the lists of statements of a construct stop. -/
def constructStops : List (List TokenKind) :=
  [bodyStops, branchStops, [.keyword .whenKw, .keyword .inKw, .keyword .elseKw, .keyword .endKw]]

theorem constructStops_apart : ∀ stops ∈ constructStops, TokenKind.keyword .endKw ∈ stops ∧
    (∀ k ∈ stops, startsValue k = false) ∧ TokenKind.keyword .doKw ∉ stops := by
  decide

/-- Wherever a construct asks for its statements at this body, they are read up to these words. -/
def BodyTaken (hold : Bool) (bound : Nat) (body after : List Word) (S : List Node → Prop) : Prop :=
  ∀ m stops ws, bound ≤ m → stops ∈ constructStops → ws.dropWhile (fun w => isTerminator w.kind) = body →
    TakesIn hold (Rule.run m (.items stops)) ws after S

variable {bound : Nat} {body : List Word} {indent : List Char} {S : List Node → Prop}

theorem takes_no_else : TakesIn hold (elseClause (Rule.run n)) (endWord indent :: rest) (endWord indent :: rest)
    fun ns => ns = [] := by
  apply (takes_not_eat (by simp)).known
  exact takes_pure rfl

theorem takes_begin (hbody : BodyTaken hold bound body (endWord indent :: rest) S)
    (hopens : opensLine (headKind body) = true) (hn : bound ≤ n) :
    TakesIn hold (Rule.run (n + 3) .primary) (⟨gap, .keyword .beginKw, "begin".toList⟩ :: newline :: body) rest
      fun x => ∃ y, x.kind = .control "begin" [y] ∧ ∃ items, y.kind = .statements items ∧ S items := by
  show TakesIn hold (readPrimary (Rule.run (n + 2))) _ rest _
  apply takes_peek.bind
  intro t ht
  rw [ht.kind]
  apply takes_bump.bind
  intro u _
  have hitems := hbody n bodyStops _ hn (by simp [constructStops]) (dropWhile_newline_terminators hopens)
  apply (takes_body rfl hitems).bind
  intro y hy
  apply (takes_needEnd rfl).next
  intro _
  exact (takes_mkNode _ _).mono fun x hx => ⟨y, hx, hy⟩

theorem takes_conditional (k : Keyword) (hk : ∀ self t, keywordPrimary self t k = conditional self)
    (condition : MethodName) (hbody : BodyTaken hold bound body (endWord indent :: rest) S)
    (hopens : opensLine (headKind body) = true) (hn : bound ≤ n) :
    TakesIn hold (Rule.run (n + 8) .primary)
      (⟨gap, .keyword k, k.word.toList⟩ :: nameWord [' '] condition :: newline :: body) rest
      fun x => ∃ c y, x.kind = .control k.word [c, y] ∧ NameShows condition c ∧
        ∃ items, y.kind = .statements items ∧ S items := by
  show TakesIn hold (readPrimary (Rule.run (n + 7))) _ rest _
  apply takes_peek.bind
  intro t ht
  rw [ht.kind]
  show TakesIn hold (keywordPrimary (Rule.run (n + 7)) t k) _ rest _
  rw [hk]
  apply takes_bump.bind
  intro u hu
  apply (takes_nameSentence condition (closed_newline hopens)).bind
  intro c hc
  apply (takes_not_eat (by simp)).known
  apply (takes_skipTerminators (dropWhile_newline_terminators hopens)).next
  intro _
  apply (takes_not_eat (opensLine_ne hopens rfl)).known
  have hitems := hbody (n + 6) branchStops body (by omega) (by simp [constructStops]) (dropWhile_terminators hopens)
  apply (takes_statements hitems).bind
  intro y hy
  have helsifs : TakesIn hold (Rule.run (n + 7) .elsifs) (endWord indent :: rest) (endWord indent :: rest)
      fun ns => ns = [] := by
    show TakesIn hold (readElsifs (Rule.run (n + 6))) _ _ _
    apply (takes_not_eat (by simp)).known
    exact takes_pure rfl
  apply helsifs.known
  apply takes_no_else.known
  apply (takes_needEnd rfl).next
  intro _
  refine (takes_mkNode _ _).mono fun x hx => ⟨c, y, ?_, hc, hy⟩
  rw [hx, hu.text]
  simp

/-- The only `when` of a `case`, with one value. -/
theorem takes_when (value : MethodName) (hbody : BodyTaken hold bound body (endWord indent :: rest) S)
    (hopens : opensLine (headKind body) = true) (hn : bound ≤ n) :
    TakesIn hold (Rule.run (n + 8) .whens)
      (⟨[], .keyword .whenKw, "when".toList⟩ :: nameWord [' '] value :: newline :: body) (endWord indent :: rest)
      fun ns => ∃ v y, ns = [v, y] ∧ NameShows value v ∧ ∃ items, y.kind = .statements items ∧ S items := by
  show TakesIn hold (readWhens (Rule.run (n + 7))) _ _ _
  apply (takes_atAny rfl).known
  apply takes_bump.bind
  intro _ _
  apply (takes_nameArg value (closed_newline hopens)).bind
  intro v hv
  have hone : TakesIn hold (Rule.run (n + 7) .moreArgs) (newline :: body) (newline :: body) fun ns => ns = [] := by
    show TakesIn hold (readMoreArgs (Rule.run (n + 6))) _ _ _
    apply (takes_not_eat (by simp)).known
    exact takes_pure rfl
  apply hone.known
  apply (takes_not_eat (by simp)).known
  have hitems := hbody (n + 6) [.keyword .whenKw, .keyword .inKw, .keyword .elseKw, .keyword .endKw] _ (by omega)
    (by simp [constructStops]) (dropWhile_newline_terminators hopens)
  apply (takes_statements hitems).bind
  intro y hy
  have hnone : TakesIn hold (Rule.run (n + 7) .whens) (endWord indent :: rest) (endWord indent :: rest)
      fun ns => ns = [] := by
    show TakesIn hold (readWhens (Rule.run (n + 6))) _ _ _
    apply (takes_atAny rfl).known
    exact takes_pure rfl
  apply hnone.known
  exact takes_pure ⟨v, y, rfl, hv, hy⟩

theorem takes_case (subject value : MethodName) (hbody : BodyTaken hold bound body (endWord indent :: rest) S)
    (hopens : opensLine (headKind body) = true) (hn : bound ≤ n) :
    TakesIn hold (Rule.run (n + 9) .primary) ((Opening.case_ subject value).words gap ++ newline :: body) rest
      fun x => ∃ s v y, x.kind = .control "case" [s, v, y] ∧ NameShows subject s ∧ NameShows value v ∧
        ∃ items, y.kind = .statements items ∧ S items := by
  show TakesIn hold (readPrimary (Rule.run (n + 8))) _ rest _
  apply takes_peek.bind
  intro t ht
  rw [ht.kind]
  apply takes_bump.bind
  intro u _
  have hline : Closed (newline :: ⟨[], .keyword .whenKw, "when".toList⟩ :: nameWord [' '] value :: newline :: body) :=
    ⟨by simp [closers], by simp [List.dropWhile, isNewline]⟩
  have hsubject : TakesIn hold (do return [← Rule.run (n + 8) .sentence])
      (nameWord [' '] subject :: newline :: ⟨[], .keyword .whenKw, "when".toList⟩ :: nameWord [' '] value :: newline ::
        body) (newline :: ⟨[], .keyword .whenKw, "when".toList⟩ :: nameWord [' '] value :: newline :: body)
      fun ns => ∃ s, ns = [s] ∧ NameShows subject s :=
    (takes_nameSentence subject hline).bind fun s hs => takes_pure ⟨s, rfl, hs⟩
  apply (takes_atAny rfl).known
  refine hsubject.bind ?_
  rintro _ ⟨s, rfl, hs⟩
  apply (takes_skipTerminators rfl).next
  intro _
  apply (takes_when value hbody hopens hn).bind
  rintro _ ⟨v, y, rfl, hv, hy⟩
  apply takes_no_else.known
  apply (takes_needEnd rfl).next
  intro _
  exact (takes_mkNode _ _).mono fun x hx => ⟨s, v, y, hx, hs, hv, hy⟩

/-- A construct is read if its body is. -/
theorem Opening.takes (o : Opening) (hbody : BodyTaken hold bound body (endWord indent :: rest) S)
    (hopens : opensLine (headKind body) = true) (hn : bound + 9 ≤ n) :
    TakesIn hold (Rule.run n .primary) (o.words gap ++ newline :: body) rest
      fun x => ∃ names y items, x.kind = .control o.keyword (names ++ [y]) ∧ List.Forall₂ NameShows o.names names ∧
        y.kind = .statements items ∧ S items := by
  obtain ⟨n, rfl⟩ := Nat.exists_eq_add_of_le' (show 9 ≤ n by omega)
  cases o with
  | begin_ =>
    refine (takes_begin hbody hopens (show bound ≤ n + 6 by omega)).mono fun x hx => ?_
    obtain ⟨y, hkind, items, hy, hitems⟩ := hx
    exact ⟨[], y, items, hkind, .nil, hy, hitems⟩
  | if_ condition =>
    refine (takes_conditional .ifKw (fun _ _ => rfl) condition hbody hopens (show bound ≤ n + 1 by omega)).mono
      fun x hx => ?_
    obtain ⟨c, y, hkind, hc, items, hy, hitems⟩ := hx
    exact ⟨[c], y, items, hkind, .cons hc .nil, hy, hitems⟩
  | unless_ condition =>
    refine (takes_conditional .unlessKw (fun _ _ => rfl) condition hbody hopens (show bound ≤ n + 1 by omega)).mono
      fun x hx => ?_
    obtain ⟨c, y, hkind, hc, items, hy, hitems⟩ := hx
    exact ⟨[c], y, items, hkind, .cons hc .nil, hy, hitems⟩
  | case_ subject value =>
    refine (takes_case subject value hbody hopens (show bound ≤ n by omega)).mono fun x hx => ?_
    obtain ⟨s, v, y, hkind, hs, hv, items, hy, hitems⟩ := hx
    exact ⟨[s, v], y, items, hkind, .cons hs (.cons hv .nil), hy, hitems⟩

theorem Construct.words_append (k : Construct) (gap : List Char) (rest : List Word) : k.words gap ++ rest =
    k.opening.words gap ++ newline :: (doLines [' ', ' '] k.body ++ endWord [] :: rest) := by
  simp [Construct.words]

theorem Construct.starts (k : Construct) (gap : List Char) : StartsValue (k.words gap) := by
  obtain ⟨opening, body⟩ := k
  cases opening <;> exact ⟨_, _, rfl, rfl, by simp⟩

theorem Construct.length_words (k : Construct) (gap : List Char) :
    (doLines [' ', ' '] k.body).length + 3 ≤ (k.words gap).length := by
  obtain ⟨opening, body⟩ := k
  cases opening <;> simp [Construct.words, Opening.words]

theorem Construct.takes (k : Construct)
    (hbody : BodyTaken hold bound (doLines [' ', ' '] k.body ++ endWord [] :: rest) (endWord [] :: rest)
      (DoCallsShow k.body)) (hn : bound + 9 ≤ n) :
    TakesIn hold (Rule.run n .primary) (k.words gap ++ rest) rest k.Shows := by
  rw [k.words_append]
  exact k.opening.takes hbody (opensLine_doLines k.body rfl) hn

/-- Where a `do` binds, every body is read. -/
theorem bodyTaken_bound (calls : List DoCall) (rest : List Word) :
    BodyTaken false (16 * (doLines indent calls).length + 4) (doLines indent calls ++ endWord [] :: rest)
      (endWord [] :: rest) (DoCallsShow calls) := by
  intro m stops ws hm hstops hws
  obtain ⟨hend, hvalues, -⟩ := constructStops_apart stops hstops
  exact doLines_read calls hvalues (List.mem_cons_of_mem _ hend) rfl hws hm

/-- An empty body is read everywhere. -/
theorem bodyTaken_nil (hold : Bool) (rest : List Word) :
    BodyTaken hold 1 (endWord indent :: rest) (endWord indent :: rest) (DoCallsShow []) := by
  intro m stops ws hm hstops hws
  obtain ⟨m, rfl⟩ := Nat.exists_eq_add_of_le' hm
  exact takes_no_items hws (List.mem_cons_of_mem _ (constructStops_apart stops hstops).1) rfl

theorem Construct.value (k : Construct) : ReadsValue k.words k.Shows := by
  refine readsValue_of_primary k.starts fun {gap rest n} _ hn => ?_
  have hlength := k.length_words gap
  exact k.takes (bodyTaken_bound k.body rest) (by omega)

/-! ## Programs of one statement -/

theorem closed_end : Closed [newline] := closed_newline rfl

theorem takes_only {ws : List Word} {Q : Node → Prop} (hws : headKind ws = .ident)
    (h : Takes (Rule.run (n + 1) .statement) ws [newline] Q) :
    Takes (Rule.run (n + 2) (.items [])) ws [] fun ns => ∃ x, ns = [x] ∧ Q x :=
  takes_single (dropWhile_terminators (by rw [hws]; rfl)) (by simp [hws]) h rfl (by decide)

/-- The arguments are one pair, whose value satisfies `Q`. -/
def PairShows (key : SymbolName) (Q : Node → Prop) (args : List Node) : Prop :=
  ∃ h p s v, args = [h] ∧ h.kind = .hash [p] ∧ p.kind = .pair s v ∧ s.kind = .symbol (String.ofList key.chars) ∧ Q v

def PairCallShows (f : MethodName) (key : SymbolName) (parens : Bool) (Q : Node → Prop) (n : Node) : Prop :=
  ∃ args, n.kind = .call ⟨none, String.ofList f.chars, args, parens, none⟩ ∧ PairShows key Q args

theorem pairShows_group {key : SymbolName} {Q : Node → Prop} {p s v : Node} (hp : p.kind = .pair s v)
    (hs : (Arg.symbol key).Shows s) (hv : Q v) : PairShows key Q (groupPairs [p]) := by
  obtain ⟨h, hgroup, hhash⟩ := groupPairs_entries (show [p] ≠ [] by simp) (by simp [isEntry, hp])
    (by simp [Ruby.isBlockPass, hp])
  exact ⟨h, p, s, v, hgroup, hhash, hp, hs, hv⟩

theorem reads_key (key : SymbolName) :
    ReadsValue (fun gap => [⟨gap, .symbol, ':' :: key.chars⟩]) (Arg.symbol key).Shows :=
  readsValue_of_token rfl fun _ => takes_symbol key

theorem Construct.reads_assign (target : MethodName) (k : Construct) :
    Takes (Rule.run (16 * (assignWords target k).length + 15) (.items [])) (assignWords target k) []
      fun ns => ∃ x, ns = [x] ∧ ∃ t v, x.kind = .assign t v ∧ NameShows target t ∧ k.Shows v := by
  have hlength : (assignWords target k).length = (k.words [' ']).length + 3 := by simp [assignWords]
  have hbody := k.length_words [' ']
  rw [hlength]
  obtain ⟨n, hn⟩ := Nat.exists_eq_add_of_le' (show 20 ≤ 16 * ((k.words [' ']).length + 3) + 15 by omega)
  rw [hn]
  have hprimary : Takes (Rule.run (n + 11) .primary) (k.words [' '] ++ [newline]) [newline] k.Shows :=
    k.takes (bodyTaken_bound k.body [newline]) (by omega)
  have hstarts : StartsValue (k.words [' '] ++ [newline]) := (k.starts [' ']).append (by simp)
  have hstart : startsValue (headKind (k.words [' '] ++ [newline])) = true := by
    obtain ⟨w, ws, hw, hkind, -⟩ := hstarts
    rw [hw]
    exact hkind
  have hvalue : Takes (Rule.run (n + 15) .expr) (k.words [' '] ++ [newline]) [newline] k.Shows := by
    refine takes_expr (takes_unary hstart hprimary fun x start hx => ?_) (by decide)
    exact (takes_closed_trailers closed_end x).mono fun y hy => hy ▸ hx
  have htarget : Takes (Rule.run (n + 13) .unary) (assignWords target k) (assignSign :: (k.words [' '] ++ [newline]))
      (NameShows target) :=
    takes_unary rfl (takes_name target (by simp [loneClosers])) fun x _ hx =>
      (takes_assign_trailers rfl x).mono fun y hy => hy ▸ hx
  have hassign := takes_assign rfl htarget (fun x hx => by simp [isAssignable, show x.kind = _ from hx]) hvalue
    (hstarts.ne rfl) (by decide)
  have hhead : headKind (assignWords target k) = .ident := rfl
  exact takes_only hhead (takes_statement hassign (by simp [hhead]) (by decide))

theorem Construct.reads_parens (f : MethodName) (key : SymbolName) (k : Construct) :
    Takes (Rule.run (16 * (parenWords f key k).length + 15) (.items [])) (parenWords f key k) []
      fun ns => ∃ x, ns = [x] ∧ PairCallShows f key true k.Shows x := by
  have hlength : (parenWords f key k).length = (pairWords key k []).length + 4 := by simp [parenWords]
  rw [hlength]
  obtain ⟨n, hn⟩ := Nat.exists_eq_add_of_le' (show 20 ≤ 16 * ((pairWords key k []).length + 4) + 15 by omega)
  rw [hn]
  have hargs : ReadsList [pairWords key k] fun ns => PairShows key k.Shows (groupPairs ns) := by
    refine .cons (reads_pair (reads_key key) k.value) fun p hp => .nil ?_
    obtain ⟨s, v, hp, hs, hv⟩ := hp
    exact pairShows_group hp hs hv
  have hunary : Takes (Rule.run (n + 13) .unary) (parenWords f key k) [newline] (PairCallShows f key true k.Shows) := by
    have hbound : 16 * (separated [] [pairWords key k]).length + 1 ≤ n + 11 := by
      rw [separated]
      omega
    exact takes_unary rfl (takes_named (S := PairShows key k.Shows) f hargs hbound) fun x start hx =>
      (takes_closed_trailers closed_end x).mono fun y hy => hy ▸ hx
  have hhead : headKind (parenWords f key k) = .ident := rfl
  exact takes_only hhead (takes_statement (takes_expr hunary (by decide)) (by simp [hhead]) (by decide))

/-- A call with one pair and no parentheses, whose value is read where a `do` is held back. -/
theorem takes_pairCommand (f : MethodName) (key : SymbolName) {before after : List Word} {Q : Node → Prop}
    (hbefore : StartsValue before) (hprimary : TakesIn true (Rule.run (n + 1) .primary) before (newline :: after) Q)
    (hafter : Closed (newline :: after)) :
    Takes (Rule.run (n + 15) .statement)
      (nameWord [] f :: ⟨[' '], .symbol, ':' :: key.chars⟩ :: ⟨[' '], .fatArrow, "=>".toList⟩ :: before)
      (newline :: after) (PairCallShows f key false Q) := by
  have hstart : startsValue (headKind before) = true := by
    obtain ⟨w, ws, rfl, hw, -⟩ := hbefore
    exact hw
  have hkey : TakesIn true (Rule.run (n + 6) .negation)
      (⟨[' '], .symbol, ':' :: key.chars⟩ :: ⟨[' '], .fatArrow, "=>".toList⟩ :: before)
      (⟨[' '], .fatArrow, "=>".toList⟩ :: before) (Arg.symbol key).Shows := by
    have hclosed : Closed (⟨[' '], .fatArrow, "=>".toList⟩ :: before) := closed_of_kind (List.mem_cons_self ..)
    have hunary : TakesIn true (Rule.run (n + 2) .unary)
        (⟨[' '], .symbol, ':' :: key.chars⟩ :: ⟨[' '], .fatArrow, "=>".toList⟩ :: before)
        (⟨[' '], .fatArrow, "=>".toList⟩ :: before) (Arg.symbol key).Shows :=
      takes_unary rfl (takes_symbol key) fun x _ hx => (takes_closed_trailers hclosed x).mono fun y hy => hy ▸ hx
    exact takes_negation (takes_expr hunary (by simp [closers])) (by simp)
  have hvalue : TakesIn true (Rule.run (n + 6) .negation) before (newline :: after) Q := by
    have hunary : TakesIn true (Rule.run (n + 2) .unary) before (newline :: after) Q :=
      takes_unary hstart hprimary fun x _ hx => (takes_closed_trailers hafter x).mono fun y hy => hy ▸ hx
    exact takes_negation (takes_expr hunary (by simp [closers])) (hbefore.ne rfl)
  have harg : TakesIn true (Rule.run (n + 7) .arg)
      (⟨[' '], .symbol, ':' :: key.chars⟩ :: ⟨[' '], .fatArrow, "=>".toList⟩ :: before) (newline :: after)
      fun p => ∃ s v, p.kind = .pair s v ∧ (Arg.symbol key).Shows s ∧ Q v := by
    refine takes_arg ⟨_, _, rfl, rfl, by simp⟩ fun start => ?_
    apply hkey.bind
    intro s hs
    apply (takes_eat rfl).known
    apply (takes_skipNewlines (hbefore.ne rfl)).next
    intro _
    apply hvalue.bind
    intro v hv
    exact (takes_mkNode _ start).mono fun p hp => ⟨s, v, hp, hs, hv⟩
  have hunary : Takes (Rule.run (n + 9) .unary)
      (nameWord [] f :: ⟨[' '], .symbol, ':' :: key.chars⟩ :: ⟨[' '], .fatArrow, "=>".toList⟩ :: before)
      (newline :: after) (PairCallShows f key false Q) := by
    refine takes_unary rfl (takes_command f (by simp) (.inl rfl) harg (by simp)) fun x start hx => ?_
    obtain ⟨p, hcall, s, v, hp, hs, hv⟩ := hx
    exact (takes_closed_trailers hafter x).mono fun y hy => hy ▸ ⟨_, hcall, pairShows_group hp hs hv⟩
  exact takes_statement (takes_expr hunary (by simp [closers])) (by simp) (by simp)

/-- A construct whose body is empty is read as the value of a pair without parentheses. -/
theorem Construct.reads_command (f : MethodName) (key : SymbolName) {k : Construct} (hk : k.body = []) :
    Takes (Rule.run (16 * (commandWords f key k).length + 15) (.items [])) (commandWords f key k) []
      fun ns => ∃ x, ns = [x] ∧ PairCallShows f key false k.Shows x := by
  have hwords : commandWords f key k = nameWord [] f :: ⟨[' '], .symbol, ':' :: key.chars⟩ ::
      ⟨[' '], .fatArrow, "=>".toList⟩ :: (k.words [' '] ++ [newline]) := rfl
  obtain ⟨n, hn⟩ := Nat.exists_eq_add_of_le' (show 40 ≤ 16 * (commandWords f key k).length + 15 by
    rw [hwords]
    simp only [List.length_cons]
    omega)
  rw [hn, hwords]
  have hbody : BodyTaken true 1 (doLines [' ', ' '] k.body ++ [endWord [], newline]) [endWord [], newline]
      (DoCallsShow k.body) := by
    rw [hk]
    exact bodyTaken_nil true [newline]
  have hprimary : TakesIn true (Rule.run (n + 25) .primary) (k.words [' '] ++ [newline]) [newline] k.Shows :=
    k.takes hbody (by omega)
  exact takes_only rfl (takes_pairCommand f key ((k.starts [' ']).append (by simp)) hprimary closed_end)

end PuppetDocs.Ruby.Decl
