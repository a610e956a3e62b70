import PuppetDocs.Proofs.Command.Arguments
import PuppetDocs.Proofs.Command.Statement
import PuppetDocs.Proofs.Command.Tail
import PuppetDocs.Proofs.Moved.Behind

/-
  PuppetDocs.Proofs.Command.Agreement — calls with and without parentheses are the same calls.

  The blank or the parenthesis behind a name is one byte, so the arguments stand in the same
  places either way and are read as the same nodes (`Args.calls`). What stands behind the call
  is one byte further on if it has parentheses. A block that is read behind the name alone is
  read there too (`Body.reads`), and as the arguments hold `do` back, the call takes it.

  So both are read as the call of the name with the same arguments and the same block, but for
  the spans in the block (`parse_agree`).
-/

namespace PuppetDocs.Ruby.Command

open ParseM
open Decl (MethodName Word print placed sign separated EndsName)
open Text (byteLength)

variable {ℓ : Nat → Nat} {m : MethodName} {args : Args} {ws : List Word} {text tail rest : List Char}
  {found : Scanned TokenKind} {x : Node} {ns : List Node} {parens : Bool} {e : Nat} {b : Block Node}
  {body : Option (Block Node)}

/-! ## Calls with the same arguments -/

/-- The kinds of the tokens behind a call that is all of a text, or has a block. -/
def callEnds : List TokenKind := [.keyword .doKw, .eof]

/-- The call of the method without a block, from the start of the text to `e`. -/
def callTo (ℓ : Nat → Nat) (m : MethodName) (ns : List Node) (parens : Bool) (e : Nat) : Node :=
  node ℓ (.call ⟨none, String.ofList m.chars, ns, parens, none⟩) 0 e

/-- The same nodes are read as the arguments behind a blank and in parentheses. -/
theorem Args.calls (args : Args) (m : MethodName) : ∃ ns e e', args.Show ns ∧
    ReadsAs ℓ callEnds (placed 0 true (bare m args)) (callTo ℓ m ns false e) e ∧
    ReadsAs ℓ callEnds (placed 0 true (enclosed m args)) (callTo ℓ m ns true e') e' := by
  obtain ⟨ns, e, hns, hlisted⟩ := @Args.reads ℓ args (byteLength m.chars + 1)
  let name : Token TokenKind := ⟨.ident, String.ofList m.chars, ⟨0, byteLength m.chars⟩, true⟩
  have hbare : placed 0 true (bare m args) = name :: placed (byteLength m.chars + 1) true (separated [] args.pieces) := by
    rw [bare, placed, args.uniform.placed_blank]
    simp [name, Word.chars]
  have henclosed : ∃ l r : Token TokenKind, placed 0 true (enclosed m args) =
      name :: l :: (placed (byteLength m.chars + 1) false (separated [] args.pieces) ++ [r]) ∧
        l.kind = .lparen ∧ l.spaced = false ∧ r.kind = .rparen := by
    rw [enclosed, placed, placed, Decl.placed_append]
    simp only [Word.chars, List.nil_append, Nat.zero_add]
    exact ⟨_, _, rfl, rfl, rfl, rfl⟩
  obtain ⟨l, r, henclosed, hl, htight, hr⟩ := henclosed
  refine ⟨groupPairs ns, e, r.span.stop, hns, ?_, ?_⟩
  · rw [hbare]
    exact ((hlisted true).readsAs (t := name) rfl (args.uniform.spaced _)).mono (by decide)
  · have hinside : InBrackets ℓ (placed (byteLength m.chars + 1) false (separated [] args.pieces)) ns := (hlisted false).inBrackets
    rw [henclosed]
    exact hinside.call (t := name) rfl hl htight hr

/-! ## Lines -/

theorem newline_not_mem_name (m : MethodName) : '\n' ∉ m.chars := fun h => absurd (m.chars_all _ h) (by decide)

/-- Up to the end of the arguments, a blank in place of a parenthesis does not matter for lines. -/
theorem line_enclosed (m : MethodName) (args : Args) (tail : List Char) {k : Nat}
    (h : k ≤ byteLength (m.chars ++ '(' :: args.text)) :
    (LineIndex.ofText (print (enclosed m args) ++ tail)).line k = (LineIndex.ofText (print (bare m args) ++ tail)).line k := by
  have hsame : LineIndex.ofText (m.chars ++ '(' :: args.text) = LineIndex.ofText (m.chars ++ ' ' :: args.text) := by
    have hsize : '('.utf8Size = ' '.utf8Size := by decide
    simp only [LineIndex.ofText, LineIndex.startsFrom_append, LineIndex.startsFrom, hsize]
    rfl
  have hbare : k ≤ byteLength (m.chars ++ ' ' :: args.text) := by
    simp only [Text.byteLength_append, Text.byteLength_cons] at h ⊢
    exact h
  have hprint : print (enclosed m args) ++ tail = (m.chars ++ '(' :: args.text) ++ (')' :: tail) := by
    rw [print_enclosed]
    simp
  rw [hprint, print_bare, LineIndex.line_front _ _ h, LineIndex.line_front _ _ hbare, hsame]

theorem count_print (m : MethodName) (args : Args) :
    (print (bare m args)).count '\n' = args.text.count '\n' ∧ (print (enclosed m args)).count '\n' = args.text.count '\n' := by
  have hname : m.chars.count '\n' = 0 := List.count_eq_zero.mpr (newline_not_mem_name m)
  rw [print_bare, print_enclosed]
  simp [hname]

/-! ## One call -/

/-- The text is read as one call of the method, on its first line. -/
def ReadsCall (text : List Char) (m : MethodName) (ns : List Node) (parens : Bool) (body : Option (Block Node)) : Prop :=
  ∃ tree comments n, Ruby.parse text = .ok (tree, comments) ∧ tree.kind = .statements [n] ∧
    n.kind = .call ⟨none, String.ofList m.chars, ns, parens, body⟩ ∧ n.line = 1

/-- What stands behind a call: nothing, or `do` and what it takes to be read as a block behind the name alone. -/
inductive Body (m : MethodName) : List Char → Option (Block Node) → Prop
  | none : Body m [] none
  | block {rest : List Char} {b : Block Node} : EndsName rest →
    ReadsCall (m.chars ++ (" do".toList ++ rest)) m [] false (some b) → Body m (" do".toList ++ rest) (some b)

/-- The surroundings in which a text is read. -/
abbrev fileEnv (text : List Char) : ParseEnv := { text, lines := .ofText text }

/-- The tokens of `found` behind a text, in front of which a token has ended at `e`. -/
abbrev streamBehind (upper : List Char) (found : Scanned TokenKind) (e : Nat) : Stream TokenKind :=
  ⟨found.tokens.map (·.shift (byteLength upper)), found.stop.shift (byteLength upper), e⟩

/-- The block is read behind the text `upper`, and nothing is left. -/
def ReadsBlock (upper text : List Char) (found : Scanned TokenKind) (b : Block Node) : Prop :=
  ∀ e, ∃ s', Yields (fun n => block (Rule.run n)) (fileEnv (upper ++ text)) (streamBehind upper found e) b s' ∧ Spent s'

theorem Spent.move {s : Stream TokenKind} (h : Spent s) (place : Nat → Nat) : Spent (s.move place) := by
  unfold Spent at h ⊢
  rw [Stream.move_skipWhile, Stream.move_peek, Token.move_kind, h]

/-- The word of the name. -/
def nameWord (m : MethodName) : Word := ⟨[], .ident, m.chars⟩

theorem print_nameWord (m : MethodName) : print [nameWord m] = m.chars := by simp [nameWord, print, Word.chars]

theorem scan_name (hends : EndsName rest) {found₀ : Scanned TokenKind}
    (h : scan (m.chars ++ (" do".toList ++ rest)) = .ok found₀) :
    ∃ found, scan (" do".toList ++ rest) = .ok found ∧ found₀ = foundBehind [nameWord m] found := by
  have hstrung : ∀ {more vs}, print vs ++ more = " do".toList ++ rest → Ends (print vs ++ more) → Strung more vs →
      Strung more ([nameWord m] ++ vs) := fun htail hvs => alone_strung m hvs (htail ▸ goesOn_cons (by decide) _)
  have hbehind := scan_behind (.block hends) hstrung
  rw [print_nameWord, h] at hbehind
  cases hscan : scan (" do".toList ++ rest) with
  | error e =>
    rw [hscan] at hbehind
    cases hbehind
  | ok found =>
    rw [hscan] at hbehind
    exact ⟨found, rfl, Except.ok.inj hbehind⟩

/-- A block that is read behind the name alone is read behind any text. -/
theorem ReadsCall.block (hends : EndsName rest) (h : ReadsCall (m.chars ++ (" do".toList ++ rest)) m [] false (some b)) :
    ∃ found opener ts, scan (" do".toList ++ rest) = .ok found ∧ found.tokens = opener :: ts ∧
      opener.kind = .keyword .doKw ∧ ∀ upper, ReadsBlock upper (" do".toList ++ rest) found
        (relocateBlock (·.move (placeBehind m.chars upper)) (upper.count '\n' + ·) b) := by
  obtain ⟨tree, comments, n, hparse, htree, hn, -⟩ := h
  obtain ⟨found₀, s', hscan₀, -, hprogram⟩ := parse_yields.mp hparse
  obtain ⟨found, hscan, rfl⟩ := scan_name hends hscan₀
  obtain ⟨opener, ts, htokens, hopener⟩ := tail_tokens hends hscan
  refine ⟨found, opener, ts, hscan, htokens, hopener, fun upper e => ?_⟩
  let name : Token TokenKind := ⟨.ident, String.ofList m.chars, ⟨0, byteLength m.chars⟩, true⟩
  have hfound : (foundBehind [nameWord m] found).tokens =
        name :: opener.shift (byteLength m.chars) :: ts.map (·.shift (byteLength m.chars)) ∧
      (foundBehind [nameWord m] found).stop = found.stop.shift (byteLength m.chars) := by
    simp [foundBehind, nameWord, print, placed, Word.chars, htokens, name]
  have hshifted : (opener.shift (byteLength m.chars)).kind = .keyword .doKw := hopener
  have hstop : (found.stop.shift (byteLength m.chars)).kind = .eof := by
    rw [(scan_cut hscan).2]
    rfl
  rw [hfound.1, hfound.2] at hprogram
  obtain ⟨s₁, ⟨k, hk⟩, hspent⟩ := block_of_yields (t := name) rfl hshifted rfl hstop hprogram htree hn
  have hne : " do".toList ++ rest ≠ [] := by simp
  have hrest : found.tokens.map (·.shift (byteLength m.chars)) =
      opener.shift (byteLength m.chars) :: ts.map (·.shift (byteLength m.chars)) := by
    rw [htokens, List.map_cons]
  refine ⟨s₁.move (placeBehind m.chars upper), ⟨k, fun n hn => ?_⟩, hspent.move _⟩
  exact @block_behind _ _ _ hscan hne (newline_not_mem_name m) upper n name.span.stop e opener ts b s₁ htokens
    (hrest ▸ hk n hn)

/-- With nothing left behind it, what is read of a call and its body is all that the text is read as. -/
theorem readsCall_of {s' : Stream TokenKind} {y : Node} (hscan : scan (print ws ++ tail) = .ok (foundBehind ws found))
    (hx : ReadsAs ℓ callEnds (placed 0 true ws) x e) (hlines : OnLines ℓ (fileEnv (print ws ++ tail)) (placed 0 true ws))
    (hnext : (streamBehind (print ws) found e).peek.kind ∈ callEnds)
    (htrailers : RuleYields (.trailers x.span.start x) (fileEnv (print ws ++ tail)) (streamBehind (print ws) found e) y s')
    (hspent : Spent s') (hy : y.kind = .call ⟨none, String.ofList m.chars, ns, parens, body⟩) (hline : y.line = 1) :
    ReadsCall (print ws ++ tail) m ns parens body := by
  let s : Stream TokenKind := ⟨placed 0 true ws ++ (streamBehind (print ws) found e).rest, (streamBehind (print ws) found e).stop, 0⟩
  have hunary : RuleYields .unary (fileEnv (print ws ++ tail)) s y s' := hx.reads hlines (.inl hnext) htrailers
  have hstart : s.peek.kind ∉ [.newline, .semicolon, .eof, .keyword .notKw] := by
    simp only [List.mem_cons, List.not_mem_nil, or_false, not_or]
    exact ⟨hx.begins.ne rfl, hx.begins.ne rfl, hx.begins.ne rfl, hx.begins.ne rfl⟩
  obtain ⟨tree, s₁, htree, hprogram⟩ := program_yields hunary hspent hstart
  exact ⟨tree, _, y, parse_yields.mpr ⟨_, s₁, hscan, rfl, hprogram⟩, htree, hy, hline⟩

/-- What is read as a call without a block is read as the call with the body behind it. -/
theorem ReadsAs.withBody (hbody : Body m tail body)
    (hws : ∀ {more vs}, print vs ++ more = tail → Ends (print vs ++ more) → Strung more vs → Strung more (ws ++ vs))
    (hx : ReadsAs ℓ callEnds (placed 0 true ws) (callTo ℓ m ns parens e) e) (hline : ℓ 0 = 1)
    (hlines : OnLines ℓ (fileEnv (print ws ++ tail)) (placed 0 true ws)) :
    ∃ block, ReadsCall (print ws ++ tail) m ns parens block ∧
      block.map (unspannedBlock 0) = body.map (unspannedBlock ((print ws).count '\n')) := by
  cases hbody with
  | none =>
    have hscan := scan_behind .none hws
    have hempty : scan [] = .ok { tokens := [], stop := ⟨.eof, "", ⟨0, 0⟩, true⟩, comments := [] } := rfl
    rw [hempty] at hscan
    have hspent : Spent (streamBehind (print ws) { tokens := [], stop := ⟨.eof, "", ⟨0, 0⟩, true⟩, comments := [] } e) := rfl
    exact ⟨none, readsCall_of hscan hx hlines (by simp [Stream.peek, Token.shift, callEnds]) hspent.trailers hspent rfl hline, rfl⟩
  | @block rest b hends hread =>
    obtain ⟨found, opener, ts, hfound, htokens, hopener, hblocks⟩ := hread.block hends
    obtain ⟨s', hblock, hspent⟩ := hblocks (print ws) e
    have hscan := scan_behind (.block hends) hws
    rw [hfound] at hscan
    have hdo : (streamBehind (print ws) found e).peek.kind = .keyword .doKw := by
      simp only [Stream.peek, htokens, List.map_cons, List.headD_cons]
      exact hopener
    have htakes : takesDo (callTo ℓ m ns parens e) = true := rfl
    have htrailers := @yields_block _ _ s' (callTo ℓ m ns parens e) 0 _ hdo rfl htakes hblock hspent
    refine ⟨some _, readsCall_of hscan hx hlines (by rw [hdo]; decide) htrailers hspent rfl hline, ?_⟩
    have hlower : (0 + ·) ∘ ((print ws).count '\n' + ·) = ((print ws).count '\n' + ·) := funext fun l => Nat.zero_add _
    rw [Option.map_some, Option.map_some, unspannedBlock, relocateBlock_relocateBlock, hlower]
    rfl

/-- Without parentheses and with them, a call is read with the same arguments and, but for its spans, the same block: the
one that is read behind the name alone, as many lines further down as the arguments take. No block is in the arguments. -/
theorem parse_agree (args : Args) (h : Body m tail body) : ∃ ns block block',
    ReadsCall (print (bare m args) ++ tail) m ns false block ∧
    ReadsCall (print (enclosed m args) ++ tail) m ns true block' ∧
    args.Show ns ∧ (∀ x ∈ ns, Blockless x) ∧
    block.map (unspannedBlock 0) = block'.map (unspannedBlock 0) ∧
    block.map (unspannedBlock 0) = body.map (unspannedBlock (args.text.count '\n')) := by
  -- the lines on which the arguments stand, in either text
  let ℓ := (LineIndex.ofText (print (bare m args) ++ tail)).line
  obtain ⟨ns, e, e', hns, hbare, henclosed⟩ := @Args.calls ℓ args m
  obtain ⟨hcount, hcount'⟩ := count_print m args
  have hline : ℓ 0 = 1 := LineIndex.line_zero _
  have hsolid : ∀ w ∈ enclosed m args, w.text ≠ [] := by
    have hstrung : Strung [] (enclosed m args ++ []) := enclosed_strung m args .nil
    rw [List.append_nil] at hstrung
    exact hstrung.solid
  have hlines : OnLines ℓ (fileEnv (print (enclosed m args) ++ tail)) (placed 0 true (enclosed m args)) := by
    intro t ht
    have hlt := placed_start_lt hsolid ht
    refine line_enclosed m args tail ?_
    have hlength : byteLength (print (enclosed m args)) = byteLength (m.chars ++ '(' :: args.text) + 1 := by
      have hparen : ')'.utf8Size = 1 := by decide
      rw [print_enclosed]
      simp [hparen, Nat.add_assoc]
    omega
  obtain ⟨block, hreads, hblock⟩ := hbare.withBody h (fun _ => bare_strung m args) hline fun t _ => rfl
  obtain ⟨block', hreads', hblock'⟩ := henclosed.withBody h (fun _ _ => enclosed_strung m args) hline hlines
  rw [hcount] at hblock
  rw [hcount'] at hblock'
  exact ⟨ns, block, block', hreads, hreads', hns, hns.blockless, hblock.trans hblock'.symm, hblock⟩

theorem do_block_shape :
    (match Ruby.parse "f do |x|\n  x\nend\n".toList with
      | .ok (⟨.statements [⟨.call ⟨none, method, [], false, some _⟩, _, line⟩], _, _⟩, _) => method == "f" && line == 1
      | _ => false) = true := by decide +kernel

theorem reads_do_block : ∃ body, ReadsCall "f do |x|\n  x\nend\n".toList
    ⟨['f'], ⟨'f', [], [], rfl, rfl, List.forall_mem_nil _, .inl rfl⟩, rfl⟩ [] false (some body) := by
  have hshape := do_block_shape
  split at hshape
  next hparse =>
    simp only [Bool.and_eq_true, beq_iff_eq] at hshape
    obtain ⟨rfl, rfl⟩ := hshape
    exact ⟨_, _, _, _, hparse, rfl, rfl, rfl⟩
  next => cases hshape

/-- The last argument is a call without parentheses too, and the block is not its. -/
theorem parse_agree_nested :
    let f : MethodName := ⟨['f'], ⟨'f', [], [], rfl, rfl, List.forall_mem_nil _, .inl rfl⟩, rfl⟩
    let g : MethodName := ⟨['g'], ⟨'g', [], [], rfl, rfl, List.forall_mem_nil _, .inl rfl⟩, rfl⟩
    let b : Decl.SymbolName := ⟨['b'], 'b', [], [], rfl, rfl, List.forall_mem_nil _, .inl rfl⟩
    let args : Args := .cons (.str ['a']) (.command g (.last (.symbol b)))
    print (bare f args) = "f 'a', g :b".toList ∧ print (enclosed f args) = "f('a', g :b)".toList ∧
    ∃ body, Body f " do |x|\n  x\nend\n".toList (some body) ∧ ∃ ns block block',
      ReadsCall (print (bare f args) ++ " do |x|\n  x\nend\n".toList) f ns false block ∧
      ReadsCall (print (enclosed f args) ++ " do |x|\n  x\nend\n".toList) f ns true block' ∧
      args.Show ns ∧ (∀ x ∈ ns, Blockless x) ∧ block.map (unspannedBlock 0) = block'.map (unspannedBlock 0) ∧
      block.map (unspannedBlock 0) = (some body).map (unspannedBlock (args.text.count '\n')) := by
  intro f g b args
  obtain ⟨body, hread⟩ := reads_do_block
  have hbody : Body f (" do".toList ++ " |x|\n  x\nend\n".toList) (some body) :=
    .block (Decl.endsName_cons (by decide) (by decide) _) hread
  exact ⟨by decide, by decide, body, hbody, parse_agree args hbody⟩

end PuppetDocs.Ruby.Command
