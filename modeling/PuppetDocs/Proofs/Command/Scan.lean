import PuppetDocs.Proofs.Command.Syntax
import PuppetDocs.Proofs.Formula.Scan

/-
  PuppetDocs.Proofs.Command.Scan — the tokens of a call, whatever its arguments are.

  What stands in front of an argument does not matter for the tokens that it is scanned as, and
  of what stands behind it only that the argument ends there; a name must not end its line as
  well, as it could be the data marker. No argument opens a heredoc. So the words of a call are
  `Strung`, with or without parentheses, and the scanner goes through them (`Strung.walk`).
-/

namespace PuppetDocs.Ruby.Command

open Decl (Piece Word sign separated print Chain placed opened EndsWord EndsName Delimited)
open Text (byteLength isNameChar)

variable {more gap : List Char} {ws : List Word}

/-! ## Strung words -/

/-- Words that the scanner finds one after the other in front of `more`, whatever is in front of them; none of them is the
marker of a heredoc. -/
inductive Strung (more : List Char) : List Word → Prop
  | nil : Strung more []
  | cons {w : Word} {ws : List Word} : (∀ last, w.Follows last (print ws ++ more)) → w.text.head? ≠ some '<' →
      Strung more ws → Strung more (w :: ws)

theorem Strung.chain (h : Strung more ws) (last : Option TokenKind) : Chain more last ws := by
  induction h generalizing last with
  | nil => exact .nil
  | cons hw _ _ ih => exact .cons (hw last) (ih _)

theorem heredocOf?_text {t : Token TokenKind} (h : t.text.toList.head? ≠ some '<') : heredocOf? t = none := by
  unfold heredocOf?
  split
  · split
    · rename_i heq
      rw [heq] at h
      exact absurd rfl h
    · rfl
  · rfl

theorem Strung.opened (h : Strung more ws) (offset : Nat) (spaced : Bool) : opened (placed offset spaced ws) = [] := by
  induction h generalizing offset spaced with
  | nil => rfl
  | @cons w ws _ hw _ ih =>
    have hrest := ih (offset + byteLength w.chars) false
    have htext : heredocOf? {
        kind := w.kind
        text := String.ofList w.text
        span := ⟨offset + byteLength w.gap, offset + byteLength w.chars⟩
        spaced := spaced || !w.gap.isEmpty } = none := heredocOf?_text (by simpa using hw)
    unfold Decl.opened at hrest ⊢
    rw [placed, List.filterMap_cons, hrest, htext]
    rfl

/-- The scanner behind the words of a text. -/
def behind (ws : List Word) : Scanner where
  reading := {
    behind := (print ws).reverse
    offset := byteLength (print ws)
    tokens := (placed 0 true ws).reverse }

theorem Strung.walk (h : Strung more ws) (lines : LineIndex) :
    Ruby.walk lines (print ws ++ more) 0 {} = Ruby.walk lines more 0 (behind ws) := by
  have hwalk := (h.chain none).walk lines {} rfl
  have hspaced : ({} : Reading TokenKind).afterSpace = true := rfl
  simp only [hspaced, List.append_nil, Nat.zero_add, h.opened] at hwalk
  exact hwalk

/-! ## Single words -/

/-- Something follows on the same line. -/
def GoesOn (more : List Char) : Prop := ∃ c r, more = c :: r ∧ c ≠ '\n' ∧ c ≠ '\r'

theorem goesOn_cons {c : Char} (hc : c ≠ '\n' ∧ c ≠ '\r') (r : List Char) : GoesOn (c :: r) := ⟨c, r, rfl, hc⟩

theorem strung_sign {kind : TokenKind} {text : List Char} (hgap : ∀ c ∈ gap, c = ' ')
    (hhead : Decl.StartsWord gap text)
    (hsolid : ∃ front c, text = front ++ [c] ∧ c ∉ [' ', '\t', '\n', '\r', '\\'])
    (hkind : kind ∉ [.newline, .constant, .symbol, .slash]) (hstring : ∀ v, kind ≠ .string v)
    (hopen : text.head? ≠ some '<')
    (hl : lexeme? (text ++ (print ws ++ more)) = some (.plain kind, text.length)) (h : Strung more ws) :
    Strung more (⟨gap, kind, text⟩ :: ws) :=
  .cons (Decl.follows_sign hgap hhead hsolid hkind hstring hl) hopen h

theorem strung_comma (h : Strung more ws) : Strung more (sign .comma "," :: ws) :=
  strung_sign (by simp) (Decl.startsWord_cons (by decide) _ _) ⟨[], ',', rfl, by decide⟩ (by decide) (by simp) (by decide)
    rfl h

theorem strung_open {kind : TokenKind} {c : Char} (hkind : (kind, c) ∈ [(.lparen, '('), (.lbracket, '[')])
    (hgap : ∀ c ∈ gap, c = ' ') (h : Strung more ws) : Strung more (⟨gap, kind, [c]⟩ :: ws) := by
  simp only [List.mem_cons, Prod.mk.injEq, List.not_mem_nil, or_false] at hkind
  rcases hkind with ⟨rfl, rfl⟩ | ⟨rfl, rfl⟩ <;>
    exact strung_sign hgap (Decl.startsWord_cons (by decide) _ _) ⟨[], _, rfl, by decide⟩ (by decide) (by simp) (by decide)
      rfl h

theorem strung_close {kind : TokenKind} {c : Char} (hkind : (kind, c) ∈ [(.rparen, ')'), (.rbracket, ']')])
    (h : Strung more ws) : Strung more (⟨[], kind, [c]⟩ :: ws) := by
  simp only [List.mem_cons, Prod.mk.injEq, List.not_mem_nil, or_false] at hkind
  rcases hkind with ⟨rfl, rfl⟩ | ⟨rfl, rfl⟩ <;>
    exact strung_sign (by simp) (Decl.startsWord_cons (by decide) _ _) ⟨[], _, rfl, by decide⟩ (by decide) (by simp)
      (by decide) rfl h

theorem strung_name (hgap : ∀ c ∈ gap, c = ' ') (m : Decl.MethodName) (hends : EndsWord (print ws ++ more))
    (hline : gap = [] → GoesOn (print ws ++ more)) (h : Strung more ws) :
    Strung more (⟨gap, .ident, m.chars⟩ :: ws) := by
  refine .cons (Decl.follows_method hgap m hends fun hnil => ?_) ?_ h
  · obtain ⟨c, r, hmore, hc⟩ := hline hnil
    rw [hmore] at hends ⊢
    obtain ⟨d, x, heq, hname, hquestion, hbang, -⟩ := hends.resolve_left (List.cons_ne_nil c r)
    cases heq
    exact Decl.name_not_data m (by simp [hname, hquestion, hbang]) hc r
  · intro hhead
    have hmem : '<' ∈ m.chars := List.mem_of_head? hhead
    exact absurd (m.chars_all _ hmem) (by decide)

theorem strung_keyword (hgap : ∀ c ∈ gap, c = ' ') {k : Keyword} (hk : k ∈ [.nilKw, .trueKw, .falseKw, .doKw])
    (hends : EndsWord (print ws ++ more)) (h : Strung more ws) :
    Strung more (⟨gap, .keyword k, k.word.toList⟩ :: ws) := by
  have hwritten : ∀ k ∈ [Keyword.nilKw, .trueKw, .falseKw, .doKw],
      k ∈ Decl.writtenKeywords ∧ k.word.toList.head? ≠ some '<' := by decide
  exact .cons (Decl.follows_keyword hgap (hwritten k hk).1 hends) (hwritten k hk).2 h

theorem strung_symbol (hgap : ∀ c ∈ gap, c = ' ') (name : Decl.SymbolName) (hends : Ends (print ws ++ more))
    (h : Strung more ws) : Strung more (⟨gap, .symbol, ':' :: name.chars⟩ :: ws) := by
  have hl : lexeme? ((':' :: name.chars) ++ (print ws ++ more)) = some (.plain .symbol, (':' :: name.chars).length) :=
    hends.lexeme (List.cons_ne_nil _ _) fun hmore => Decl.lexeme?_symbol name hmore.endsName
  have hset : isSetter (':' :: name.chars) (print ws ++ more) = false := by
    rcases hends with hnil | ⟨c, x, hcons, hc⟩
    · simp [hnil, isSetter]
    · have hassign : c ≠ '=' := ne_of_mem_of_not_mem hc (by decide)
      simp [hcons, isSetter, hassign]
  have hreads : Word.Reads ⟨gap, .symbol, ':' :: name.chars⟩ (print ws ++ more) := by
    intro lines s r n _
    refine ⟨.plain .symbol, (':' :: name.chars).length, hl, ?_⟩
    simp only [accept, List.take_left, List.drop_left, hset, Bool.false_eq_true, if_false]
  have hsolid : ∃ front c, ':' :: name.chars = front ++ [c] ∧ c ∉ [' ', '\t', '\n', '\r', '\\'] := by
    refine Decl.solid_of_apart (List.cons_ne_nil _ _) (List.forall_mem_cons.mpr ⟨by decide, fun c hc => ?_⟩)
    exact Decl.not_mem_of_holds (p := fun c => isNameChar c || c == '?' || c == '!') (name.chars_all c hc) (by decide)
  exact .cons ((Decl.stands_of_head hgap (Decl.startsWord_cons (by decide) _ _) hreads).follows (by simp) (by simp) hsolid)
    (by simp) h

theorem strung_numeral (hgap : ∀ c ∈ gap, c = ' ') (n : Decl.Numeral) (hends : Ends (print ws ++ more))
    (h : Strung more ws) : Strung more (⟨gap, .number, n.digits⟩ :: ws) := by
  obtain ⟨hne, hdigits⟩ := n.isNumeral
  obtain ⟨c, cs, hcs⟩ := List.exists_cons_of_ne_nil hne
  have hc : c.isDigit = true := hdigits c (by simp [hcs])
  have hhead : Decl.StartsWord gap n.digits := by
    rw [hcs]
    exact Decl.startsWord_cons (Decl.not_mem_of_holds hc (by decide)) gap cs
  have hsolid : ∃ front c, n.digits = front ++ [c] ∧ c ∉ [' ', '\t', '\n', '\r', '\\'] :=
    Decl.solid_of_apart hne fun d hd => Decl.not_mem_of_holds (hdigits d hd) (by decide)
  refine strung_sign hgap hhead hsolid (by decide) (by simp) ?_ (hends.lexeme hne fun hmore => Decl.lexeme?_numeral n hmore) h
  rw [hcs, List.head?_cons]
  rintro ⟨⟩
  cases hc

theorem strung_string (hgap : ∀ c ∈ gap, c = ' ') (content : List Char) (h : Strung more ws) :
    Strung more (⟨gap, .string (Decl.plainString content), '\'' :: (Decl.escape content ++ ['\''])⟩ :: ws) := by
  have hreads := Decl.reads_string gap content (print ws ++ more)
  have hstands := Decl.stands_of_head hgap (Decl.startsWord_cons (by decide) _ _) hreads
  refine .cons (fun last => ?_) (by simp) h
  refine ⟨hstands.gap, hstands.head, ⟨'\'' :: Decl.escape content, '\'', rfl, by decide⟩, hstands.notDocument,
    hstands.notData, fun lines s r n _ _ => ?_⟩
  obtain ⟨l, width, hl, haccept⟩ := hreads lines s r n nofun
  refine ⟨l, width, hl, ?_⟩
  rw [haccept, found, List.take_left, push_eq_add (heredocOf?_text (by simp [Reading.token]))]

theorem strung_arrow (h : Strung more ws) : Strung more (⟨[' '], .fatArrow, "=>".toList⟩ :: ws) :=
  strung_sign (by simp) ⟨'=', ['>'], rfl, by decide, by simp⟩ ⟨['='], '>', rfl, by decide⟩ (by decide) (by simp)
    (by decide) rfl h

/-! ## Arguments -/

/-- The piece is strung behind any blanks, where an argument may end. -/
def IsStrung (more : List Char) (p : Piece) : Prop :=
  ∀ ⦃gap ws⦄, (∀ c ∈ gap, c = ' ') → Ends (print ws ++ more) → (gap = [] → GoesOn (print ws ++ more)) →
    Strung more ws → Strung more (p gap ++ ws)

theorem strung_separated {ps : List Piece} (hps : ∀ p ∈ ps, IsStrung more p) :
    IsStrung more fun gap => separated gap ps := by
  induction ps with
  | nil => exact fun _ _ _ _ _ h => h
  | cons p ps ih =>
    intro gap ws hgap hends hline h
    obtain ⟨hp, hrest⟩ := List.forall_mem_cons.mp hps
    cases ps with
    | nil => exact hp hgap hends hline h
    | cons q ps =>
      show Strung more ((p gap ++ sign .comma "," :: separated [' '] (q :: ps)) ++ ws)
      rw [List.append_assoc]
      exact hp hgap (.inr ⟨',', _, rfl, by simp⟩) (fun _ => goesOn_cons (by decide) _)
        (strung_comma (ih hrest (by simp) hends (by simp) h))

/-- Arguments between a parenthesis or bracket and its partner. -/
theorem strung_inside {ps : List Piece} (hps : ∀ p ∈ ps, IsStrung more p) {kind : TokenKind} {c : Char}
    (hkind : (kind, c) ∈ [(.rparen, ')'), (.rbracket, ']')]) (h : Strung more ws) :
    Strung more (separated [] ps ++ ⟨[], kind, [c]⟩ :: ws) := by
  have hclose : c = ')' ∨ c = ']' := by
    simp only [List.mem_cons, Prod.mk.injEq, List.not_mem_nil, or_false] at hkind
    exact hkind.imp And.right And.right
  have hends : Ends (print (⟨[], kind, [c]⟩ :: ws) ++ more) :=
    .inr ⟨c, print ws ++ more, rfl, by rcases hclose with rfl | rfl <;> simp⟩
  have hline : GoesOn (print (⟨[], kind, [c]⟩ :: ws) ++ more) :=
    ⟨c, print ws ++ more, rfl, by rcases hclose with rfl | rfl <;> decide⟩
  exact strung_separated hps (by simp) hends (fun _ => hline) (strung_close hkind h)

theorem strung_path (p : Decl.Path) (hgap : ∀ c ∈ gap, c = ' ') (hends : EndsWord (print ws ++ more))
    (h : Strung more ws) : Strung more (p.words gap ++ ws) := by
  have hconst : ∀ {gap} {c : Decl.ConstName} {ws}, (∀ c ∈ gap, c = ' ') → EndsWord (print ws ++ more) →
      Strung more ws → Strung more (⟨gap, .constant, c.chars⟩ :: ws) := by
    intro gap c ws hgap hends h
    refine .cons (Decl.follows_const hgap c hends) ?_ h
    obtain ⟨d, body, hchars, hd, -⟩ := c.isName
    rw [hchars, List.head?_cons]
    rintro ⟨⟩
    cases hd
  induction p generalizing ws with
  | name c => exact hconst hgap hends h
  | member p c ih =>
    rw [Decl.Path.words, List.append_assoc]
    refine ih (.inr (Decl.endsName_colons _)) ?_
    exact strung_sign (by simp) (Decl.startsWord_cons (by decide) _ _) ⟨[':'], ':', rfl, by decide⟩ (by decide) (by simp)
      (by decide) rfl (hconst (by simp) hends h)

/-- A name, and arguments in parentheses. -/
theorem strung_call (hgap : ∀ c ∈ gap, c = ' ') (m : Decl.MethodName) {ps : List Piece} (hps : ∀ p ∈ ps, IsStrung more p)
    (h : Strung more ws) :
    Strung more (⟨gap, .ident, m.chars⟩ :: sign .lparen "(" :: (separated [] ps ++ sign .rparen ")" :: ws)) := by
  refine strung_name hgap m (.inr (Decl.endsName_cons (by decide) (by decide) _)) (fun _ => goesOn_cons (by decide) _) ?_
  exact strung_open (.head _) (by simp) (strung_inside hps (.head _) h)

/-- A name, and arguments behind a blank. -/
theorem strung_command (hgap : ∀ c ∈ gap, c = ' ') (m : Decl.MethodName) {args : Args}
    (hargs : ∀ p ∈ args.pieces, IsStrung more p) (hends : Ends (print ws ++ more)) (h : Strung more ws) :
    Strung more (⟨gap, .ident, m.chars⟩ :: (separated [' '] args.pieces ++ ws)) := by
  have hblank : print (separated [' '] args.pieces ++ ws) ++ more = ' ' :: (args.text ++ (print ws ++ more)) := by
    have happend : print (separated [' '] args.pieces ++ ws) = print (separated [' '] args.pieces) ++ print ws :=
      List.flatMap_append
    rw [happend, args.print_blank, List.cons_append, List.cons_append, List.append_assoc]
  refine strung_name hgap m ?_ (fun _ => ?_) (strung_separated hargs (by simp) hends (by simp) h)
  · rw [hblank]
    exact (ends_blank _).word
  · rw [hblank]
    exact goesOn_cons (by decide) _

mutual

theorem Arg.strung : ∀ a : Arg, IsStrung more a.words
  | .symbol name => fun _ _ hgap hends _ h => strung_symbol hgap name hends h
  | .str content => fun _ _ hgap _ _ h => strung_string hgap content h
  | .int n => fun _ _ hgap hends _ h => strung_numeral hgap n hends h
  | .nil => fun _ _ hgap hends _ h => strung_keyword hgap (k := .nilKw) (by simp) hends.word h
  | .true_ => fun _ _ hgap hends _ h => strung_keyword hgap (k := .trueKw) (by simp) hends.word h
  | .false_ => fun _ _ hgap hends _ h => strung_keyword hgap (k := .falseKw) (by simp) hends.word h
  | .array items => fun gap ws hgap _ _ h => by
    rw [Arg.words, List.cons_append, List.append_assoc]
    exact strung_open (.tail _ (.head _)) hgap (strung_inside (items_strung items) (.tail _ (.head _)) h)
  | .operand o => fun _ _ hgap hends hline h => o.strung hgap hends.word hline h

theorem items_strung : ∀ items : List Arg, ∀ p ∈ itemPieces items, IsStrung more p
  | [], _, hp => nomatch hp
  | a :: items, p, hp => by
    rw [itemPieces] at hp
    rcases List.mem_cons.mp hp with rfl | hp
    · exact a.strung
    · exact items_strung items p hp

theorem Operand.strung : ∀ o : Operand, ∀ ⦃gap ws⦄, (∀ c ∈ gap, c = ' ') → EndsWord (print ws ++ more) →
    (gap = [] → GoesOn (print ws ++ more)) → Strung more ws → Strung more (o.words gap ++ ws)
  | .path p => fun _ _ hgap hends _ h => strung_path p hgap hends h
  | .name m => fun _ _ hgap hends hline h => strung_name hgap m hends hline h
  | .call m args => fun gap ws hgap _ _ h => by
    rw [Operand.words, List.cons_append, List.cons_append, List.append_assoc]
    exact strung_call hgap m (inside_strung args) h
  | .send receiver m args => fun gap ws hgap _ _ h => by
    have hcall := strung_call (List.forall_mem_nil (· = ' ')) m (inside_strung args) h
    rw [Operand.words, List.append_assoc, List.cons_append, List.cons_append, List.cons_append, List.append_assoc]
    refine receiver.strung hgap (.inr (Decl.endsName_cons (by decide) (by decide) _))
      (fun _ => goesOn_cons (by decide) _) ?_
    refine strung_sign (by simp) (Decl.startsWord_cons (by decide) _ _) ⟨[], '.', rfl, by decide⟩ (by decide) (by simp)
      (by decide) ?_ hcall
    obtain ⟨c, body, mark, hchars, hc, -⟩ := m.isName
    have hdot : c ≠ '.' := Decl.ne_of_holds hc (by decide)
    rw [Decl.print_cons, Word.chars, hchars]
    exact Decl.lexeme?_dot hdot _

theorem inside_strung : ∀ args : Option Args, ∀ p ∈ inside args, IsStrung more p
  | none => nofun
  | some args => args.strung

theorem Entry.strung : ∀ e : Entry, IsStrung more e.words
  | .mk key value => fun gap ws hgap hends hline h => by
    rw [Entry.words, List.append_assoc]
    exact key.strung hgap (ends_blank _) (fun _ => goesOn_cons (by decide) _)
      (strung_arrow (value.strung (by simp) hends (by simp) h))

theorem entries_strung : ∀ entries : List Entry, ∀ p ∈ entryPieces entries, IsStrung more p
  | [], _, hp => nomatch hp
  | e :: entries, p, hp => by
    rw [entryPieces] at hp
    rcases List.mem_cons.mp hp with rfl | hp
    · exact e.strung
    · exact entries_strung entries p hp

theorem Args.strung : ∀ args : Args, ∀ p ∈ args.pieces, IsStrung more p
  | .last a => List.forall_mem_singleton.mpr a.strung
  | .pairs first rest => List.forall_mem_cons.mpr ⟨first.strung, entries_strung rest⟩
  | .command m args => List.forall_mem_singleton.mpr fun _ _ hgap hends _ h =>
    strung_command hgap m args.strung hends h
  | .cons a rest => List.forall_mem_cons.mpr ⟨a.strung, rest.strung⟩

end

theorem bare_strung (m : Decl.MethodName) (args : Args) (hends : Ends (print ws ++ more)) (h : Strung more ws) :
    Strung more (bare m args ++ ws) := strung_command (by simp) m args.strung hends h

theorem enclosed_strung (m : Decl.MethodName) (args : Args) (h : Strung more ws) : Strung more (enclosed m args ++ ws) := by
  rw [enclosed, List.cons_append, List.cons_append, List.append_assoc]
  exact strung_call (by simp) m args.strung h

/-- A name alone, in front of something on its line. -/
theorem alone_strung (m : Decl.MethodName) (hends : Ends (print ws ++ more)) (hline : GoesOn (print ws ++ more))
    (h : Strung more ws) : Strung more (⟨[], .ident, m.chars⟩ :: ws) :=
  strung_name (by simp) m hends.word (fun _ => hline) h

end PuppetDocs.Ruby.Command
