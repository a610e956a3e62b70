import PuppetDocs.Proofs.Manifest.Outline.Words

/-
  PuppetDocs.Proofs.Manifest.Outline.Spelled — every written manifest is spelled.

  A piece is spelled behind any blanks (`IsSpelled`) and in front of anything at which a name
  or a numeral ends; what stands behind a piece in a written manifest is a blank, a bracket or
  a comma. So the words of a term, a parameter or a declaration are spelled if those of its
  parts are, and `write_spelled` follows by induction on the tree.
-/

namespace PuppetDocs.Manifest.Outline

open Ruby.Decl (Quote ne_of_holds not_mem_of_holds)
open Text (isNameChar)

/-! ## Pieces -/

/-- The piece is a word behind the gap, and further words. -/
def Opens (p : Piece) : Prop := ∃ kind text ws, ∀ gap, p gap = ⟨gap, kind, text⟩ :: ws

/-- Behind blanks, and where no name or numeral goes on, the piece is spelled. -/
def IsSpelled (p : Piece) : Prop :=
  ∀ gap rest, (Blanks gap) → Delimited (print rest) → Spelled rest → Spelled (p gap ++ rest)

theorem Number.opens (n : Number) : Opens n.words := by
  obtain ⟨negative, digits, exponent⟩ := n
  cases negative with
  | true => exact ⟨_, _, _, fun _ => rfl⟩
  | false =>
    cases exponent with
    | none => exact ⟨_, _, _, fun _ => rfl⟩
    | some exponent => exact ⟨_, _, _, fun _ => rfl⟩

theorem TypeExpr.opens (t : TypeExpr) : Opens t.words := by
  cases t with
  | name n => exact ⟨.typeName, n.chars, [], fun _ => rfl⟩
  | applied n args => exact ⟨.typeName, n.chars, _, fun _ => rfl⟩

theorem Term.opens (t : Term) : Opens t.words := by
  cases t with
  | str content => exact ⟨.string, _, [], fun _ => rfl⟩
  | number n => exact n.opens
  | type t => exact t.opens
  | array items => exact ⟨.lbracket, _, _, fun _ => rfl⟩
  | hash entries => exact ⟨.lbrace, _, _, fun _ => rfl⟩

section Pieces

variable {gap : List Char} {rest : List Word} {p : Piece} {ps : List Piece}

theorem Opens.print_eq (h : Opens p) (rest : List Word) : ∃ more, ∀ gap, print (p gap ++ rest) = gap ++ more := by
  obtain ⟨kind, text, ws, heq⟩ := h
  exact ⟨text ++ print (ws ++ rest), fun gap => by rw [heq]; simp [Word.chars]⟩

/-- Behind a blank a piece goes on with nothing. -/
theorem Opens.delimited (h : Opens p) {c : Char} (hc : isNameChar c = false ∧ c ≠ ':' ∧ c ≠ '.') (gap : List Char)
    (rest : List Word) : Delimited (print (p (c :: gap) ++ rest)) := by
  obtain ⟨more, heq⟩ := h.print_eq rest
  rw [heq]
  exact delimited_cons hc _

/-- A word that is always the same token. -/
theorem spelled_sign {kind : TokenKind} {text : List Char} (hgap : Blanks gap)
    (hhead : ∃ c r, text = c :: r ∧ isGap c = false) (hkind : kind ≠ .slash)
    (hl : lexeme? (text ++ print rest) = some (.plain kind, text.length)) (h : Spelled rest) :
    Spelled (⟨gap, kind, text⟩ :: rest) :=
  .cons ⟨hgap, hhead, reads_plain hkind hl⟩ h

/-- A character of a class without blanks is no blank. -/
theorem not_gap {first : Char → Bool} {c : Char} (h : first c = true)
    (hfirst : [' ', '\t', '\r', '\n', '\x0c'].all (fun d => !first d) = true) : isGap c = false := by
  have hmem := not_mem_of_holds h hfirst
  simpa [isGap, and_assoc] using hmem

theorem IsReference.starts {first : Char → Bool} {cs : List Char} (h : IsReference first cs)
    (hfirst : [' ', '\t', '\r', '\n', '\x0c'].all (fun d => !first d) = true) :
    ∃ c r, cs = c :: r ∧ isGap c = false := by
  obtain ⟨c, r, rfl, rfl | hc⟩ := h.head
  · exact ⟨':', r, rfl, rfl⟩
  · exact ⟨c, r, rfl, not_gap hc hfirst⟩

theorem spelled_name {kind : TokenKind} {cs : List Char} (hgap : Blanks gap)
    (hname : IsReference isLowerStart cs) (hkind : (keyword? cs).getD .name = kind) (hslash : kind ≠ .slash)
    (hrest : Delimited (print rest)) (h : Spelled rest) : Spelled (⟨gap, kind, cs⟩ :: rest) := by
  have hl := lexeme?_word hname hrest
  rw [hkind] at hl
  exact spelled_sign hgap (hname.starts (by decide)) hslash hl h

theorem spelled_typeName (hgap : Blanks gap) (n : TypeName) (hrest : Delimited (print rest))
    (h : Spelled rest) : Spelled (⟨gap, .typeName, n.chars⟩ :: rest) :=
  spelled_sign hgap (n.isName.starts (by decide)) nofun (lexeme?_typeName n.isName hrest) h

theorem spelled_numeral {cs : List Char} (hgap : Blanks gap) (hcs : IsNumeral cs)
    (hrest : Delimited (print rest)) (h : Spelled rest) : Spelled (⟨gap, .number, cs⟩ :: rest) := by
  have hl := lexeme?_numeral hcs hrest
  obtain ⟨c, body, rfl, hc, -⟩ := hcs
  exact spelled_sign hgap ⟨c, body, rfl, not_gap hc (by decide)⟩ nofun hl h

theorem spelled_separated (hps : ∀ p ∈ ps, IsSpelled p) (hgap : Blanks gap)
    (hrest : Delimited (print rest)) (h : Spelled rest) : Spelled (separated gap ps ++ rest) := by
  induction ps generalizing gap with
  | nil => exact h
  | cons p ps ih =>
    cases ps with
    | nil => exact hps p (by simp) gap rest hgap hrest h
    | cons q ps =>
      rw [separated, List.append_assoc]
      refine hps p (by simp) gap _ hgap (delimited_cons (c := ',') (by decide) _) ?_
      refine spelled_sign blanks_nil ⟨',', [], rfl, rfl⟩ nofun rfl ?_
      exact ih (fun r hr => hps r (List.mem_cons_of_mem _ hr)) blanks_space

/-- Pieces between brackets. -/
theorem spelled_bracketed {kind kind' : TokenKind} {o c : Char} (hps : ∀ p ∈ ps, IsSpelled p)
    (hgap : Blanks gap) (ho : isGap o = false ∧ kind ≠ .slash) (hc : isGap c = false ∧ kind' ≠ .slash)
    (hopen : ∀ more, lexeme? (o :: more) = some (.plain kind, 1))
    (hclose : ∀ more, lexeme? (c :: more) = some (.plain kind', 1)) (hend : isNameChar c = false ∧ c ≠ ':' ∧ c ≠ '.')
    (h : Spelled rest) : Spelled (⟨gap, kind, [o]⟩ :: (separated [] ps ++ ⟨[], kind', [c]⟩ :: rest)) := by
  have hrest : Spelled (⟨[], kind', [c]⟩ :: rest) := spelled_sign blanks_nil ⟨c, [], rfl, hc.1⟩ hc.2 (hclose _) h
  refine spelled_sign hgap ⟨o, [], rfl, ho.1⟩ ho.2 (hopen _) ?_
  exact spelled_separated hps blanks_nil (delimited_cons hend _) hrest

end Pieces

/-! ## Terms -/

theorem Number.spelled (n : Number) : IsSpelled n.words := by
  have hmagnitude : IsSpelled n.magnitude := by
    intro gap rest hgap hrest h
    obtain ⟨negative, digits, exponent⟩ := n
    cases exponent with
    | none => exact spelled_numeral hgap digits.isNumeral hrest h
    | some exponent =>
      have hdigits : IsNumeral (digits.chars ++ ['e']) := by
        obtain ⟨c, body, heq, hc, hbody⟩ := digits.isNumeral
        refine ⟨c, body ++ ['e'], by rw [heq]; rfl, hc, fun d hd => ?_⟩
        rcases List.mem_append.mp hd with hd | hd
        · exact hbody d hd
        · rw [List.mem_singleton.mp hd]
          decide
      refine spelled_numeral hgap hdigits (delimited_cons (c := '-') (by decide) _) ?_
      refine spelled_sign blanks_nil ⟨'-', [], rfl, rfl⟩ nofun rfl ?_
      exact spelled_numeral blanks_nil exponent.isNumeral hrest h
  intro gap rest hgap hrest h
  unfold Number.words
  split
  · exact spelled_sign hgap ⟨'-', [], rfl, rfl⟩ nofun rfl (hmagnitude [] rest blanks_nil hrest h)
  · exact hmagnitude gap rest hgap hrest h

mutual

theorem Term.spelled : ∀ t : Term, IsSpelled t.words
  | .str content => fun gap rest hgap _ h => .cons ⟨hgap, ⟨'\'', _, rfl, rfl⟩, reads_string gap content _⟩ h
  | .number n => n.spelled
  | .type t => t.spelled
  | .array items => fun gap rest hgap _ h => by
    rw [Term.words, List.cons_append, List.append_assoc]
    exact spelled_bracketed (terms_spelled items) hgap (by decide) (by decide) (fun _ => rfl) (fun _ => rfl)
      (by decide) h
  | .hash entries => fun gap rest hgap _ h => by
    rw [Term.words, List.cons_append, List.append_assoc]
    exact spelled_bracketed (entries_spelled entries) hgap (by decide) (by decide) (fun _ => rfl) (fun _ => rfl)
      (by decide) h

theorem terms_spelled : ∀ ts : List Term, ∀ p ∈ termPieces ts, IsSpelled p
  | [], _, hp => nomatch hp
  | t :: ts, p, hp => by
    rw [termPieces] at hp
    rcases List.mem_cons.mp hp with rfl | hp
    · exact t.spelled
    · exact terms_spelled ts p hp

theorem Entry.spelled : ∀ e : Entry, IsSpelled e.words
  | .mk key value => fun gap rest hgap hrest h => by
    rw [Entry.words, List.append_assoc]
    refine key.spelled gap _ hgap (delimited_cons (c := ' ') (by decide) _) ?_
    refine spelled_sign blanks_space ⟨'=', ['>'], rfl, rfl⟩ nofun rfl ?_
    exact value.spelled [' '] rest blanks_space hrest h

theorem entries_spelled : ∀ es : List Entry, ∀ p ∈ entryPieces es, IsSpelled p
  | [], _, hp => nomatch hp
  | e :: es, p, hp => by
    rw [entryPieces] at hp
    rcases List.mem_cons.mp hp with rfl | hp
    · exact e.spelled
    · exact entries_spelled es p hp

theorem TypeExpr.spelled : ∀ t : TypeExpr, IsSpelled t.words
  | .name n => fun gap rest hgap hrest h => spelled_typeName hgap n hrest h
  | .applied n args => fun gap rest hgap _ h => by
    rw [TypeExpr.words, List.cons_append, List.cons_append, List.append_assoc]
    refine spelled_typeName hgap n (delimited_cons (c := '[') (by decide) _) ?_
    exact spelled_bracketed (terms_spelled args) blanks_nil (by decide) (by decide) (fun _ => rfl) (fun _ => rfl)
      (by decide) h

end

/-! ## Parameters -/

theorem Param.target_spelled (p : Param) : IsSpelled p.target := by
  have hvariable : ∀ {gap rest}, (Blanks gap) → Delimited (print rest) → Spelled rest →
      Spelled (⟨gap, .variable, '$' :: p.name.chars⟩ :: rest) := fun hgap hrest h =>
    spelled_sign hgap ⟨'$', _, rfl, rfl⟩ nofun (lexeme?_variable (.inl p.name.isName) hrest) h
  intro gap rest hgap hrest h
  unfold Param.target
  split
  · exact spelled_sign hgap ⟨'*', [], rfl, rfl⟩ nofun rfl (hvariable blanks_nil hrest h)
  · exact hvariable hgap hrest h

/-- An assignment sign in front of a blank. -/
theorem spelled_assign {p : Piece} {rest : List Word} (hp : IsSpelled p) (hopens : Opens p)
    (hrest : Delimited (print rest)) (h : Spelled rest) : Spelled (⟨[' '], .assign, ['=']⟩ :: (p [' '] ++ rest)) := by
  refine spelled_sign blanks_space ⟨'=', [], rfl, rfl⟩ nofun ?_ (hp [' '] rest blanks_space hrest h)
  obtain ⟨more, heq⟩ := hopens.print_eq rest
  rw [heq]
  rfl

theorem Param.spelled (p : Param) : IsSpelled p.words := by
  have htail : ∀ gap rest, (Blanks gap) → Delimited (print rest) → Spelled rest →
      Spelled (p.target gap ++ (p.defaultWords ++ rest)) := by
    intro gap rest hgap hrest h
    unfold Param.defaultWords
    split
    · exact p.target_spelled gap rest hgap hrest h
    · next value _ =>
      refine p.target_spelled gap _ hgap (delimited_cons (c := ' ') (by decide) _) ?_
      exact spelled_assign value.spelled value.opens hrest h
  have htarget : Opens p.target := by
    obtain ⟨type?, capturesRest, name, default?⟩ := p
    cases capturesRest with
    | true => exact ⟨_, _, _, fun _ => rfl⟩
    | false => exact ⟨_, _, [], fun _ => rfl⟩
  intro gap rest hgap hrest h
  unfold Param.words
  split
  · rw [List.append_assoc]
    exact htail gap rest hgap hrest h
  · next t _ =>
    rw [List.append_assoc, List.append_assoc]
    exact t.spelled gap _ hgap (htarget.delimited (by decide) [] _) (htail [' '] rest blanks_space hrest h)

/-! ## Declarations -/

theorem isReference_letters {c : Char} {body : List Char} (hc : isLowerStart c = true)
    (hbody : body.all isNameChar = true) : IsReference isLowerStart (c :: body) :=
  .inl (.part hc (List.all_eq_true.mp hbody))

theorem spelled_keyword {gap : List Char} {rest : List Word} (hgap : Blanks gap) (kind : DefinitionKind)
    (hrest : Delimited (print rest)) (h : Spelled rest) : Spelled (keywordWord gap kind :: rest) := by
  have hword : IsReference isLowerStart kind.keyword.toList ∧
      (keyword? kind.keyword.toList).getD .name = keywordOf kind ∧ keywordOf kind ≠ .slash := by
    cases kind <;> exact ⟨isReference_letters rfl rfl, rfl, nofun⟩
  exact spelled_name hgap hword.1 hword.2.1 hword.2.2 hrest h

/-- The clause of a head in front of a blank. -/
theorem Head.spelled_clause (head : Head) {kind : TokenKind} {text : List Char} {rest : List Word}
    (h : Spelled (⟨[' '], kind, text⟩ :: rest)) : Spelled (head.clause ++ ⟨[' '], kind, text⟩ :: rest) := by
  have hblank : ∀ more, Delimited (' ' :: more) := delimited_cons (by decide)
  unfold Head.clause
  split
  · next parent =>
    refine spelled_name blanks_space (isReference_letters rfl rfl) rfl nofun (hblank _) ?_
    refine spelled_name blanks_space parent.isName ?_ nofun (hblank _) h
    rw [parent.notKeyword]
    rfl
  · next result =>
    refine spelled_sign blanks_space ⟨'>', ['>'], rfl, rfl⟩ nofun rfl ?_
    exact result.spelled [' '] _ blanks_space (hblank _) h
  · exact h

theorem Decl.opens (d : Decl) (indent : List Char) : Opens (d.words indent) := by
  cases d with
  | block head name params body => exact ⟨_, _, _, fun _ => rfl⟩
  | alias_ name aliased => exact ⟨_, _, _, fun _ => rfl⟩

theorem delimited_lines {indent : List Char} {rest : List Word} (hrest : Delimited (print rest)) (ds : List Decl) :
    Delimited (print (lines indent ('\n' :: indent) ds ++ rest)) := by
  cases ds with
  | nil => exact hrest
  | cons d ds =>
    rw [lines, List.append_assoc]
    exact (d.opens indent).delimited (by decide) indent _

mutual

theorem Decl.spelled : ∀ (d : Decl) {indent : List Char}, (Blanks indent) → IsSpelled (d.words indent)
  | .block head name params body, indent, hindent => fun gap rest hgap _ h => by
    let close : List Word := ⟨'\n' :: indent, .rbrace, ['\x7d']⟩ :: rest
    have hclose : Spelled close := spelled_sign hindent.newline ⟨'\x7d', [], rfl, rfl⟩ nofun rfl h
    have hbody : Spelled (lines (indent ++ [' ', ' ']) ('\n' :: indent ++ [' ', ' ']) body ++ close) :=
      lines_spelled body hindent.further hindent.further.newline (delimited_cons (c := '\n') (by decide) _) hclose
    have hwords : (Decl.block head name params body).words indent gap ++ rest =
        keywordWord gap head.kind :: ⟨[' '], .name, name.chars⟩ :: sign .lparen "(" ::
          (separated [] (params.map Param.words) ++ sign .rparen ")" ::
            (head.clause ++ ⟨[' '], .lbrace, ['\x7b']⟩ ::
              (lines (indent ++ [' ', ' ']) ('\n' :: indent ++ [' ', ' ']) body ++ close))) := by
      simp [Decl.words, close]
    have hparams : ∀ p ∈ params.map Param.words, IsSpelled p := by
      intro p hp
      obtain ⟨param, -, rfl⟩ := List.mem_map.mp hp
      exact param.spelled
    rw [hwords]
    refine spelled_keyword hgap head.kind (delimited_cons (c := ' ') (by decide) _) ?_
    refine spelled_name blanks_space (.inl name.isName) (by rw [name.notKeyword]; rfl) nofun
      (delimited_cons (c := '(') (by decide) _) ?_
    refine spelled_sign blanks_nil ⟨'(', [], rfl, rfl⟩ nofun rfl ?_
    refine spelled_separated hparams blanks_nil (delimited_cons (c := ')') (by decide) _) ?_
    refine spelled_sign blanks_nil ⟨')', [], rfl, rfl⟩ nofun rfl ?_
    refine head.spelled_clause ?_
    exact spelled_sign blanks_space ⟨'\x7b', [], rfl, rfl⟩ nofun rfl hbody
  | .alias_ name aliased, indent, hindent => fun gap rest hgap hrest h => by
    have hblank : ∀ more, Delimited (' ' :: more) := delimited_cons (by decide)
    refine spelled_keyword hgap .typeAlias (hblank _) ?_
    refine spelled_typeName blanks_space name (hblank _) ?_
    exact spelled_assign aliased.spelled aliased.opens hrest h

theorem lines_spelled : ∀ (ds : List Decl) {indent gap : List Char} {rest : List Word},
    (Blanks indent) → (Blanks gap) → Delimited (print rest) → Spelled rest →
      Spelled (lines indent gap ds ++ rest)
  | [], _, _, _, _, _, _, h => h
  | d :: ds, indent, gap, rest, hindent, hgap, hrest, h => by
    rw [lines, List.append_assoc]
    refine d.spelled hindent gap _ hgap (delimited_lines hrest ds) ?_
    exact lines_spelled ds hindent hindent.newline hrest h

end

theorem write_spelled (ds : List Decl) : Spelled (lines [] [] ds) := by
  have hend : Delimited (print []) := delimited_cons (by decide) _
  have h : Spelled (lines [] [] ds ++ []) := lines_spelled ds blanks_nil blanks_nil hend .nil
  rwa [List.append_nil] at h

end PuppetDocs.Manifest.Outline
