import PuppetDocs.Proofs.Manifest.Outline.Terms
import PuppetDocs.Source.Tree

/-
  PuppetDocs.Proofs.Manifest.Outline.RoundTrip — written manifests are read back.

  Each rule of the grammar takes the words of its part and gives what that part shows: a
  parameter (`takes_typed`, `takes_untyped`), a list of parameters (`takes_params`), a definition
  with a body (`takes_block`), and, by mutual induction on the tree, a declaration and a list of
  declarations (`Decl.reads`, `lines_read`). The depth of the recursion is bounded by the number
  of words. `parse_print` puts scanner and reader together.
-/

namespace PuppetDocs.Manifest.Outline

open ParseM
open Text (byteLength)

variable {front gap : List Char} {rest ws : List Word} {n : Nat}

/-! ## Parameters -/

theorem TypeExpr.headKind_words (t : TypeExpr) (gap : List Char) (ws : List Word) :
    headKind (t.words gap ++ ws) = .typeName := by
  cases t <;> rfl

/-- The star and the name of a parameter. -/
def targetWords (capturesRest : Bool) (name gap : List Char) : List Word :=
  if capturesRest then [⟨gap, .star, ['*']⟩, ⟨[], .variable, '$' :: name⟩] else [⟨gap, .variable, '$' :: name⟩]

section Target

variable {name : List Char} {capturesRest : Bool}

theorem headKind_target (capturesRest : Bool) (name gap : List Char) (ws : List Word) :
    headKind (targetWords capturesRest name gap ++ ws) = .star ∨
      headKind (targetWords capturesRest name gap ++ ws) = .variable := by
  cases capturesRest with
  | true => exact .inl rfl
  | false => exact .inr rfl

/-- The star and the name of a parameter, in front of the rest of the parser. -/
theorem takes_target {β : Type} {f : Bool → Token TokenKind → P β} {b : Place} {Q : β → Prop}
    (h : ∀ t : Token TokenKind, t.text = String.ofList ('$' :: name) →
      Takes (f capturesRest t) ⟨front ++ chars (targetWords capturesRest name gap), ws⟩ b Q) (expected : String) :
    Takes (do f (← eat .star) (← need .variable expected)) ⟨front, targetWords capturesRest name gap ++ ws⟩ b Q := by
  cases capturesRest with
  | true =>
    apply (takes_eat rfl).known
    apply (takes_need rfl expected).bind
    intro t ht
    simpa [targetWords] using h t ht.text
  | false =>
    have hkind : headKind (targetWords false name gap ++ ws) ≠ .star := nofun
    apply (takes_not_eat hkind).known
    apply (takes_need rfl expected).bind
    intro t ht
    simpa [targetWords] using h t ht.text

/-- The parameter is declared like this, in whatever line. -/
def IsDeclared (name : List Char) (type? default? : Option String) (capturesRest : Bool) (q : Parameter) : Prop :=
  q.name = String.ofList name ∧ q.type? = type? ∧ q.default? = default? ∧ q.capturesRest = capturesRest

variable {value : List Word} {default? : Option String}

/-- A parameter from behind its type on. -/
theorem takes_untyped (type? : Option String) (line : Nat)
    (hdefault : ∀ {front}, Takes (optional .assign (do Rule.run n (.defaultValue (← here)))) ⟨front, value ++ rest⟩
      ⟨front ++ chars value, rest⟩ fun s? => s? = default?) :
    Takes (do
      let capturesRest ← eat .star
      let variable_ ← need .variable "parameter name"
      let name := String.ofList (variable_.text.toList.drop 1)
      let default? ← optional .assign (do Rule.run n (.defaultValue (← here)))
      return ({ name, type?, default?, capturesRest, line } : Parameter))
      ⟨front, targetWords capturesRest name gap ++ (value ++ rest)⟩
      ⟨front ++ chars (targetWords capturesRest name gap) ++ chars value, rest⟩
      (IsDeclared name type? default? capturesRest) := by
  refine takes_target (fun t ht => ?_) _
  apply hdefault.bind
  intro value? hvalue?
  refine takes_pure ⟨?_, rfl, hvalue?, rfl⟩
  rw [ht]
  simp

/-- A parameter with a type. -/
theorem takes_typed {type : List Char} {args : List Word} (hargs : IsApplied args)
    (hdefault : ∀ {front}, Takes (optional .assign (do Rule.run n (.defaultValue (← here)))) ⟨front, value ++ rest⟩
      ⟨front ++ chars value, rest⟩ fun s? => s? = default?) :
    Takes (readParam (Rule.run n))
      ⟨front, ⟨gap, .typeName, type⟩ :: (args ++ (targetWords capturesRest name [' '] ++ (value ++ rest)))⟩
      ⟨front ++ chars (⟨gap, .typeName, type⟩ :: args) ++ chars (targetWords capturesRest name [' ']) ++ chars value, rest⟩
      (IsDeclared name (some (String.ofList (type ++ chars args))) default? capturesRest) := by
  have hkind : headKind (targetWords capturesRest name [' '] ++ (value ++ rest)) ≠ .lbracket := by
    rcases headKind_target capturesRest name [' '] (value ++ rest) with h | h <;> rw [h] <;> decide
  apply takes_here.bind
  intro start _
  apply (takes_lineOf start).next
  intro line
  apply (takes_at (decide_eq_true rfl)).known
  refine Takes.known ((takes_applied hargs hkind).mono fun s hs => congrArg some hs).map ?_
  exact takes_untyped _ line hdefault

end Target

theorem takes_defaultWords (p : Param) (hrest : headKind rest = .comma ∨ headKind rest = .rparen)
    (hn : p.defaultWords.length ≤ n) :
    Takes (optional .assign (do Rule.run n (.defaultValue (← here)))) ⟨front, p.defaultWords ++ rest⟩
      ⟨front ++ chars p.defaultWords, rest⟩ fun s? => s? = p.default?.map Term.written := by
  unfold Param.defaultWords at hn ⊢
  cases hdefault : p.default? with
  | none =>
    have hkind : headKind rest ≠ .assign := by
      rcases hrest with h | h <;> rw [h] <;> decide
    rw [chars_nil, List.append_nil]
    exact takes_not_optional hkind
  | some value =>
    rw [hdefault] at hn
    apply takes_optional rfl
    rw [chars_cons, ← List.append_assoc]
    exact (takes_value value hrest hn).mono fun s hs => by rw [hs]; rfl

theorem takes_param (p : Param) (hrest : headKind rest = .comma ∨ headKind rest = .rparen)
    (hn : (p.words gap).length ≤ n) :
    Takes (readParam (Rule.run n)) ⟨front, p.words gap ++ rest⟩ ⟨front ++ chars (p.words gap), rest⟩ p.Shows := by
  have hdefault : ∀ {front}, Takes (optional .assign (do Rule.run n (.defaultValue (← here))))
      ⟨front, p.defaultWords ++ rest⟩ ⟨front ++ chars p.defaultWords, rest⟩ fun s? => s? = p.default?.map Term.written := by
    unfold Param.words at hn
    refine takes_defaultWords p hrest ?_
    split at hn <;> simp only [List.length_append] at hn <;> omega
  have htarget : ∀ gap, p.target gap = targetWords p.capturesRest p.name.chars gap := fun _ => rfl
  unfold Param.words
  cases htype : p.type? with
  | none =>
    have hkind : headKind (targetWords p.capturesRest p.name.chars gap ++ (p.defaultWords ++ rest)) ≠ .typeName := by
      rcases headKind_target p.capturesRest p.name.chars gap (p.defaultWords ++ rest) with h | h <;> rw [h] <;> decide
    dsimp only
    rw [htarget, List.append_assoc, chars_append, ← List.append_assoc front]
    apply takes_here.bind
    intro start _
    apply (takes_lineOf start).next
    intro line
    apply (takes_at (decide_eq_false hkind)).known
    refine (takes_untyped none line hdefault).mono fun q hq => ?_
    rw [Param.Shows, htype]
    exact hq
  | some t =>
    obtain ⟨type, args, hargs, hwords⟩ := t.applied_words
    have hwritten : t.written = String.ofList (type ++ chars args) := by
      rw [TypeExpr.written, hwords]
      rfl
    dsimp only
    rw [htarget, hwords, List.append_assoc, List.append_assoc, List.cons_append, chars_append, chars_append,
      ← List.append_assoc front, ← List.append_assoc (front ++ _)]
    refine (takes_typed hargs hdefault).mono fun q hq => ?_
    rw [Param.Shows, htype, Option.map_some, hwritten]
    exact hq

/-- The words of the piece are read as a parameter of which `S` holds. -/
structure ReadAsParam (p : Piece) (S : Parameter → Prop) : Prop where
  head : ∀ gap ws, headKind (p gap ++ ws) ≠ .rparen
  pos : ∀ gap, 0 < (p gap).length
  reads : ∀ {front gap rest n}, headKind rest = .comma ∨ headKind rest = .rparen → (p gap).length ≤ n →
    Takes (readParam (Rule.run n)) ⟨front, p gap ++ rest⟩ ⟨front ++ chars (p gap), rest⟩ S

theorem Param.headKind_ne (p : Param) (gap : List Char) (ws : List Word) : headKind (p.words gap ++ ws) ≠ .rparen := by
  unfold Param.words
  split
  · rw [List.append_assoc]
    rcases headKind_target p.capturesRest p.name.chars gap (p.defaultWords ++ ws) with h | h <;>
      exact fun hparen => nomatch h.symm.trans hparen
  · rw [List.append_assoc, TypeExpr.headKind_words]
    decide

theorem Param.length_pos (p : Param) (gap : List Char) : 0 < (p.words gap).length := by
  have htarget : ∀ gap, 0 < (p.target gap).length := by
    intro gap
    unfold Param.target
    split <;> exact Nat.succ_pos _
  have hbare := htarget gap
  have htyped := htarget [' ']
  unfold Param.words
  split <;> simp only [List.length_append] <;> omega

theorem Param.readAsParam (p : Param) : ReadAsParam p.words p.Shows := ⟨p.headKind_ne, p.length_pos, takes_param p⟩

/-- A parameter in front of a comma or of the closing parenthesis, and the parameters behind it. -/
theorem takes_params_cons {p : Piece} {S : Parameter → Prop} (hp : ReadAsParam p S) {b c : Place} {comma : Bool}
    {Q : List Parameter → Prop} (hws : headKind ws = .comma ∨ headKind ws = .rparen) (hn : (p gap).length ≤ n)
    (hcomma : Takes (eat .comma) ⟨front ++ chars (p gap), ws⟩ b fun x => x = comma)
    (hgo : comma = true ∨ headKind b.ahead = .rparen)
    (hmore : ∀ q, S q → Takes (Rule.run n .params) b c fun qs => Q (q :: qs)) :
    Takes (Rule.run (n + 1) .params) ⟨front, p gap ++ ws⟩ c Q := by
  show Takes (readParams (Rule.run n)) _ _ _
  apply (takes_not_eat (hp.head gap ws)).known
  apply (hp.reads hws hn).bind
  intro q hq
  apply hcomma.known
  apply (takes_at rfl).known
  have hwrong : ¬(!comma && !decide (headKind b.ahead = .rparen)) = true := by
    rcases hgo with h | h <;> simp [h]
  dsimp only
  rw [if_neg hwrong]
  exact (hmore q hq).bind fun qs hqs => takes_pure hqs

/-- A list of parameters up to and with its closing parenthesis. -/
theorem takes_params {α : Type} {words : α → Piece} {S : α → Parameter → Prop} (h : ∀ p, ReadAsParam (words p) (S p))
    (ps : List α) (hn : (separated gap (ps.map words)).length + 1 ≤ n) :
    Takes (Rule.run n .params) ⟨front, separated gap (ps.map words) ++ sign .rparen ")" :: rest⟩
      ⟨front ++ chars (separated gap (ps.map words)) ++ [')'], rest⟩ (List.Forall₂ S ps) := by
  have hclose : ∀ {front n}, Takes (Rule.run (n + 1) .params) ⟨front, sign .rparen ")" :: rest⟩ ⟨front ++ [')'], rest⟩
      fun qs => qs = [] := by
    intro front n
    show Takes (readParams (Rule.run n)) _ _ _
    exact (takes_eat rfl).known (takes_pure rfl)
  induction ps generalizing front gap n with
  | nil =>
    obtain ⟨n, rfl⟩ := Nat.exists_eq_add_of_le' hn
    rw [List.map_nil, separated, chars_nil, List.append_nil]
    exact hclose.mono fun qs hqs => hqs ▸ .nil
  | cons p ps ih =>
    cases ps with
    | nil =>
      have hparen : headKind (sign .rparen ")" :: rest) ≠ .comma := by
        rw [headKind_cons]
        decide
      rw [List.map_singleton, separated] at hn ⊢
      have hpos := (h p).pos gap
      obtain ⟨n, rfl⟩ := Nat.exists_eq_add_of_le' (show 2 ≤ n by omega)
      refine takes_params_cons (h p) (.inr rfl) (by omega) (takes_not_eat hparen) (.inr rfl) fun q hq => ?_
      exact hclose.mono fun qs hqs => hqs ▸ .cons hq .nil
    | cons p' ps =>
      have hend : front ++ chars (separated gap ((p :: p' :: ps).map words)) ++ [')'] =
          front ++ chars (words p gap) ++ [','] ++ chars (separated [' '] ((p' :: ps).map words)) ++ [')'] := by
        simp [separated, Word.chars]
      rw [hend]
      rw [List.map_cons, List.map_cons, separated, ← List.map_cons, List.length_append, List.length_cons] at hn
      rw [List.map_cons, List.map_cons, separated, ← List.map_cons, List.append_assoc]
      obtain ⟨n, rfl⟩ := Nat.exists_eq_add_of_le' (show 1 ≤ n by omega)
      refine takes_params_cons (h p) (.inl rfl) (by omega) (takes_eat rfl) (.inl rfl) fun q hq => ?_
      exact (ih (by omega)).mono fun qs hqs => .cons hq hqs

/-! ## Declarations -/

/-- A return type in front of a body, and the rest of the parser. -/
theorem takes_returns {β : Type} {f : Option String → Option String → P β} {type : List Char} {args : List Word}
    (hargs : IsApplied args) {w : Word} (hw : w.kind = .lbrace) {b : Place} {Q : β → Prop}
    (h : Takes (f none (some (String.ofList (type ++ chars args))))
      ⟨front ++ chars (⟨[' '], .returnArrow, ">>".toList⟩ :: ⟨[' '], .typeName, type⟩ :: args), w :: ws⟩ b Q) :
    Takes (do f (← optional .inheritsKw (do return (← bump).text)) (← optional .returnArrow readType))
      ⟨front, ⟨[' '], .returnArrow, ">>".toList⟩ :: ⟨[' '], .typeName, type⟩ :: (args ++ w :: ws)⟩ b Q := by
  have hkinds : headKind (w :: ws) ≠ .lbracket := by
    rw [headKind_cons, hw]
    decide
  have hinherits : headKind (⟨[' '], .returnArrow, ">>".toList⟩ :: ⟨[' '], .typeName, type⟩ :: (args ++ w :: ws)) ≠
      .inheritsKw := nofun
  apply (takes_not_optional hinherits).known
  refine Takes.known (takes_optional rfl ?_) h
  rw [chars_cons, ← List.append_assoc]
  exact (takes_applied hargs hkinds).mono fun s hs => congrArg some hs

/-- The clause of a head, in front of the rest of the parser. -/
theorem takes_clause {β : Type} (head : Head) {f : Option String → Option String → P β} {w : Word} {b : Place}
    {Q : β → Prop} (hw : w.kind = .lbrace)
    (h : Takes (f (head.parent.map (String.ofList ·.chars)) (head.result.map TypeExpr.written))
      ⟨front ++ chars head.clause, w :: ws⟩ b Q) :
    Takes (do f (← optional .inheritsKw (do return (← bump).text)) (← optional .returnArrow readType))
      ⟨front, head.clause ++ w :: ws⟩ b Q := by
  have hkinds : headKind (w :: ws) ≠ .inheritsKw ∧ headKind (w :: ws) ≠ .returnArrow := by
    rw [headKind_cons, hw]
    decide
  obtain ⟨hinherits, harrow⟩ := hkinds
  have hplain : ∀ {front}, Takes (f none none) ⟨front, w :: ws⟩ b Q →
      Takes (do f (← optional .inheritsKw (do return (← bump).text)) (← optional .returnArrow readType))
        ⟨front, w :: ws⟩ b Q := by
    intro front hf
    apply (takes_not_optional hinherits).known
    exact (takes_not_optional harrow).known hf
  cases head with
  | class_ parent =>
    cases parent with
    | none => exact hplain (by simpa [Head.clause, Head.parent, Head.result] using h)
    | some parent =>
      have hparent : Takes (optional .inheritsKw (do return (← bump).text))
          ⟨front, (Head.class_ (some parent)).clause ++ w :: ws⟩
          ⟨front ++ chars (Head.class_ (some parent)).clause, w :: ws⟩
          fun x => x = some (String.ofList parent.chars) := by
        apply takes_optional rfl
        apply takes_bump.bind
        intro t ht
        refine takes_done ?_ (congrArg some ht.text)
        simp [Head.clause]
      apply hparent.known
      exact (takes_not_optional harrow).known h
  | define => exact hplain (by simpa [Head.clause, Head.parent, Head.result] using h)
  | plan => exact hplain (by simpa [Head.clause, Head.parent, Head.result] using h)
  | function result =>
    cases result with
    | none => exact hplain (by simpa [Head.clause, Head.parent, Head.result] using h)
    | some result =>
      obtain ⟨type, args, hargs, hwords⟩ := result.applied_words
      have hwritten : result.written = String.ofList (type ++ chars args) := by
        rw [TypeExpr.written, hwords]
        rfl
      have hclause : (Head.function (some result)).clause =
          ⟨[' '], .returnArrow, ">>".toList⟩ :: ⟨[' '], .typeName, type⟩ :: args := by
        rw [Head.clause, hwords]
      simp only [Head.parent, Head.result, Option.map_none, Option.map_some, hwritten, hclause] at h
      rw [hclause]
      exact takes_returns hargs hw h

theorem unrooted_qualified {cs : List Char} (h : IsQualified isLowerStart cs) :
    unrooted (String.ofList cs) = String.ofList cs := by
  have hrooted : ([':', ':'] : List Char).isPrefixOf cs = false := by
    obtain ⟨c, r, heq, hc⟩ := h.head
    have hcolon : (':' == c) = false := by simpa using (Ruby.Decl.ne_of_holds hc (by decide)).symm
    simp [heq, List.isPrefixOf, hcolon]
  simp [unrooted, Text.after?, hrooted]

/-- A name of a definition is written without `::` in front of it. -/
theorem unrooted_name (name : Name) : unrooted (String.ofList name.chars) = String.ofList name.chars :=
  unrooted_qualified name.isName

theorem Decl.headKind_words (d : Decl) (indent gap : List Char) (ws : List Word) :
    ∃ kind, headKind (d.words indent gap ++ ws) = keywordOf kind := by
  cases d with
  | block head name params body => exact ⟨head.kind, rfl⟩
  | alias_ name aliased => exact ⟨.typeAlias, rfl⟩

/-- A declaration is one where its keyword, its name and, in an alias, `=` come next. -/
theorem takes_definitionFollows (d : Decl) (indent : List Char) :
    Takes (definitionFollows (headKind (d.words indent gap ++ rest))) ⟨front, d.words indent gap ++ rest⟩
      ⟨front, d.words indent gap ++ rest⟩ fun follows => follows = true := by
  cases d with
  | block head name params body =>
    have hname : (((Decl.block head name params body).words indent gap ++ rest)[1]?).map Word.kind = some .name := rfl
    have hfollows : Takes (do return decide ((← peekAt 1).kind = .name))
        ⟨front, (Decl.block head name params body).words indent gap ++ rest⟩
        ⟨front, (Decl.block head name params body).words indent gap ++ rest⟩ fun follows => follows = true :=
      (takes_peekAt hname).bind fun t ht => takes_pure (decide_eq_true ht)
    cases head with
    | class_ _ => exact hfollows
    | define => exact hfollows
    | plan => exact hfollows
    | function _ => exact hfollows
  | alias_ name aliased =>
    have hname : (((Decl.alias_ name aliased).words indent gap ++ rest)[1]?).map Word.kind = some .typeName := rfl
    have hassign : (((Decl.alias_ name aliased).words indent gap ++ rest)[2]?).map Word.kind = some .assign := rfl
    apply (takes_peekAt hname).bind
    intro t ht
    apply (takes_peekAt hassign).bind
    intro u hu
    exact takes_pure (decide_eq_true ⟨ht, hu⟩)

theorem kindOf_keywordOf (kind : DefinitionKind) : kindOf (keywordOf kind) = kind := by
  cases kind <;> rfl

theorem Head.kind_ne_alias (head : Head) : head.kind ≠ .typeAlias := by
  cases head <;> exact nofun

/-- A type alias in front of anything but a bracket. -/
theorem takes_alias (name : TypeName) (aliased : TypeExpr) {indent : List Char} (hrest : headKind rest ≠ .lbracket) :
    Takes (readDefinition (Rule.run n)) ⟨front, (Decl.alias_ name aliased).words indent gap ++ rest⟩
      ⟨front ++ chars ((Decl.alias_ name aliased).words indent gap), rest⟩ (Decl.alias_ name aliased).Shows := by
  have hwords : (Decl.alias_ name aliased).words indent gap ++ rest =
      keywordWord gap .typeAlias :: ⟨[' '], .typeName, name.chars⟩ :: ⟨[' '], .assign, ['=']⟩ ::
        (aliased.words [' '] ++ rest) := rfl
  rw [hwords]
  apply takes_bump.bind
  intro keyword hkeyword
  apply (takes_lineOf _).next
  intro line
  dsimp only
  rw [hkeyword.kind, keywordWord, kindOf_keywordOf, if_pos rfl]
  apply (takes_need rfl "type name").bind
  intro t ht
  apply (takes_need rfl "'='").bind
  intro _ _
  apply (takes_type aliased hrest).bind
  intro s hs
  apply takes_prevEnd.known
  refine takes_done ?_ ⟨rfl, ht.text, rfl, rfl, rfl, congrArg some hs, rfl⟩
  simp [Decl.words, keywordWord]

/-- A definition with a body, from its keyword to the brace `close` that ends the body. -/
def blockWords (kind : DefinitionKind) (name : List Char) (params clause inner : List Word) (close : Word) : Piece :=
  fun gap => keywordWord gap kind :: ⟨[' '], .name, name⟩ :: sign .lparen "(" ::
    (params ++ sign .rparen ")" :: (clause ++ ⟨[' '], .lbrace, ['\x7b']⟩ :: (inner ++ [close])))

/-- A definition with a body, if its parameters, its clause and its body are read. -/
theorem takes_block {kind : DefinitionKind} (hkind : kind ≠ .typeAlias) {name : List Char} {params clause inner : List Word}
    {close : Word} (hclose : close.kind = .rbrace) {parent? result? : Option String} {S : List Parameter → Prop}
    {T : List Definition → Prop}
    (hparams : ∀ {front rest}, Takes (Rule.run n .params) ⟨front, params ++ sign .rparen ")" :: rest⟩
      ⟨front ++ chars params ++ [')'], rest⟩ S)
    (hclause : ∀ {f : Option String → Option String → P Definition} {front w ws b Q}, w.kind = .lbrace →
      Takes (f parent? result?) ⟨front ++ chars clause, w :: ws⟩ b Q →
      Takes (do f (← optional .inheritsKw (do return (← bump).text)) (← optional .returnArrow readType))
        ⟨front, clause ++ w :: ws⟩ b Q)
    (hbody : ∀ {front rest} (brace : Token TokenKind), headKind rest = .rbrace →
      Takes (Rule.run n (.items (some brace) [])) ⟨front, inner ++ rest⟩ ⟨front ++ chars inner, rest⟩ T) :
    Takes (readDefinition (Rule.run n)) ⟨front, blockWords kind name params clause inner close gap ++ rest⟩
      ⟨front ++ chars (blockWords kind name params clause inner close gap), rest⟩ fun d =>
      d.kind = kind ∧ d.name = unrooted (String.ofList name) ∧ S d.params ∧ d.parent = parent? ∧ d.returnType = result? ∧
        d.aliasedType = none ∧ T d.nested := by
  have hwords : blockWords kind name params clause inner close gap ++ rest =
      keywordWord gap kind :: ⟨[' '], .name, name⟩ :: sign .lparen "(" ::
        (params ++ sign .rparen ")" :: (clause ++ ⟨[' '], .lbrace, ['\x7b']⟩ :: (inner ++ close :: rest))) := by
    simp [blockWords]
  rw [hwords]
  apply takes_bump.bind
  intro keyword hkeyword
  apply (takes_lineOf _).next
  intro line
  dsimp only
  rw [hkeyword.kind, keywordWord, kindOf_keywordOf, if_neg hkind]
  apply (takes_need rfl "name").bind
  intro t ht
  apply (takes_at (decide_eq_true rfl)).known
  rw [if_pos rfl]
  refine Takes.bind (takes_bump.bind fun _ _ => hparams) fun ps hps => ?_
  refine hclause rfl ?_
  apply (takes_need rfl "'\x7b'").bind
  intro brace _
  have hends : headKind (close :: rest) = .rbrace := hclose
  apply (hbody brace hends).bind
  intro nested hnested
  apply (takes_need hclose "'\x7d'").bind
  intro _ _
  apply takes_prevEnd.known
  refine takes_done ?_ ⟨rfl, congrArg unrooted ht.text, hps, rfl, rfl, rfl, hnested⟩
  simp [blockWords, keywordWord, Word.chars]

/-- A declaration with a body, if its body is read. -/
theorem takes_blockDecl (head : Head) (name : Name) (params : List Param) (body : List Decl) {indent : List Char}
    (hn : ((Decl.block head name params body).words indent gap).length ≤ n + 1)
    (hbody : ∀ {front rest} (brace : Token TokenKind), headKind rest = .rbrace →
      Takes (Rule.run n (.items (some brace) []))
        ⟨front, lines (indent ++ [' ', ' ']) ('\n' :: indent ++ [' ', ' ']) body ++ rest⟩
        ⟨front ++ chars (lines (indent ++ [' ', ' ']) ('\n' :: indent ++ [' ', ' ']) body), rest⟩ (Shows body)) :
    Takes (readDefinition (Rule.run n)) ⟨front, (Decl.block head name params body).words indent gap ++ rest⟩
      ⟨front ++ chars ((Decl.block head name params body).words indent gap), rest⟩
      (Decl.block head name params body).Shows := by
  have hwords : (Decl.block head name params body).words indent gap =
      blockWords head.kind name.chars (separated [] (params.map Param.words)) head.clause
        (lines (indent ++ [' ', ' ']) ('\n' :: indent ++ [' ', ' ']) body) ⟨'\n' :: indent, .rbrace, ['\x7d']⟩ gap := rfl
  have hparams : (separated [] (params.map Param.words)).length + 1 ≤ n := by
    simp only [Decl.words, List.length_cons, List.length_append, List.length_nil] at hn
    omega
  rw [hwords]
  refine (takes_block head.kind_ne_alias rfl (takes_params Param.readAsParam params hparams) (takes_clause head)
    hbody).mono fun d hd => ?_
  rw [unrooted_name] at hd
  exact hd

/-! ## Manifests -/

theorem Decl.length_words (d : Decl) (indent gap : List Char) : 4 ≤ (d.words indent gap).length := by
  cases d with
  | block head name params body =>
    simp only [Decl.words, List.length_cons, List.length_append, List.length_nil]
    omega
  | alias_ name aliased =>
    obtain ⟨kind, text, ws, heq⟩ := aliased.opens
    simp only [Decl.words, heq, List.length_cons]
    omega

/-- The definitions end at the end of the text, or at the brace that closes their opener. -/
def Ends (opener : Option (Token TokenKind)) (rest : List Word) : Prop :=
  (opener = none ∧ rest = []) ∨ (opener.isSome = true ∧ headKind rest = .rbrace)

/-- No bracket follows a declaration, so that an alias ends with its type. -/
theorem headKind_lines {opener : Option (Token TokenKind)} (h : Ends opener rest) (indent : List Char) (ds : List Decl) :
    headKind (lines indent ('\n' :: indent) ds ++ rest) ≠ .lbracket := by
  cases ds with
  | nil =>
    rcases h with ⟨-, rfl⟩ | ⟨-, hrest⟩
    · exact nofun
    · rw [lines, List.nil_append, hrest]
      exact nofun
  | cons d ds =>
    rw [lines, List.append_assoc]
    obtain ⟨kind, hkind⟩ := d.headKind_words indent ('\n' :: indent) (lines indent ('\n' :: indent) ds ++ rest)
    rw [hkind]
    cases kind <;> exact nofun

theorem takes_no_items {opener : Option (Token TokenKind)} (h : Ends opener rest) :
    Takes (Rule.run (n + 1) (.items opener [])) ⟨front, rest⟩ ⟨front, rest⟩ fun ds => ds = [] := by
  show Takes (readItems (Rule.run n) opener []) _ _ _
  apply takes_peek.bind
  intro t ht
  rcases h with ⟨rfl, rfl⟩ | ⟨hopener, hrest⟩
  · have heof : t.kind = .eof := ht
    rw [if_pos heof]
    exact takes_pure rfl
  · have hkind : t.kind = .rbrace := ht.trans hrest
    have hclosing : isClosing TokenKind.rbrace = true := rfl
    have hends : (opener.isSome && decide (TokenKind.rbrace = TokenKind.rbrace)) = true := by simp [hopener]
    rw [hkind, if_neg nofun, if_neg nofun, if_pos hclosing]
    dsimp only
    rw [if_pos hends]
    exact takes_pure rfl

/-- A definition, and the definitions behind it. -/
theorem takes_items_cons {opener : Option (Token TokenKind)} {b : Place} {R : Definition → Prop}
    {S : List Definition → Prop} (hkind : ∃ kind, headKind (ws ++ rest) = keywordOf kind)
    (hfollows : Takes (definitionFollows (headKind (ws ++ rest))) ⟨front, ws ++ rest⟩ ⟨front, ws ++ rest⟩
      fun follows => follows = true)
    (hdecl : Takes (Rule.run n .definition) ⟨front, ws ++ rest⟩ ⟨front ++ chars ws, rest⟩ R)
    (hmore : ∀ e, R e → Takes (Rule.run n (.items opener [])) ⟨front ++ chars ws, rest⟩ b fun es => S (e :: es)) :
    Takes (Rule.run (n + 1) (.items opener [])) ⟨front, ws ++ rest⟩ b S := by
  show Takes (readItems (Rule.run n) opener []) _ _ _
  apply takes_peek.bind
  intro t ht
  have hkinds : t.kind ≠ .eof ∧ isOpening t.kind = false ∧ isClosing t.kind = false := by
    obtain ⟨kind, hkind⟩ := hkind
    rw [ht, hkind]
    cases kind <;> exact ⟨nofun, rfl, rfl⟩
  obtain ⟨heof, hopening, hclosing⟩ := hkinds
  rw [if_neg heof, hopening, if_neg nofun, hclosing, if_neg nofun, ht]
  apply hfollows.known
  rw [List.isEmpty_nil, Bool.true_and, if_pos rfl]
  exact hdecl.bind fun e he => (hmore e he).bind fun es hes => takes_pure hes

mutual

theorem Decl.reads : ∀ (d : Decl) {indent front gap : List Char} {rest : List Word} {n : Nat},
    headKind rest ≠ .lbracket → (d.words indent gap).length ≤ n →
      Takes (Rule.run n .definition) ⟨front, d.words indent gap ++ rest⟩
        ⟨front ++ chars (d.words indent gap), rest⟩ d.Shows
  | .alias_ name aliased, indent, front, gap, rest, n, hrest, hn => by
    have hlength := (Decl.alias_ name aliased).length_words indent gap
    obtain ⟨n, rfl⟩ := Nat.exists_eq_add_of_le' (show 1 ≤ n by omega)
    exact takes_alias name aliased hrest
  | .block head name params body, indent, front, gap, rest, n, _, hn => by
    have hlength := (Decl.block head name params body).length_words indent gap
    obtain ⟨n, rfl⟩ := Nat.exists_eq_add_of_le' (show 1 ≤ n by omega)
    refine takes_blockDecl head name params body hn fun brace hrest => lines_read body (.inr ⟨rfl, hrest⟩) ?_
    simp only [Decl.words, List.length_cons, List.length_append, List.length_nil] at hn
    omega

theorem lines_read : ∀ (ds : List Decl) {indent front gap : List Char} {rest : List Word}
    {opener : Option (Token TokenKind)} {n : Nat}, Ends opener rest → (lines indent gap ds).length + 1 ≤ n →
      Takes (Rule.run n (.items opener [])) ⟨front, lines indent gap ds ++ rest⟩
        ⟨front ++ chars (lines indent gap ds), rest⟩ (Shows ds)
  | [], indent, front, gap, rest, opener, n, hends, hn => by
    obtain ⟨n, rfl⟩ := Nat.exists_eq_add_of_le' (show 1 ≤ n by omega)
    rw [lines, chars_nil, List.append_nil]
    exact takes_no_items hends
  | d :: ds, indent, front, gap, rest, opener, n, hends, hn => by
    have hlength := d.length_words indent gap
    rw [lines, List.length_append] at hn
    rw [lines, List.append_assoc, chars_append, ← List.append_assoc front]
    obtain ⟨n, rfl⟩ := Nat.exists_eq_add_of_le' (show 1 ≤ n by omega)
    have hbracket := headKind_lines hends indent ds
    refine takes_items_cons (d.headKind_words indent gap _) (takes_definitionFollows d indent)
      (d.reads hbracket (by omega)) fun e he => ?_
    exact (lines_read ds hends (by omega)).mono fun es hes => ⟨e, es, rfl, he, hes⟩

end

/-- A text that is scanned to words whose definitions are read is parsed, and it has these definitions. -/
theorem parse_scanned {text : List Char} {s : Scanned TokenKind} {b : Place} {S : List Definition → Prop}
    (hscan : scan text = .ok s) (hcomments : s.comments = []) (hstop : s.stop.kind = .eof) (hlies : Lies 0 ws s.tokens)
    (htext : chars ws <+: text)
    (hitems : Takes (Rule.run (depthBound ws.length) (.items none [])) ⟨[], ws⟩ b S) :
    ∃ found, Manifest.parse text = .ok (found, []) ∧ S found := by
  obtain ⟨found, tokens, hrun, -, -, hfound⟩ := hitems { text, lines := .ofText text } s.stop s.tokens hstop htext hlies
  have htokens : parseTokens text (.ofText text) s.tokens s.stop =
      (Rule.run (depthBound s.tokens.length) (.items none []) { text, lines := .ofText text }
        ⟨s.tokens, s.stop, 0⟩).map Prod.fst := rfl
  have hparse : parseTokens text (.ofText text) s.tokens s.stop = .ok found := by
    rw [htokens, hlies.length]
    exact congrArg (Except.map Prod.fst) hrun
  have hread : read text = .ok (found, s.comments) := by
    simp only [read, hscan, hparse, bind, Except.bind]
    rfl
  refine ⟨found, ?_, hfound⟩
  rw [Manifest.parse, hread, hcomments]
  rfl

theorem parse_spelled {b : Place} {S : List Definition → Prop} (h : Spelled ws)
    (hitems : Takes (Rule.run (depthBound ws.length) (.items none [])) ⟨[], ws⟩ b S) :
    ∃ found, Manifest.parse (print ws) = .ok (found, []) ∧ S found := by
  obtain ⟨s, hscan, hcomments, hstop, hlies⟩ := scan_spelled h
  exact parse_scanned hscan hcomments hstop hlies ⟨['\n'], rfl⟩ hitems

/-- Every tree of declarations is read back from its text: the parser succeeds, and the definitions are the
declarations. -/
theorem parse_print (ds : List Decl) : ∃ found, Manifest.parse (write ds) = .ok (found, []) ∧ Shows ds found := by
  have hdepth : (lines [] [] ds).length + 1 ≤ depthBound (lines [] [] ds).length := by
    rw [depthBound]
    omega
  have hitems : Takes (Rule.run (depthBound (lines [] [] ds).length) (.items none [])) ⟨[], lines [] [] ds ++ []⟩ _
      (Shows ds) := lines_read ds (.inl ⟨rfl, rfl⟩) hdepth
  rw [List.append_nil] at hitems
  exact parse_spelled (write_spelled ds) hitems

end PuppetDocs.Manifest.Outline
