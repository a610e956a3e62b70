import Mathlib.Data.Set.List
import PuppetDocs.Findings.Manifest
import PuppetDocs.Proofs.Manifest.Laminar.Items
import PuppetDocs.Proofs.Manifest.Lexed
import PuppetDocs.Proofs.Manifest.Names
import PuppetDocs.Proofs.Manifest.Outline.RoundTrip
import PuppetDocs.Proofs.Manifest.Spelling

/-
  PuppetDocs.Proofs.Manifest.Signature — displayed signatures are Puppet.

  The types of a signature are cut out of the manifest, and anything may stand in their
  brackets: strings, regular expressions, brackets of other kinds. What the scanner reads up to a
  closing bracket does not depend on what stands behind it, so the words of a type are read alike
  in the manifest and in the signature (`Reads.bounded`, `WrittenType.shown`). A signature of
  such types is written in words that the parser takes (`ShownFunction.parse`), and the signature
  of a parsed function is one of these (`exists_shownFunction`).

  Left out are functions that are called like a keyword, types with comments or heredocs in them,
  and default values of a parameter that takes all arguments that are left: these are not displayed.
-/

namespace PuppetDocs.Manifest

open Outline ParseM
open Text (byteLength)

/-! ## Words that are read one after the other -/

/-- Each word is the token that the scanner reads behind the one in front of it, and the first behind a token of kind
`last`; `more` is the text behind the last word. -/
inductive Reads (more : List Char) : Option TokenKind → List Word → Prop
  | nil {last : Option TokenKind} : Reads more last []
  | cons {last : Option TokenKind} {w : Word} {ws : List Word} : Blanks w.gap →
      token? last (w.text ++ (chars ws ++ more)) = some (w.kind, w.text.length) → Reads more (some w.kind) ws →
      Reads more last (w :: ws)

section Reads

variable {more : List Char} {last : Option TokenKind} {w : Word} {ws ws' : List Word}

theorem Reads.append (h : Reads (chars ws' ++ more) last ws) (h' : ∀ last', Reads more last' ws') :
    Reads more last (ws ++ ws') := by
  induction h with
  | nil => exact h' _
  | cons hgap hread _ ih =>
    rw [List.cons_append]
    refine .cons hgap ?_ ih
    rw [chars_append, List.append_assoc]
    exact hread

/-- A word that is the same token wherever it stands. -/
theorem reads_sign {gap text : List Char} {kind : TokenKind} (hgap : Blanks gap)
    (hhead : ∃ c r, text = c :: r ∧ isGap c = false) (hkind : kind ≠ .slash)
    (hl : lexeme? (text ++ (chars ws ++ more)) = some (.plain kind, text.length)) (h : ∀ last, Reads more last ws)
    (last : Option TokenKind) : Reads more last (⟨gap, kind, text⟩ :: ws) := by
  refine .cons hgap ?_ (h _)
  obtain ⟨c, r, rfl, hc⟩ := hhead
  have hopens : ((c :: r ++ (chars ws ++ more)).head?.all isGap) = false := hc
  dsimp only
  rw [token?, hopens, hl, if_neg Bool.false_ne_true]
  unfold Lexeme.token?
  cases kind with
  | slash => exact absurd rfl hkind
  | _ => rfl

/-- The tokens of a text of words that are read are those of its words, and it has no comments. -/
theorem scan_reads (h : Reads [] none ws) :
    ∃ s, scan (chars ws) = .ok s ∧ s.comments = [] ∧ s.stop.kind = .eof ∧ Lies 0 ws s.tokens := by
  have hfinds : Finds [] (Reads []) := by
    intro lines s w ws hs h
    cases h with
    | cons hgap hread hws =>
      refine ⟨?_, hws⟩
      rw [Word.chars, List.append_assoc, step_token hgap (outside_of_empty hs _) hread, found,
        List.take_left, List.length_append]
  have hscan := scan_finds hfinds h fun _ _ => rfl
  rwa [List.append_nil] at hscan

/-! ## Words of a text -/

/-- Tokens of a text that are no heredocs, with nothing but blanks between them, are words that are read there. -/
theorem Lexed.reads {text before after : List Char} {used : List (Token TokenKind)}
    (htext : text = before ++ (chars ws ++ after)) (h : Lexed text last used) (hlies : Lies (byteLength before) ws used)
    (hgaps : ∀ w ∈ ws, Blanks w.gap) (hheaders : ∀ t ∈ used, ¬IsHeader t) : Reads after last ws := by
  induction ws generalizing before last used with
  | nil => exact .nil
  | cons w ws ih =>
    cases hlies with
    | @cons _ _ _ t ts ht hts =>
      cases h with
      | cons hread hlexed =>
        rcases hread with hheader | ⟨front, behind, heq, hstart, htoken⟩
        · exact absurd hheader (hheaders t List.mem_cons_self)
        have hbytes : byteLength front = byteLength (before ++ w.gap) := by
          rw [← hstart, ht.span, Text.byteLength_append]
        have hplaces : front ++ (t.text.toList ++ behind) = (before ++ w.gap) ++ (w.text ++ (chars ws ++ after)) := by
          rw [← heq, htext]
          simp [Word.chars]
        obtain ⟨-, hrest⟩ := Text.eq_of_byteLength hplaces hbytes
        refine .cons (hgaps w List.mem_cons_self) ?_ ?_
        · rw [← hrest, htoken, ht.kind, ht.text, String.toList_ofList]
        · rw [← ht.kind]
          have htext' : text = (before ++ w.chars) ++ (chars ws ++ after) := by
            rw [htext, chars_cons]
            simp
          refine ih htext' hlexed ?_ (fun v hv => hgaps v (List.mem_cons_of_mem _ hv)) fun u hu =>
            hheaders u (List.mem_cons_of_mem _ hu)
          rw [Text.byteLength_append]
          exact hts

/-- An at sign in front of a parenthesis is a token of its own where no header begins. -/
theorem token?_at {cs inside : List Char} {kind : TokenKind} {n : Nat} (h : token? last cs = some (kind, n))
    (heq : cs = '@' :: '(' :: inside) : n = 1 := by
  have hl : lexeme? ('@' :: '(' :: inside) =
      if headerTail inside ≠ 0 then some (.heredoc, 2 + headerTail inside) else none := by
    rw [lexeme?_cons]
    rfl
  have hgap : (('@' :: '(' :: inside).head?.all isGap) = false := rfl
  rw [heq, token?, hgap, if_neg Bool.false_ne_true, hl] at h
  split at h
  · cases h
    rfl
  · next hheader =>
    split at hheader
    · cases hheader
      cases h
    · cases hheader

/-- Words whose text begins with a parenthesis begin with that parenthesis. -/
theorem Reads.paren {r : List Char} (h : Reads more last ws) (hchars : chars ws = '(' :: r) :
    ∃ w post, ws = w :: post ∧ w.kind = .lparen ∧ chars post = r := by
  cases h with
  | nil => cases hchars
  | @cons _ w ws hgap hread hws =>
    rw [chars_cons, Word.chars] at hchars
    cases hw : w.gap with
    | cons c gap =>
      rw [hw] at hchars
      obtain ⟨rfl, -⟩ := List.cons.inj hchars
      exact absurd (hgap '(' (by rw [hw]; exact List.mem_cons_self)) (by decide)
    | nil =>
      rw [hw, List.nil_append] at hchars
      rw [← List.append_assoc, hchars] at hread
      have hparen : token? last ('(' :: r ++ more) = some (.lparen, 1) := rfl
      obtain ⟨hkind, hlength⟩ := Prod.mk.inj (Option.some.inj (hparen.symm.trans hread))
      obtain ⟨c, hc⟩ := List.length_eq_one_iff.mp hlength.symm
      rw [hc] at hchars
      exact ⟨w, ws, rfl, hkind.symm, (List.cons.inj hchars).2⟩

/-- A closing square bracket behind the given blanks. -/
abbrev rbracketWord (gap : List Char) : Word := ⟨gap, .rbracket, [']']⟩

theorem chars_bracketed (ws : List Word) (gap z : List Char) :
    chars (ws ++ [rbracketWord gap]) ++ z = (chars ws ++ gap) ++ ']' :: z := by
  simp [Word.chars]

/-- What looks like the opening of a header in front of a closing square bracket is an at sign and a parenthesis, and
the parenthesis is closed. -/
theorem Reads.closes_header {gap inside : List Char} (h : Reads more last (w :: (ws ++ [rbracketWord gap])))
    (hparens : ∀ v post, v :: post <:+ ws → v.kind = .lparen → ')' ∈ chars post)
    (heq : w.text ++ (chars ws ++ gap) = '@' :: '(' :: inside) : ')' ∈ inside := by
  cases h with
  | cons hgap hread hrest =>
    have hheader : w.text ++ (chars (ws ++ [rbracketWord gap]) ++ more) = '@' :: '(' :: (inside ++ ']' :: more) := by
      rw [chars_bracketed, ← List.append_assoc, heq]
      rfl
    obtain ⟨c, hc⟩ := List.length_eq_one_iff.mp (token?_at hread hheader)
    rw [hc] at heq
    have hopens : chars ws ++ gap = '(' :: inside := (List.cons.inj heq).2
    have hchars : chars (ws ++ [rbracketWord gap]) = '(' :: (inside ++ [']']) := by
      have hclose := chars_bracketed ws gap []
      rw [List.append_nil, hopens] at hclose
      exact hclose
    obtain ⟨v, post, hv, hkind, hpost⟩ := hrest.paren hchars
    cases ws with
    | nil =>
      obtain ⟨rfl, -⟩ := List.cons.inj hv
      cases hkind
    | cons u ws =>
      rw [List.cons_append] at hv
      obtain ⟨rfl, rfl⟩ := List.cons.inj hv
      have hmem : ')' ∈ inside ++ [']'] := by
        rw [← hpost, chars_append]
        exact List.mem_append_left _ (hparens u ws (List.suffix_refl _) hkind)
      simpa using hmem

/-- Words up to a closing square bracket are read alike in front of any text, if every parenthesis among them is closed
in front of that bracket. -/
theorem Reads.bounded {gap : List Char} (h : Reads more last (ws ++ [rbracketWord gap]))
    (hparens : ∀ v post, v :: post <:+ ws → v.kind = .lparen → ')' ∈ chars post) (more' : List Char) :
    Reads more' last (ws ++ [rbracketWord gap]) := by
  induction ws generalizing last with
  | nil =>
    cases h with
    | cons hgap _ _ => exact .cons hgap rfl .nil
  | cons w ws ih =>
    have hparens' : ∀ v post, v :: post <:+ ws → v.kind = .lparen → ')' ∈ chars post :=
      fun v post hpost => hparens v post (hpost.trans (List.suffix_cons w ws))
    rw [List.cons_append] at h ⊢
    have hheader : ∀ inside, w.text ++ (chars ws ++ gap) = '@' :: '(' :: inside → ')' ∈ inside :=
      fun _ => h.closes_header hparens'
    cases h with
    | cons hgap hread hrest =>
      refine .cons hgap ?_ (ih hrest hparens')
      rw [chars_bracketed] at hread ⊢
      exact token?_bounded hread hheader more'

end Reads

theorem closes_round {t : Token TokenKind} (h : t.side = .closes .round) : t.kind = .rparen := by
  obtain ⟨kind, text, span, spaced⟩ := t
  cases kind <;> first | rfl | cases h

/-- The word that a token is whose kind is written in one way only. -/
theorem Outline.Word.Spells.eq {w : Word} {offset : Nat} {t : Token TokenKind} (h : w.Spells offset t)
    (ht : Manifest.IsSpelled t) {kind : TokenKind} {text : List Char} (hkind : t.kind = kind)
    (htext : kind.spelling? = some (String.ofList text)) : w = ⟨w.gap, kind, text⟩ := by
  have hw : w.text = text := String.ofList_inj.mp (h.text.symm.trans (ht _ (hkind ▸ htext)))
  rw [← hw, ← hkind, h.kind]

/-- Every parenthesis among words whose brackets close each other is closed behind it. -/
theorem Outline.Lies.closes_paren {offset : Nat} {w : Word} {ws post : List Word} {inside : List (Token TokenKind)}
    (hlies : Lies offset ws inside) (hnested : Nested inside) (hspelled : ∀ t ∈ inside, Manifest.IsSpelled t)
    (hpost : w :: post <:+ ws) (hw : w.kind = .lparen) : ')' ∈ chars post := by
  obtain ⟨pre, rfl⟩ := hpost
  obtain ⟨front, rest, rfl, -, hrest⟩ := hlies.append
  cases hrest with
  | @cons _ _ _ t us ht hus =>
    rw [Nested, nest_append] at hnested
    obtain ⟨open_, -, hopen⟩ := Option.bind_eq_some_iff.mp hnested
    have hside : t.side = .opens .round := congrArg TokenKind.side (ht.kind.trans hw)
    rw [nest_opens hside] at hopen
    obtain ⟨u, hu, hcloses⟩ := exists_closes hopen List.mem_cons_self
    obtain ⟨v, hv, n, hvu⟩ := hus.mem hu
    have huspelled : Manifest.IsSpelled u := hspelled u (List.mem_append_right _ (List.mem_cons_of_mem _ hu))
    have hword : v = ⟨v.gap, .rparen, [')']⟩ := hvu.eq huspelled (closes_round hcloses) rfl
    refine List.mem_flatMap.mpr ⟨v, hv, List.mem_append_right _ ?_⟩
    rw [hword]
    exact List.mem_singleton_self _

theorem Outline.Lies.passable {offset : Nat} {ws : List Word} {inside : List (Token TokenKind)}
    (hlies : Lies offset ws inside) (hnested : Nested inside) : Passable ws := by
  intro offset' ts hts last outer more
  refine group_passes ?_ more
  rw [Nested, nest_congr (hts.kinds.trans hlies.kinds.symm)]
  exact hnested

/-! ## Types -/

/-- The type stands in the text as a type name with or without a group in square brackets, and there is no heredoc and
no comment in it: none of its tokens opens a heredoc, and nothing but blanks stands between them. -/
def WrittenType (text : List Char) (type : String) : Prop :=
  ∃ found before ws used, scan text = .ok found ∧ before ++ chars ws <+: text ∧ used <:+: found.tokens ∧
    Lies (byteLength before) ws used ∧ IsType used ∧ (∀ t ∈ used.head?, t.kind = .typeName) ∧ (∀ t ∈ used, ¬IsHeader t) ∧
    (∀ w ∈ ws, Blanks w.gap) ∧ (∀ w ∈ ws.head?, w.gap = []) ∧ type = String.ofList (chars ws)

/-- A type that is read alike wherever no name goes on behind it. -/
structure TypeText where
  name : List Char
  args : List Word
  isName : IsReference Char.isUpper name
  isApplied : IsApplied args
  reads : ∀ {more last}, Delimited more → Delimited (chars args ++ more) ∧ Reads more last args

namespace TypeText

def words (t : TypeText) : Piece := fun gap => ⟨gap, .typeName, t.name⟩ :: t.args

def written (t : TypeText) : String := String.ofList (t.name ++ chars t.args)

def any : TypeText where
  name := "Any".toList
  args := []
  isName := .inl (.part rfl (List.all_eq_true.mp rfl))
  isApplied := .bare
  reads := fun h => ⟨h, .nil⟩

end TypeText

theorem delimited_blanks {gap more : List Char} (hgap : Blanks gap) (hmore : Delimited more) : Delimited (gap ++ more) := by
  cases gap with
  | nil => exact hmore
  | cons c gap =>
    have hc : isGap c = true := hgap c List.mem_cons_self
    simp only [isGap, Bool.or_eq_true, beq_iff_eq] at hc
    rw [List.cons_append]
    rcases hc with (((rfl | rfl) | rfl) | rfl) | rfl <;> exact delimited_cons (by decide) _

/-- Brackets of a text are read alike behind every type name. -/
theorem Reads.brackets {more gap gap' : List Char} {last : Option TokenKind} {inside : List Word}
    (h : Reads more last (⟨gap, .lbracket, ['[']⟩ :: (inside ++ [rbracketWord gap'])))
    (hparens : ∀ v post, v :: post <:+ inside → v.kind = .lparen → ')' ∈ chars post) (more' : List Char)
    (last' : Option TokenKind) :
    Delimited (chars (⟨gap, .lbracket, ['[']⟩ :: (inside ++ [rbracketWord gap'])) ++ more') ∧
      Reads more' last' (⟨gap, .lbracket, ['[']⟩ :: (inside ++ [rbracketWord gap'])) := by
  cases h with
  | cons hgap _ hrest =>
    refine ⟨?_, .cons hgap rfl (hrest.bounded hparens more')⟩
    rw [chars_cons, Word.chars, List.append_assoc, List.append_assoc]
    exact delimited_blanks hgap (delimited_cons (by decide) _)

/-- The words of a type are its name and what is applied to it, which is read alike behind every type name. -/
theorem IsType.words {offset : Nat} {ws : List Word} {ts : List (Token TokenKind)} (h : IsType ts) (hlies : Lies offset ws ts)
    (hspelled : ∀ t ∈ ts, Manifest.IsSpelled t) :
    ∃ w args, ws = w :: args ∧ (∃ n ∈ ts.head?, w.Spells offset n) ∧ IsApplied args ∧
      ∀ {more last}, Reads more last args → ∀ {more'} last', Delimited more' →
        Delimited (chars args ++ more') ∧ Reads more' last' args := by
  cases h with
  | bare n =>
    cases hlies with
    | @cons _ w _ _ _ hw hnone =>
      cases hnone
      exact ⟨w, [], rfl, ⟨n, rfl, hw⟩, .bare, fun _ _ _ hmore => ⟨hmore, .nil⟩⟩
  | @group n o c inside ho hnested hc =>
    cases hlies with
    | @cons _ w _ _ _ hw hargs =>
      cases hargs with
      | @cons _ wo _ _ _ hwo hrest =>
        obtain ⟨winside, wclose, rfl, hwinside, hwclose⟩ := Lies.split hrest
        cases hwclose with
        | @cons _ wc _ _ _ hwc hnone =>
          cases hnone
          have hopen : wo = ⟨wo.gap, .lbracket, ['[']⟩ := hwo.eq (hspelled o (by simp)) ho rfl
          have hclose : wc = rbracketWord wc.gap := hwc.eq (hspelled c (by simp)) hc rfl
          have hinside : ∀ t ∈ inside, Manifest.IsSpelled t := fun t ht => hspelled t (by simp [ht])
          rw [hopen, hclose]
          refine ⟨w, _, rfl, ⟨n, rfl, hw⟩, .brackets rfl rfl (hwinside.passable hnested), ?_⟩
          intro more last hargs more' last' _
          exact hargs.brackets (fun v post => hwinside.closes_paren hnested hinside) more' last'

/-- A type that is written in a text is read alike behind other words. -/
theorem WrittenType.shown {text : List Char} {type : String} (h : WrittenType text type) :
    ∃ t : TypeText, t.written = type := by
  obtain ⟨found, before, ws, used, hscan, ⟨after, htext⟩, hpart, hlies, htype, hkind, hheaders, hgaps, hfirst, rfl⟩ := h
  obtain ⟨last, hlexed⟩ := (scan_lexed hscan).part hpart
  have hreads : Reads after last ws := hlexed.reads (by rw [← htext, List.append_assoc]) hlies hgaps hheaders
  have hspelled : ∀ t ∈ used, Manifest.IsSpelled t := fun t ht => scan_spelled_kinds hscan t (hpart.subset ht)
  obtain ⟨w, args, rfl, ⟨n, hn, hw⟩, happlied, hargs⟩ := htype.words hlies hspelled
  have hname : IsReference Char.isUpper w.text := by
    have hworded := scan_worded hscan n (hpart.subset (List.mem_of_mem_head? hn))
    rw [hkind n hn, hw.text, String.toList_ofList] at hworded
    exact hworded
  cases hreads with
  | cons _ _ hrest =>
    refine ⟨⟨w.text, args, hname, happlied, hargs hrest _⟩, ?_⟩
    have hgap : w.gap = [] := hfirst w rfl
    simp [TypeText.written, Word.chars, hgap]

/-! ## Pieces -/

/-- Behind blanks, and where no name goes on, the piece is read. -/
def IsRead (p : Piece) : Prop :=
  ∀ {more gap rest}, Blanks gap → Delimited (chars rest ++ more) → (∀ last, Reads more last rest) →
    ∀ last, Reads more last (p gap ++ rest)

section Pieces

variable {more gap : List Char} {rest : List Word} {p : Piece} {ps : List Piece}

theorem reads_name {kind : TokenKind} {cs : List Char} (hgap : Blanks gap) (hname : IsReference isLowerStart cs)
    (hkind : (keyword? cs).getD .name = kind) (hslash : kind ≠ .slash) (hrest : Delimited (chars rest ++ more))
    (h : ∀ last, Reads more last rest) : ∀ last, Reads more last (⟨gap, kind, cs⟩ :: rest) := by
  have hl := lexeme?_word hname hrest
  rw [hkind] at hl
  exact reads_sign hgap (hname.starts (by decide)) hslash hl h

theorem reads_separated (hps : ∀ p ∈ ps, IsRead p) (hgap : Blanks gap) (hrest : Delimited (chars rest ++ more))
    (h : ∀ last, Reads more last rest) (last : Option TokenKind) : Reads more last (separated gap ps ++ rest) := by
  induction ps generalizing gap last with
  | nil => exact h last
  | cons p ps ih =>
    cases ps with
    | nil => exact hps p (by simp) hgap hrest h last
    | cons q ps =>
      rw [separated, List.append_assoc]
      refine hps p (by simp) hgap (delimited_cons (c := ',') (by decide) _) (fun last => ?_) last
      refine reads_sign blanks_nil ⟨',', [], rfl, rfl⟩ (by decide) rfl (fun last => ?_) last
      exact ih (fun r hr => hps r (List.mem_cons_of_mem _ hr)) blanks_space last

theorem chars_separated (h : ∀ q ∈ p :: ps, Opens q) (gap : List Char) :
    chars (separated gap (p :: ps)) = gap ++ List.intercalate [',', ' '] ((p :: ps).map fun q => chars (q [])) := by
  induction ps generalizing p gap with
  | nil => rw [separated, (h p (by simp)).chars_eq, List.map_singleton, List.intercalate_singleton]
  | cons q ps ih =>
    have hps := ih (fun r hr => h r (List.mem_cons_of_mem _ hr)) [' ']
    rw [List.map_cons] at hps
    rw [separated, chars_append, chars_cons, (h p (by simp)).chars_eq, hps, List.map_cons, List.map_cons,
      List.intercalate_cons_cons]
    simp [Word.chars]

theorem TypeText.isRead (t : TypeText) : IsRead t.words := by
  intro more gap rest hgap hrest h last
  have hargs : ∀ last, Delimited (chars t.args ++ (chars rest ++ more)) ∧ Reads (chars rest ++ more) last t.args :=
    fun _ => t.reads hrest
  refine reads_sign hgap (t.isName.starts (by decide)) (by decide) (lexeme?_typeName t.isName ?_) (fun last => ?_) last
  · show Delimited (chars (t.args ++ rest) ++ more)
    rw [chars_append, List.append_assoc]
    exact (hargs none).1
  · exact (hargs last).2.append h

theorem target_isRead {name : List Char} (hname : IsReference isLowerStart name) (capturesRest : Bool) :
    IsRead (targetWords capturesRest name) := by
  have hvariable : ∀ {more gap rest}, Blanks gap → Delimited (chars rest ++ more) → (∀ last, Reads more last rest) →
      ∀ last, Reads more last (⟨gap, .variable, '$' :: name⟩ :: rest) := fun hgap hrest h =>
    reads_sign hgap ⟨'$', _, rfl, rfl⟩ (by decide) (lexeme?_variable hname hrest) h
  intro more gap rest hgap hrest h last
  cases capturesRest with
  | true => exact reads_sign hgap ⟨'*', [], rfl, rfl⟩ (by decide) rfl (hvariable blanks_nil hrest h) last
  | false => exact hvariable hgap hrest h last

end Pieces

/-! ## Parameters -/

/-- A parameter of a signature that can be displayed. -/
structure ShownParam where
  type : TypeText
  name : List Char
  isName : IsReference isLowerStart name
  isOptional : Bool
  isRepeated : Bool
  /-- What takes all arguments that are left has no default value. -/
  restRequired : isRepeated = true → isOptional = false

namespace ShownParam

variable (p : ShownParam)

def undef : Piece := fun gap => [⟨gap, .name, "undef".toList⟩]

def defaultWords : List Word := if p.isOptional then ⟨[' '], .assign, ['=']⟩ :: undef [' '] else []

def words : Piece := fun gap => p.type.words gap ++ (targetWords p.isRepeated p.name [' '] ++ p.defaultWords)

def param : SignatureParam where
  name := String.ofList p.name
  type := p.type.written
  isOptional := p.isOptional
  isRepeated := p.isRepeated

def default? : Option String := if p.isOptional then some "undef" else none

theorem opens : Opens p.words := ⟨_, _, _, fun _ => rfl⟩

/-- The words are the parameter as it is displayed. -/
theorem chars_words : chars (p.words []) = p.param.display.toList := by
  have hrest := p.restRequired
  cases hrepeated : p.isRepeated <;> cases hoptional : p.isOptional <;>
    simp_all [words, TypeText.words, TypeText.written, param, defaultWords, undef, targetWords, SignatureParam.display,
      Word.chars]

theorem undef_isRead : IsRead undef := by
  intro more gap rest hgap hrest h
  show ∀ last, Reads more last (⟨gap, .name, "undef".toList⟩ :: rest)
  exact reads_name hgap (isReference_letters rfl rfl) rfl (by decide) hrest h

theorem isRead : IsRead p.words := by
  intro more gap rest hgap hrest h last
  rw [words, List.append_assoc, List.append_assoc]
  have hdefault : Delimited (chars (p.defaultWords ++ rest) ++ more) ∧ ∀ last, Reads more last (p.defaultWords ++ rest) := by
    unfold defaultWords
    split
    · refine ⟨delimited_cons (c := ' ') (by decide) _, fun last => ?_⟩
      exact reads_sign blanks_space ⟨'=', [], rfl, rfl⟩ (by decide) rfl (undef_isRead blanks_space hrest h) last
    · exact ⟨hrest, h⟩
  refine p.type.isRead hgap ?_ (target_isRead p.isName p.isRepeated blanks_space hdefault.1 hdefault.2) last
  cases p.isRepeated <;> exact delimited_cons (c := ' ') (by decide) _

theorem takes_defaultWords {front : List Char} {rest : List Word} {n : Nat}
    (hrest : headKind rest = .comma ∨ headKind rest = .rparen) (hn : p.defaultWords.length ≤ n) :
    Takes (optional .assign (do Rule.run n (.defaultValue (← here)))) ⟨front, p.defaultWords ++ rest⟩
      ⟨front ++ chars p.defaultWords, rest⟩ fun s? => s? = p.default? := by
  cases hoptional : p.isOptional with
  | true =>
    have hwords : p.defaultWords = ⟨[' '], .assign, ['=']⟩ :: undef [' '] := if_pos hoptional
    have hdefault : p.default? = some "undef" := if_pos hoptional
    have htrim : Text.trim (chars (undef [])) = chars (undef []) := by decide
    rw [hwords] at hn ⊢
    rw [hdefault, chars_cons, ← List.append_assoc]
    apply takes_optional rfl
    exact (takes_valuePiece ⟨_, _, [], fun _ => rfl⟩ (fun _ => .word rfl .nil) htrim hrest hn).mono fun s hs =>
      congrArg some hs
  | false =>
    have hnot : ¬p.isOptional = true := Bool.eq_false_iff.mp hoptional
    have hwords : p.defaultWords = [] := if_neg hnot
    have hdefault : p.default? = none := if_neg hnot
    have hkind : headKind rest ≠ .assign := by
      rcases hrest with h | h <;> rw [h] <;> decide
    rw [hwords, hdefault, chars_nil, List.append_nil]
    exact takes_not_optional hkind

theorem readAsParam : ReadAsParam p.words (IsDeclared p.name (some p.type.written) p.default? p.isRepeated) := by
  have hhead : ∀ gap ws, headKind (p.words gap ++ ws) = .typeName := fun _ _ => rfl
  refine ⟨fun gap ws => by rw [hhead]; decide, fun gap => Nat.succ_pos _, fun {front gap rest n} hrest hn => ?_⟩
  have hlength : p.defaultWords.length ≤ n := by
    simp only [words, List.length_append] at hn
    omega
  rw [words, chars_append, chars_append, List.append_assoc, List.append_assoc, ← List.append_assoc front,
    ← List.append_assoc (front ++ _)]
  exact takes_typed p.type.isApplied (p.takes_defaultWords hrest hlength)

end ShownParam

/-! ## Functions -/

/-- A function whose signature can be displayed. -/
structure ShownFunction where
  name : Name
  params : List ShownParam
  result : TypeText

namespace ShownFunction

variable (f : ShownFunction)

def clause : List Word := ⟨[' '], .returnArrow, ">>".toList⟩ :: f.result.words [' ']

/-- The words of the function, with an empty body. -/
def words : List Word :=
  blockWords .function f.name.chars (separated [] (f.params.map ShownParam.words)) f.clause [] ⟨[' '], .rbrace, ['\x7d']⟩ []

def signature : Signature where
  params := f.params.map ShownParam.param
  returnType := some f.result.written

theorem chars_params (ps : List ShownParam) :
    chars (separated [] (ps.map ShownParam.words)) =
      (", ".intercalate ((ps.map ShownParam.param).map SignatureParam.display)).toList := by
  have hshown : (ps.map ShownParam.words).map (fun q => chars (q [])) =
      ((ps.map ShownParam.param).map SignatureParam.display).map String.toList := by
    simp [ShownParam.chars_words]
  have hopens : ∀ q ∈ ps.map ShownParam.words, Opens q := by
    intro q hq
    obtain ⟨p, -, rfl⟩ := List.mem_map.mp hq
    exact p.opens
  rw [String.toList_intercalate, ← hshown]
  cases ps with
  | nil => rfl
  | cons p ps => exact chars_separated hopens []

/-- The words are the function as it is displayed, with an empty body. -/
theorem chars_words :
    chars f.words = ("function " ++ f.signature.display (String.ofList f.name.chars) ++ " \x7b \x7d").toList := by
  have hparts : chars f.words = "function".toList ++ (' ' :: f.name.chars ++ ('(' ::
      (chars (separated [] (f.params.map ShownParam.words)) ++ (')' ::
        (" >> ".toList ++ (f.result.written.toList ++ " \x7b \x7d".toList)))))) := by
    simp [words, blockWords, clause, keywordWord, TypeText.words, TypeText.written, Word.chars, DefinitionKind.keyword]
  rw [hparts, chars_params]
  simp [Signature.display, signature]

theorem reads : Reads [] none f.words := by
  have hblank : ∀ more, Delimited (' ' :: more) := delimited_cons (by decide)
  let body : List Word := [⟨[' '], .lbrace, ['\x7b']⟩, ⟨[' '], .rbrace, ['\x7d']⟩]
  have hbody : ∀ last, Reads [] last body :=
    reads_sign blanks_space ⟨'\x7b', [], rfl, rfl⟩ (by decide) rfl
      (reads_sign blanks_space ⟨'\x7d', [], rfl, rfl⟩ (by decide) rfl fun _ => .nil)
  have hclause : ∀ last, Reads [] last (f.clause ++ body) :=
    reads_sign blanks_space ⟨'>', ['>'], rfl, rfl⟩ (by decide) rfl (f.result.isRead blanks_space (hblank _) hbody)
  have hclose : ∀ last, Reads [] last (sign .rparen ")" :: (f.clause ++ body)) :=
    reads_sign blanks_nil ⟨')', [], rfl, rfl⟩ (by decide) rfl hclause
  have hps : ∀ p ∈ f.params.map ShownParam.words, IsRead p := by
    intro p hp
    obtain ⟨param, -, rfl⟩ := List.mem_map.mp hp
    exact param.isRead
  have hopen : ∀ last, Reads [] last (sign .lparen "(" ::
      (separated [] (f.params.map ShownParam.words) ++ sign .rparen ")" :: (f.clause ++ body))) :=
    reads_sign blanks_nil ⟨'(', [], rfl, rfl⟩ (by decide) rfl
      (reads_separated hps blanks_nil (delimited_cons (c := ')') (by decide) _) hclose)
  have hname : (keyword? f.name.chars).getD .name = .name := by rw [f.name.notKeyword]; rfl
  have hnamed := reads_name blanks_space (.inl f.name.isName) hname (by decide) (delimited_cons (c := '(') (by decide) _) hopen
  have hall : ∀ last, Reads [] last f.words :=
    reads_name blanks_nil (isReference_letters rfl rfl) rfl (by decide) (hblank _) hnamed
  exact hall none

theorem params_eq {e : Definition} (h : List.Forall₂
      (fun (p : ShownParam) => IsDeclared p.name (some p.type.written) p.default? p.isRepeated) f.params e.params) :
    (Context.manifestSignature e).params = f.signature.params := by
  show e.params.map _ = f.params.map _
  generalize f.params = ps, e.params = qs at h ⊢
  induction h with
  | nil => rfl
  | @cons p q ps qs hq _ ih =>
    obtain ⟨hname, htype, hdefault, hrest⟩ := hq
    have hoptional : p.default?.isSome = p.isOptional := by
      cases h : p.isOptional <;> simp [ShownParam.default?, h]
    rw [List.map_cons, List.map_cons, ih, hname, htype, hdefault, hrest, hoptional]
    rfl

/-- The definition is a function of this name and with this signature, and it holds no definitions. -/
def Declares (e : Definition) : Prop :=
  e.kind = .function ∧ e.name = String.ofList f.name.chars ∧ e.nested = [] ∧ Context.manifestSignature e = f.signature

theorem takes_definition {n : Nat} (hn : (separated [] (f.params.map ShownParam.words)).length + 1 ≤ n) :
    Takes (Rule.run (n + 1) .definition) ⟨[], f.words ++ []⟩ ⟨[] ++ chars f.words, []⟩ f.Declares := by
  have hclause : ∀ {g : Option String → Option String → P Definition} {front w ws b Q}, w.kind = .lbrace →
      Takes (g none (some f.result.written)) ⟨front ++ chars f.clause, w :: ws⟩ b Q →
      Takes (do g (← optional .inheritsKw (do return (← bump).text)) (← optional .returnArrow readType))
        ⟨front, f.clause ++ w :: ws⟩ b Q := fun hw h => takes_returns f.result.isApplied hw h
  have hbody : ∀ {front rest} (brace : Token TokenKind), headKind rest = .rbrace →
      Takes (Rule.run n (.items (some brace) [])) ⟨front, [] ++ rest⟩ ⟨front ++ chars [], rest⟩ fun ds => ds = [] := by
    intro front rest brace hrest
    obtain ⟨n, rfl⟩ := Nat.exists_eq_add_of_le' (show 1 ≤ n by omega)
    rw [chars_nil, List.append_nil]
    exact takes_no_items (.inr ⟨rfl, hrest⟩)
  show Takes (readDefinition (Rule.run n)) _ _ _
  rw [words]
  refine (takes_block (by decide) rfl (takes_params ShownParam.readAsParam f.params hn) hclause hbody).mono fun e he => ?_
  obtain ⟨hkind, hname, hparams, -, hreturn, -, hnested⟩ := he
  refine ⟨hkind, by rw [hname, unrooted_name], hnested, ?_⟩
  have hsignature : Context.manifestSignature e =
      ⟨(Context.manifestSignature e).params, (Context.manifestSignature e).returnType⟩ := rfl
  rw [hsignature, f.params_eq hparams, Context.manifestSignature, hreturn]
  rfl

/-- The displayed function is parsed, and it is this function. -/
theorem parse : ∃ e, Manifest.parse (chars f.words) = .ok ([e], []) ∧ f.Declares e := by
  have hfollows : Takes (definitionFollows (headKind (f.words ++ []))) ⟨[], f.words ++ []⟩ ⟨[], f.words ++ []⟩
      fun follows => follows = true := by
    have hname : ((f.words ++ [])[1]?).map Word.kind = some .name := rfl
    exact (takes_peekAt hname).bind fun t ht => takes_pure (decide_eq_true ht)
  have hn : (separated [] (f.params.map ShownParam.words)).length + 1 ≤ 2 * f.words.length := by
    rw [words, blockWords]
    simp only [List.length_cons, List.length_append]
    omega
  have hitems : Takes (Rule.run (depthBound f.words.length) (.items none [])) ⟨[], f.words ++ []⟩
      ⟨[] ++ chars f.words, []⟩ fun ds => ∃ e, ds = [e] ∧ f.Declares e := by
    refine takes_items_cons ⟨.function, rfl⟩ hfollows (f.takes_definition hn) fun e he => ?_
    exact (takes_no_items (.inl ⟨rfl, rfl⟩)).mono fun es hes => ⟨e, by rw [hes], he⟩
  rw [List.append_nil] at hitems
  obtain ⟨s, hscan, hcomments, hstop, hlies⟩ := scan_reads f.reads
  obtain ⟨found, hparse, e, rfl, he⟩ := parse_scanned hscan hcomments hstop hlies (List.prefix_refl _) hitems
  exact ⟨e, hparse, he⟩

end ShownFunction

/-! ## Parsed functions -/

/-- A type that is missing is displayed as `Any`. -/
theorem exists_typeText {text : List Char} {type? : Option String} (h : ∀ type ∈ type?, WrittenType text type) :
    ∃ t : TypeText, t.written = type?.getD "Any" := by
  cases type? with
  | none => exact ⟨.any, rfl⟩
  | some type => exact (h type rfl).shown

theorem exists_shownParam {text : List Char} {ts : List (Token TokenKind)} {p : Parameter}
    (htypes : ∀ type ∈ p.type?, WrittenType text type) (hrest : p.capturesRest = true → p.default? = none)
    (hnamed : p.Named ts) (hworded : ∀ t ∈ ts, Worded t.kind t.text.toList) :
    ∃ q : ShownParam, q.param = ⟨p.name, p.type?.getD "Any", p.default?.isSome, p.capturesRest⟩ := by
  obtain ⟨type, htype⟩ := exists_typeText htypes
  obtain ⟨t, ht, hkind, hname⟩ := hnamed
  have hvariable := hworded t ht
  rw [hkind] at hvariable
  obtain ⟨name, htext, hisName⟩ := hvariable
  refine ⟨⟨type, name, hisName, p.default?.isSome, p.capturesRest, fun h => by rw [hrest h]; rfl⟩, ?_⟩
  rw [ShownParam.param, htype, hname, htext]
  rfl

theorem unrooted_reference {cs : List Char} (h : IsReference isLowerStart cs) :
    IsQualified isLowerStart (unrooted (String.ofList cs)).toList := by
  rcases h with h | ⟨path, rfl, h⟩
  · rw [unrooted_qualified h, String.toList_ofList]
    exact h
  · have hpath : (unrooted (String.ofList (':' :: ':' :: path))).toList = path := by
      simp [unrooted, Text.after?]
    rw [hpath]
    exact h

/-- A parsed function is one whose signature can be displayed, unless it is called like a keyword, a type of it is not
only a type name and brackets, or what takes all arguments that are left has a default value. -/
theorem exists_shownFunction {text : List Char} {ds : List Definition} {comments : List Comment}
    (hparse : Manifest.parse text = .ok (ds, comments)) {d : Definition} (hd : d ∈ flattenAll ds) (hkind : d.kind = .function)
    (hname : keyword? d.name.toList = none) (htypes : ∀ p ∈ d.params, ∀ type ∈ p.type?, WrittenType text type)
    (hreturn : ∀ type ∈ d.returnType, WrittenType text type)
    (hrest : ∀ p ∈ d.params, p.capturesRest = true → p.default? = none) :
    ∃ f : ShownFunction, String.ofList f.name.chars = d.name ∧ f.signature = Context.manifestSignature d := by
  obtain ⟨found, -, hscan, -⟩ := parse_ok hparse
  have hworded := scan_worded hscan
  have hnamed := parse_named hparse hscan d hd
  obtain ⟨t, ht, htkind, htname⟩ := hnamed.name (by rw [hkind]; decide)
  have hisName : IsQualified isLowerStart d.name.toList := by
    have hreference := hworded t ht
    rw [htkind] at hreference
    rw [htname, ← String.ofList_toList (s := t.text)]
    exact unrooted_reference hreference
  obtain ⟨result, hresult⟩ := exists_typeText hreturn
  have hparams : (Context.manifestSignature d).params ∈ Set.range (List.map ShownParam.param) := by
    rw [Set.range_list_map]
    intro x hx
    obtain ⟨p, hp, rfl⟩ := List.mem_map.mp hx
    exact exists_shownParam (htypes p hp) (hrest p hp) (hnamed.params p hp) hworded
  obtain ⟨params, hparams⟩ := hparams
  refine ⟨⟨⟨d.name.toList, hisName, hname⟩, params, result⟩, String.ofList_toList, ?_⟩
  rw [ShownFunction.signature, hparams, hresult]
  rfl

/-- A displayed signature is a function of the Puppet language with the name and the signature of the function it was
displayed for. -/
theorem parse_displayed {text : List Char} {ds : List Definition} {comments : List Comment}
    (hparse : Manifest.parse text = .ok (ds, comments)) {d : Definition} (hd : d ∈ flattenAll ds) (hkind : d.kind = .function)
    (hname : keyword? d.name.toList = none) (htypes : ∀ p ∈ d.params, ∀ type ∈ p.type?, WrittenType text type)
    (hreturn : ∀ type ∈ d.returnType, WrittenType text type)
    (hrest : ∀ p ∈ d.params, p.capturesRest = true → p.default? = none) :
    ∃ e, Manifest.parse ("function " ++ (Context.manifestSignature d).display d.name ++ " \x7b \x7d").toList = .ok ([e], []) ∧
      e.kind = .function ∧ e.name = d.name ∧ e.nested = [] ∧
      Context.manifestSignature e = Context.manifestSignature d := by
  obtain ⟨f, hfname, hsignature⟩ := exists_shownFunction hparse hd hkind hname htypes hreturn hrest
  obtain ⟨e, heparse, hekind, hename, hnested, hesignature⟩ := f.parse
  rw [f.chars_words, hfname, hsignature] at heparse
  exact ⟨e, heparse, hekind, hename.trans hfname, hnested, hesignature.trans hsignature⟩

/-- Closing brackets in a regular expression and in a string, a default value, and a parameter for what is left. -/
theorem parse_displayed_brackets :
    let text := "function m::f(Pattern[/]/, \"]\"] $a = 'x', *$b) >> Pattern[/]/, \"]\"] \x7b \x7d".toList
    ∃ ds comments d e, Manifest.parse text = .ok (ds, comments) ∧ flattenAll ds = [d] ∧
      (Context.manifestSignature d).display d.name =
        "m::f(Pattern[/]/, \"]\"] $a = undef, Any *$b) >> Pattern[/]/, \"]\"]" ∧
      Manifest.parse ("function " ++ (Context.manifestSignature d).display d.name ++ " \x7b \x7d").toList = .ok ([e], []) ∧
      Context.manifestSignature e = Context.manifestSignature d := by
  intro text
  let before : List Char := "function m::f(".toList
  let ws : List Word := [⟨[], .typeName, "Pattern".toList⟩, sign .lbracket "[", sign .regex "/]/", sign .comma ",",
    ⟨[' '], .string, "\"]\"".toList⟩, rbracketWord []]
  let used : List (Token TokenKind) := [⟨.typeName, "Pattern", ⟨14, 21⟩, false⟩, ⟨.lbracket, "[", ⟨21, 22⟩, false⟩,
    ⟨.regex, "/]/", ⟨22, 25⟩, false⟩, ⟨.comma, ",", ⟨25, 26⟩, false⟩, ⟨.string, "\"]\"", ⟨27, 30⟩, true⟩,
    ⟨.rbracket, "]", ⟨30, 31⟩, false⟩]
  have hscans : (match scan text with
      | .ok found => (found.tokens.drop 3).take 6 == used
      | .error _ => false) = true := by decide +kernel
  have hparses : (match Manifest.parse text with
      | .ok (ds, _) => (flattenAll ds).map (fun d => (d.kind, d.name, d.params, d.returnType)) ==
          [(.function, "m::f", [⟨"a", some "Pattern[/]/, \"]\"]", some "'x'", false, 1⟩, ⟨"b", none, none, true, 1⟩],
            some "Pattern[/]/, \"]\"]")]
      | .error _ => false) = true := by decide +kernel
  cases hscan : scan text with
  | error e =>
    rw [hscan] at hscans
    cases hscans
  | ok found =>
    rw [hscan] at hscans
    have hused : used <:+: found.tokens := by
      rw [← eq_of_beq hscans]
      exact (List.take_prefix _ _).isInfix.trans (List.drop_suffix _ _).isInfix
    have hlies : Lies (byteLength before) ws used :=
      .cons ⟨rfl, rfl, rfl⟩ (.cons ⟨rfl, rfl, rfl⟩ (.cons ⟨rfl, rfl, rfl⟩ (.cons ⟨rfl, rfl, rfl⟩
        (.cons ⟨rfl, rfl, rfl⟩ (.cons ⟨rfl, rfl, rfl⟩ .nil)))))
    have hwritten : WrittenType text "Pattern[/]/, \"]\"]" := by
      refine ⟨found, before, ws, used, hscan, by decide, hused, hlies, ?_, ?_, ?_, ?_, ?_, rfl⟩
      · show IsType (_ :: _ :: (used.drop 2).take 3 ++ [_])
        exact .group rfl rfl rfl
      · simp [used]
      · simp [used, IsHeader]
      · simp [ws, blanks_nil, blanks_space]
      · simp [ws]
    cases hparse : Manifest.parse text with
    | error e =>
      rw [hparse] at hparses
      cases hparses
    | ok parsed =>
      obtain ⟨ds, comments⟩ := parsed
      rw [hparse] at hparses
      obtain ⟨d, hd, hshape⟩ := List.map_eq_singleton_iff.mp (eq_of_beq hparses)
      obtain ⟨hkind, hname, hparams, hreturn⟩ : d.kind = .function ∧ d.name = "m::f" ∧ d.params =
          [⟨"a", some "Pattern[/]/, \"]\"]", some "'x'", false, 1⟩, ⟨"b", none, none, true, 1⟩] ∧
          d.returnType = some "Pattern[/]/, \"]\"]" := by simpa using hshape
      obtain ⟨e, he, -, -, -, hsignature⟩ := parse_displayed hparse (d := d) (by rw [hd]; exact List.mem_cons_self) hkind
        (by rw [hname]; rfl) (by simpa [hparams] using hwritten) (by simpa [hreturn] using hwritten) (by simp [hparams])
      refine ⟨ds, comments, d, e, rfl, hd, ?_, he, hsignature⟩
      rw [Context.manifestSignature, hname, hparams, hreturn]
      decide

end PuppetDocs.Manifest
