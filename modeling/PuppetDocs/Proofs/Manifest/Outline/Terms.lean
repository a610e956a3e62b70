import PuppetDocs.Proofs.Manifest.Groups
import PuppetDocs.Proofs.Manifest.Outline.Spelled
import PuppetDocs.Proofs.Manifest.Outline.Takes
import PuppetDocs.Proofs.Text.Trim

/-
  PuppetDocs.Proofs.Manifest.Outline.Terms — types and default values are read as they are written.

  The reader never looks into a term: it passes over bracketed groups, and cuts the text of a
  type or a default value out of the manifest. So what matters of the words of a type is that
  those in its brackets are `Passable`, and of the words of any term that they are `Balanced`,
  without a comma outside of brackets, and that they neither start nor end with a blank. Strings
  are single words, whatever stands in them.
-/

namespace PuppetDocs.Manifest.Outline

open ParseM
open Ruby.Decl (Quote)
open Text (byteLength isBlank isBlank_of_isNameChar isNameChar trim trim_of_ends trim_of_solid)

/-! ## Brackets -/

/-- Words that belong to a term and are no brackets and no commas. -/
def isInner : TokenKind → Bool
  | .string | .number | .operator | .name | .typeName | .fatArrow => true
  | _ => false

/-- Every bracket opened by the words is closed by them; a comma stands only in brackets unless `commas` is true. -/
inductive Balanced : Bool → List Word → Prop
  | nil {commas : Bool} : Balanced commas []
  | word {commas : Bool} {w : Word} {ws : List Word} : isInner w.kind = true → Balanced commas ws →
      Balanced commas (w :: ws)
  | comma {w : Word} {ws : List Word} : w.kind = .comma → Balanced true ws → Balanced true (w :: ws)
  | group {commas : Bool} {o c : Word} {inside ws : List Word} : isOpening o.kind = true → closes o.kind c.kind = true →
      Balanced true inside → Balanced commas ws → Balanced commas (o :: (inside ++ c :: ws))

theorem Balanced.append {commas : Bool} {ws ws' : List Word} (h : Balanced commas ws) (h' : Balanced commas ws') :
    Balanced commas (ws ++ ws') := by
  induction h with
  | nil => exact h'
  | word hkind _ ih => exact .word hkind (ih h')
  | comma hkind _ ih => exact .comma hkind (ih h')
  | group hopening hcloses hinside _ _ ih =>
    rw [List.cons_append, List.append_assoc]
    exact .group hopening hcloses hinside (ih h')

theorem Balanced.commas {ws : List Word} (h : Balanced false ws) : Balanced true ws := by
  generalize hcommas : false = commas at h
  induction h with
  | nil => exact .nil
  | word hkind _ ih => exact .word hkind (ih hcommas)
  | comma => cases hcommas
  | group hopening hcloses hinside _ _ ih => exact .group hopening hcloses hinside (ih hcommas)

theorem inner_plain {k : TokenKind} (h : isInner k = true) : isOpening k = false ∧ isClosing k = false := by
  cases k <;> first | exact ⟨rfl, rfl⟩ | cases h

theorem Lies.append {offset : Nat} {ws ws' : List Word} {ts : List (Token TokenKind)} (h : Lies offset (ws ++ ws') ts) :
    ∃ front rest, ts = front ++ rest ∧ Lies offset ws front ∧ Lies (offset + byteLength (chars ws)) ws' rest := by
  induction ws generalizing offset ts with
  | nil => exact ⟨[], ts, rfl, .nil, by simpa using h⟩
  | cons w ws ih =>
    cases h with
    | @cons _ _ _ t ts ht hts =>
      obtain ⟨front, rest, rfl, hfront, hrest⟩ := ih hts
      refine ⟨t :: front, rest, rfl, .cons ht hfront, ?_⟩
      simpa [Nat.add_assoc] using hrest

/-- The words that consecutive tokens are. -/
theorem Lies.split {offset : Nat} {ws : List Word} {ts us : List (Token TokenKind)} (h : Lies offset ws (ts ++ us)) :
    ∃ front rest, ws = front ++ rest ∧ Lies offset front ts ∧ Lies (offset + byteLength (chars front)) rest us := by
  induction ts generalizing offset ws with
  | nil => exact ⟨[], ws, rfl, .nil, by simpa using h⟩
  | cons t ts ih =>
    cases h with
    | @cons _ w ws _ _ ht hts =>
      obtain ⟨front, rest, rfl, hfront, hrest⟩ := ih hts
      refine ⟨w :: front, rest, rfl, .cons ht hfront, ?_⟩
      simpa [Nat.add_assoc] using hrest

theorem Lies.mem {offset : Nat} {ws : List Word} {ts : List (Token TokenKind)} (h : Lies offset ws ts)
    {t : Token TokenKind} (ht : t ∈ ts) : ∃ w ∈ ws, ∃ n, w.Spells n t := by
  induction h with
  | nil => cases ht
  | cons hw _ ih =>
    rcases List.mem_cons.mp ht with rfl | ht
    · exact ⟨_, List.mem_cons_self, _, hw⟩
    · obtain ⟨v, hv, hspells⟩ := ih ht
      exact ⟨v, List.mem_cons_of_mem _ hv, hspells⟩

/-- Reading on for open brackets passes over the words. -/
def Passable (ws : List Word) : Prop :=
  ∀ {offset : Nat} {ts : List (Token TokenKind)}, Lies offset ws ts →
    ∀ (last : Token TokenKind) (outer more : List (Token TokenKind)),
      group last outer (ts ++ more) = group last outer more

theorem Balanced.passable {commas : Bool} {ws : List Word} (h : Balanced commas ws) : Passable ws := by
  intro offset ts hlies last outer more
  induction h generalizing offset ts last outer more with
  | nil =>
    cases hlies
    rfl
  | word hkind _ ih =>
    cases hlies with
    | cons ht hts =>
      rw [List.cons_append, group_plain (ht.kind ▸ inner_plain hkind)]
      exact ih hts last outer more
  | comma hkind _ ih =>
    cases hlies with
    | cons ht hts =>
      rw [List.cons_append, group_plain (by rw [ht.kind, hkind]; exact ⟨rfl, rfl⟩)]
      exact ih hts last outer more
  | @group commas o c inside ws hopening hcloses _ _ ihinside ih =>
    cases hlies with
    | @cons _ _ _ t ts ht hts =>
      obtain ⟨tinside, tclose, rfl, hinside, hclose⟩ := hts.append
      cases hclose with
      | @cons _ _ _ u us hu hus =>
        have htu : closes t.kind u.kind = true := by rw [ht.kind, hu.kind, hcloses]
        -- Inside the group its opener lies on top of `last`, and behind it `last` is on top again.
        rw [List.cons_append, group_opening (by rw [ht.kind, hopening]), List.append_assoc,
          ihinside hinside t (last :: outer), List.cons_append, group_closing htu]
        exact ih hus last outer more

theorem takes_skipGroup {front : List Char} {o c : Word} {inside rest : List Word}
    (hcloses : closes o.kind c.kind = true) (h : Passable inside) :
    Takes skipGroup ⟨front, o :: (inside ++ c :: rest)⟩ ⟨front ++ chars (o :: (inside ++ [c])), rest⟩
      fun _ => True := by
  apply takes_bump.bind
  intro opener hopener env stop tokens _ htext hlies
  obtain ⟨tinside, tclose, rfl, hinside, hclose⟩ := hlies.append
  cases hclose with
  | @cons _ _ _ u us hu hus =>
    have hgroup : group opener [] (tinside ++ u :: us) = .closed us u.span.stop := by
      rw [h hinside, group_closed_here (by rw [hopener.kind, hu.kind, hcloses])]
    have hoffset : (Place.mk (front ++ chars (o :: (inside ++ [c]))) rest).offset = u.span.stop := by
      rw [hu.span]
      simp [Place.offset, Nat.add_assoc]
    refine ⟨(), us, ?_, by simp [Place.text], ?_, trivial⟩
    · rw [get_bind, hoffset]
      dsimp only
      rw [hgroup]
      rfl
    · rw [hoffset, hu.span]
      simpa [Place.offset, Nat.add_assoc] using hus

/-! ## Terms are balanced -/

theorem separated_balanced {ps : List Piece} (h : ∀ p ∈ ps, ∀ gap, Balanced false (p gap)) (gap : List Char) :
    Balanced true (separated gap ps) := by
  induction ps generalizing gap with
  | nil => exact .nil
  | cons p ps ih =>
    have hp : Balanced true (p gap) := (h p (by simp) gap).commas
    cases ps with
    | nil => exact hp
    | cons q ps => exact hp.append (.comma rfl (ih (fun r hr => h r (List.mem_cons_of_mem _ hr)) [' ']))

theorem Number.balanced (n : Number) (gap : List Char) : Balanced false (n.words gap) := by
  have hmagnitude : ∀ gap, Balanced false (n.magnitude gap) := by
    intro gap
    obtain ⟨negative, digits, exponent⟩ := n
    cases exponent with
    | none => exact .word rfl .nil
    | some exponent => exact .word rfl (.word rfl (.word rfl .nil))
  unfold Number.words
  split
  · exact .word rfl (hmagnitude [])
  · exact hmagnitude gap

mutual

theorem Term.balanced : ∀ (t : Term) (gap : List Char), Balanced false (t.words gap)
  | .str _, _ => .word rfl .nil
  | .number n, gap => n.balanced gap
  | .type t, gap => t.balanced gap
  | .array items, _ => .group rfl rfl (separated_balanced (terms_balanced items) []) .nil
  | .hash entries, _ => .group rfl rfl (separated_balanced (entries_balanced entries) []) .nil

theorem terms_balanced : ∀ (ts : List Term), ∀ p ∈ termPieces ts, ∀ gap, Balanced false (p gap)
  | [], _, hp, _ => nomatch hp
  | t :: ts, p, hp, gap => by
    rw [termPieces] at hp
    rcases List.mem_cons.mp hp with rfl | hp
    · exact t.balanced gap
    · exact terms_balanced ts p hp gap

theorem Entry.balanced : ∀ (e : Entry) (gap : List Char), Balanced false (e.words gap)
  | .mk key value, gap => (key.balanced gap).append (.word rfl (value.balanced [' ']))

theorem entries_balanced : ∀ (es : List Entry), ∀ p ∈ entryPieces es, ∀ gap, Balanced false (p gap)
  | [], _, hp, _ => nomatch hp
  | e :: es, p, hp, gap => by
    rw [entryPieces] at hp
    rcases List.mem_cons.mp hp with rfl | hp
    · exact e.balanced gap
    · exact entries_balanced es p hp gap

theorem TypeExpr.balanced : ∀ (t : TypeExpr) (gap : List Char), Balanced false (t.words gap)
  | .name _, _ => .word rfl .nil
  | .applied _ args, _ => .word rfl (.group rfl rfl (separated_balanced (terms_balanced args) []) .nil)

end

/-! ## Terms begin and end with no blank -/

theorem isBlank_of_isUpper {c : Char} (h : c.isUpper = true) : isBlank c = false := by
  have hletter : c.isAlpha = true := Bool.or_eq_true_iff.mpr (.inl h)
  exact isBlank_of_isNameChar (by simp [isNameChar, Char.isAlphanum, hletter])

theorem IsQualified.solid {start : Char → Bool} (hstart : ∀ c, start c = true → isBlank c = false) {cs : List Char}
    (h : IsQualified start cs) : ∀ c ∈ cs, isBlank c = false := by
  induction h with
  | part hc hbody =>
    intro d hd
    rcases List.mem_cons.mp hd with rfl | hd
    · exact hstart d hc
    · exact isBlank_of_isNameChar (hbody d hd)
  | member hc hbody _ ih =>
    intro d hd
    simp only [List.mem_cons, List.mem_append] at hd
    rcases hd with rfl | hd | rfl | rfl | hd
    · exact hstart d hc
    · exact isBlank_of_isNameChar (hbody d hd)
    · decide
    · decide
    · exact ih d hd

theorem TypeName.solid (n : TypeName) : ∀ c ∈ n.chars, isBlank c = false := by
  rcases n.isName with h | ⟨path, heq, h⟩
  · exact h.solid fun _ => isBlank_of_isUpper
  · rw [heq]
    intro c hc
    simp only [List.mem_cons] at hc
    rcases hc with rfl | rfl | hc
    · decide
    · decide
    · exact h.solid (fun _ => isBlank_of_isUpper) c hc

theorem Numeral.solid (n : Numeral) : ∀ c ∈ n.chars, isBlank c = false := by
  obtain ⟨c, body, heq, hc, hbody⟩ := n.isNumeral
  rw [heq]
  intro d hd
  rcases List.mem_cons.mp hd with rfl | hd
  · exact isBlank_of_isNameChar (by simp [isNameChar, Char.isAlphanum, hc])
  · rcases Bool.or_eq_true_iff.mp (hbody d hd) with h | h
    · exact isBlank_of_isNameChar h
    · rw [beq_iff_eq.mp h]
      decide

theorem Number.solid (n : Number) : ∀ c ∈ chars (n.words []), isBlank c = false := by
  have hmagnitude : ∀ c ∈ chars (n.magnitude []), isBlank c = false := by
    obtain ⟨negative, digits, exponent⟩ := n
    intro c hc
    cases exponent with
    | none => exact digits.solid c (by simpa [Number.magnitude, Word.chars] using hc)
    | some exponent =>
      simp only [Number.magnitude, chars_cons, chars_nil, Word.chars, List.nil_append, List.append_nil,
        List.mem_append, List.mem_singleton] at hc
      rcases hc with (hc | rfl) | hc | hc
      · exact digits.solid c hc
      · decide
      · rw [List.mem_singleton.mp hc]
        decide
      · exact exponent.solid c hc
  unfold Number.words
  split
  · intro c hc
    rcases List.mem_cons.mp hc with rfl | hc
    · decide
    · exact hmagnitude c hc
  · exact hmagnitude

theorem TypeExpr.trim (t : TypeExpr) : Text.trim (chars (t.words [])) = chars (t.words []) := by
  cases t with
  | name n => exact trim_of_solid (by simpa [TypeExpr.words, Word.chars] using n.solid)
  | applied n args =>
    obtain ⟨c, r, heq, -⟩ := n.isName.head
    have hc : isBlank c = false := n.solid c (by rw [heq]; simp)
    have hends := trim_of_ends hc (by decide : isBlank ']' = false) (r ++ '[' :: chars (separated [] (termPieces args)))
    simpa [TypeExpr.words, Word.chars, heq] using hends

theorem Term.trim (t : Term) : Text.trim (chars (t.words [])) = chars (t.words []) := by
  cases t with
  | str content =>
    simpa [Term.words, Word.chars, Quote.enclose, Quote.char] using trim_of_ends (c := '\'') (d := '\'') rfl rfl _
  | number n => exact trim_of_solid n.solid
  | type t => exact t.trim
  | array items => simpa [Term.words, Word.chars] using trim_of_ends (c := '[') (d := ']') rfl rfl _
  | hash entries => simpa [Term.words, Word.chars] using trim_of_ends (c := '\x7b') (d := '\x7d') rfl rfl _

/-! ## Types -/

theorem Opens.chars_eq {p : Piece} (h : Opens p) (gap : List Char) : chars (p gap) = gap ++ chars (p []) := by
  obtain ⟨kind, text, ws, heq⟩ := h
  rw [heq, heq]
  simp [Word.chars]

section Terms

variable {front gap : List Char} {rest : List Word}

/-- The text that has been read since a place in front of this one. -/
theorem takes_text {start inside : List Char} {a : Place} (h : a.front = start ++ inside) :
    Takes (do return String.ofList (← written (byteLength start) (← ParseM.prevEnd))) a a
      fun s => s = String.ofList inside := by
  apply takes_prevEnd.known
  apply (takes_written h).known
  exact takes_pure rfl

/-- What may stand behind a type name: nothing, or square brackets. -/
inductive IsApplied : List Word → Prop
  | bare : IsApplied []
  | brackets {o c : Word} {inside : List Word} : o.kind = .lbracket → c.kind = .rbracket → Passable inside →
      IsApplied (o :: (inside ++ [c]))

/-- A type is read up to the end of its brackets. -/
theorem takes_applied {name : List Char} {args : List Word} (h : IsApplied args) (hrest : headKind rest ≠ .lbracket) :
    Takes readType ⟨front, ⟨gap, .typeName, name⟩ :: (args ++ rest)⟩
      ⟨front ++ chars (⟨gap, .typeName, name⟩ :: args), rest⟩ fun s => s = String.ofList (name ++ chars args) := by
  have hfront : front ++ chars (⟨gap, .typeName, name⟩ :: args) = (front ++ gap) ++ (name ++ chars args) := by
    simp [Word.chars]
  apply takes_bump.bind
  intro t ht
  have hstart : t.span.start = byteLength (front ++ gap) := by rw [ht.span, Text.byteLength_append]
  rw [hstart]
  cases h with
  | bare =>
    have hend : front ++ chars [⟨gap, .typeName, name⟩] = front ++ Word.chars ⟨gap, .typeName, name⟩ := by simp
    rw [hend] at hfront ⊢
    apply (takes_at (decide_eq_false hrest)).known
    exact takes_text hfront
  | @brackets o c inside ho hc hinside =>
    have hwords : o :: (inside ++ [c]) ++ rest = o :: (inside ++ c :: rest) := by simp
    have hend : front ++ chars (⟨gap, .typeName, name⟩ :: o :: (inside ++ [c])) =
        front ++ Word.chars ⟨gap, .typeName, name⟩ ++ chars (o :: (inside ++ [c])) := by
      simp
    rw [hwords]
    rw [hend] at hfront ⊢
    have hopens : headKind (o :: (inside ++ c :: rest)) = .lbracket := ho
    apply (takes_at (decide_eq_true hopens)).known
    refine Takes.next (takes_skipGroup (by rw [ho, hc]; rfl) hinside) fun _ => ?_
    exact takes_text hfront

theorem TypeExpr.applied_words (t : TypeExpr) :
    ∃ name args, IsApplied args ∧ ∀ gap, t.words gap = ⟨gap, .typeName, name⟩ :: args := by
  cases t with
  | name n => exact ⟨n.chars, [], .bare, fun _ => rfl⟩
  | applied n args =>
    have hinside : Passable (separated [] (termPieces args)) := (separated_balanced (terms_balanced args) []).passable
    exact ⟨n.chars, _, .brackets rfl rfl hinside, fun _ => rfl⟩

theorem takes_type (t : TypeExpr) (hrest : headKind rest ≠ .lbracket) :
    Takes readType ⟨front, t.words gap ++ rest⟩ ⟨front ++ chars (t.words gap), rest⟩ fun s => s = t.written := by
  obtain ⟨name, args, hargs, hwords⟩ := t.applied_words
  have hwritten : t.written = String.ofList (name ++ chars args) := by
    rw [TypeExpr.written, hwords]
    rfl
  rw [hwords, hwritten]
  exact takes_applied hargs hrest

/-! ## Default values -/

/-- A default value is read on up to a comma or the parenthesis that closes the parameters; `inside` is its text,
some of which has been read before. -/
theorem takes_default {ws : List Word} (h : Balanced false ws) {start inside : List Char} {n : Nat}
    (hfront : front ++ chars ws = start ++ inside) (hrest : headKind rest = .comma ∨ headKind rest = .rparen)
    (hn : ws.length + 1 ≤ n) :
    Takes (Rule.run n (.defaultValue (byteLength start))) ⟨front, ws ++ rest⟩ ⟨start ++ inside, rest⟩
      fun s => s = String.ofList (trim inside) := by
  -- Each step moves words from what is ahead to what has been read; `start` and `inside` stay.
  generalize hcommas : false = commas at h
  induction h generalizing front n with
  | nil =>
    obtain ⟨n, rfl⟩ := Nat.exists_eq_add_of_le' hn
    have hplace : front = start ++ inside := by simpa using hfront
    show Takes (readDefault (Rule.run n) (byteLength start)) _ _ _
    rw [hplace, List.nil_append]
    apply takes_peekKind.known
    rw [if_pos hrest]
    apply takes_prevEnd.known
    have hmax : max (Place.offset ⟨start ++ inside, rest⟩) (byteLength start) =
        Place.offset ⟨start ++ inside, rest⟩ := by
      simp [Place.offset]
    dsimp only
    rw [hmax]
    exact (takes_written rfl).known (takes_pure rfl)
  | @word commas w ws hkind _ ih =>
    obtain ⟨n, rfl⟩ := Nat.exists_eq_add_of_le' (show 1 ≤ n by omega)
    show Takes (readDefault (Rule.run n) (byteLength start)) _ _ _
    apply takes_peekKind.known
    obtain ⟨hopening, -⟩ := inner_plain hkind
    have hkinds : ¬(w.kind = .comma ∨ w.kind = .rparen) ∧ w.kind ≠ .eof := by
      revert hkind
      cases w.kind <;> decide
    rw [List.cons_append, headKind_cons, if_neg hkinds.1, hopening, if_neg (by decide), if_neg hkinds.2]
    apply takes_bump.bind
    intro _ _
    exact ih (by simpa using hfront) (by simpa using hn) hcommas
  | comma => cases hcommas
  | @group commas o c inside' ws hopening hcloses hinside _ _ ih =>
    obtain ⟨n, rfl⟩ := Nat.exists_eq_add_of_le' (show 1 ≤ n by omega)
    show Takes (readDefault (Rule.run n) (byteLength start)) _ _ _
    apply takes_peekKind.known
    have hkinds : ¬(o.kind = .comma ∨ o.kind = .rparen) := by
      revert hopening
      cases o.kind <;> decide
    rw [List.cons_append, List.append_assoc, List.cons_append, headKind_cons, if_neg hkinds, if_pos hopening]
    refine Takes.next (takes_skipGroup hcloses hinside.passable) fun _ => ?_
    refine ih (by simpa using hfront) ?_ hcommas
    simp only [List.length_cons, List.length_append] at hn
    omega

/-- A default value is read as it is written, if it neither starts nor ends with a blank. -/
theorem takes_valuePiece {p : Piece} (hopens : Opens p) (hbalanced : ∀ gap, Balanced false (p gap))
    (htrim : trim (chars (p [])) = chars (p [])) {n : Nat} (hrest : headKind rest = .comma ∨ headKind rest = .rparen)
    (hn : (p gap).length + 1 ≤ n) :
    Takes (do Rule.run n (.defaultValue (← here))) ⟨front, p gap ++ rest⟩ ⟨front ++ chars (p gap), rest⟩
      fun s => s = String.ofList (chars (p [])) := by
  have hfront : front ++ chars (p gap) = (front ++ gap) ++ chars (p []) := by
    rw [hopens.chars_eq, List.append_assoc]
  have hdefault := takes_default (hbalanced gap) hfront hrest hn
  rw [htrim, ← hfront] at hdefault
  obtain ⟨kind, text, ws, heq⟩ := hopens
  rw [heq gap] at hdefault ⊢
  apply takes_here.bind
  intro start hstart
  rw [hstart _ _ rfl]
  exact hdefault

theorem takes_value (v : Term) {n : Nat} (hrest : headKind rest = .comma ∨ headKind rest = .rparen)
    (hn : (v.words gap).length + 1 ≤ n) :
    Takes (do Rule.run n (.defaultValue (← here))) ⟨front, v.words gap ++ rest⟩ ⟨front ++ chars (v.words gap), rest⟩
      fun s => s = v.written :=
  takes_valuePiece v.opens v.balanced v.trim hrest hn

end Terms

end PuppetDocs.Manifest.Outline
