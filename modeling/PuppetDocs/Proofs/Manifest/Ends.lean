import Mathlib.Data.List.Basic
import PuppetDocs.Proofs.Manifest.Groups
import PuppetDocs.Proofs.Manifest.Tokens
import PuppetDocs.Proofs.Source.Ends
import PuppetDocs.Source.Tree

/-
  PuppetDocs.Proofs.Manifest.Ends — what becomes of the text of a manifest.

  The reader of manifests asks for stretches of the text from the start of one token to the end
  of another. Where it stands behind the tokens `used` (`Stands`), a stretch from the start of
  one of them is a stretch of the text (`Stands.fits`). Only where a type has to follow and the
  text holds no further token does it start at the end of the text, and there it ends with the
  last token, in front of its start: so the reader breaks off in a text that ends with blanks
  behind `type A =` (`read_breaks_off`), and nowhere else (`read_outcome`).

  A text is refused at one of its tokens, or at its end (`Stands.refuses`): at the next one, at a
  bracket that is left open, or where a default value has begun.

  The bound on the depth of the recursion is never reached: every rule inside a rule has fewer
  tokens left, or is the first definition of its items (`Rule.Deep`).
-/

namespace PuppetDocs.Manifest

open ParseM
open Text (byteLength Boundary)

/-- The end of the last of the tokens. -/
def lastEnd (used : List (Token TokenKind)) : Nat := (used.getLast?.map (·.span.stop)).getD 0

/-- Behind these tokens a type has to follow: they end with the head of a type alias, or with `>>`. -/
def BeforeType (used : List (Token TokenKind)) : Prop :=
  [.typeKw, .typeName, .assign] <:+ used.map Token.kind ∨ [.returnArrow] <:+ used.map Token.kind

/-- The ways in which the reader may fail: the text is refused for a fault that it shows, or its tokens end before a
type and it does not end with them. -/
def Fails (text : List Char) (tokens : List (Token TokenKind)) : ParseFailure → Prop
  | .rejected e => Refuses .puppet (.ofText text) text (.rejected e)
  | .exhausted => False
  | .outOfText s =>
    BeforeType tokens ∧ lastEnd tokens < byteLength text ∧ s = ⟨byteLength text, lastEnd tokens⟩

/-- The parser reads this text. -/
structure OfText (text : List Char) (env : ParseEnv) : Prop where
  source : env.text = text
  lines : env.lines = .ofText text

/-- Of the tokens of the text the stream has the first ones, `used`, behind it. -/
structure Stands (text : List Char) (tokens used : List (Token TokenKind)) (s : Stream TokenKind) : Prop where
  row : InRow text tokens.reverse
  tokens : tokens = used ++ s.rest
  stop : s.stop.kind = .eof
  stopText : s.stop.text = ""
  stopStart : s.stop.span.start = byteLength text
  prevEnd : s.prevEnd = lastEnd used

section Stands

variable {text : List Char} {tokens used : List (Token TokenKind)} {s s' : Stream TokenKind} {t : Token TokenKind}

namespace Stands

theorem advance (h : Stands text tokens used s) {rest : List (Token TokenKind)} (hrest : s.rest = t :: rest) :
    Stands text tokens (used ++ [t]) s.advance := by
  obtain ⟨rest', stop, prevEnd⟩ := s
  cases hrest
  exact ⟨h.row, by simpa [Stream.advance] using h.tokens, h.stop, h.stopText, h.stopStart,
    by simp [lastEnd, Stream.advance]⟩

/-- Whatever is used up is one token, or the text is at its end. -/
theorem advance_any (h : Stands text tokens used s) : ∃ more, Stands text tokens (used ++ more) s.advance := by
  cases hrest : s.rest with
  | nil =>
    refine ⟨[], ?_⟩
    have hsame : s.advance = s := by simp only [Stream.advance, hrest]
    rwa [List.append_nil, hsame]
  | cons t rest => exact ⟨[t], h.advance hrest⟩

theorem length (h : Stands text tokens used s) {more : List (Token TokenKind)}
    (h' : Stands text tokens (used ++ more) s') : s.rest.length = more.length + s'.rest.length := by
  have hlength := congrArg List.length (h.tokens.symm.trans h'.tokens)
  simp only [List.length_append] at hlength
  omega

theorem fits_token (h : Stands text tokens used s) (ht : t ∈ tokens) : t.span.Fits text :=
  Span.slice?_isSome_iff.mp (by rw [h.row.slice? (List.mem_reverse.mpr ht)]; rfl)

/-- A token of the text, or its end, may be blamed where it stands. -/
theorem refuses (h : Stands text tokens used s) (ht : t ∈ tokens ∨ t = s.stop) {fault : Fault} (hblames : fault.Blames t) :
    Refuses .puppet (.ofText text) text (.rejected (fault.at (.ofText text) t.span.start)) := by
  rcases ht with ht | rfl
  · obtain ⟨before, behind, htext, hstart, -⟩ := h.row.text_split (List.mem_reverse.mpr ht)
    rw [List.append_assoc] at htext
    exact ⟨fault, before, _, htext, hblames.shows (List.prefix_append _ _), by rw [hstart]⟩
  · refine ⟨fault, text, [], (List.append_nil text).symm, hblames.shows ?_, by rw [h.stopStart]⟩
    rw [h.stopText]
    exact List.nil_prefix

theorem peek_mem (h : Stands text tokens used s) : s.peek ∈ tokens ∨ s.peek = s.stop := by
  cases hrest : s.rest with
  | nil => exact .inr (by simp [Stream.peek, hrest])
  | cons t rest => exact .inl (by simp [Stream.peek, h.tokens, hrest])

theorem used_mem (h : Stands text tokens used s) (ht : t ∈ used) : t ∈ tokens := by
  rw [h.tokens]
  exact List.mem_append_left _ ht

theorem ordered (h : Stands text tokens used s) : tokens.Pairwise fun t u => t.span.stop ≤ u.span.start :=
  List.pairwise_reverse.mp h.row.ordered

theorem lastEnd_le (h : Stands text tokens used s) {rest : List (Token TokenKind)} (hrest : s.rest = t :: rest) :
    lastEnd used ≤ t.span.start := by
  rcases List.eq_nil_or_concat' used with rfl | ⟨front, last, rfl⟩
  · exact Nat.zero_le _
  · have hordered := h.ordered
    rw [h.tokens, hrest, List.pairwise_append] at hordered
    rw [lastEnd, List.getLast?_concat]
    exact hordered.2.2 last (by simp) t (by simp)

/-- From the start of a token to the end of the last one the reader has come past text. -/
theorem fits (h : Stands text tokens used s) (ht : t ∈ used) : (Span.mk t.span.start s.prevEnd).Fits text := by
  rcases List.eq_nil_or_concat' used with rfl | ⟨front, last, rfl⟩
  · cases ht
  have hlast : s.prevEnd = last.span.stop := by rw [h.prevEnd, lastEnd, List.getLast?_concat]; rfl
  have hmem : last ∈ tokens := by rw [h.tokens]; simp
  have hfits := h.fits_token hmem
  have hordered := h.ordered
  rw [h.tokens, List.append_assoc, List.pairwise_append] at hordered
  have hle : t.span.start ≤ last.span.stop := by
    rcases List.mem_append.mp ht with ht | ht
    · have hbefore := hordered.2.2 t ht last (by simp)
      have hin : t ∈ tokens := by rw [h.tokens]; simp [ht]
      have := (h.fits_token hin).le
      have := hfits.le
      omega
    · rw [List.mem_singleton.mp ht]
      exact hfits.le
  have hin : t ∈ tokens := by rw [h.tokens]; exact List.mem_append_left _ ht
  exact ⟨hlast ▸ hle, (h.fits_token hin).start, hlast ▸ hfits.stop⟩

end Stands

/-! ## Tools -/

variable {env : ParseEnv} {α : Type}

/-- The parser reads on, or fails in one of the ways that are allowed. -/
abbrev Goes (text : List Char) (tokens used : List (Token TokenKind)) (p : P α) (env : ParseEnv)
    (s : Stream TokenKind) : Prop :=
  Ends (Fails text tokens) p env s fun _ s' => ∃ more, Stands text tokens (used ++ more) s'

theorem goes_after {used : List (Token TokenKind)} (more : List (Token TokenKind)) {p : P α} (h : Goes text tokens (used ++ more) p env s) :
    Goes text tokens used p env s :=
  h.mono fun _ _ ⟨more', h'⟩ => ⟨more ++ more', by simpa using h'⟩

theorem ends_refused (h : Stands text tokens used s) (henv : OfText text env) (ht : t ∈ tokens ∨ t = s.stop)
    {fault : Fault} (hblames : fault.Blames t) {Q : α → Stream TokenKind → Prop} :
    Ends (Fails text tokens) (fail fault t.span.start : P α) env s Q := by
  refine ends_fail ?_
  rw [henv.lines]
  exact h.refuses ht hblames

/-- A token that has to be there is used up. -/
theorem ends_need (h : Stands text tokens used s) (henv : OfText text env) {kind : TokenKind} (hkind : kind ≠ .eof) (expected : String) :
    Ends (Fails text tokens) (need kind expected) env s fun t s' =>
      t.kind = kind ∧ s.rest = t :: s'.rest ∧ Stands text tokens (used ++ [t]) s' := by
  unfold need expect
  rw [ends_peek]
  refine .ite (fun hpeek => ?_) (fun _ => ends_refused h henv h.peek_mem (blames_misplaced _ _ _))
  obtain ⟨t, rest, hrest, ht⟩ := rest_of_peek h.stop hpeek hkind
  have hsame : s.peek = t := by simp [Stream.peek, hrest]
  have hadvance : s.advance.rest = rest := by simp [Stream.advance, hrest]
  rw [← bind_pure bump, ends_bump]
  refine ends_pure ⟨hpeek, ?_, ?_⟩
  · rw [hsame, hadvance, hrest]
  · rw [hsame]
    exact h.advance hrest

/-- A token that may be there is used up if it is. -/
theorem ends_eat (h : Stands text tokens used s) {kind : TokenKind} (hkind : kind ≠ .eof) :
    Ends (Fails text tokens) (eat kind) env s fun found s' =>
      if found then ∃ t, t.kind = kind ∧ Stands text tokens (used ++ [t]) s' else s' = s := by
  unfold eat
  rw [ends_peekKind]
  refine .ite (fun hpeek => ?_) (fun _ => ends_pure rfl)
  obtain ⟨t, rest, hrest, ht⟩ := rest_of_peek h.stop hpeek hkind
  rw [ends_bump]
  exact ends_pure ⟨t, ht, h.advance hrest⟩

theorem goes_optional (h : Stands text tokens used s) {kind : TokenKind} (hkind : kind ≠ .eof) {p : P α}
    (hp : ∀ t s₁, t.kind = kind → Stands text tokens (used ++ [t]) s₁ → Goes text tokens (used ++ [t]) p env s₁) :
    Goes text tokens used (optional kind p) env s := by
  unfold optional
  refine (ends_eat h hkind).bind fun found s₁ h₁ => ?_
  cases found with
  | false => exact ends_pure ⟨[], by rw [if_neg (by decide)] at h₁; simpa [h₁] using h⟩
  | true =>
    obtain ⟨t, ht, h₁⟩ := h₁
    exact (goes_after _ (hp t s₁ ht h₁)).bind fun _ _ h₂ => ends_pure h₂

/-- A group goes wrong at one of its tokens. -/
theorem group_mem {last u : Token TokenKind} {outer ts : List (Token TokenKind)}
    (h : group last outer ts = .unclosed u ∨ group last outer ts = .mismatched u) : u ∈ last :: outer ++ ts := by
  induction ts generalizing last outer with
  | nil =>
    rcases h with h | h
    · cases h
      simp
    · cases h
  | cons t ts ih =>
    unfold group at h
    split at h
    · have := ih h
      simp only [List.cons_append, List.mem_cons, List.mem_append] at this ⊢
      tauto
    split at h
    · split at h
      · cases outer with
        | nil => rcases h with h | h <;> cases h
        | cons l outer =>
          have := ih h
          simp only [List.cons_append, List.mem_cons, List.mem_append] at this ⊢
          tauto
      · rcases h with h | h
        · cases h
        · cases h
          simp
    · have := ih h
      simp only [List.cons_append, List.mem_cons, List.mem_append] at this ⊢
      tauto

theorem goes_skipGroup (h : Stands text tokens used s) (henv : OfText text env) (hopening : isOpening s.peek.kind = true) :
    Ends (Fails text tokens) skipGroup env s fun _ s' => ∃ more, more ≠ [] ∧ Stands text tokens (used ++ more) s' := by
  have hne : s.peek.kind ≠ .eof := by
    intro he
    rw [he] at hopening
    cases hopening
  obtain ⟨t, rest, hrest, -⟩ := rest_of_peek h.stop rfl hne
  have hsame : s.peek = t := by simp [Stream.peek, hrest]
  have h₁ := h.advance hrest
  have hmem : ∀ u, group t [] s.advance.rest = .unclosed u ∨ group t [] s.advance.rest = .mismatched u → u ∈ tokens := by
    intro u hu
    have hin := group_mem hu
    rw [h₁.tokens]
    simp only [List.cons_append, List.nil_append, List.mem_cons, List.mem_append, List.not_mem_nil, or_false] at hin ⊢
    tauto
  unfold skipGroup
  rw [ends_bump, ends_get, hsame]
  split
  · next rest' stop hgroup =>
    obtain ⟨inside, closer, hinside, rfl, -⟩ := group_closed hgroup
    rw [← bind_pure (set _), ends_set]
    refine ends_pure ⟨t :: inside ++ [closer], by simp, ?_⟩
    refine ⟨h.row, ?_, h₁.stop, h₁.stopText, h₁.stopStart, ?_⟩
    · rw [h₁.tokens, hinside]
      simp
    · rw [← List.append_assoc, lastEnd, List.getLast?_concat]
      rfl
  · next u hgroup => exact ends_refused h₁ henv (.inl (hmem u (.inl hgroup))) (blames_unexpectedEnd u _)
  · next u hgroup => exact ends_refused h₁ henv (.inl (hmem u (.inr hgroup))) (blames_unbalanced u)

/-- A stretch of the text is there to be read. -/
theorem ends_written {start stop : Nat} (henv : OfText text env) (hfits : (Span.mk start stop).Fits text) :
    Ends (Fails text tokens) (written start stop) env s fun _ s' => s' = s := by
  obtain ⟨cs, hcs⟩ := Option.isSome_iff_exists.mp (Span.slice?_isSome_iff.mpr hfits)
  unfold written
  rw [ends_read, henv.source, hcs]
  exact ends_pure rfl

/-- The text of a type is there, but where the tokens end in front of it. -/
theorem goes_readType (h : Stands text tokens used s) (henv : OfText text env)
    (hbefore : s.rest = [] → BeforeType used) : Goes text tokens used readType env s := by
  unfold Goes readType
  rw [ends_bump, ends_at]
  dsimp only
  cases hrest : s.rest with
  | nil =>
    have hsame : s.advance = s := by simp only [Stream.advance, hrest]
    have hused : tokens = used := by rw [h.tokens, hrest, List.append_nil]
    have hend : s.peek = s.stop := by simp [Stream.peek, hrest]
    rw [hsame, hend, if_neg (by rw [h.stop]; decide), ends_prevEnd, h.stopStart, h.prevEnd]
    have hle : lastEnd used ≤ byteLength text := by
      rcases List.eq_nil_or_concat' used with rfl | ⟨front, last, rfl⟩
      · exact Nat.zero_le _
      · rw [lastEnd, List.getLast?_concat]
        exact (h.fits_token (by rw [hused]; simp)).stop.le
    rcases Nat.lt_or_eq_of_le hle with hlt | heq
    · -- The text goes on behind the last token, so that the stretch ends in front of its start.
      unfold written
      rw [bind_assoc, ends_read]
      have hnone : (Span.mk (byteLength text) (lastEnd used)).slice? env.text = none :=
        if_neg (Nat.not_le_of_lt hlt)
      rw [hnone]
      refine Ends.bind (ends_throw ?_) (R := fun _ _ => False) fun _ _ hfalse => hfalse.elim
      rw [Fails, hused]
      exact ⟨hbefore hrest, hlt, rfl⟩
    · refine (ends_written henv ?_).bind fun _ s' hs' => ends_pure ⟨[], by rw [hs', List.append_nil]; exact h⟩
      rw [heq]
      exact ⟨Nat.le_refl _, Text.boundary_end text, Text.boundary_end text⟩
  | cons t rest =>
    have hsame : s.peek = t := by simp [Stream.peek, hrest]
    have h₁ := h.advance hrest
    rw [hsame]
    -- The type as written, from behind its last token.
    have hwritten : ∀ more s₂, Stands text tokens (used ++ [t] ++ more) s₂ →
        Goes text tokens used (do return String.ofList (← written t.span.start (← prevEnd)) : P String) env s₂ := by
      intro more s₂ h₂
      unfold Goes
      rw [ends_prevEnd]
      refine (ends_written henv (h₂.fits (by simp))).bind fun _ s' hs' => ends_pure ⟨t :: more, ?_⟩
      rw [hs']
      simpa using h₂
    refine .ite (fun hbracket => ?_) (fun _ => hwritten [] _ (by simpa using h₁))
    refine (goes_skipGroup h₁ henv (by rw [of_decide_eq_true hbracket]; rfl)).bind fun _ s₂ h₂ => ?_
    obtain ⟨more, -, h₂⟩ := h₂
    exact hwritten more s₂ h₂

end Stands

/-! ## Rules -/

/-- The default value starts with the next token, or with one of those read. -/
def DefaultStarts (start : Nat) (used : List (Token TokenKind)) (s : Stream TokenKind) : Prop :=
  s.peek.span.start = start ∨ ∃ t ∈ used, t.span.start = start

/-- A depth at which the rule may be read. -/
def Rule.Deep (depth : Nat) (used : List (Token TokenKind)) (s : Stream TokenKind) : {α : Type} → Rule α → Prop
  | _, .items opener open_ => 2 * s.rest.length + 1 ≤ depth ∧ ∀ u ∈ open_ ++ opener.toList, u ∈ used
  | _, .definition => 2 * s.rest.length ≤ depth ∧ Heads s.rest
  | _, .params => s.rest.length + 1 ≤ depth
  | _, .defaultValue start => s.rest.length + 1 ≤ depth ∧ DefaultStarts start used s

/-- A definition uses up a token. -/
def Rule.UsesUp (more : List (Token TokenKind)) : {α : Type} → Rule α → Prop
  | _, .definition => more ≠ []
  | _, _ => True

/-- Every rule that is ready at this depth reads on, or fails in one of the ways that are allowed. -/
def Reaches (text : List Char) (tokens : List (Token TokenKind)) (depth : Nat) (self : Reader) : Prop :=
  ∀ {α : Type} (rule : Rule α) (env : ParseEnv) (used : List (Token TokenKind)) (s : Stream TokenKind),
    OfText text env → Stands text tokens used s → rule.Deep depth used s →
    Ends (Fails text tokens) (self rule) env s fun _ s' => ∃ more, Stands text tokens (used ++ more) s' ∧ rule.UsesUp more

section Rules

variable {text : List Char} {tokens used : List (Token TokenKind)} {depth : Nat} {self : Reader} {env : ParseEnv}
  {s : Stream TokenKind}

theorem Reaches.goes {α : Type} (hself : Reaches text tokens depth self) (rule : Rule α) (henv : OfText text env)
    (h : Stands text tokens used s) (hready : rule.Deep depth used s) : Goes text tokens used (self rule) env s :=
  (hself rule env used s henv h hready).mono fun _ _ ⟨more, h', _⟩ => ⟨more, h'⟩

/-- Items behind a token that is passed over. -/
theorem goes_items_next (hself : Reaches text tokens depth self) (henv : OfText text env) (h : Stands text tokens used s)
    (hdepth : 2 * s.rest.length ≤ depth) (hpeek : s.peek.kind ≠ .eof) (opener : Option (Token TokenKind))
    (open_ : List (Token TokenKind)) (hopen : ∀ u ∈ open_ ++ opener.toList, u ∈ used ++ [s.peek]) :
    Goes text tokens used (self (.items opener open_)) env s.advance := by
  obtain ⟨t, rest, hrest, -⟩ := rest_of_peek h.stop rfl hpeek
  have hsame : s.peek = t := by simp [Stream.peek, hrest]
  have h₁ := h.advance hrest
  have hlength := h.length h₁
  rw [hsame] at hopen
  refine goes_after [t] (hself.goes (.items opener open_) henv h₁ ⟨?_, hopen⟩)
  simp only [List.length_singleton] at hlength
  omega

theorem ends_definitionFollows (h : Stands text tokens used s) :
    Ends (Fails text tokens) (definitionFollows s.peek.kind) env s fun follows s' =>
      s' = s ∧ (follows = true → Heads s.rest) := by
  obtain ⟨follows, heq, hheads⟩ := definitionFollows_eq env h.stop
  refine ⟨?_, ?_⟩
  · intro e he
    rw [heq] at he
    cases he
  · intro a s' ha
    rw [heq] at ha
    cases ha
    exact ⟨rfl, hheads⟩

theorem goes_readItems (hself : Reaches text tokens depth self) (henv : OfText text env) (h : Stands text tokens used s)
    (opener : Option (Token TokenKind)) (open_ : List (Token TokenKind)) (hdepth : 2 * s.rest.length + 1 ≤ depth + 1)
    (hopen : ∀ u ∈ open_ ++ opener.toList, u ∈ used) : Goes text tokens used (readItems self opener open_) env s := by
  have hhere : ∃ more, Stands text tokens (used ++ more) s := ⟨[], by simpa using h⟩
  have hnext := goes_items_next hself henv h (by omega)
  have hsame : ∀ u ∈ open_ ++ opener.toList, u ∈ used ++ [s.peek] := fun u hu => List.mem_append_left _ (hopen u hu)
  -- The next token is blamed where it closes no open bracket.
  have hpartner : Goes text tokens used (fail (.unbalanced s.peek.text) s.peek.span.start : P (List Definition)) env s :=
    ends_refused h henv h.peek_mem (blames_unbalanced s.peek)
  unfold Goes readItems
  rw [ends_peek]
  refine .ite (fun _ => ?_) fun heof => ?_
  · split
    · next unclosed hunclosed =>
      have hmem : unclosed ∈ open_ ++ opener.toList := by
        rcases Option.or_eq_some_iff.mp hunclosed with hhead | ⟨-, hhead⟩
        · exact List.mem_append_left _ (List.mem_of_head? hhead)
        · exact List.mem_append_right _ (Option.mem_toList.mpr hhead)
      exact ends_refused h henv (.inl (h.used_mem (hopen unclosed hmem))) (blames_unexpectedEnd unclosed _)
    · exact ends_pure hhere
  refine .ite (fun _ => ?_) fun _ => ?_
  · rw [ends_bump]
    refine hnext heof _ _ (List.forall_mem_cons.mpr ⟨?_, hsame⟩)
    exact List.mem_append_right _ (List.mem_singleton_self s.peek)
  refine .ite (fun _ => ?_) fun _ => ?_
  · split
    · refine .ite (fun _ => ?_) fun _ => hpartner
      rw [ends_bump]
      exact hnext heof _ _ fun u hu => hsame u (List.mem_cons_of_mem _ hu)
    · exact .ite (fun _ => ends_pure hhere) fun _ => hpartner
  refine (ends_definitionFollows h).bind fun follows s₁ ⟨hs₁, hheads⟩ => ?_
  rw [hs₁]
  refine .ite (fun hfollows => ?_) fun _ => ?_
  · -- A definition uses up a token, so the items behind it have fewer left.
    have hheads := hheads (Bool.and_eq_true_iff.mp hfollows).2
    have hready : Rule.definition.Deep depth used s := ⟨by omega, hheads⟩
    refine (hself .definition env used s henv h hready).bind fun d s₂ ⟨more, h₂, (hmore : more ≠ [])⟩ => ?_
    have hlength := h.length h₂
    have := List.length_pos_iff.mpr hmore
    have hready' : (Rule.items opener open_).Deep depth (used ++ more) s₂ :=
      ⟨by omega, fun u hu => List.mem_append_left _ (hopen u hu)⟩
    exact (goes_after _ (hself.goes _ henv h₂ hready')).bind fun _ _ h₃ => ends_pure h₃
  · rw [ends_bump]
    exact hnext heof _ _ hsame

/-- A definition from behind its parameters on. -/
theorem goes_body (hself : Reaches text tokens depth self) (henv : OfText text env) (h : Stands text tokens used s)
    (hdepth : 2 * s.rest.length ≤ depth) (kind : DefinitionKind) (name : String) (params : List Parameter)
    (start line : Nat) :
    Goes text tokens used (do
      let parent ← optional .inheritsKw (do return (← bump).text)
      let returnType ← optional .returnArrow readType
      let brace ← need .lbrace "'\x7b'"
      let nested ← self (.items (some brace) [])
      let _ ← need .rbrace "'\x7d'"
      return { kind, name, params, parent, returnType, span := ⟨start, ← prevEnd⟩, line, nested } : P Definition)
      env s := by
  have hparent : ∀ t s₁, t.kind = .inheritsKw → Stands text tokens (used ++ [t]) s₁ →
      Goes text tokens (used ++ [t]) (do return (← bump).text : P String) env s₁ := by
    intro t s₁ _ h₁
    unfold Goes
    rw [ends_bump]
    exact ends_pure h₁.advance_any
  refine (goes_optional h (by decide) hparent).bind fun parent s₁ ⟨front, h₁⟩ => ?_
  have hresult : ∀ t s₂, t.kind = .returnArrow → Stands text tokens (used ++ front ++ [t]) s₂ →
      Goes text tokens (used ++ front ++ [t]) readType env s₂ := by
    intro t s₂ ht h₂
    refine goes_readType h₂ henv fun _ => .inr ?_
    rw [List.map_append, List.map_singleton, ht]
    exact List.suffix_append _ _
  refine (goes_optional h₁ (by decide) hresult).bind fun returnType s₂ ⟨result, h₂⟩ => ?_
  refine (ends_need h₂ henv (by decide) _).bind fun brace s₃ ⟨_, _, h₃⟩ => ?_
  rw [List.append_assoc used] at h₃ h₂
  rw [List.append_assoc used] at h₃
  have hlength := h.length h₃
  simp only [List.length_append, List.length_singleton] at hlength
  have hready : (Rule.items (some brace) []).Deep depth (used ++ (front ++ result ++ [brace])) s₃ :=
    ⟨by omega, by simp⟩
  refine (hself.goes _ henv h₃ hready).bind fun nested s₄ ⟨inside, h₄⟩ => ?_
  refine (ends_need h₄ henv (by decide) _).bind fun closer s₅ ⟨_, _, h₅⟩ => ?_
  rw [ends_prevEnd]
  refine ends_pure ⟨front ++ result ++ [brace] ++ inside ++ [closer], ?_⟩
  simpa only [List.append_assoc] using h₅

theorem goes_alias (henv : OfText text env) (h : Stands text tokens used s) {keyword : Token TokenKind}
    (hused : [keyword] <:+ used) (hkeyword : keyword.kind = .typeKw) (start line : Nat) :
    Goes text tokens used (readAlias start line) env s := by
  unfold Goes readAlias
  refine (ends_need h henv (by decide) _).bind fun name s₁ ⟨hname, _, h₁⟩ => ?_
  refine (ends_need h₁ henv (by decide) _).bind fun assign s₂ ⟨hassign, _, h₂⟩ => ?_
  have hbefore : BeforeType (used ++ [name] ++ [assign]) := by
    obtain ⟨front, rfl⟩ := hused
    refine .inl ?_
    simp only [List.map_append, List.map_singleton, hkeyword, hname, hassign, List.append_assoc]
    exact List.suffix_append _ _
  have htype := goes_readType h₂ henv fun _ => hbefore
  rw [List.append_assoc] at htype
  refine (goes_after _ htype).bind fun aliased s₃ h₃ => ?_
  rw [ends_prevEnd]
  exact ends_pure h₃

theorem goes_readDefinition (hself : Reaches text tokens depth self) (henv : OfText text env)
    (h : Stands text tokens used s) (hheads : Heads s.rest) (hdepth : 2 * s.rest.length ≤ depth + 1) :
    Ends (Fails text tokens) (readDefinition self) env s fun _ s' =>
      ∃ more, Stands text tokens (used ++ more) s' ∧ more ≠ [] := by
  obtain ⟨keyword, rest, hrest, hkeyword⟩ := hheads.keyword
  have h₁ := h.advance hrest
  have hlength := h.length h₁
  simp only [List.length_singleton] at hlength
  have hpeek : s.peek = keyword := by simp [Stream.peek, hrest]
  -- Behind the keyword, which is used up.
  have hrest : ∀ {p : P Definition}, Goes text tokens (used ++ [keyword]) p env s.advance →
      Ends (Fails text tokens) p env s.advance fun _ s' => ∃ more, Stands text tokens (used ++ more) s' ∧ more ≠ [] :=
    fun hp => hp.mono fun _ _ ⟨more, h'⟩ => ⟨keyword :: more, by simpa using h', by simp⟩
  unfold readDefinition
  rw [ends_bump, hpeek]
  dsimp only
  rw [ends_lineOf]
  refine .ite (fun halias => ?_) fun _ => hrest ?_
  · exact hrest (goes_alias henv h₁ (List.suffix_append _ _) (hkeyword halias) _ _)
  · refine (ends_need h₁ henv (by decide) _).bind fun name s₂ ⟨_, _, h₂⟩ => ?_
    have hlength₂ := h₁.length h₂
    simp only [List.length_singleton] at hlength₂
    rw [ends_at]
    refine .ite (fun hparen => ?_) fun _ => ?_
    · obtain ⟨paren, rest', hrest', -⟩ := rest_of_peek h₂.stop (of_decide_eq_true hparen) (by decide)
      have h₃ := h₂.advance hrest'
      have hlength₃ := h₂.length h₃
      simp only [List.length_singleton] at hlength₃
      rw [bind_assoc, ends_bump]
      have hready : Rule.params.Deep depth (used ++ [keyword] ++ [name] ++ [paren]) s₂.advance := by
        show s₂.advance.rest.length + 1 ≤ depth
        omega
      refine (hself.goes .params henv h₃ hready).bind fun params s₄ ⟨more, h₄⟩ => ?_
      have hlength₄ := h₃.length h₄
      refine goes_after ([name] ++ [paren] ++ more) (goes_body hself henv ?_ (by omega) _ _ _ _ _)
      simpa only [List.append_assoc] using h₄
    · refine (ends_pure (Q := fun _ s' => s' = s₂) rfl).bind fun params s₃ hs₃ => ?_
      rw [hs₃]
      exact goes_after _ (goes_body hself henv h₂ (by omega) _ _ _ _ _)

/-- What has been read begins with the next token. -/
theorem DefaultStarts.after {start : Nat} (hstart : DefaultStarts start used s) (h : Stands text tokens used s)
    {more : List (Token TokenKind)} {s' : Stream TokenKind} (h' : Stands text tokens (used ++ more) s') (hne : more ≠ []) :
    DefaultStarts start (used ++ more) s' := by
  refine .inr ?_
  rcases hstart with hpeek | ⟨t, ht, hstart⟩
  · obtain ⟨t, more, rfl⟩ := List.exists_cons_of_ne_nil hne
    have hrest : s.rest = t :: more ++ s'.rest :=
      List.append_cancel_left ((h.tokens.symm.trans h'.tokens).trans (List.append_assoc _ _ _))
    refine ⟨t, by simp, ?_⟩
    rw [← hpeek, Stream.peek, hrest]
    rfl
  · exact ⟨t, List.mem_append_left _ ht, hstart⟩

theorem DefaultStarts.token {start : Nat} (hstart : DefaultStarts start used s) (h : Stands text tokens used s) :
    ∃ t, (t ∈ tokens ∨ t = s.stop) ∧ t.span.start = start := by
  rcases hstart with hpeek | ⟨t, ht, hstart⟩
  · exact ⟨s.peek, h.peek_mem, hpeek⟩
  · exact ⟨t, .inl (h.used_mem ht), hstart⟩

theorem goes_readDefault (hself : Reaches text tokens depth self) (henv : OfText text env) (h : Stands text tokens used s)
    {start : Nat} (hstart : DefaultStarts start used s) (hdepth : s.rest.length + 1 ≤ depth + 1) :
    Goes text tokens used (readDefault self start) env s := by
  have hnext : ∀ more s', more ≠ [] → Stands text tokens (used ++ more) s' →
      Goes text tokens used (self (.defaultValue start)) env s' := by
    intro more s' hne h'
    have hlength := h.length h'
    have := List.length_pos_iff.mpr hne
    refine goes_after _ (hself.goes (.defaultValue start) henv h' ⟨by omega, hstart.after h h' hne⟩)
  unfold Goes readDefault
  rw [ends_peekKind]
  refine .ite (fun hend => ?_) fun _ => ?_
  · have hne : s.peek.kind ≠ .eof := by
      rcases hend with hk | hk <;> rw [hk] <;> decide
    obtain ⟨t, rest, hrest, -⟩ := rest_of_peek h.stop rfl hne
    have hfits : (Span.mk start (max s.prevEnd start)).Fits text := by
      rcases hstart with hpeek | ⟨u, hu, rfl⟩
      · have hpeek : t.span.start = start := by rw [← hpeek, Stream.peek, hrest]; rfl
        have hboundary := (h.fits_token (by rw [h.tokens, hrest]; simp : t ∈ tokens)).start
        have hle := h.lastEnd_le hrest
        rw [h.prevEnd, Nat.max_eq_right (by omega)]
        rw [hpeek] at hboundary
        exact ⟨Nat.le_refl _, hboundary, hboundary⟩
      · have hfits := h.fits hu
        rwa [Nat.max_eq_left hfits.le]
    rw [ends_prevEnd]
    refine (ends_written henv hfits).bind fun _ s' hs' => ends_pure ⟨[], ?_⟩
    rw [hs', List.append_nil]
    exact h
  refine .ite (fun hopening => ?_) fun _ => ?_
  · refine (goes_skipGroup h henv hopening).bind fun _ s' ⟨more, hne, h'⟩ => ?_
    exact hnext more s' hne h'
  refine .ite (fun _ => ?_) fun heof => ?_
  · obtain ⟨t, ht, rfl⟩ := hstart.token h
    exact ends_refused h henv ht (blames_unexpectedEnd t _)
  obtain ⟨t, rest, hrest, -⟩ := rest_of_peek h.stop rfl heof
  rw [ends_bump]
  exact hnext [t] _ (by simp) (h.advance hrest)

/-- A parameter uses up a token. -/
theorem goes_readParam (hself : Reaches text tokens depth self) (henv : OfText text env) (h : Stands text tokens used s)
    (hdepth : s.rest.length ≤ depth) :
    Ends (Fails text tokens) (readParam self) env s fun _ s' =>
      ∃ more, Stands text tokens (used ++ more) s' ∧ more ≠ [] := by
  -- From behind the type on.
  have hname : ∀ (type? : Option String) (front : List (Token TokenKind)) (s₁ : Stream TokenKind),
      Stands text tokens (used ++ front) s₁ →
      Ends (Fails text tokens) (do
        let capturesRest ← eat .star
        let variable_ ← need .variable "parameter name"
        let default? ← optional .assign (do self (.defaultValue (← here)))
        return {
          name := String.ofList (variable_.text.toList.drop 1), type?, default?, capturesRest
          line := env.lines.line s.peek.span.start } : P Parameter) env s₁ fun _ s' =>
        ∃ more, Stands text tokens (used ++ more) s' ∧ more ≠ [] := by
    intro type? front s₁ h₁
    have hstar : Goes text tokens (used ++ front) (eat .star) env s₁ := by
      refine (ends_eat h₁ (by decide)).mono fun found s₂ h₂ => ?_
      cases found with
      | false => exact ⟨[], by rw [if_neg (by decide)] at h₂; simpa [h₂] using h₁⟩
      | true =>
        obtain ⟨t, _, h₂⟩ := h₂
        exact ⟨[t], h₂⟩
    refine hstar.bind fun capturesRest s₂ ⟨star, h₂⟩ => ?_
    refine (ends_need h₂ henv (by decide) _).bind fun variable_ s₃ ⟨_, _, h₃⟩ => ?_
    have hdefault : ∀ t s₄, t.kind = .assign → Stands text tokens (used ++ front ++ star ++ [variable_] ++ [t]) s₄ →
        Goes text tokens (used ++ front ++ star ++ [variable_] ++ [t]) (do self (.defaultValue (← here)) : P String)
          env s₄ := by
      intro t s₄ _ h₄
      unfold Goes
      rw [ends_here]
      refine hself.goes (.defaultValue _) henv h₄ ⟨?_, .inl rfl⟩
      simp only [List.append_assoc used] at h₄
      have hlength := h.length h₄
      simp only [List.length_append, List.length_singleton] at hlength
      omega
    refine (goes_optional h₃ (by decide) hdefault).bind fun default? s₅ ⟨value, h₅⟩ => ?_
    exact ends_pure ⟨front ++ star ++ [variable_] ++ value, by simpa only [List.append_assoc] using h₅, by simp⟩
  unfold readParam
  rw [ends_here, ends_lineOf, ends_at]
  dsimp only
  refine .ite (fun htype => ?_) fun _ => ?_
  · obtain ⟨t, rest, hrest, -⟩ := rest_of_peek h.stop (of_decide_eq_true htype) (by decide)
    have htype := goes_readType h henv fun hnil => by rw [hrest] at hnil; cases hnil
    have htype : Goes text tokens used (some <$> readType) env s := ends_map htype
    exact htype.bind fun type? s₁ ⟨front, h₁⟩ => hname type? front s₁ h₁
  · refine (ends_pure (Q := fun _ s' => s' = s) rfl).bind fun type? s₁ hs₁ => ?_
    rw [hs₁]
    exact hname type? [] s (by simpa using h)

theorem goes_readParams (hself : Reaches text tokens depth self) (henv : OfText text env) (h : Stands text tokens used s)
    (hdepth : s.rest.length + 1 ≤ depth + 1) : Goes text tokens used (readParams self) env s := by
  unfold Goes readParams
  refine (ends_eat h (by decide)).bind fun done s₁ h₁ => ?_
  cases done with
  | true =>
    obtain ⟨t, _, h₁⟩ := h₁
    exact ends_pure ⟨[t], h₁⟩
  | false =>
    rw [if_neg (by decide)] at h₁ ⊢
    rw [h₁]
    refine (goes_readParam hself henv h (by omega)).bind fun p s₂ ⟨more, h₂, hne⟩ => ?_
    have := List.length_pos_iff.mpr hne
    have hlength := h.length h₂
    refine (ends_eat h₂ (by decide)).bind fun comma s₃ h₃ => ?_
    obtain ⟨more', h₃⟩ : ∃ more', Stands text tokens (used ++ more ++ more') s₃ := by
      cases comma with
      | false => exact ⟨[], by rw [if_neg (by decide)] at h₃; simpa [h₃] using h₂⟩
      | true =>
        obtain ⟨t, _, h₃⟩ := h₃
        exact ⟨[t], h₃⟩
    rw [ends_at]
    dsimp only
    refine .ite (fun _ => ?_) fun _ => ?_
    · rw [ends_peek]
      refine Ends.bind (R := fun _ _ => False) ?_ fun _ _ hfalse => hfalse.elim
      exact ends_refused h₃ henv h₃.peek_mem (blames_unexpected s₃.peek _)
    · have hlength₃ := h₂.length h₃
      rw [List.append_assoc] at h₃
      have hready : Rule.params.Deep depth (used ++ (more ++ more')) s₃ := by
        show s₃.rest.length + 1 ≤ depth
        omega
      exact (goes_after _ (hself.goes .params henv h₃ hready)).bind fun _ _ h₄ => ends_pure h₄

theorem step_reaches (hself : Reaches text tokens depth self) : Reaches text tokens (depth + 1) (Rule.step self) := by
  intro α rule env used s henv h hready
  cases rule with
  | items opener open_ =>
    exact (goes_readItems hself henv h opener open_ hready.1 hready.2).mono fun _ _ ⟨more, h'⟩ => ⟨more, h', trivial⟩
  | definition => exact goes_readDefinition hself henv h hready.2 hready.1
  | params => exact (goes_readParams hself henv h hready).mono fun _ _ ⟨more, h'⟩ => ⟨more, h', trivial⟩
  | defaultValue start =>
    exact (goes_readDefault hself henv h hready.2 hready.1).mono fun _ _ ⟨more, h'⟩ => ⟨more, h', trivial⟩

end Rules

/-- At depth zero nothing is ready but a definition, and that only where no token is left. -/
theorem run_reaches (text : List Char) (tokens : List (Token TokenKind)) (depth : Nat) :
    Reaches text tokens depth (Rule.run depth) := by
  induction depth with
  | zero =>
    intro α rule env used s _ _ hready
    cases rule with
    | items opener open_ => cases hready.1
    | definition =>
      obtain ⟨hnone, hheads⟩ := hready
      obtain ⟨keyword, rest, hrest, -⟩ := hheads.keyword
      rw [hrest, List.length_cons] at hnone
      omega
    | params => cases hready
    | defaultValue start => cases hready.1
  | succ depth ih => exact step_reaches ih

/-! ## Texts -/

/-- What is scanned is read, or it is refused, or it breaks off in front of a type. -/
theorem parseTokens_outcome {text : List Char} {found : Scanned TokenKind} (hscan : scan text = .ok found) :
    (∃ ds, parseTokens text (.ofText text) found.tokens found.stop = .ok ds) ∨
      ∃ e, parseTokens text (.ofText text) found.tokens found.stop = .error e ∧ Fails text found.tokens e := by
  obtain ⟨hrow, hstop⟩ := scan_inRow hscan
  have hstands : Stands text found.tokens [] { rest := found.tokens, stop := found.stop } :=
    ⟨hrow, rfl, by rw [hstop], by rw [hstop], by rw [hstop], rfl⟩
  have hready : (Rule.items none []).Deep (depthBound found.tokens.length) []
      { rest := found.tokens, stop := found.stop } := ⟨Nat.le_succ _, nofun⟩
  obtain ⟨hfails, -⟩ := run_reaches text found.tokens _ (.items none []) { text, lines := .ofText text } [] _ ⟨rfl, rfl⟩ hstands
    hready
  have hrun : parseTokens text (.ofText text) found.tokens found.stop =
      (Rule.run (depthBound found.tokens.length) (.items none []) { text, lines := .ofText text }
        { rest := found.tokens, stop := found.stop }).map Prod.fst := rfl
  rw [hrun]
  cases hitems : Rule.run (depthBound found.tokens.length) (.items none []) { text, lines := .ofText text }
      { rest := found.tokens, stop := found.stop } with
  | error e => exact .inr ⟨e, rfl, hfails e hitems⟩
  | ok read => exact .inl ⟨read.1, rfl⟩

/-- For every text the reader ends with the definitions or with a syntax error, and every stretch it asks for is a
stretch of the text, but where the tokens end in front of a type and the text goes on behind them. -/
theorem read_outcome (text : List Char) :
    (∃ e, scan text = .error (.rejected e) ∧ read text = .error (.rejected e)) ∨
    ∃ found, scan text = .ok found ∧
      (∀ t ∈ found.tokens ++ [found.stop], t.span.slice? text = some t.text.toList) ∧
      ((∃ ds, read text = .ok (ds, found.comments)) ∨ (∃ e, read text = .error (.rejected e)) ∨
        (BeforeType found.tokens ∧ lastEnd found.tokens < byteLength text ∧
          read text = .error (.outOfText ⟨byteLength text, lastEnd found.tokens⟩))) := by
  rcases scan_outcome text with ⟨found, hscan, hrow, hstop⟩ | ⟨e, hscan, ⟨fault, before, rest, -, -, rfl⟩⟩
  · refine .inr ⟨found, hscan, ?_, ?_⟩
    · intro t ht
      rcases List.mem_append.mp ht with ht | ht
      · exact hrow.slice? (List.mem_reverse.mpr ht)
      · rw [List.mem_singleton.mp ht, hstop]
        simpa using Span.slice?_append text [] []
    · have hread : read text = (parseTokens text (.ofText text) found.tokens found.stop).map fun ds => (ds, found.comments) := by
        unfold read
        simp only [hscan, bind, Except.bind]
        cases parseTokens text (.ofText text) found.tokens found.stop <;> rfl
      rcases parseTokens_outcome hscan with ⟨ds, hparse⟩ | ⟨e, hparse, hfails⟩
      · exact .inl ⟨ds, by rw [hread, hparse]; rfl⟩
      · rw [hparse] at hread
        cases e with
        | rejected e => exact .inr (.inl ⟨e, hread⟩)
        | exhausted => exact hfails.elim
        | outOfText s =>
          obtain ⟨hbefore, hlt, rfl⟩ := hfails
          exact .inr (.inr ⟨hbefore, hlt, hread⟩)
  · refine .inl ⟨_, hscan, ?_⟩
    unfold read
    rw [hscan]
    rfl

/-- A type alias without its type, and a blank behind it, make the reader break off. -/
theorem read_breaks_off :
    ¬∀ text, (∃ parsed, read text = .ok parsed) ∨ ∃ e, read text = .error (.rejected e) := by
  intro h
  have hbreaks : (match read "type A = ".toList with
      | .error (.outOfText s) => s == ⟨9, 8⟩
      | _ => false) = true := by decide +kernel
  rcases h "type A = ".toList with ⟨parsed, hread⟩ | ⟨e, hread⟩
  · rw [hread] at hbreaks
    cases hbreaks
  · rw [hread] at hbreaks
    cases hbreaks

end PuppetDocs.Manifest
