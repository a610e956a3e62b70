import PuppetDocs.Proofs.Manifest.Laminar.Items
import PuppetDocs.Proofs.Manifest.Spelling

/-
  PuppetDocs.Proofs.Manifest.Laminar.Spans — the definitions of a manifest are a laminar tree.

  Definitions that are derived from tokens that stand in a row lie as these do. A definition
  covers the tokens from its keyword to its closing brace, or to the end of its type, and those
  nested in it are made of the tokens between its braces. So siblings lie one behind the other,
  nested definitions strictly inside (`Items.laminar`), and the order of `flattenAll`, each
  definition in front of those nested in it, is that of the starts.

  `parse_laminar` says this of every manifest that is accepted, together with the keyword, the
  line and the closing brace of each definition.
-/

namespace PuppetDocs.Manifest

open Text (byteLength)

/-- The definition is one of these, or nested in one of these, however deep. -/
inductive Declares : List Definition → Definition → Prop
  | here {ds : List Definition} {d : Definition} : d ∈ ds → Declares ds d
  | nested {ds : List Definition} {d e : Definition} : d ∈ ds → Declares d.nested e → Declares ds e

/-- The tokens that a definition covers, with the definitions nested in it derived from those of its body. -/
inductive Definition.Covers (d : Definition) : List (Token TokenKind) → Prop
  | alias_ {keyword name assign : Token TokenKind} {type : List (Token TokenKind)} : keyword.kind = .typeKw →
      name.kind = .typeName → assign.kind = .assign → IsType type ∨ type = [] → d.kind = .typeAlias → d.nested = [] →
      d.span = ⟨keyword.span.start, ((assign :: type).getLast (by simp)).span.stop⟩ →
      Covers d (keyword :: name :: assign :: type)
  | body {keyword brace close : Token TokenKind} {head inside : List (Token TokenKind)} : Head keyword head →
      kindOf keyword.kind = d.kind → brace.kind = .lbrace → Items [] inside d.nested → close.kind = .rbrace →
      d.span = ⟨keyword.span.start, close.span.stop⟩ → Covers d (keyword :: head ++ brace :: inside ++ [close])

/-! ## All definitions -/

theorem mem_flattenAll {ds : List Definition} {d e : Definition} (hd : d ∈ ds) :
    e = d ∨ e ∈ flattenAll d.nested → e ∈ flattenAll ds := by
  induction ds with
  | nil => cases hd
  | cons x ds ih =>
    rw [flattenAll_cons]
    intro he
    rcases List.mem_cons.mp hd with rfl | hd
    · exact List.mem_append_left _ (List.mem_cons.mpr he)
    · exact List.mem_append_right _ (ih hd he)

theorem Declares.mem {ds : List Definition} {d : Definition} (h : Declares ds d) : d ∈ flattenAll ds := by
  induction h with
  | here hd => exact mem_flattenAll hd (.inl rfl)
  | nested hd _ ih => exact mem_flattenAll hd (.inr ih)

theorem Declares.cons {ds : List Definition} {d e : Definition} (h : Declares ds e) : Declares (d :: ds) e := by
  cases h with
  | here he => exact .here (List.mem_cons_of_mem d he)
  | nested hx he => exact .nested (List.mem_cons_of_mem d hx) he

section Derived

variable {open_ : List Bracket} {ts : List (Token TokenKind)} {ds : List Definition}

/-- What is listed has been declared; the induction goes into the bodies with the derivation. -/
theorem Items.declares (h : Items open_ ts ds) {e : Definition} (he : e ∈ flattenAll ds) : Declares ds e := by
  induction h with
  | nil => simp at he
  | pass _ _ ih => exact ih he
  | alias_ _ _ _ _ _ hnested _ _ ih =>
    rw [flattenAll_cons, hnested, flattenAll_nil] at he
    rcases List.mem_cons.mp he with rfl | he
    · exact .here List.mem_cons_self
    · exact (ih he).cons
  | body _ _ _ _ _ _ _ ihinside ih =>
    rw [flattenAll_cons] at he
    rcases List.mem_append.mp he with he | he
    · rcases List.mem_cons.mp he with rfl | he
      · exact .here List.mem_cons_self
      · exact .nested List.mem_cons_self (ihinside he)
    · exact (ih he).cons

/-- Each definition covers a stretch of the tokens. -/
theorem Items.covers (h : Items open_ ts ds) {d : Definition} (hd : d ∈ flattenAll ds) :
    ∃ used, used <:+: ts ∧ d.Covers used := by
  induction h with
  | nil => simp at hd
  | pass _ _ ih =>
    obtain ⟨used, hused, hcovers⟩ := ih hd
    exact ⟨used, hused.trans (List.suffix_cons _ _).isInfix, hcovers⟩
  | alias_ hkeyword hname hassign htype hkind hnested hspan _ ih =>
    rw [flattenAll_cons, hnested, flattenAll_nil] at hd
    rcases List.mem_cons.mp hd with rfl | hd
    · exact ⟨_, (List.prefix_append _ _).isInfix,
        .alias_ hkeyword hname hassign (htype.imp_right And.left) hkind hnested hspan⟩
    · obtain ⟨used, hused, hcovers⟩ := ih hd
      exact ⟨used, hused.trans (List.suffix_append _ _).isInfix, hcovers⟩
  | @body keyword brace close head inside ts d ds hhead hkind hbrace hinside hclose hspan _ ihinside ih =>
    have hall : keyword :: head ++ brace :: inside ++ close :: ts =
        (keyword :: head ++ brace :: inside ++ [close]) ++ ts := by simp
    have hbody : inside <:+: keyword :: head ++ brace :: inside ++ close :: ts :=
      ⟨keyword :: head ++ [brace], close :: ts, by simp⟩
    rw [flattenAll_cons] at hd
    rcases List.mem_append.mp hd with hd | hd
    · rcases List.mem_cons.mp hd with rfl | hd
      · exact ⟨_, hall ▸ (List.prefix_append _ _).isInfix, .body hhead hkind hbrace hinside hclose hspan⟩
      · obtain ⟨used, hused, hcovers⟩ := ihinside hd
        exact ⟨used, hused.trans hbody, hcovers⟩
    · obtain ⟨used, hused, hcovers⟩ := ih hd
      exact ⟨used, hused.trans (hall ▸ (List.suffix_append _ _).isInfix), hcovers⟩

end Derived

/-! ## Laminar trees -/

/-- The tokens are not empty and stand one behind the other. -/
structure Row (ts : List (Token TokenKind)) : Prop where
  pos : ∀ t ∈ ts, t.span.start < t.span.stop
  ordered : ts.Pairwise fun t u => t.span.stop ≤ u.span.start

namespace Row

variable {ts us : List (Token TokenKind)}

theorem sublist (h : Row ts) (hsub : us.Sublist ts) : Row us :=
  ⟨fun t ht => h.pos t (hsub.subset ht), h.ordered.sublist hsub⟩

theorem le (h : Row (ts ++ us)) {t u : Token TokenKind} (ht : t ∈ ts) (hu : u ∈ us) : t.span.stop ≤ u.span.start :=
  (List.pairwise_append.mp h.ordered).2.2 t ht u hu

end Row

/-- Siblings are disjoint and in order, and what is nested lies strictly inside; all lie between `lo` and `hi`. -/
structure Laminar (lo hi : Nat) (ds : List Definition) : Prop where
  within : ∀ d ∈ flattenAll ds, lo ≤ d.span.start ∧ d.span.start < d.span.stop ∧ d.span.stop ≤ hi
  siblings : ds.Pairwise fun d e => d.span.stop ≤ e.span.start
  inner : ∀ d ∈ flattenAll ds, d.nested.Pairwise (fun m n => m.span.stop ≤ n.span.start) ∧
    ∀ n ∈ d.nested, d.span.start < n.span.start ∧ n.span.stop < d.span.stop
  sorted : (flattenAll ds).Pairwise fun d e => d.span.start < e.span.start

namespace Laminar

variable {lo hi : Nat} {d : Definition} {ds : List Definition}

theorem nil : Laminar lo hi [] := ⟨by simp, .nil, by simp, by simp⟩

theorem mono {lo' hi' : Nat} (h : Laminar lo hi ds) (hlo : lo' ≤ lo) (hhi : hi ≤ hi') : Laminar lo' hi' ds where
  within := fun d hd => by
    obtain ⟨hstart, hpos, hstop⟩ := h.within d hd
    omega
  siblings := h.siblings
  inner := h.inner
  sorted := h.sorted

/-- A definition around those nested in it, and its siblings behind it. -/
theorem cons {start stop : Nat} (hspan : d.span = ⟨start, stop⟩) (hlo : lo ≤ start) (hpos : start < stop) (hhi : stop ≤ hi)
    (hnested : Laminar (start + 1) (stop - 1) d.nested) (hrest : Laminar stop hi ds) : Laminar lo hi (d :: ds) := by
  have hd : d.span.start = start ∧ d.span.stop = stop := by rw [hspan]; exact ⟨rfl, rfl⟩
  obtain ⟨hstart, hstop⟩ := hd
  refine ⟨fun e he => ?_, ?_, fun e he => ?_, ?_⟩
  · rw [flattenAll_cons] at he
    rcases List.mem_append.mp he with he | he
    · rcases List.mem_cons.mp he with rfl | he
      · omega
      · have := hnested.within e he
        omega
    · have := hrest.within e he
      omega
  · refine List.pairwise_cons.mpr ⟨fun e he => ?_, hrest.siblings⟩
    have := hrest.within e (mem_flattenAll he (.inl rfl))
    omega
  · rw [flattenAll_cons] at he
    rcases List.mem_append.mp he with he | he
    · rcases List.mem_cons.mp he with rfl | he
      · refine ⟨hnested.siblings, fun n hn => ?_⟩
        have := hnested.within n (mem_flattenAll hn (.inl rfl))
        omega
      · exact hnested.inner e he
    · exact hrest.inner e he
  · rw [flattenAll_cons]
    refine List.pairwise_append.mpr ⟨List.pairwise_cons.mpr ⟨fun e he => ?_, hnested.sorted⟩, hrest.sorted, ?_⟩
    · have := hnested.within e he
      omega
    · intro e he x hx
      have := hrest.within x hx
      rcases List.mem_cons.mp he with rfl | he
      · omega
      · have := hnested.within e he
        omega

end Laminar

/-- Definitions lie as the tokens that they are derived from. -/
theorem Items.laminar {open_ : List Bracket} {ts : List (Token TokenKind)} {ds : List Definition} {lo hi : Nat}
    (h : Items open_ ts ds) (hrow : Row ts) (hwithin : ∀ t ∈ ts, lo ≤ t.span.start ∧ t.span.stop ≤ hi) :
    Laminar lo hi ds := by
  induction h generalizing lo hi with
  | nil => exact .nil
  | pass _ _ ih =>
    exact ih (hrow.sublist (List.sublist_cons_self _ _)) fun t ht => hwithin t (List.mem_cons_of_mem _ ht)
  | @alias_ keyword name assign type ts d ds _ _ _ _ _ hnested hspan _ ih =>
    have hlast : (assign :: type).getLast (by simp) ∈ assign :: type := List.getLast_mem _
    generalize (assign :: type).getLast (by simp) = last at hspan hlast
    have hkeyword := hwithin keyword (by simp)
    have hkeywordPos := hrow.pos keyword (by simp)
    have hlastWithin := hwithin last (List.mem_append_left _ (List.mem_cons_of_mem _ (List.mem_cons_of_mem _ hlast)))
    have hlastPos := hrow.pos last (List.mem_append_left _ (List.mem_cons_of_mem _ (List.mem_cons_of_mem _ hlast)))
    have hbehind : keyword.span.stop ≤ last.span.start :=
      (List.pairwise_cons.mp hrow.ordered).1 last (List.mem_append_left _ (List.mem_cons_of_mem _ hlast))
    refine .cons hspan hkeyword.1 (by omega) hlastWithin.2 (by rw [hnested]; exact .nil) ?_
    refine ih (hrow.sublist (List.sublist_append_right _ _)) fun t ht => ⟨?_, (hwithin t (List.mem_append_right _ ht)).2⟩
    exact hrow.le (List.mem_cons_of_mem _ (List.mem_cons_of_mem _ hlast)) ht
  | @body keyword brace close head inside ts d ds _ _ _ _ _ hspan _ ihinside ih =>
    have hall : keyword :: head ++ brace :: inside ++ close :: ts =
        (keyword :: head ++ [brace]) ++ (inside ++ close :: ts) := by simp
    rw [hall] at hrow hwithin
    have hbody := hrow.sublist (List.sublist_append_right _ _)
    have hkeyword := hwithin keyword (by simp)
    have hkeywordPos := hrow.pos keyword (by simp)
    have hclose := hwithin close (by simp)
    have hclosePos := hrow.pos close (by simp)
    have hbehind : keyword.span.stop ≤ close.span.start := hrow.le (by simp) (by simp)
    refine .cons hspan hkeyword.1 (by omega) hclose.2 (ihinside (hbody.sublist (List.sublist_append_left _ _)) ?_) (ih ?_ ?_)
    · -- The tokens of the body stand between the keyword and the closing brace.
      intro t ht
      have hfront : keyword.span.stop ≤ t.span.start := hrow.le (by simp) (List.mem_append_left _ ht)
      have hback : t.span.stop ≤ close.span.start := hbody.le ht List.mem_cons_self
      omega
    · exact hbody.sublist ((List.sublist_cons_self _ _).trans (List.sublist_append_right _ _))
    · intro t ht
      have hrest := hbody.sublist (List.sublist_append_right _ _)
      refine ⟨(List.pairwise_cons.mp hrest.ordered).1 t ht, (hwithin t ?_).2⟩
      exact List.mem_append_right _ (List.mem_append_right _ (List.mem_cons_of_mem _ ht))

/-! ## Keywords and braces -/

theorem Header.keyword {keyword : Token TokenKind} {rest : List (Token TokenKind)} (h : Header (keyword :: rest)) :
    keyword.kind.opensBody = true := by
  generalize hts : keyword :: rest = ts at h
  cases h with
  | bare hkeyword =>
    obtain ⟨rfl, -⟩ := List.cons.inj hts
    exact hkeyword
  | params hopened =>
    obtain @⟨first, name, paren, hkeyword, -, -⟩ := hopened
    obtain ⟨rfl, -⟩ := List.cons.inj hts
    exact hkeyword

theorem kindOf_spelling {kind : TokenKind} (h : kind.opensBody = true ∨ kind = .typeKw) :
    kind.spelling? = some (kindOf kind).keyword := by
  cases kind <;> first | rfl | simp [TokenKind.opensBody] at h

/-- A definition starts with its keyword, and ends with the last token that it covers. -/
theorem Definition.Covers.ends {d : Definition} {used : List (Token TokenKind)} (h : d.Covers used) :
    ∃ keyword ∈ used, ∃ last ∈ used, keyword.kind.spelling? = some d.kind.keyword ∧
      d.span = ⟨keyword.span.start, last.span.stop⟩ ∧ (d.kind ≠ .typeAlias → last.kind = .rbrace) := by
  cases h with
  | alias_ hkeyword _ _ _ hkind _ hspan =>
    refine ⟨_, List.mem_cons_self, _, List.mem_cons_of_mem _ (List.mem_cons_of_mem _ (List.getLast_mem _)), ?_, hspan, ?_⟩
    · rw [hkeyword, hkind]
      rfl
    · exact fun hne => absurd hkind hne
  | body hhead hkind _ _ hclose hspan =>
    obtain ⟨hheader, -, -⟩ := hhead
    refine ⟨_, by simp, _, by simp, ?_, hspan, fun _ => hclose⟩
    rw [← hkind]
    exact kindOf_spelling (.inl hheader.keyword)

/-! ## Texts -/

/-- The definitions of a manifest are a laminar tree in the order of the text: each starts with its keyword, on the line
it says; a body ends with the brace that closes it; nested definitions lie strictly inside, siblings one behind the
other; and listing them all lists each once, in the order of their starts. -/
theorem parse_laminar {text : List Char} {ds : List Definition} {comments : List Comment}
    (h : Manifest.parse text = .ok (ds, comments)) :
    ∃ found, scan text = .ok found ∧
      (∀ d ∈ flattenAll ds, d.span.Fits text ∧
        (∃ before behind, text = before ++ d.kind.keyword.toList ++ behind ∧ d.span.start = byteLength before) ∧
        d.line = (LineIndex.ofText text).line d.span.start ∧
        (∃ used, used <:+: found.tokens ∧ d.Covers used) ∧
        (d.kind ≠ .typeAlias →
          ∃ before behind, text = before ++ ['\x7d'] ++ behind ∧ d.span.stop = byteLength (before ++ ['\x7d'])) ∧
        (∀ n ∈ d.nested, d.span.start < n.span.start ∧ n.span.stop < d.span.stop) ∧
        d.nested.Pairwise fun m n => m.span.stop ≤ n.span.start) ∧
      ds.Pairwise (fun d e => d.span.stop ≤ e.span.start) ∧
      (∀ d, d ∈ flattenAll ds ↔ Declares ds d) ∧ (flattenAll ds).Nodup ∧
      (flattenAll ds).Pairwise fun d e => d.span.start < e.span.start := by
  obtain ⟨found, -, hscan, -, -⟩ := parse_ok h
  obtain ⟨hrow, -⟩ := scan_inRow hscan
  obtain ⟨lo, hi, hplaced⟩ := parse_placed h
  have hitems := parse_items h hscan
  have hin : ∀ t ∈ found.tokens, t ∈ found.tokens.reverse := fun t => List.mem_reverse.mpr
  have hlaminar : Laminar 0 (byteLength text) ds := by
    refine hitems.laminar ⟨fun t ht => (hrow.bounds (hin t ht)).1, List.pairwise_reverse.mp hrow.ordered⟩ fun t ht => ?_
    exact ⟨Nat.zero_le _, (hrow.bounds (hin t ht)).2⟩
  refine ⟨found, hscan, fun d hd => ?_, hlaminar.siblings, fun d => ⟨hitems.declares, Declares.mem⟩, ?_, hlaminar.sorted⟩
  · obtain ⟨used, hused, hcovers⟩ := hitems.covers hd
    obtain ⟨keyword, hkeyword, last, hlast, hspelling, hspan, hbrace⟩ := hcovers.ends
    have hspelled := scan_spelled_kinds hscan
    obtain ⟨before, behind, htext, hstart, -⟩ := hrow.text_split (hin keyword (hused.subset hkeyword))
    obtain ⟨before', behind', htext', -, hstop⟩ := hrow.text_split (hin last (hused.subset hlast))
    have hkeywordText : keyword.text = d.kind.keyword := hspelled keyword (hused.subset hkeyword) _ hspelling
    refine ⟨⟨?_, ?_, ?_⟩, ?_, (hplaced.lined d hd).line, ⟨used, hused, hcovers⟩, fun hkind => ?_, (hlaminar.inner d hd).2,
      (hlaminar.inner d hd).1⟩
    · exact Nat.le_of_lt (hlaminar.within d hd).2.1
    · exact ⟨before, keyword.text.toList ++ behind, by rw [htext, List.append_assoc], by rw [hspan, hstart]⟩
    · refine ⟨before' ++ last.text.toList, behind', htext', ?_⟩
      rw [hspan, hstop, Text.byteLength_append]
    · exact ⟨before, behind, by rw [htext, hkeywordText], by rw [hspan, hstart]⟩
    · have hlastText : last.text = "\x7d" := hspelled last (hused.subset hlast) _ (by rw [hbrace hkind]; rfl)
      refine ⟨before', behind', by rw [htext', hlastText]; rfl, ?_⟩
      rw [hspan, hstop, hlastText, Text.byteLength_append]
      rfl
  · refine hlaminar.sorted.imp fun {d e} hlt he => ?_
    rw [he] at hlt
    exact Nat.lt_irrefl _ hlt

/-- The brace taken for the parent of the class is none of its body. -/
theorem parse_laminar_class :
    let text := "class a inherits \x7b \x7b\n  b \x7b 1: \x7d\n  define c \x7b \x7d\n\x7d\ntype D = E[1]\n".toList
    ∃ ds comments, Manifest.parse text = .ok (ds, comments) ∧
      (flattenAll ds).map (·.span) = [⟨0, 48⟩, ⟨34, 46⟩, ⟨49, 62⟩] ∧
      (flattenAll ds).Pairwise (fun d e => d.span.start < e.span.start) ∧
      ∀ d ∈ flattenAll ds, d.kind ≠ .typeAlias →
        ∃ before behind, text = before ++ ['\x7d'] ++ behind ∧ d.span.stop = byteLength (before ++ ['\x7d']) := by
  intro text
  have hspans : (match Manifest.parse text with
      | .ok (ds, _) => (flattenAll ds).map (·.span) == [⟨0, 48⟩, ⟨34, 46⟩, ⟨49, 62⟩]
      | .error _ => false) = true := by decide +kernel
  rcases hparse : Manifest.parse text with _ | ⟨ds, comments⟩
  · rw [hparse] at hspans
    cases hspans
  · rw [hparse] at hspans
    obtain ⟨found, -, hplaced, -, -, -, hsorted⟩ := parse_laminar hparse
    refine ⟨ds, comments, rfl, eq_of_beq hspans, hsorted, fun d hd => ?_⟩
    obtain ⟨-, -, -, -, hbrace, -⟩ := hplaced d hd
    exact hbrace

end PuppetDocs.Manifest
