import PuppetDocs.Proofs.Manifest.Coverage
import PuppetDocs.Proofs.Scan.Below

/-
  PuppetDocs.Proofs.Manifest.Heredocs.Twin — one text read in two places.

  What the scanner finds in a text depends on what stands in front of it in two ways only: on the
  kind of the last token, and on the heredoc bodies that reach into the text. Where the last kind
  is the same and no body reaches into the text, two scanners take the same steps over it: they
  find tokens of the same kinds, comments with the same texts, and bodies at the same places of
  it (`Twin`). That the one stops at a fault of the text means that the other does, so
  `walk_twin` needs one of the two walks only. The texts may have different blanks in front.
-/

namespace PuppetDocs.Manifest

open Text (byteLength run)

namespace Scanner

/-- The kinds of the tokens, the latest first. -/
def kinds (s : Scanner) : List TokenKind := s.reading.tokens.map Token.kind

/-- The texts of the comments, the latest first. -/
def remarks (s : Scanner) : List String := s.reading.comments.map Comment.text

@[simp] theorem kinds_pass (s : Scanner) (cs : List Char) : (s.pass cs).kinds = s.kinds := by
  simp [kinds]

@[simp] theorem kinds_add (s : Scanner) (t : Token TokenKind) : (s.add t).kinds = t.kind :: s.kinds := rfl

@[simp] theorem kinds_addComment (s : Scanner) (c : Comment) : (s.addComment c).kinds = s.kinds := rfl

@[simp] theorem remarks_pass (s : Scanner) (cs : List Char) : (s.pass cs).remarks = s.remarks := by
  simp [remarks]

@[simp] theorem remarks_add (s : Scanner) (t : Token TokenKind) : (s.add t).remarks = s.remarks := rfl

@[simp] theorem remarks_addComment (s : Scanner) (c : Comment) : (s.addComment c).remarks = c.text :: s.remarks := rfl

theorem lastKind?_eq (s : Scanner) (cs : List Char) : (s.reading.skip cs).lastKind? = s.kinds.head? := by
  simp [Reading.lastKind?, kinds]

/-- All bodies found so far end at or in front of the offset. -/
def Behind (s : Scanner) (n : Nat) : Prop := ∀ b ∈ s.bodies, b.start < n ∧ b.stop ≤ n

end Scanner

/-! ## Moved bodies -/

section Moved

variable {old bs : List Span} {m x : Nat}

theorem behindBodies_shift (hold : ∀ b ∈ old, b.start < m) :
    behindBodies (old ++ bs.map (·.shift m)) (m + x) = m + behindBodies bs x := by
  have hpast : behindBodies old (m + x) = m + x := by
    induction old with
    | nil => rfl
    | cons b old ih =>
      have hb : b.start < m := hold b List.mem_cons_self
      have hne : ¬(b.start == m + x) = true := by
        rw [beq_iff_eq]
        omega
      rw [behindBodies, List.foldl_cons, if_neg hne]
      exact ih fun c hc => hold c (List.mem_cons_of_mem _ hc)
  rw [behindBodies, List.foldl_append]
  rw [behindBodies] at hpast
  rw [hpast]
  clear hpast
  induction bs generalizing x with
  | nil => rfl
  | cons b bs ih =>
    have hstart : ((b.shift m).start == m + x) = (b.start == x) := by
      rw [Bool.eq_iff_iff, beq_iff_eq, beq_iff_eq]
      exact Nat.add_left_cancel_iff
    have hstop : (b.shift m).stop = m + b.stop := rfl
    rw [List.map_cons, List.foldl_cons, hstart, hstop, behindBodies, List.foldl_cons]
    split
    · exact ih
    · exact ih

theorem cover?_shift (hold : ∀ b ∈ old, b.stop ≤ m) :
    cover? (old ++ bs.map (·.shift m)) (m + x) = (cover? bs x).map (·.shift m) := by
  have hpast : cover? old (m + x) = none := by
    refine List.find?_eq_none.mpr fun b hb => ?_
    have hstop := hold b hb
    simp only [Bool.and_eq_true, decide_eq_true_eq]
    omega
  have hsame : ((fun b : Span => decide (b.start ≤ m + x) && decide (m + x < b.stop)) ∘ fun b : Span => b.shift m) =
      fun b => decide (b.start ≤ x) && decide (x < b.stop) := by
    funext b
    simp [Span.shift]
  rw [cover?, List.find?_append]
  rw [cover?] at hpast
  rw [hpast, Option.none_or, List.find?_map, hsame]
  rfl

/-- What a header finds does not depend on where in a text it stands. -/
theorem heredocBody_shift (hold : ∀ b ∈ old, b.start < m) (bs : List Span) (x : Nat) (tag rest : List Char) :
    (∃ e e', heredocBody bs tag x rest = .error e ∧ heredocBody (old ++ bs.map (·.shift m)) tag (m + x) rest = .error e') ∨
      ∃ body?, heredocBody bs tag x rest = .ok body? ∧
        heredocBody (old ++ bs.map (·.shift m)) tag (m + x) rest = .ok (body?.map (·.shift m)) := by
  unfold heredocBody
  rw [Nat.add_assoc, behindBodies_shift hold]
  generalize behindBodies bs (x + byteLength (rest.take (Text.lineWidth rest))) = start
  have hwidth : m + start - (m + x) = start - x := by omega
  unfold cutAt
  dsimp only
  rw [hwidth]
  cases Text.cut? (start - x) rest with
  | none => exact .inl ⟨_, _, rfl, rfl⟩
  | some parts =>
    refine .inr ⟨_, rfl, ?_⟩
    simp only [bind, Except.bind, pure, Except.pure]
    cases bodyWidth? tag (Text.physicalLines parts.2) with
    | none => rfl
    | some width => simp [Span.shift, Nat.add_assoc]

end Moved

/-! ## Twins -/

/-- Since `z` and `y`, where the offsets were `m` and `n`, two scanners have found the same. -/
structure Twin (z y : Scanner) (m n : Nat) (s t : Scanner) : Prop where
  kinds : ∃ ks, s.kinds = ks ++ z.kinds ∧ t.kinds = ks ++ y.kinds
  last : s.kinds.head? = t.kinds.head?
  remarks : ∃ cs, s.remarks = cs ++ z.remarks ∧ t.remarks = cs ++ y.remarks
  bodies : ∃ bs : List Span, s.bodies = z.bodies ++ bs.map (·.shift m) ∧ t.bodies = y.bodies ++ bs.map (·.shift n)

namespace Twin

variable {z y s t : Scanner} {m n : Nat}

theorem refl (hlast : z.kinds.head? = y.kinds.head?) : Twin z y m n z y :=
  ⟨⟨[], rfl, rfl⟩, hlast, ⟨[], rfl, rfl⟩, ⟨[], by simp, by simp⟩⟩

variable (h : Twin z y m n s t)
include h

theorem pass (g k : List Char) : Twin z y m n (s.pass g) (t.pass k) :=
  ⟨by simpa using h.kinds, by simpa using h.last, by simpa using h.remarks, h.bodies⟩

theorem add {a b : Token TokenKind} (hkind : a.kind = b.kind) : Twin z y m n (s.add a) (t.add b) := by
  obtain ⟨ks, hs, ht⟩ := h.kinds
  refine ⟨⟨a.kind :: ks, ?_, ?_⟩, ?_, h.remarks, h.bodies⟩
  · rw [Scanner.kinds_add, hs, List.cons_append]
  · rw [Scanner.kinds_add, ht, ← hkind, List.cons_append]
  · rw [Scanner.kinds_add, Scanner.kinds_add, hkind]
    rfl

theorem addComment {a b : Comment} (htext : a.text = b.text) : Twin z y m n (s.addComment a) (t.addComment b) := by
  obtain ⟨cs, hs, ht⟩ := h.remarks
  refine ⟨h.kinds, h.last, ⟨a.text :: cs, ?_, ?_⟩, h.bodies⟩
  · rw [Scanner.remarks_addComment, hs, List.cons_append]
  · rw [Scanner.remarks_addComment, ht, ← htext, List.cons_append]

theorem open_ {a b : Token TokenKind} (hkind : a.kind = b.kind) (body : Span) :
    Twin z y m n (s.open_ a (body.shift m)) (t.open_ b (body.shift n)) := by
  obtain ⟨bs, hs, ht⟩ := h.bodies
  have hadd := h.add hkind
  refine ⟨hadd.kinds, hadd.last, hadd.remarks, bs ++ [body], ?_, ?_⟩
  · simp [Scanner.open_, hs]
  · simp [Scanner.open_, ht]

end Twin

theorem run_gap {g : List Char} (hg : ∀ c ∈ g, isGap c = true) (rest : List Char) :
    run isGap (g ++ rest) = g.length + run isGap rest := by
  rw [run, List.takeWhile_append_of_pos hg, List.length_append, run]

/-- Nothing but blanks is read to its end in one step. -/
theorem walk_blanks {lines : LineIndex} {s : Scanner} {cs : List Char} (h : ∀ c ∈ cs, isGap c = true) :
    walk lines cs 0 s = .ok s := by
  cases cs with
  | nil => rfl
  | cons c cs =>
    have hrun : run isGap (c :: cs) = (c :: cs).length := by
      have hall := run_gap h []
      rw [List.append_nil] at hall
      exact hall
    have hstep : step lines s (c :: cs) = .ok none := by
      unfold step
      dsimp only
      rw [hrun, List.drop_length]
      rfl
    simp [walk, hstep]

section Steps

variable {z y s s' t t' : Scanner} {m n x w w' gap gap' : Nat} {lines lines' : LineIndex}
variable {r r' : Reading TokenKind} {cs rest : List Char}

theorem found_twin (h : Twin z y m n s t) {kind : TokenKind}
    (hfound : found t r' gap' cs kind w = .ok (some (t', w'))) :
    ∃ s' v, w' = gap' + v ∧ found s r gap cs kind w = .ok (some (s', gap + v)) ∧ Twin z y m n s' t' := by
  cases hfound
  exact ⟨_, w, rfl, rfl, h.add rfl⟩

variable (hz : z.Behind m) (hy : y.Behind n)
include hz hy

/-- Of the text in front of it the scanner sees no more than the kind of the last token and the bodies. -/
theorem accept_twin (h : Twin z y m n s t) (hr : r.offset = m + x) (hr' : r'.offset = n + x)
    (hlast : r.lastKind? = r'.lastKind?) {l : Lexeme}
    (haccept : accept lines' t r' gap' cs w l = .ok (some (t', w'))) :
    ∃ s' v, w' = gap' + v ∧ accept lines s r gap cs w l = .ok (some (s', gap + v)) ∧ Twin z y m n s' t' := by
  unfold accept at haccept ⊢
  split at haccept
  · cases haccept
    exact ⟨_, w, rfl, rfl, h.addComment rfl⟩
  · split at haccept
    · cases haccept
    · next width _ =>
      cases haccept
      exact ⟨s, w + width, Nat.add_assoc .., by rw [Nat.add_assoc], h⟩
  · split at haccept
    · cases haccept
    · exact found_twin h haccept
  · obtain ⟨bs, hs, ht⟩ := h.bodies
    dsimp only at haccept ⊢
    rw [hr', ht, Nat.add_assoc] at haccept
    rw [hr, hs, Nat.add_assoc]
    generalize tagOf (((cs.take w).drop 2).dropLast) = tag at haccept ⊢
    rcases heredocBody_shift (fun b hb => (hy b hb).1) bs (x + byteLength (cs.take w)) tag (cs.drop w) with
      ⟨_, _, -, herror⟩ | ⟨body?, hbody, hbody'⟩
    · rw [herror] at haccept
      cases haccept
    · rcases heredocBody_shift (fun b hb => (hz b hb).1) bs (x + byteLength (cs.take w)) tag (cs.drop w) with
        ⟨_, _, herror, -⟩ | ⟨body'?, hbody'', hfront⟩
      · rw [herror] at hbody
        cases hbody
      rw [hbody''] at hbody
      cases hbody
      rw [hbody'] at haccept
      rw [hfront]
      cases body? with
      | none => cases haccept
      | some body =>
        cases haccept
        rw [← hs, ← ht]
        exact ⟨_, w, rfl, rfl, h.open_ (a := r.token .string (cs.take w)) (b := r'.token .string (cs.take w)) rfl body⟩
  · have hregex : regexAllowed r = regexAllowed r' := by rw [regexAllowed, regexAllowed, hlast]
    rw [hregex]
    split at haccept
    · next hallowed =>
      rw [if_pos hallowed]
      split at haccept
      · cases haccept
      · exact found_twin h haccept
    · next hallowed =>
      rw [if_neg hallowed]
      exact found_twin h haccept
  · exact found_twin h haccept

/-- A step over the same text behind blanks that may differ. -/
theorem step_twin (lines : LineIndex) (h : Twin z y m n s t) {g k : List Char} (hg : ∀ c ∈ g, isGap c = true)
    (hk : ∀ c ∈ k, isGap c = true) (hs : s.reading.offset + byteLength g = m + x)
    (ht : t.reading.offset + byteLength k = n + x)
    (hstep : step lines' t (k ++ rest) = .ok (some (t', w'))) :
    ∃ s' v, w' = k.length + v ∧ step lines s (g ++ rest) = .ok (some (s', g.length + v)) ∧ Twin z y m n s' t' := by
  obtain ⟨bs, hsb, htb⟩ := h.bodies
  have hoffset : (s.reading.skip (g ++ rest.take (run isGap rest))).offset =
      m + (x + byteLength (rest.take (run isGap rest))) := by
    rw [Reading.skip_offset, Text.byteLength_append]
    omega
  have hoffset' : (t.reading.skip (k ++ rest.take (run isGap rest))).offset =
      n + (x + byteLength (rest.take (run isGap rest))) := by
    rw [Reading.skip_offset, Text.byteLength_append]
    omega
  unfold step at hstep ⊢
  dsimp only at hstep ⊢
  rw [run_gap hk, List.drop_length_add_append, List.take_length_add_append] at hstep
  rw [run_gap hg, List.drop_length_add_append, List.take_length_add_append]
  generalize rest.take (run isGap rest) = blanks at hoffset hoffset' hstep ⊢
  generalize rest.drop (run isGap rest) = cs at hstep ⊢
  split at hstep
  · cases hstep
  next hne =>
  rw [if_neg hne]
  rw [hoffset', ← cover?, htb, cover?_shift fun b hb => (hy b hb).2] at hstep
  rw [hoffset, ← cover?, hsb, cover?_shift fun b hb => (hz b hb).2]
  cases hcover : cover? bs (x + byteLength blanks) with
  | some body =>
    have hwidth : ∀ a, (body.shift a).stop - (a + (x + byteLength blanks)) = body.stop - (x + byteLength blanks) := by
      intro a
      show a + body.stop - _ = _
      omega
    rw [hcover] at hstep
    simp only [Option.map_some, cutAt, hwidth] at hstep ⊢
    cases hcut : Text.cut? (body.stop - (x + byteLength blanks)) cs with
    | none =>
      rw [hcut] at hstep
      cases hstep
    | some parts =>
      rw [hcut] at hstep
      cases hstep
      exact ⟨s, run isGap rest + parts.1.length, Nat.add_assoc .., by simp [Nat.add_assoc], h⟩
  | none =>
    rw [hcover] at hstep
    simp only [Option.map_none] at hstep ⊢
    split at hstep
    · obtain ⟨s', v, hv, hfound, htwin⟩ := found_twin h hstep
      exact ⟨s', run isGap rest + v, by rw [hv, Nat.add_assoc], by rw [hfound, Nat.add_assoc], htwin⟩
    · next l width hl =>
      have hlast : (s.reading.skip (g ++ blanks)).lastKind? = (t.reading.skip (k ++ blanks)).lastKind? := by
        rw [Scanner.lastKind?_eq, Scanner.lastKind?_eq, h.last]
      obtain ⟨s', v, hv, haccept, htwin⟩ := accept_twin hz hy h hoffset hoffset' hlast hstep
      exact ⟨s', run isGap rest + v, by rw [hv, Nat.add_assoc], by rw [haccept, Nat.add_assoc], htwin⟩

/-- A walk that comes to the end of a text does so wherever the text stands. -/
theorem walk_twin (lines : LineIndex) (h : Twin z y m n s t) {g k : List Char} (hg : ∀ c ∈ g, isGap c = true)
    (hk : ∀ c ∈ k, isGap c = true) (hs : s.reading.offset + byteLength g = m + x)
    (ht : t.reading.offset + byteLength k = n + x) (hwalk : walk lines' (k ++ rest) 0 t = .ok t') :
    ∃ s', walk lines (g ++ rest) 0 s = .ok s' ∧ Twin z y m n s' t' := by
  -- Only the first step has different blanks in front of it.
  induction hlength : (k ++ rest).length using Nat.strongRecOn generalizing rest s t g k x with
  | ind l ih =>
    subst hlength
    by_cases hblank : ∀ c ∈ k ++ rest, isGap c = true
    · rw [walk_blanks hblank] at hwalk
      cases hwalk
      have hrest : ∀ c ∈ rest, isGap c = true := fun c hc => hblank c (List.mem_append_right _ hc)
      exact ⟨s, walk_blanks (List.forall_mem_append.mpr ⟨hg, hrest⟩), h⟩
    · have hne : k ++ rest ≠ [] := by
        intro hnil
        rw [hnil] at hblank
        exact hblank (by simp)
      obtain ⟨t₁, w, hstep⟩ : ∃ t₁ w, step lines' t (k ++ rest) = .ok (some (t₁, w)) := by
        cases hstep : step lines' t (k ++ rest) with
        | error e =>
          obtain ⟨c, r, hcons⟩ := List.exists_cons_of_ne_nil hne
          rw [hcons] at hwalk hstep
          simp [walk, hstep] at hwalk
        | ok found? =>
          rcases found? with _ | ⟨t₁, w⟩
          · rw [step_none hstep] at hblank
            exact absurd (fun c => isGap_of_mem_gap) hblank
          · exact ⟨t₁, w, rfl⟩
      obtain ⟨s₁, v, rfl, hstep', htwin⟩ := step_twin hz hy lines h hg hk hs ht hstep
      have hfound := step_found hstep
      have hfound' := step_found hstep'
      obtain ⟨hpos, hle⟩ := hfound.width
      obtain ⟨hpos', hle'⟩ := hfound'.width
      have hne' : g ++ rest ≠ [] := List.ne_nil_of_length_pos (by omega)
      have hkept := hfound'.offset
      have hkept' := hfound.offset
      rw [walk_next hne hpos hle hstep, List.drop_length_add_append, List.take_length_add_append] at hwalk
      rw [walk_next hne' hpos' hle' hstep', List.drop_length_add_append, List.take_length_add_append]
      refine ih (rest.drop v).length ?_ (htwin.pass _ _) (g := []) (k := []) (x := x + byteLength (rest.take v)) (by simp)
        (by simp) ?_ ?_ hwalk rfl
      · rw [List.length_append] at hle ⊢
        rw [List.length_drop]
        omega
      · simp only [Scanner.pass_reading, Reading.skip_offset, Text.byteLength_append, Text.byteLength_nil]
        omega
      · simp only [Scanner.pass_reading, Reading.skip_offset, Text.byteLength_append, Text.byteLength_nil]
        omega

end Steps

end PuppetDocs.Manifest
