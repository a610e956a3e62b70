import PuppetDocs.Proofs.Manifest.Tokens

/-
  PuppetDocs.Proofs.Manifest.Bodies — where the bodies of heredocs stand in a manifest.

  The body of a heredoc starts below the line of its header, unless other bodies stand there:
  then it starts behind them. Which of the bodies found so far these are is looked up by their
  starts, one after the other. That this comes to an end behind all of them (`behindBodies_last`)
  needs two things of the bodies found so far: they stand one behind the other (`InOrder`), and
  each of them is reached over bodies alone from the end of a line that was being read when its
  header was found (`Rooted`). A header stands outside of all bodies, so those that end behind it
  were found in its own line, and the text from the end of that line up to them is bodies.
-/

namespace PuppetDocs

namespace Ruby

/-- Taking characters, either the line ends among them, or its end stays where it is. -/
theorem lineWidth_append (a b : List Char) :
    ('\n' ∈ a ∧ Text.lineWidth (a ++ b) ≤ a.length) ∨
      ('\n' ∉ a ∧ Text.lineWidth (a ++ b) = a.length + Text.lineWidth b) := by
  induction a with
  | nil => exact .inr ⟨by simp, by simp⟩
  | cons c a ih =>
    by_cases hc : c = '\n'
    · subst hc
      exact .inl ⟨by simp, by simp [Text.lineWidth]⟩
    · rw [List.cons_append, lineWidth_cons hc, List.length_cons]
      rcases ih with ⟨hmem, hwidth⟩ | ⟨hline, hwidth⟩
      · exact .inl ⟨List.mem_cons_of_mem _ hmem, by omega⟩
      · exact .inr ⟨by simpa [hline] using Ne.symm hc, by omega⟩

theorem IsLine.physicalLines {l below : List Char} (h : IsLine l below) (hne : l ≠ []) :
    Text.physicalLines (l ++ below) = l :: Text.physicalLines below := by
  obtain ⟨a, ha, rfl | ⟨rfl, rfl⟩⟩ := h
  · rw [List.append_assoc, List.singleton_append, physicalLines_line ha]
  · rw [List.append_nil, physicalLines_last ha hne]
    rfl

end Ruby

namespace Manifest

open Text (byteLength)
open Ruby (IsLine)

/-! ## Bodies in order -/

/-- The bodies stand one behind the other, and none of them is empty. -/
structure InOrder (bodies : List Span) : Prop where
  pos : ∀ b ∈ bodies, b.start < b.stop
  order : bodies.Pairwise fun b c => b.stop ≤ c.start

/-- All that stands between the two offsets are bodies. -/
def Covered (bodies : List Span) (n m : Nat) : Prop := ∀ x, n ≤ x → x < m → ∃ b ∈ bodies, b.start ≤ x ∧ x < b.stop

theorem Covered.mono {bodies more : List Span} {n m : Nat} (h : Covered bodies n m) (hmore : bodies ⊆ more) :
    Covered more n m := by
  intro x hn hm
  obtain ⟨b, hb, hx⟩ := h x hn hm
  exact ⟨b, hmore hb, hx⟩

/-- What lies behind the first body is covered by the others. -/
theorem Covered.tail {b : Span} {bodies : List Span} {n n' m : Nat} (h : Covered (b :: bodies) n m) (hn : n ≤ n')
    (hb : b.stop ≤ n') : Covered bodies n' m := by
  intro x hx hm
  obtain ⟨c, hc, hwithin⟩ := h x (by omega) hm
  rcases List.mem_cons.mp hc with rfl | hc
  · omega
  · exact ⟨c, hc, hwithin⟩

/-- From `start` up to `m` all is bodies, and none of them ends behind it. -/
structure Last (bodies : List Span) (start m : Nat) : Prop where
  le : start ≤ m
  stops : ∀ b ∈ bodies, b.stop ≤ m
  covered : Covered bodies start m
  edge : m = start ∨ ∃ b ∈ bodies, m = b.stop

/-- A body ends in front of `start`, or it stands behind it with nothing but bodies in between. -/
def Reachable (bodies : List Span) (start : Nat) (b : Span) : Prop :=
  b.stop ≤ start ∨ start ≤ b.start ∧ Covered bodies start b.stop

/-- Going from the end of one body to that of the body that starts there leads behind all bodies. -/
theorem behindBodies_last {bodies : List Span} {start : Nat} (h : InOrder bodies)
    (hreach : ∀ b ∈ bodies, Reachable bodies start b) : Last bodies start (behindBodies bodies start) := by
  induction bodies generalizing start with
  | nil => exact ⟨Nat.le_refl _, nofun, fun x hx hm => absurd hx (Nat.not_le_of_lt hm), .inl rfl⟩
  | cons b bodies ih =>
    obtain ⟨hpos, horder⟩ := h
    obtain ⟨hbehind, horder⟩ := List.pairwise_cons.mp horder
    have hb := hpos b List.mem_cons_self
    have htail : InOrder bodies := ⟨fun c hc => hpos c (List.mem_cons_of_mem _ hc), horder⟩
    have hskip : behindBodies (b :: bodies) start = behindBodies bodies (if b.start == start then b.stop else start) := rfl
    rw [hskip]
    by_cases hat : b.start = start
    · rw [if_pos (beq_iff_eq.mpr hat)]
      have hlast : Last bodies b.stop (behindBodies bodies b.stop) := ih htail fun c hc => by
        rcases hreach c (List.mem_cons_of_mem _ hc) with hle | ⟨-, hcovered⟩
        · exact .inl (by omega)
        · exact .inr ⟨hbehind c hc, hcovered.tail (by omega) (Nat.le_refl _)⟩
      refine ⟨by have := hlast.le; omega, List.forall_mem_cons.mpr ⟨hlast.le, hlast.stops⟩, ?_, ?_⟩
      · intro x hx hm
        by_cases hxb : x < b.stop
        · exact ⟨b, List.mem_cons_self, by omega, hxb⟩
        · exact (hlast.covered.mono (List.subset_cons_self _ _)) x (by omega) hm
      · rcases hlast.edge with he | ⟨c, hc, he⟩
        · exact .inr ⟨b, List.mem_cons_self, he⟩
        · exact .inr ⟨c, List.mem_cons_of_mem _ hc, he⟩
    · rw [if_neg (by simpa using hat)]
      -- The body that covers `start` would be `b` or one in front of it.
      have hbefore : b.stop ≤ start := by
        rcases hreach b List.mem_cons_self with hle | ⟨hle, hcovered⟩
        · exact hle
        · obtain ⟨c, hc, hcstart, hcstop⟩ := hcovered start (Nat.le_refl _) (by omega)
          rcases List.mem_cons.mp hc with rfl | hc
          · omega
          · have := hbehind c hc
            omega
      have hlast : Last bodies start (behindBodies bodies start) := ih htail fun c hc =>
        (hreach c (List.mem_cons_of_mem _ hc)).imp_right fun ⟨hle, hcovered⟩ =>
          ⟨hle, hcovered.tail (Nat.le_refl _) hbefore⟩
      refine ⟨hlast.le, List.forall_mem_cons.mpr ⟨by have := hlast.le; omega, hlast.stops⟩,
        hlast.covered.mono (List.subset_cons_self _ _), ?_⟩
      exact hlast.edge.imp_right fun ⟨c, hc, he⟩ => ⟨c, List.mem_cons_of_mem _ hc, he⟩

/-! ## Bodies and the place of the scanner -/

/-- The end of the line that is being read behind `before`. -/
def lineEnd (before rest : List Char) : Nat := byteLength before + byteLength (rest.take (Text.lineWidth rest))

/-- Each body is reached over bodies alone from an offset that has been passed, or from the end of the line. -/
def Rooted (bodies : List Span) (before rest : List Char) : Prop :=
  ∀ b ∈ bodies, ∃ r, (r ≤ byteLength before ∨ r = lineEnd before rest) ∧ r ≤ b.start ∧ Covered bodies r b.stop

theorem lineEnd_line {taken rest : List Char} (h : '\n' ∉ taken) (before : List Char) :
    lineEnd before (taken ++ rest) = lineEnd (before ++ taken) rest := by
  rcases Ruby.lineWidth_append taken rest with ⟨hmem, -⟩ | ⟨-, hwidth⟩
  · exact absurd hmem h
  · unfold lineEnd
    rw [hwidth, List.take_length_add_append, Text.byteLength_append, Text.byteLength_append, Nat.add_assoc]

theorem Rooted.advance {bodies : List Span} {before taken rest : List Char} (h : Rooted bodies before (taken ++ rest)) :
    Rooted bodies (before ++ taken) rest := by
  intro b hb
  obtain ⟨r, hr, hle, hcovered⟩ := h b hb
  refine ⟨r, ?_, hle, hcovered⟩
  rcases hr with hr | rfl
  · exact .inl (by rw [Text.byteLength_append]; omega)
  · rcases Ruby.lineWidth_append taken rest with ⟨-, hwidth⟩ | ⟨hline, -⟩
    · refine .inl ?_
      rw [lineEnd, List.take_append_of_le_length hwidth, Text.byteLength_append]
      have hprefix : byteLength taken = byteLength (taken.take (Text.lineWidth (taken ++ rest))) +
          byteLength (taken.drop (Text.lineWidth (taken ++ rest))) := by
        rw [← Text.byteLength_append, List.take_append_drop]
      omega
    · exact .inr (lineEnd_line hline before)

/-- From a place outside of all bodies, all bodies behind the end of its line are reached over bodies alone. -/
theorem Rooted.reachable {bodies : List Span} {before rest : List Char} (h : Rooted bodies before rest)
    (houtside : ∀ b ∈ bodies, ¬(b.start ≤ byteLength before ∧ byteLength before < b.stop)) :
    ∀ b ∈ bodies, Reachable bodies (lineEnd before rest) b := by
  intro b hb
  obtain ⟨r, hr | rfl, hle, hcovered⟩ := h b hb
  · refine .inl ?_
    by_contra hstop
    have hbefore : byteLength before ≤ lineEnd before rest := Nat.le_add_right _ _
    obtain ⟨c, hc, hwithin⟩ := hcovered (byteLength before) hr (by omega)
    exact houtside c hc hwithin
  · exact .inr ⟨hle, hcovered⟩

/-- A body behind all others is reached from the end of its header's line. -/
theorem Rooted.add {bodies : List Span} {before rest : List Char} {b : Span} (h : Rooted bodies before rest)
    (hlast : Last bodies (lineEnd before rest) b.start) : Rooted (bodies ++ [b]) before rest := by
  intro c hc
  rcases List.mem_append.mp hc with hc | hc
  · obtain ⟨r, hr, hle, hcovered⟩ := h c hc
    exact ⟨r, hr, hle, hcovered.mono (List.subset_append_left _ _)⟩
  · rw [List.mem_singleton.mp hc]
    refine ⟨_, .inr rfl, hlast.le, fun x hx hstop => ?_⟩
    by_cases hxb : x < b.start
    · exact (hlast.covered.mono (List.subset_append_left _ _)) x hx hxb
    · exact ⟨b, by simp, by omega, hstop⟩

/-! ## The lines of a body -/

/-- `body` are the lines in front of `below` up to the first that closes a heredoc with this tag. -/
inductive Body (tag : List Char) : List Char → List Char → Prop
  | close {l below : List Char} : IsLine l below → l ≠ [] → marker l = tag → Body tag l below
  | line {l body below : List Char} : IsLine l (body ++ below) → marker l ≠ tag → Body tag body below →
      Body tag (l ++ body) below

theorem Body.ne_nil {tag body below : List Char} (h : Body tag body below) : body ≠ [] := by
  induction h with
  | close _ hne _ => exact hne
  | line _ _ _ ih => exact fun he => ih (List.append_eq_nil_iff.mp he).2

theorem bodyWidth?_body {tag cs : List Char} {w : Nat} (h : bodyWidth? tag (Text.physicalLines cs) = some w) :
    ∃ body below, cs = body ++ below ∧ w = byteLength body ∧ Body tag body below := by
  generalize hls : Text.physicalLines cs = ls at h
  induction ls generalizing cs w with
  | nil => cases h
  | cons l ls ih =>
    obtain ⟨below, rfl, hne, hline, rfl⟩ := Ruby.physicalLines_cons hls
    unfold bodyWidth? at h
    split at h
    · next hmarker =>
      cases h
      exact ⟨l, below, rfl, rfl, .close hline hne (eq_of_beq hmarker)⟩
    · next hmarker =>
      obtain ⟨v, hv, rfl⟩ := Option.map_eq_some_iff.mp h
      obtain ⟨body, below', rfl, rfl, hbody⟩ := ih rfl hv
      refine ⟨l ++ body, below', by simp, by rw [Text.byteLength_append], .line hline ?_ hbody⟩
      exact fun he => hmarker (beq_iff_eq.mpr he)

theorem Body.width {tag body below : List Char} (h : Body tag body below) :
    bodyWidth? tag (Text.physicalLines (body ++ below)) = some (byteLength body) := by
  induction h with
  | close hline hne hmarker =>
    rw [hline.physicalLines hne, bodyWidth?, if_pos (beq_iff_eq.mpr hmarker)]
  | @line l body below hline hmarker hbody ih =>
    have hne : l ≠ [] := by
      rintro rfl
      obtain ⟨a, -, hnil | ⟨-, hnil⟩⟩ := hline
      · simp at hnil
      · exact hbody.ne_nil (List.append_eq_nil_iff.mp hnil).1
    rw [List.append_assoc, hline.physicalLines hne, bodyWidth?, if_neg (by simpa using hmarker), ih,
      Text.byteLength_append]
    rfl

/-- The body that is found for a header stands below its line, behind the bodies there. -/
theorem heredocBody_some {bodies : List Span} {tag before rest : List Char} {b : Span}
    (h : heredocBody bodies tag (byteLength before) rest = .ok (some b)) (hfits : ∀ c ∈ bodies, c.Fits (before ++ rest)) :
    ∃ line upper body lower, rest = line ++ (upper ++ (body ++ lower)) ∧ IsLine line (upper ++ (body ++ lower)) ∧
      lineEnd before rest = byteLength (before ++ line) ∧ b.start = behindBodies bodies (lineEnd before rest) ∧
      b = ⟨byteLength (before ++ line ++ upper), byteLength (before ++ line ++ upper) + byteLength body⟩ ∧
      Body tag body lower := by
  have hend : lineEnd before rest = byteLength (before ++ rest.take (Text.lineWidth rest)) := by
    rw [Text.byteLength_append, lineEnd]
  have hline := Ruby.isLine_lineWidth rest
  have hrest : rest.take (Text.lineWidth rest) ++ rest.drop (Text.lineWidth rest) = rest := List.take_append_drop _ _
  have hbody : heredocBody bodies tag (byteLength before) rest =
      cutAt (byteLength before) (behindBodies bodies (lineEnd before rest) - byteLength before) rest >>= fun parts =>
        .ok ((bodyWidth? tag (Text.physicalLines parts.2)).map fun width =>
          ⟨behindBodies bodies (lineEnd before rest), behindBodies bodies (lineEnd before rest) + width⟩) := rfl
  rw [hbody] at h
  generalize rest.take (Text.lineWidth rest) = line at hend hline hrest
  generalize rest.drop (Text.lineWidth rest) = under at hline hrest
  subst hrest
  have hboundary : Text.Boundary (before ++ (line ++ under)) (lineEnd before (line ++ under)) := by
    rw [hend, ← List.append_assoc]
    exact Text.boundary_append _ _
  obtain ⟨hle, hstart⟩ := behindBodies_fits hfits hboundary
  rw [← List.append_assoc] at hstart
  obtain ⟨upper, below, rfl, hupper⟩ := hstart.behind (hend ▸ hle)
  rw [← Text.byteLength_append] at hupper
  generalize behindBodies bodies (lineEnd before (line ++ (upper ++ below))) = start at h hupper
  have hwidth : start - byteLength before = byteLength (line ++ upper) := by
    rw [hupper, List.append_assoc, Text.byteLength_append, Nat.add_sub_cancel_left]
  unfold cutAt at h
  rw [hwidth, ← List.append_assoc, Text.cut?_byteLength] at h
  obtain ⟨w, hw, rfl⟩ := Option.map_eq_some_iff.mp (Except.ok.inj h)
  obtain ⟨body, lower, rfl, rfl, hbody⟩ := bodyWidth?_body hw
  exact ⟨line, upper, body, lower, rfl, hline, hend, rfl, by rw [hupper], hbody⟩

end Manifest

end PuppetDocs
