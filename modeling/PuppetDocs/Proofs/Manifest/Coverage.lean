import PuppetDocs.Proofs.Manifest.Bodies

/-
  PuppetDocs.Proofs.Manifest.Coverage — the tokens of a manifest, and what stands between them.

  A scanned manifest is cut, without gap or overlap, into the stretches that `Cut` allows: white
  space, comments of both kinds, tokens, and the rests of heredoc bodies. Where the body of a
  heredoc is, its header says: below its line, behind the bodies that stand there already, up to
  the first line that is its tag. `scan_stretches` says that every manifest the scanner accepts is
  cut in this way up to its end, and that no token starts within a body.

  A literal or a comment may run into a body, and past its end. What is left of the body is passed
  over where the scanner comes back to it, so that a body need not be one stretch of the cut.
-/

namespace PuppetDocs.Manifest

open Text (byteLength run)
open Ruby (IsLine)

/-! ## The stretches of a manifest -/

def isWhite (c : Char) : Prop := c ∈ [' ', '\t', '\r', '\n', '\x0c']

/-- No body covers the offset. -/
def Clear (bodies : List Span) (offset : Nat) : Prop := ∀ b ∈ bodies, ¬(b.start ≤ offset ∧ offset < b.stop)

/-- The token is the header of a heredoc, and not another string. -/
def IsHeader (t : Token TokenKind) : Prop := t.kind = .string ∧ t.text.toList.head? = some '@'

/-- The token covers the characters `cs` behind `before`. -/
structure Covers (t : Token TokenKind) (before cs : List Char) : Prop where
  text : t.text.toList = cs
  span : t.span = ⟨byteLength before, byteLength before + byteLength cs⟩

/-- The characters in front of `rest` are cut into these tokens and what may stand between them; the bodies are those
of the heredocs whose headers are among the tokens, in their order. -/
inductive Cut : List Char → List Char → List (Token TokenKind) → List Span → Prop
  | start (text : List Char) : Cut [] text [] []
  | white {before rest : List Char} {ts : List (Token TokenKind)} {bs : List Span} {c : Char} :
      Cut before (c :: rest) ts bs → isWhite c → Cut (before ++ [c]) rest ts bs
  | comment {before c rest : List Char} {ts : List (Token TokenKind)} {bs : List Span} :
      Cut before ('#' :: c ++ rest) ts bs → Clear bs (byteLength before) → '\n' ∉ c → (rest = [] ∨ ['\n'] <+: rest) →
      Cut (before ++ '#' :: c) rest ts bs
  | block {before c rest : List Char} {ts : List (Token TokenKind)} {bs : List Span} :
      Cut before ('/' :: '*' :: c ++ '*' :: '/' :: rest) ts bs → Clear bs (byteLength before) →
      ¬['*', '/'] <:+: c ++ ['*'] → Cut (before ++ '/' :: '*' :: c ++ ['*', '/']) rest ts bs
  | inside {before cs rest : List Char} {ts : List (Token TokenKind)} {bs : List Span} {b : Span} :
      Cut before (cs ++ rest) ts bs → b ∈ bs → b.start ≤ byteLength before → byteLength (before ++ cs) = b.stop →
      Cut (before ++ cs) rest ts bs
  | token {before cs rest : List Char} {ts : List (Token TokenKind)} {bs : List Span} {t : Token TokenKind} :
      Cut before (cs ++ rest) ts bs → Clear bs (byteLength before) → cs ≠ [] → Covers t before cs → ¬IsHeader t →
      Cut (before ++ cs) rest (ts ++ [t]) bs
  | header {before inside line upper body lower : List Char} {ts : List (Token TokenKind)} {bs : List Span}
      {t : Token TokenKind} :
      Cut before (headerText inside ++ (line ++ (upper ++ (body ++ lower)))) ts bs → Clear bs (byteLength before) →
      '\n' ∉ inside → Covers t before (headerText inside) → t.kind = .string →
      IsLine line (upper ++ (body ++ lower)) →
      Last bs (byteLength (before ++ headerText inside ++ line)) (byteLength (before ++ headerText inside ++ line ++ upper)) →
      Body (tagOf inside) body lower →
      Cut (before ++ headerText inside) (line ++ (upper ++ (body ++ lower))) (ts ++ [t])
        (bs ++ [⟨byteLength (before ++ headerText inside ++ line ++ upper),
          byteLength (before ++ headerText inside ++ line ++ upper) + byteLength body⟩])

/-! ## What a cut says of its tokens and bodies -/

section Cut

variable {before rest : List Char} {ts : List (Token TokenKind)} {bs : List Span}

theorem Covers.bounds {t : Token TokenKind} {cs : List Char} (h : Covers t before cs) (hne : cs ≠ []) :
    t.span.start = byteLength before ∧ byteLength before < byteLength (before ++ cs) := by
  have := Text.byteLength_pos hne
  rw [h.span, Text.byteLength_append]
  exact ⟨rfl, by omega⟩

theorem Cut.inOrder (h : Cut before rest ts bs) : InOrder bs := by
  induction h with
  | start => exact ⟨nofun, .nil⟩
  | white _ _ ih | comment _ _ _ _ ih | block _ _ _ ih | inside _ _ _ _ ih | token _ _ _ _ _ ih => exact ih
  | header _ _ _ _ _ _ hlast hbody ih =>
    have := Text.byteLength_pos hbody.ne_nil
    refine ⟨?_, List.pairwise_append.mpr ⟨ih.order, List.pairwise_singleton _ _, fun b hb c hc => ?_⟩⟩
    · refine List.forall_mem_append.mpr ⟨ih.pos, List.forall_mem_singleton.mpr ?_⟩
      show byteLength _ < byteLength _ + byteLength _
      omega
    · rw [List.mem_singleton.mp hc]
      exact hlast.stops b hb

theorem Cut.starts (h : Cut before rest ts bs) {t : Token TokenKind} (ht : t ∈ ts) : t.span.start < byteLength before := by
  have wider : ∀ {x : List Char} (y : List Char), t.span.start < byteLength x → t.span.start < byteLength (x ++ y) := by
    intro x y hx
    rw [Text.byteLength_append]
    omega
  induction h with
  | start => cases ht
  | white _ _ ih | comment _ _ _ _ ih | inside _ _ _ _ ih => exact wider _ (ih ht)
  | block _ _ _ ih => exact wider _ (wider _ (ih ht))
  | token _ _ hne hcovers _ ih =>
    rcases List.mem_append.mp ht with ht | ht
    · exact wider _ (ih ht)
    · rw [List.mem_singleton.mp ht, (hcovers.bounds hne).1]
      exact (hcovers.bounds hne).2
  | header _ _ _ hcovers _ _ _ _ ih =>
    rcases List.mem_append.mp ht with ht | ht
    · exact wider _ (ih ht)
    · rw [List.mem_singleton.mp ht, (hcovers.bounds (headerText_ne_nil rfl)).1]
      exact (hcovers.bounds (headerText_ne_nil rfl)).2

/-- No token starts within a body, whether its heredoc was opened before it or after. -/
theorem Cut.outside (h : Cut before rest ts bs) : ∀ t ∈ ts, Clear bs t.span.start := by
  induction h with
  | start => exact nofun
  | white _ _ ih | comment _ _ _ _ ih | block _ _ _ ih | inside _ _ _ _ ih => exact ih
  | token _ houtside hne hcovers _ ih =>
    refine List.forall_mem_append.mpr ⟨ih, List.forall_mem_singleton.mpr ?_⟩
    rw [(hcovers.bounds hne).1]
    exact houtside
  | @header before inside line upper body lower ts bs t hcut houtside _ hcovers _ _ _ _ ih =>
    obtain ⟨hstart, hlt⟩ := hcovers.bounds (headerText_ne_nil rfl)
    have hold : ∀ u ∈ ts ++ [t], Clear bs u.span.start :=
      List.forall_mem_append.mpr ⟨ih, List.forall_mem_singleton.mpr (by rw [hstart]; exact houtside)⟩
    -- The new body starts behind its header.
    have hfront : ∀ u ∈ ts ++ [t], u.span.start < byteLength (before ++ headerText inside) :=
      List.forall_mem_append.mpr ⟨fun u hu => (hcut.starts hu).trans hlt, List.forall_mem_singleton.mpr (by rw [hstart]; exact hlt)⟩
    intro u hu
    refine List.forall_mem_append.mpr ⟨hold u hu, List.forall_mem_singleton.mpr fun hwithin => ?_⟩
    have hbefore := hfront u hu
    have hbehind := hwithin.1
    simp only [Text.byteLength_append] at hbefore hbehind
    omega

end Cut

/-! ## Walks -/

theorem blockComment?_split {cs : List Char} {n : Nat} (h : blockComment? cs = some n) :
    ∃ c below, cs = c ++ '*' :: '/' :: below ∧ n = c.length + 2 ∧ ¬['*', '/'] <:+: c ++ ['*'] := by
  fun_induction blockComment? cs generalizing n with
  | case1 => cases h
  | case2 c r hc =>
    cases h
    simp only [Bool.and_eq_true, beq_iff_eq] at hc
    obtain ⟨rfl, hr⟩ := hc
    obtain ⟨r, rfl⟩ := List.head?_eq_some_iff.mp hr
    exact ⟨[], r, rfl, rfl, by decide⟩
  | case3 c r hc ih =>
    obtain ⟨m, hm, rfl⟩ := Option.map_eq_some_iff.mp h
    obtain ⟨d, below, rfl, rfl, hfirst⟩ := ih hm
    refine ⟨c :: d, below, rfl, by simp, fun hinfix => ?_⟩
    rcases List.infix_cons_iff.mp hinfix with hfront | hlater
    · -- The comment would have ended with its first two characters.
      obtain ⟨x, hx⟩ := hfront
      rcases d with _ | ⟨e, d⟩
      · simp at hx
      · simp only [List.cons_append, List.nil_append, List.cons.injEq] at hx
        obtain ⟨rfl, rfl, -⟩ := hx
        simp at hc
    · exact hfirst hlater

/-- The scanner has read `before` of the text and found the tokens and bodies of its cut; `rest` is left. -/
structure Scanner.Placed (s : Scanner) (before rest : List Char) : Prop where
  reached : s.Reached before rest
  cut : Cut before rest s.reading.tokens.reverse s.bodies
  rooted : Rooted s.bodies before rest

theorem isWhite_of_isGap {c : Char} (h : isGap c = true) : isWhite c := by
  simp only [isGap, Bool.or_eq_true, beq_iff_eq] at h
  rcases h with (((rfl | rfl) | rfl) | rfl) | rfl <;> simp [isWhite]

/-- Blanks are passed over one by one. -/
theorem Cut.gap {before blanks rest : List Char} {ts : List (Token TokenKind)} {bs : List Span}
    (h : Cut before (blanks ++ rest) ts bs) (hblanks : ∀ c ∈ blanks, isGap c = true) : Cut (before ++ blanks) rest ts bs := by
  induction blanks generalizing before with
  | nil => simpa using h
  | cons c blanks ih =>
    have hc := Cut.white h (isWhite_of_isGap (hblanks c List.mem_cons_self))
    have hrest := ih hc fun d hd => hblanks d (List.mem_cons_of_mem _ hd)
    rwa [List.append_assoc, List.singleton_append] at hrest

/-- A comment ends with its line. -/
theorem dropWhile_line (cs : List Char) :
    cs.dropWhile (· != '\n') = [] ∨ ['\n'] <+: cs.dropWhile (· != '\n') := by
  cases hcs : cs.dropWhile (· != '\n') with
  | nil => exact .inl rfl
  | cons c below =>
    have hc := List.head?_dropWhile_not (· != '\n') cs
    rw [hcs] at hc
    have hline : c = '\n' := by simpa using hc
    subst hline
    exact .inr ⟨below, rfl⟩

theorem isGap_of_mem_gap {rest : List Char} {c : Char} (h : c ∈ gap rest) : isGap c = true := by
  rw [Manifest.gap, Ruby.take_run] at h
  exact List.mem_takeWhile_imp h

namespace Scanner.Placed

variable {lines : LineIndex} {s s' : Scanner} {before rest : List Char} {ts : List (Token TokenKind)} {n : Nat}

theorem start (text : List Char) : Scanner.Placed {} [] text := ⟨.start text, .start text, nofun⟩

theorem bodies_fit (h : s.Placed before rest) {cs : List Char} (hrest : rest = gap rest ++ cs) :
    ∀ b ∈ s.bodies, b.Fits (before ++ gap rest ++ cs) := by
  rw [List.append_assoc, ← hrest]
  exact h.reached.bodies

/-- The header that a step finds opens the heredoc whose body it finds. -/
theorem cut_header {inside below : List Char} {body : Span}
    (hbodies : ∀ b ∈ s.bodies, b.Fits (before ++ (headerText inside ++ below))) (hcut : Cut before (headerText inside ++ below) ts s.bodies)
    (hrooted : Rooted s.bodies before (headerText inside ++ below)) (houtside : Clear s.bodies (byteLength before))
    (hline : '\n' ∉ inside)
    (hbody : heredocBody s.bodies (tagOf inside) (byteLength (before ++ headerText inside)) below = .ok (some body))
    {t : Token TokenKind} (ht : Covers t before (headerText inside)) (hkind : t.kind = .string) :
    Cut (before ++ headerText inside) below (ts ++ [t]) (s.bodies ++ [body]) ∧
      Rooted (s.bodies ++ [body]) (before ++ headerText inside) below := by
  have hnoline : '\n' ∉ headerText inside := by simpa [headerText] using hline
  have hlast := behindBodies_last hcut.inOrder (hrooted.reachable houtside)
  rw [lineEnd_line hnoline] at hlast
  rw [← List.append_assoc] at hbodies
  obtain ⟨line, upper, body', lower, rfl, hisLine, hend, hstart, rfl, hclosed⟩ := heredocBody_some hbody hbodies
  have hstart : byteLength (before ++ headerText inside ++ line ++ upper) = behindBodies s.bodies _ := hstart
  refine ⟨.header hcut houtside hline ht hkind hisLine ?_ hclosed, hrooted.advance.add ?_⟩
  · rw [← hend, hstart]
    exact hlast
  · show Last s.bodies _ (byteLength _)
    rw [hstart]
    exact hlast

/-- What the step takes behind the blanks is the next stretch of the cut. -/
theorem found_stretch (h : s.Placed before rest) (hf : Found lines s rest s' n) :
    ∃ taken below, rest = gap rest ++ (taken ++ below) ∧ n = (gap rest).length + taken.length ∧
      Cut (before ++ gap rest ++ taken) below s'.reading.tokens.reverse s'.bodies ∧
      Rooted s'.bodies (before ++ gap rest ++ taken) below := by
  have hoffset := h.reached.past_offset
  have hgap : ∀ {x}, rest = gap rest ++ x → Cut (before ++ gap rest) x s.reading.tokens.reverse s.bodies := fun hx =>
    Cut.gap (by rw [← hx]; exact h.cut) fun _ => isGap_of_mem_gap
  have hroot : ∀ {x}, rest = gap rest ++ x → Rooted s.bodies (before ++ gap rest) x := fun hx =>
    Rooted.advance (by rw [← hx]; exact h.rooted)
  cases hf with
  | @comment cs hrest houtside =>
    have hsplit : '#' :: cs = ('#' :: cs.takeWhile (· != '\n')) ++ cs.dropWhile (· != '\n') := by
      rw [List.cons_append, List.takeWhile_append_dropWhile]
    rw [hsplit] at hrest
    rw [hoffset] at houtside
    refine ⟨_, _, hrest, ?_, .comment (hgap hrest) houtside ?_ ?_, (hroot hrest).advance⟩
    · simp only [List.length_cons, run]
      omega
    · exact fun hmem => by simpa using List.mem_takeWhile_imp hmem
    · exact dropWhile_line cs
  | @blockComment cs width hrest houtside hclose =>
    obtain ⟨c, below, rfl, rfl, hfirst⟩ := blockComment?_split hclose
    rw [hoffset] at houtside
    have hblock := Cut.block (hgap hrest) houtside hfirst
    have htaken : '/' :: '*' :: (c ++ '*' :: '/' :: below) = '/' :: '*' :: c ++ ['*', '/'] ++ below := by simp
    rw [htaken] at hrest
    refine ⟨_, below, hrest, ?_, ?_, (hroot hrest).advance⟩
    · simp only [List.length_append, List.length_cons, List.length_nil]
      omega
    · rw [← List.append_assoc]
      exact hblock
  | @inside inside below body hrest hmem hstart hstop hne =>
    rw [hoffset] at hstart hstop
    refine ⟨inside, below, hrest, rfl, .inside (hgap hrest) hmem hstart ?_, (hroot hrest).advance⟩
    rw [Text.byteLength_append, hstop]
  | @token kind cs below hrest hne hkind houtside hstring =>
    rw [hoffset] at houtside
    have hcovers : Covers ((s.past rest).token kind cs) (before ++ gap rest) cs := ⟨by simp [Reading.token], by simp [Reading.token, hoffset]⟩
    refine ⟨cs, below, hrest, rfl, ?_, (hroot hrest).advance⟩
    have hcut := Cut.token (hgap hrest) houtside hne hcovers fun hheader => hstring hheader.1 (hcovers.text ▸ hheader.2)
    simpa [Scanner.add] using hcut
  | @heredoc cs below inside body hrest hcs hline houtside hbody =>
    subst hcs
    rw [hoffset] at houtside hbody
    rw [← Text.byteLength_append] at hbody
    have hcovers : Covers ((s.past rest).token .string (headerText inside)) (before ++ gap rest) (headerText inside) :=
      ⟨by simp [Reading.token], by simp [Reading.token, hoffset]⟩
    obtain ⟨hcut, hrooted⟩ := cut_header (h.bodies_fit hrest) (hgap hrest) (hroot hrest) houtside hline hbody hcovers rfl
    refine ⟨_, below, hrest, rfl, ?_, hrooted⟩
    simpa [Scanner.open_, Scanner.add] using hcut

theorem found (h : s.Placed before rest) (hf : Found lines s rest s' n) :
    Placed (s'.pass (rest.take n)) (before ++ rest.take n) (rest.drop n) := by
  have hreached := h.reached.found hf
  obtain ⟨taken, below, hrest, rfl, hcut, hrooted⟩ := h.found_stretch hf
  have htake := Reached.take_token hrest
  have hdrop : rest.drop ((gap rest).length + taken.length) = below := by
    generalize gap rest = g at hrest ⊢
    rw [hrest, List.drop_length_add_append, List.drop_left]
  refine ⟨hreached, ?_, ?_⟩
  · rw [hdrop, htake, pass_reading, Reading.skip_tokens, pass_bodies, ← List.append_assoc]
    exact hcut
  · rw [hdrop, htake, pass_bodies, ← List.append_assoc]
    exact hrooted

end Scanner.Placed

theorem accept_ne_none {lines : LineIndex} {s : Scanner} {r : Reading TokenKind} {gap width : Nat} {cs : List Char}
    {l : Lexeme} : accept lines s r gap cs width l ≠ .ok none := by
  unfold accept
  split
  · nofun
  · split <;> nofun
  · split <;> nofun
  · dsimp only
    split <;> nofun
  · split
    · split <;> nofun
    · nofun
  · nofun

/-- There is no further step where only blanks are left. -/
theorem step_none {lines : LineIndex} {s : Scanner} {rest : List Char} (h : step lines s rest = .ok none) :
    rest = gap rest := by
  unfold step at h
  dsimp only at h
  split at h
  · next hempty =>
    conv_lhs => rw [← List.take_append_drop (run isGap rest) rest, List.isEmpty_iff.mp hempty, List.append_nil]
    rfl
  · split at h
    · split at h <;> cases h
    · split at h
      · cases h
      · exact absurd h accept_ne_none

/-- Behind a walk that succeeds nothing but blanks is left. -/
theorem walk_placed {lines : LineIndex} {s s' : Scanner} {before rest : List Char} (h : s.Placed before rest)
    (hwalk : walk lines rest 0 s = .ok s') :
    ∃ taken left, rest = taken ++ left ∧ left = gap left ∧ s'.Placed (before ++ taken) left := by
  induction hlength : rest.length using Nat.strongRecOn generalizing rest before s with
  | ind k ih =>
    subst hlength
    rcases rest with _ | ⟨c, rest⟩
    · cases hwalk
      exact ⟨[], [], rfl, rfl, by simpa using h⟩
    cases hstep : step lines s (c :: rest) with
    | error e => simp [walk, hstep] at hwalk
    | ok found? =>
      rcases found? with _ | ⟨t, n⟩
      · simp only [walk, hstep, Except.ok.injEq] at hwalk
        subst hwalk
        exact ⟨[], c :: rest, rfl, step_none hstep, by simpa using h⟩
      · have hf := step_found hstep
        obtain ⟨hpos, hle⟩ := hf.width
        rw [walk_next (by simp) hpos hle hstep] at hwalk
        obtain ⟨taken, left, hdrop, hleft, hplaced⟩ :=
          ih _ (by rw [List.length_drop]; omega) (h.found hf) hwalk rfl
        refine ⟨(c :: rest).take n ++ taken, left, ?_, hleft, by rwa [← List.append_assoc]⟩
        rw [List.append_assoc, ← hdrop, List.take_append_drop]

/-! ## Coverage -/

/-- The whole text of a manifest is cut into its tokens and what may stand between them. -/
theorem scan_cut {text : List Char} {found : Scanned TokenKind} (h : scan text = .ok found) :
    ∃ bodies, Cut text [] found.tokens bodies ∧ ∀ b ∈ bodies, b.Fits text := by
  unfold scan at h
  split at h
  · cases h
  next s hwalk =>
  cases h
  obtain ⟨taken, left, rfl, hleft, hplaced⟩ := walk_placed (.start text) hwalk
  refine ⟨s.bodies, ?_, hplaced.reached.bodies⟩
  have hcut := hplaced.cut
  rw [← List.append_nil left] at hcut
  exact hcut.gap fun c hc => isGap_of_mem_gap (hleft ▸ hc)

/-- The tokens of a manifest stand in its text one behind the other, and none of them starts within the body of a
heredoc; all that stands in front of, between and behind them is white space, comments and rests of such bodies. -/
theorem scan_stretches {text : List Char} {found : Scanned TokenKind} (h : scan text = .ok found) :
    (∃ bodies, Cut text [] found.tokens bodies ∧ InOrder bodies ∧ (∀ b ∈ bodies, b.Fits text) ∧
      ∀ t ∈ found.tokens, Clear bodies t.span.start) ∧
    (∀ t ∈ found.tokens, t.span.start < t.span.stop ∧ t.span.slice? text = some t.text.toList) ∧
    found.tokens.Pairwise (fun t u => t.span.stop ≤ u.span.start) ∧
    found.stop = { kind := .eof, text := "", span := ⟨byteLength text, byteLength text⟩, spaced := true } := by
  obtain ⟨bodies, hcut, hfits⟩ := scan_cut h
  obtain ⟨hrow, hstop⟩ := scan_inRow h
  refine ⟨⟨bodies, hcut, hcut.inOrder, hfits, hcut.outside⟩, fun t ht => ?_, ?_, hstop⟩
  · have ht := List.mem_reverse.mpr ht
    exact ⟨(hrow.bounds ht).1, hrow.slice? ht⟩
  · exact List.pairwise_reverse.mp hrow.ordered

/-- Two heredocs in one line; a string that starts behind their headers ends within the second body. -/
theorem scan_stretches_heredocs :
    let text := "$a = [@(A), @(\"B\"), 'x\n1\n| A\ny' z\n- B\n# c\n/* d */ ]".toList
    ∃ found, scan text = .ok found ∧
      found.tokens.map Token.text = ["$a", "=", "[", "@(A)", ",", "@(\"B\")", ",", "'x\n1\n| A\ny'", "]"] ∧
      ∃ bodies, Cut text [] found.tokens bodies ∧ InOrder bodies ∧ ∀ t ∈ found.tokens, Clear bodies t.span.start := by
  intro text
  have hscans : (match scan text with
      | .ok found => found.tokens.map Token.text ==
          ["$a", "=", "[", "@(A)", ",", "@(\"B\")", ",", "'x\n1\n| A\ny'", "]"]
      | .error _ => false) = true := by decide +kernel
  cases hscan : scan text with
  | error e =>
    rw [hscan] at hscans
    cases hscans
  | ok found =>
    rw [hscan] at hscans
    obtain ⟨⟨bodies, hcut, horder, -, hclear⟩, -⟩ := scan_stretches hscan
    exact ⟨found, rfl, eq_of_beq hscans, bodies, hcut, horder, hclear⟩

end PuppetDocs.Manifest
