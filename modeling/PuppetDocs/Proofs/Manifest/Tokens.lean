import PuppetDocs.Proofs.Manifest.Step
import PuppetDocs.Proofs.Refusals.Openings
import PuppetDocs.Proofs.Text.Stretch

/-
  PuppetDocs.Proofs.Manifest.Tokens — the tokens of a manifest stand in its text one behind the other.

  Wherever the scanner is, the tokens found so far lie behind it without overlap (`InRow`), and
  the heredoc bodies found so far are stretches of the text (`Scanner.Reached`). So the body of a
  heredoc starts on a boundary also where it starts behind other bodies, and passing over the
  rest of a body never cuts a character: a step that fails has found damage in the text and says
  where it is (`Scanner.Reached.step_error`), and a scan ends with all tokens or with that damage
  (`scan_outcome`).
-/

namespace PuppetDocs.Manifest

open Text (byteLength Boundary run)

/-- The tokens, the latest first, stand in the text one behind the other, each where its span says; none is its end. -/
inductive InRow : List Char → List (Token TokenKind) → Prop
  | none (text : List Char) : InRow text []
  | token {before cs behind : List Char} {t : Token TokenKind} {ts : List (Token TokenKind)} :
      InRow before ts → cs ≠ [] → t.kind ≠ .eof → t.text.toList = cs → t.span = ⟨byteLength before, byteLength before + byteLength cs⟩ →
      InRow (before ++ cs ++ behind) (t :: ts)

namespace InRow

variable {text : List Char} {t : Token TokenKind} {ts : List (Token TokenKind)}

theorem append (h : InRow text ts) (more : List Char) : InRow (text ++ more) ts := by
  cases h with
  | none => exact .none _
  | token h hne hkind ht hspan =>
    rw [List.append_assoc]
    exact .token h hne hkind ht hspan

theorem slice? (h : InRow text ts) (ht : t ∈ ts) : t.span.slice? text = some t.text.toList := by
  induction h with
  | none => cases ht
  | @token before cs behind u ts _ _ _ hu hspan ih =>
    rcases List.mem_cons.mp ht with rfl | ht
    · rw [hspan, hu]
      exact Span.slice?_append before cs behind
    · rw [List.append_assoc]
      exact Span.slice?_append_right (ih ht) _

/-- The text of a token stands in the text where its span says. -/
theorem text_split (h : InRow text ts) (ht : t ∈ ts) :
    ∃ before behind, text = before ++ t.text.toList ++ behind ∧ t.span.start = byteLength before ∧
      t.span.stop = byteLength before + byteLength t.text.toList := by
  have hslice := h.slice? ht
  obtain ⟨before, cs, behind, htext, hspan⟩ := (Span.slice?_isSome_iff.mp (by rw [hslice]; rfl)).exists_slice
  rw [htext, hspan, Span.slice?_append] at hslice
  have hcs := Option.some.inj hslice
  refine ⟨before, behind, ?_, ?_, ?_⟩
  · rw [← hcs, htext]
  · rw [hspan]
  · rw [hspan, ← hcs]

/-- No token is empty, and none ends behind the text. -/
theorem bounds (h : InRow text ts) (ht : t ∈ ts) : t.span.start < t.span.stop ∧ t.span.stop ≤ byteLength text := by
  induction h with
  | none => cases ht
  | @token before cs behind u ts _ hne _ _ hspan ih =>
    simp only [Text.byteLength_append]
    rcases List.mem_cons.mp ht with rfl | ht
    · have := Text.byteLength_pos hne
      simp only [hspan]
      omega
    · have := ih ht
      omega

theorem kind (h : InRow text ts) (ht : t ∈ ts) : t.kind ≠ .eof := by
  induction h with
  | none => cases ht
  | token _ _ hkind _ _ ih =>
    rcases List.mem_cons.mp ht with rfl | ht
    · exact hkind
    · exact ih ht

/-- Each token starts at or behind the end of the one in front of it. -/
theorem ordered (h : InRow text ts) : ts.Pairwise fun t u => u.span.stop ≤ t.span.start := by
  induction h with
  | none => exact .nil
  | token h _ _ _ hspan ih =>
    refine List.pairwise_cons.mpr ⟨fun u hu => ?_, ih⟩
    rw [hspan]
    exact (h.bounds hu).2

end InRow

/-! ## Heredoc bodies -/

section Bodies

variable {text : List Char} {bodies : List Span}

theorem behindBodies_fits (hbodies : ∀ b ∈ bodies, b.Fits text) {start : Nat} (hstart : Boundary text start) :
    start ≤ behindBodies bodies start ∧ Boundary text (behindBodies bodies start) := by
  induction bodies generalizing start with
  | nil => exact ⟨Nat.le_refl _, hstart⟩
  | cons b bodies ih =>
    have hb := hbodies b List.mem_cons_self
    have hrest : ∀ c ∈ bodies, c.Fits text := fun c hc => hbodies c (List.mem_cons_of_mem _ hc)
    simp only [behindBodies, List.foldl_cons]
    split
    · next hat =>
      obtain ⟨hle, hboundary⟩ := ih hrest hb.stop
      rw [← beq_iff_eq.mp hat]
      exact ⟨Nat.le_trans hb.le hle, hboundary⟩
    · exact ih hrest hstart

theorem bodyWidth?_lines {tag : List Char} {ls : List (List Char)} {w : Nat} (h : bodyWidth? tag ls = some w) :
    ∃ front behind, ls = front ++ behind ∧ w = byteLength front.flatten := by
  induction ls generalizing w with
  | nil => cases h
  | cons l ls ih =>
    unfold bodyWidth? at h
    split at h
    · cases h
      exact ⟨[l], ls, rfl, by simp⟩
    · obtain ⟨v, hv, rfl⟩ := Option.map_eq_some_iff.mp h
      obtain ⟨front, behind, rfl, rfl⟩ := ih hv
      exact ⟨l :: front, behind, rfl, by simp⟩

/-- The lines below a header are looked through without cutting a character. -/
theorem heredocBody_ok (tag : List Char) {before rest : List Char} (hbodies : ∀ b ∈ bodies, b.Fits (before ++ rest)) :
    ∃ body?, heredocBody bodies tag (byteLength before) rest = .ok body? ∧
      ∀ b ∈ body?, b.Fits (before ++ rest) := by
  have hline : Boundary (before ++ rest) (byteLength before + byteLength (rest.take (Text.lineWidth rest))) := by
    refine ⟨before ++ rest.take (Text.lineWidth rest), rest.drop (Text.lineWidth rest), ?_, by simp⟩
    rw [List.append_assoc, List.take_append_drop]
  obtain ⟨hle, hboundary⟩ := behindBodies_fits hbodies hline
  obtain ⟨above, below, rfl, hstart⟩ := hboundary.behind (Nat.le_trans (Nat.le_add_right _ _) hle)
  unfold heredocBody cutAt
  simp only [hstart, Nat.add_sub_cancel_left, Text.cut?_byteLength]
  refine ⟨_, rfl, fun b hb => ?_⟩
  obtain ⟨width, hwidth, rfl⟩ := Option.map_eq_some_iff.mp hb
  obtain ⟨front, behind, hlines, rfl⟩ := bodyWidth?_lines hwidth
  have hbelow : below = front.flatten ++ behind.flatten := by
    rw [← List.flatten_append, ← hlines, Text.flatten_physicalLines]
  have hfits := Span.fits_append (before ++ above) front.flatten behind.flatten
  rw [Text.byteLength_append] at hfits
  rw [hbelow]
  simpa using hfits

end Bodies

/-! ## Walks -/

/-- The scanner has read `before` of the text, and `rest` is left. -/
structure Scanner.Reached (s : Scanner) (before rest : List Char) : Prop where
  offset : s.reading.offset = byteLength before
  tokens : InRow before s.reading.tokens
  bodies : ∀ b ∈ s.bodies, b.Fits (before ++ rest)

namespace Scanner.Reached

variable {lines : LineIndex} {s s' : Scanner} {before rest : List Char} {n : Nat}

theorem start (text : List Char) : Scanner.Reached {} [] text := ⟨rfl, .none _, fun _ h => nomatch h⟩

theorem past_offset (h : s.Reached before rest) : (s.past rest).offset = byteLength (before ++ gap rest) := by
  rw [Scanner.past, Reading.skip_offset, h.offset, Text.byteLength_append]

/-- A token behind the blanks stands in the text that ends with it. -/
theorem inRow_token (h : s.Reached before rest) {kind : TokenKind} {cs : List Char} (hne : cs ≠ [])
    (hkind : kind ≠ .eof) :
    InRow (before ++ gap rest ++ cs) ((s.past rest).token kind cs :: s.reading.tokens) := by
  have hbefore := h.tokens.append (gap rest)
  have hrow : InRow (before ++ gap rest ++ cs ++ []) ((s.past rest).token kind cs :: s.reading.tokens) :=
    .token hbefore hne hkind String.toList_ofList (by rw [Reading.token, h.past_offset])
  rwa [List.append_nil] at hrow

/-- The token found is the whole of what the step takes behind the blanks. -/
theorem take_token {cs below : List Char} (hrest : rest = gap rest ++ (cs ++ below)) :
    rest.take ((gap rest).length + cs.length) = gap rest ++ cs := by
  generalize gap rest = g at hrest ⊢
  rw [hrest, List.take_length_add_append, List.take_left]

theorem found (h : s.Reached before rest) (hf : Found lines s rest s' n) :
    Reached (s'.pass (rest.take n)) (before ++ rest.take n) (rest.drop n) := by
  have htext : before ++ rest.take n ++ rest.drop n = before ++ rest := by
    rw [List.append_assoc, List.take_append_drop]
  refine ⟨?_, ?_, ?_⟩
  · rw [pass_reading, Reading.skip_offset, hf.offset, h.offset, Text.byteLength_append]
  · rw [pass_reading, Reading.skip_tokens]
    cases hf with
    | comment | blockComment | inside => exact h.tokens.append _
    | token hrest hne hkind =>
      rw [take_token hrest, ← List.append_assoc]
      exact h.inRow_token hne hkind
    | heredoc hrest hcs =>
      rw [take_token hrest, ← List.append_assoc]
      exact inRow_token h (headerText_ne_nil hcs) (by decide : TokenKind.string ≠ .eof)
  · rw [htext, pass_bodies]
    cases hf with
    | comment | blockComment | inside | token => exact h.bodies
    | @heredoc cs below inside body hrest _ _ _ hbody =>
      have hsplit : before ++ rest = before ++ gap rest ++ cs ++ below := by
        conv_lhs => rw [hrest]
        simp
      have hold := h.bodies
      rw [hsplit] at hold
      obtain ⟨body?, heq, hfits⟩ := heredocBody_ok (tagOf inside) hold
      rw [Text.byteLength_append, ← h.past_offset, hbody] at heq
      cases heq
      intro b hb
      rcases List.mem_append.mp hb with hb | hb
      · exact h.bodies b hb
      · rw [hsplit]
        exact hfits b (by simpa using (List.mem_singleton.mp hb).symm)

/-- A lexeme is refused for a fault that it shows itself; the body of a heredoc never cuts a character. -/
theorem accept_error (h : s.Reached before rest) {cs : List Char} (hrest : rest = gap rest ++ cs) {l : Lexeme} {w : Nat}
    (hl : lexeme? cs = some (l, w)) {e : ParseFailure}
    (he : accept lines s (s.past rest) (gap rest).length cs w l = .error e) :
    ∃ fault : Fault, fault.Shows .puppet cs ∧ e = .rejected (fault.at lines (s.past rest).offset) := by
  have hopens := (lexeme?_fits hl).opens
  unfold accept at he
  split at he
  · cases he
  · obtain ⟨r, rfl, -⟩ := hopens
    split at he
    · exact ⟨.unterminatedComment, ⟨r, rfl⟩, (Except.error.inj he).symm⟩
    · cases he
  · obtain ⟨hquote, r, rfl⟩ := hopens
    split at he
    · exact ⟨_, shows_string (.quote hquote) r, (Except.error.inj he).symm⟩
    · cases he
  · obtain ⟨inside, below, rfl, hline, rfl⟩ := hopens
    have htag : ((headerText inside).drop 2).dropLast = inside := by simp [headerText]
    have hbodies : ∀ b ∈ s.bodies, b.Fits (before ++ gap rest ++ headerText inside ++ below) := by
      rw [List.append_assoc (before ++ gap rest), List.append_assoc, ← hrest]
      exact h.bodies
    obtain ⟨body?, heq, -⟩ := heredocBody_ok (tagOf inside) hbodies
    rw [Text.byteLength_append, ← h.past_offset] at heq
    dsimp only at he
    rw [List.take_left, List.drop_left, htag, heq] at he
    split at he
    · next hok => cases hok
    · refine ⟨_, ?_, (Except.error.inj he).symm⟩
      rw [Fault.Shows, String.toList_ofList]
      exact heredocOpening_header hline below
    · cases he
  · split at he
    · split at he
      · exact ⟨.unterminatedRegex, hopens.2.2 rfl, (Except.error.inj he).symm⟩
      · cases he
    · cases he
  · cases he

/-- A step fails for damage in the text only, and reports it where it is. -/
theorem step_error (h : s.Reached before rest) {e : ParseFailure} (he : step lines s rest = .error e) :
    Refuses .puppet lines (before ++ rest) e := by
  have hrest : rest = gap rest ++ rest.drop (run isGap rest) := (List.take_append_drop _ _).symm
  have hpast : s.reading.skip (rest.take (run isGap rest)) = s.past rest := rfl
  unfold step at he
  dsimp only at he
  rw [hpast, ← gap_length] at he
  rw [← gap_length] at hrest
  generalize rest.drop (gap rest).length = cs at he hrest
  have htext : before ++ rest = before ++ gap rest ++ cs := by
    conv_lhs => rw [hrest]
    simp
  split at he
  · cases he
  split at he
  · -- The body covers the next character, so its end cuts what is left.
    next body hbody =>
    have hfits := h.bodies body (List.mem_of_find?_eq_some hbody)
    rw [htext] at hfits
    have hwithin := List.find?_some hbody
    simp only [Bool.and_eq_true, decide_eq_true_eq, h.past_offset] at hwithin
    obtain ⟨inside, below, rfl, hstop⟩ := hfits.stop.behind (by omega)
    unfold cutAt at he
    rw [h.past_offset, hstop, Nat.add_sub_cancel_left, Text.cut?_byteLength] at he
    cases he
  · split at he
    · cases he
    · next l w hl =>
      obtain ⟨fault, hshows, rfl⟩ := h.accept_error hrest hl he
      exact ⟨fault, before ++ gap rest, cs, htext, hshows, by rw [h.past_offset]⟩

end Scanner.Reached

theorem walk_taken {lines : LineIndex} {rest : List Char} {n : Nat} (h : n ≤ rest.length) (s : Scanner) :
    walk lines rest n s = walk lines (rest.drop n) 0 (s.pass (rest.take n)) := by
  induction n generalizing rest s with
  | zero => rfl
  | succ n ih =>
    rcases rest with _ | ⟨c, rest⟩
    · simp at h
    · simp only [walk, List.take_succ_cons, List.drop_succ_cons]
      rw [ih (by simpa using h)]
      rfl

/-- A walk goes on behind what its first step finds. -/
theorem walk_next {lines : LineIndex} {s t : Scanner} {rest : List Char} {n : Nat} (hne : rest ≠ [])
    (hpos : 0 < n) (hle : n ≤ rest.length) (h : step lines s rest = .ok (some (t, n))) :
    walk lines rest 0 s = walk lines (rest.drop n) 0 (t.pass (rest.take n)) := by
  obtain ⟨c, rest, rfl⟩ := List.exists_cons_of_ne_nil hne
  obtain ⟨m, rfl⟩ := Nat.exists_eq_succ_of_ne_zero (Nat.ne_of_gt hpos)
  simp only [walk, h, Nat.succ_eq_add_one, Nat.add_sub_cancel]
  rw [walk_taken (by simpa using hle)]
  rfl

/-- A walk goes on behind the characters that its first step takes. -/
theorem walk_front {lines : LineIndex} {s t : Scanner} {taken rest : List Char}
    (h : step lines s (taken ++ rest) = .ok (some (t, taken.length))) :
    walk lines (taken ++ rest) 0 s = walk lines rest 0 (t.pass taken) := by
  obtain ⟨hpos, hle⟩ := (step_found h).width
  rw [walk_next (List.ne_nil_of_length_pos (by omega)) hpos hle h, List.drop_left, List.take_left]

/-- A walk ends in the text, or with damage in it. -/
theorem walk_outcome (lines : LineIndex) {s : Scanner} {before rest : List Char} (h : s.Reached before rest) :
    (∃ s' before' rest', walk lines rest 0 s = .ok s' ∧ before ++ rest = before' ++ rest' ∧ s'.Reached before' rest') ∨
      ∃ e, walk lines rest 0 s = .error e ∧ Refuses .puppet lines (before ++ rest) e := by
  induction hlength : rest.length using Nat.strongRecOn generalizing rest before s with
  | ind k ih =>
    subst hlength
    rcases rest with _ | ⟨c, rest⟩
    · exact .inl ⟨s, before, [], rfl, rfl, h⟩
    cases hstep : step lines s (c :: rest) with
    | error e =>
      exact .inr ⟨e, by simp [walk, hstep], h.step_error hstep⟩
    | ok found? =>
      rcases found? with _ | ⟨t, n⟩
      · exact .inl ⟨s, before, c :: rest, by simp [walk, hstep], rfl, h⟩
      · have hf := step_found hstep
        obtain ⟨hpos, hle⟩ := hf.width
        rw [walk_next (by simp) hpos hle hstep]
        have htext : before ++ (c :: rest) = before ++ (c :: rest).take n ++ (c :: rest).drop n := by
          rw [List.append_assoc, List.take_append_drop]
        rw [htext]
        exact ih _ (by rw [List.length_drop]; omega) (h.found hf) rfl

/-! ## Scans -/

/-- A text is scanned into tokens that stand in it in a row, or it is damaged. -/
theorem scan_outcome (text : List Char) :
    (∃ found, scan text = .ok found ∧ InRow text found.tokens.reverse ∧
      found.stop = { kind := .eof, text := "", span := ⟨byteLength text, byteLength text⟩, spaced := true }) ∨
    ∃ e, scan text = .error e ∧ Refuses .puppet (.ofText text) text e := by
  rcases walk_outcome (.ofText text) (.start text) with ⟨s, before, rest, hwalk, htext, hs⟩ | ⟨e, hwalk, hrefuses⟩
  · have hscan : scan text = .ok {
        tokens := s.reading.tokens.reverse
        stop := { kind := .eof, text := "", span := ⟨byteLength text, byteLength text⟩, spaced := true }
        comments := s.reading.comments.reverse } := by
      simp only [scan, hwalk]
    refine .inl ⟨_, hscan, ?_, rfl⟩
    rw [List.nil_append] at htext
    rw [List.reverse_reverse, htext]
    exact hs.tokens.append rest
  · exact .inr ⟨e, by simp only [scan, hwalk], hrefuses⟩

theorem scan_inRow {text : List Char} {found : Scanned TokenKind} (h : scan text = .ok found) :
    InRow text found.tokens.reverse ∧
      found.stop = { kind := .eof, text := "", span := ⟨byteLength text, byteLength text⟩, spaced := true } := by
  rcases scan_outcome text with ⟨found', hscan, hrow⟩ | ⟨e, hscan, -⟩
  · rw [hscan] at h
    cases h
    exact hrow
  · rw [hscan] at h
    cases h

/-- The tokens of a text and its end start in order. -/
theorem scan_ascending {text : List Char} {found : Scanned TokenKind} (h : scan text = .ok found) :
    ((found.tokens ++ [found.stop]).map (·.span.start)).Pairwise (· ≤ ·) := by
  obtain ⟨hrow, hstop⟩ := scan_inRow h
  rw [List.pairwise_map]
  refine List.pairwise_append.mpr ⟨?_, List.pairwise_singleton _ _, fun t ht u hu => ?_⟩
  · refine (List.pairwise_reverse.mp hrow.ordered).imp_of_mem fun {t u} ht _ hle => ?_
    have := (hrow.bounds (List.mem_reverse.mpr ht)).1
    omega
  · rw [List.mem_singleton.mp hu, hstop]
    have := hrow.bounds (List.mem_reverse.mpr ht)
    show t.span.start ≤ byteLength text
    omega

end PuppetDocs.Manifest
