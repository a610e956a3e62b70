import PuppetDocs.Proofs.Refusals.Openings
import PuppetDocs.Proofs.Scan.Coverage

/-
  PuppetDocs.Proofs.Scan.Markers — the heredocs that wait for their bodies, and their markers.

  A heredoc without an end is reported at its marker, which may stand far above the place where
  the scan gives up. The scanner only keeps an offset of it. What it keeps is true at every step
  of the walk: at that offset stands a marker that names the tag (`MarkersStand`, `Placed.markers_run`).
-/

namespace PuppetDocs.Ruby

open Text (byteLength)

section Steps

variable {lines : LineIndex} {s t : Scanner} {r : Reading TokenKind} {gap width n : Nat} {cs rest : List Char}

/-- The markers of the heredocs that wait for a body stand in the text. -/
def MarkersStand (s : Scanner) (text : List Char) : Prop :=
  ∀ p ∈ s.pending, ∃ before rest, text = before ++ rest ∧ p.start = byteLength before ∧
    HeredocOpening p.heredoc.tag .ruby rest

theorem found_pending {kind : TokenKind} (h : found s r gap cs kind width = .ok (some (t, n))) :
    t.pending = s.pending := by
  cases h
  rfl

theorem literal_pending {d : Delimiters} {flags : Bool} {kind : StrLit → TokenKind}
    (h : literal lines s r gap cs width d flags kind = .ok (some (t, n))) : t.pending = s.pending := by
  unfold literal at h
  dsimp only at h
  split at h
  · cases h
  · exact found_pending h

theorem percentLiteral_pending (h : percentLiteral lines s r gap cs width = .ok (some (t, n))) :
    t.pending = s.pending := by
  unfold percentLiteral at h
  dsimp only at h
  split at h <;> exact literal_pending h

theorem newline_pending (h : newline lines s r gap cs = .ok (some (t, n))) : t.pending = [] := by
  unfold newline at h
  split at h
  · next hnone =>
    rw [found_pending h]
    exact List.isEmpty_iff.mp hnone
  · dsimp only at h
    split at h
    · cases h
    · cases h
      rfl

/-- The only heredoc that a lexeme adds to those that wait is the one that it is the marker of. -/
theorem accept_pending {l : Lexeme} (hl : lexeme? cs = some (l, width))
    (h : accept lines s r gap cs width l = .ok (some (t, n))) {p : Pending} (hp : p ∈ t.pending) :
    p ∈ s.pending ∨ p.start = r.offset ∧ HeredocOpening p.heredoc.tag .ruby cs := by
  have hstarts := (lexeme?_fits hl).starts
  have hsame : t.pending = s.pending → p ∈ s.pending ∨ p.start = r.offset ∧ HeredocOpening p.heredoc.tag .ruby cs :=
    fun heq => .inl (heq ▸ hp)
  cases l with
  | comment =>
    cases h
    exact .inl hp
  | word =>
    rw [accept] at h
    split at h
    · exact hsame (found_pending h)
    · split at h <;> exact hsame (found_pending h)
  | opening o =>
    cases o with
    | singleQuote | doubleQuote | backtick | symbolQuote => exact hsame (literal_pending h)
    | percent =>
      rw [accept] at h
      split at h
      · exact hsame (percentLiteral_pending h)
      · exact hsame (found_pending h)
    | heredoc =>
      obtain ⟨x, rfl, hmarker, rfl⟩ := hstarts
      rw [accept] at h
      split at h
      · cases h
        rcases List.mem_append.mp hp with hp | hp
        · exact .inl hp
        · refine .inr ?_
          rw [List.mem_singleton.mp hp, Nat.add_comm 2, List.take_succ_cons, List.take_succ_cons]
          exact ⟨rfl, heredocOpening_marker hmarker⟩
      · exact hsame (found_pending h)
  | plain kind =>
    cases kind with
    | newline =>
      rw [newline_pending h] at hp
      cases hp
    | constant | symbol =>
      rw [accept] at h
      split at h <;> exact hsame (found_pending h)
    | slash =>
      rw [accept] at h
      split at h
      · split at h
        · cases h
        · exact hsame (found_pending h)
      · exact hsame (found_pending h)
    | _ => exact hsame (found_pending h)

/-- Whatever a step finds, the markers of the heredocs that wait then stand in the text. -/
theorem Placed.markers_step {before : List Char} (hplaced : Placed s before rest) (hmarkers : MarkersStand s (before ++ rest))
    (h : step lines s rest = .ok (some (t, n))) : MarkersStand t (before ++ rest) := by
  unfold step at h
  split at h
  · split at h
    · cases h
      exact hmarkers
    · cases h
  split at h
  · cases h
  dsimp only at h
  split at h
  · cases h
  split at h
  · rw [MarkersStand, found_pending h]
    exact hmarkers
  next l width hlexeme =>
  intro p hp
  rcases accept_pending hlexeme h hp with hold | ⟨hstart, hopening⟩
  · exact hmarkers p hold
  · refine ⟨before ++ rest.take (blanks rest), rest.drop (blanks rest), ?_, ?_, hopening⟩
    · rw [List.append_assoc, List.take_append_drop]
    · rw [hstart, Reading.skip_offset, hplaced.offset, Text.byteLength_append]

/-- A heredoc without an end is shown by its marker. -/
theorem MarkersStand.refuses {text : List Char} (h : MarkersStand s text) {p : Pending} (hp : p ∈ s.pending) :
    Refuses .ruby lines text
      (.rejected ((Fault.unterminatedHeredoc (String.ofList p.heredoc.tag)).at lines p.start)) := by
  obtain ⟨before, rest, htext, hstart, hopening⟩ := h p hp
  refine ⟨_, before, rest, htext, ?_, by rw [hstart]⟩
  rw [Fault.Shows, String.toList_ofList]
  exact hopening

end Steps

/-- The markers that stand in the text are those of all the heredocs that wait at the end of a run. -/
theorem Placed.markers_run {lines : LineIndex} {s s' : Scanner} {before rest rest' : List Char} (h : Placed s before rest)
    (hmarkers : MarkersStand s (before ++ rest)) (hr : Run lines s rest s' rest') : MarkersStand s' (before ++ rest) := by
  induction hr generalizing before with
  | here => exact hmarkers
  | @next s t s' rest rest' n _ hstep _ ih =>
    have htext : before ++ rest.take n ++ rest.drop n = before ++ rest := by
      rw [List.append_assoc, List.take_append_drop]
    have ht : MarkersStand t (before ++ rest) := h.markers_step hmarkers hstep
    rw [← htext] at ht ⊢
    exact ih (h.found (step_found hstep)) ht

end PuppetDocs.Ruby
