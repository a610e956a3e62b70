import PuppetDocs.Proofs.Text.Position

/-
  PuppetDocs.Proofs.Text.Stretch — offsets between characters, and the stretches between them.

  An offset is a boundary of a text if a front part of the text is that long. A span fits a text
  if it runs from one boundary to another, and these are the spans that have a slice
  (`slice?_isSome_iff`).
-/

namespace PuppetDocs

namespace Text

/-- A character of the text ends at offset `n`, or the text starts there. -/
def Boundary (text : List Char) (n : Nat) : Prop := ∃ a b, text = a ++ b ∧ n = byteLength a

theorem boundary_append (a b : List Char) : Boundary (a ++ b) (byteLength a) := ⟨a, b, rfl, rfl⟩

theorem boundary_end (text : List Char) : Boundary text (byteLength text) := ⟨text, [], by simp, rfl⟩

theorem Boundary.le {text : List Char} {n : Nat} (h : Boundary text n) : n ≤ byteLength text := by
  obtain ⟨a, b, rfl, rfl⟩ := h
  rw [byteLength_append]
  exact Nat.le_add_right _ _

/-- A boundary that does not lie in front of the end of `a` cuts what stands behind `a`. -/
theorem Boundary.behind {a b : List Char} {n : Nat} (h : Boundary (a ++ b) n) (hle : byteLength a ≤ n) :
    ∃ c d, b = c ++ d ∧ n = byteLength a + byteLength c := by
  obtain ⟨x, y, hxy, rfl⟩ := h
  rcases List.append_eq_append_iff.mp hxy with ⟨c, rfl, rfl⟩ | ⟨c, rfl, rfl⟩
  · exact ⟨c, y, rfl, byteLength_append a c⟩
  · have hc : c = [] := by
      by_contra hc
      have := byteLength_pos hc
      rw [byteLength_append] at hle
      omega
    subst hc
    exact ⟨[], b, by simp, by simp⟩

end Text

/-- The span runs from one boundary of the text to another that does not lie in front of it. -/
structure Span.Fits (s : Span) (text : List Char) : Prop where
  le : s.start ≤ s.stop
  start : Text.Boundary text s.start
  stop : Text.Boundary text s.stop

theorem Span.Fits.exists_slice {s : Span} {text : List Char} (h : s.Fits text) :
    ∃ a cs b, text = a ++ cs ++ b ∧ s = ⟨Text.byteLength a, Text.byteLength a + Text.byteLength cs⟩ := by
  obtain ⟨start, stop⟩ := s
  obtain ⟨hle, ⟨a, b, rfl, rfl⟩, hstop⟩ := h
  obtain ⟨cs, d, rfl, rfl⟩ := hstop.behind hle
  exact ⟨a, cs, d, by simp, rfl⟩

theorem Span.fits_append (a cs b : List Char) :
    (Span.mk (Text.byteLength a) (Text.byteLength a + Text.byteLength cs)).Fits (a ++ cs ++ b) where
  le := Nat.le_add_right _ _
  start := by rw [List.append_assoc]; exact Text.boundary_append a _
  stop := by rw [← Text.byteLength_append]; exact Text.boundary_append (a ++ cs) b

theorem Span.slice?_isSome_iff {s : Span} {text : List Char} : (s.slice? text).isSome ↔ s.Fits text := by
  constructor
  · intro h
    unfold slice? at h
    split at h
    · next hle =>
      cases hstart : Text.cut? s.start text with
      | none => simp [hstart] at h
      | some parts =>
        cases hstop : Text.cut? s.length parts.2 with
        | none => simp [hstart, hstop] at h
        | some inside =>
          obtain ⟨rfl, hlength⟩ := Text.append_eq_of_cut? hstart
          obtain ⟨hparts, hwidth⟩ := Text.append_eq_of_cut? hstop
          have hs : s = ⟨Text.byteLength parts.1, Text.byteLength parts.1 + Text.byteLength inside.1⟩ := by
            rw [hlength, hwidth, length, Nat.add_sub_cancel' hle]
          rw [hs, ← hparts, ← List.append_assoc]
          exact fits_append _ _ _
    · simp at h
  · intro h
    obtain ⟨a, cs, b, rfl, rfl⟩ := h.exists_slice
    rw [slice?_append]
    rfl

/-- A slice of a text is the same slice of a longer one. -/
theorem Span.slice?_append_right {s : Span} {text cs : List Char} (h : s.slice? text = some cs) (more : List Char) :
    s.slice? (text ++ more) = some cs := by
  have hfits : s.Fits text := slice?_isSome_iff.mp (by rw [h]; rfl)
  obtain ⟨a, x, b, rfl, rfl⟩ := hfits.exists_slice
  rw [slice?_append] at h
  rw [List.append_assoc (a ++ x), slice?_append, h]

end PuppetDocs
