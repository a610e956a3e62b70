import PuppetDocs.Text.Blank
import PuppetDocs.Text.Name
import Mathlib.Data.List.TakeWhile

/-
  PuppetDocs.Proofs.Text.Trim — texts without the blanks around them.

  What is dropped at the end of a text all satisfies the condition, and nothing in front of a
  character that does not is dropped. So a text is a given word when trimmed if and only if it
  is that word with blanks around it (`trim_eq_iff`).
-/

namespace PuppetDocs.Text

variable {α : Type} {p : α → Bool} {xs ys : List α}

/-! ## The end of a text -/

theorem dropEndWhile_append (h : ∀ y ∈ ys, p y = true) : dropEndWhile p (xs ++ ys) = dropEndWhile p xs := by
  rw [dropEndWhile, List.reverse_append, List.dropWhile_append_of_pos (fun y hy => h y (List.mem_reverse.mp hy)),
    dropEndWhile]

theorem dropEndWhile_append_of_mem (xs : List α) (h : ∃ y ∈ ys, p y = false) :
    dropEndWhile p (xs ++ ys) = xs ++ dropEndWhile p ys := by
  rw [dropEndWhile, List.reverse_append, List.dropWhile_append, if_neg, List.reverse_append, List.reverse_reverse,
    dropEndWhile]
  intro hempty
  obtain ⟨y, hy, hkept⟩ := h
  rw [List.dropWhile_eq_nil_iff.mp (List.isEmpty_iff.mp hempty) y (List.mem_reverse.mpr hy)] at hkept
  cases hkept

theorem dropEndWhile_concat {x : α} (h : p x = false) : dropEndWhile p (xs ++ [x]) = xs ++ [x] := by
  simp [dropEndWhile, h]

theorem dropEndWhile_split (p : α → Bool) (xs : List α) :
    ∃ ys, xs = dropEndWhile p xs ++ ys ∧ ∀ y ∈ ys, p y = true := by
  refine ⟨(xs.reverse.takeWhile p).reverse, ?_, fun y hy => List.mem_takeWhile_imp (List.mem_reverse.mp hy)⟩
  rw [dropEndWhile, ← List.reverse_append, List.takeWhile_append_dropWhile, List.reverse_reverse]

theorem dropEndWhile_of_last (h : ∀ x ∈ xs.getLast?, p x = false) : dropEndWhile p xs = xs := by
  rcases List.eq_nil_or_concat xs with rfl | ⟨front, x, rfl⟩
  · rfl
  · rw [List.concat_eq_append] at h ⊢
    exact dropEndWhile_concat (h x (by simp))

theorem last_dropEndWhile (p : α → Bool) (xs : List α) : ∀ x ∈ (dropEndWhile p xs).getLast?, p x = false := by
  intro x hx
  rw [dropEndWhile, List.getLast?_reverse] at hx
  have hhead := List.head?_dropWhile_not p xs.reverse
  rw [Option.mem_def.mp hx] at hhead
  simpa using hhead

/-! ## Both ends -/

theorem trimStart_append {g : List Char} (h : ∀ x ∈ g, isBlank x = true) {c : Char} (hc : isBlank c = false)
    (cs : List Char) : trimStart (g ++ c :: cs) = c :: cs := by
  rw [trimStart, List.dropWhile_append_of_pos h, List.dropWhile_cons_of_neg (by simp [hc])]

/-- The characters of names lie between the digit zero and the letter z, where no blanks are. -/
theorem isBlank_of_isNameChar {c : Char} (h : isNameChar c = true) : isBlank c = false := by
  have hrange : 48 ≤ c.toNat ∧ c.toNat ≤ 122 := by
    delta isNameChar Char.isAlphanum Char.isAlpha Char.isUpper Char.isLower Char.isDigit at h
    simp only [Bool.or_eq_true, Bool.and_eq_true, decide_eq_true_eq, beq_iff_eq, ge_iff_le,
      UInt32.le_iff_toNat_le] at h
    change (((65 ≤ c.toNat ∧ c.toNat ≤ 90) ∨ (97 ≤ c.toNat ∧ c.toNat ≤ 122)) ∨ (48 ≤ c.toNat ∧ c.toNat ≤ 57)) ∨
      c = '_' at h
    rcases h with ((h | h) | h) | rfl
    · omega
    · omega
    · omega
    · decide
  simp only [isBlank, Bool.or_eq_false_iff, Bool.and_eq_false_iff, beq_eq_false_iff_ne, decide_eq_false_iff_not]
  omega

theorem trim_of_ends {c d : Char} (hc : isBlank c = false) (hd : isBlank d = false) (mid : List Char) :
    trim (c :: (mid ++ [d])) = c :: (mid ++ [d]) := by
  simp [trim, trimEnd, trimStart, dropEndWhile, hc, hd]

/-- A text without blanks stays as it is. -/
theorem trim_of_solid {cs : List Char} (h : ∀ c ∈ cs, isBlank c = false) : trim cs = cs := by
  have hdrop : ∀ {xs : List Char}, (∀ c ∈ xs, isBlank c = false) → xs.dropWhile isBlank = xs := by
    intro xs hxs
    cases xs with
    | nil => rfl
    | cons x xs => rw [List.dropWhile_cons, hxs x (by simp)]; rfl
  rw [trim, trimEnd, trimStart, dropEndWhile, hdrop h, hdrop (by simpa using h), List.reverse_reverse]

/-- Blanks behind a text are trimmed off. -/
theorem trim_append {cs back : List Char} (h : ∀ c ∈ back, isBlank c = true) : trim (cs ++ back) = trim cs := by
  rw [trim, trim, trimStart, trimStart, List.dropWhile_append]
  split
  · rename_i hcs
    rw [List.isEmpty_iff.mp hcs, List.dropWhile_eq_nil_iff.mpr h]
  · exact dropEndWhile_append h

theorem trim_dropReturns (cs : List Char) : trim (dropEndWhile (· == '\r') cs) = trim cs := by
  obtain ⟨back, hback, hreturns⟩ := dropEndWhile_split (· == '\r') cs
  have hblank : ∀ c ∈ back, isBlank c = true := by
    intro c hc
    rw [beq_iff_eq.mp (hreturns c hc)]
    decide
  have htrim : trim (dropEndWhile (· == '\r') cs ++ back) = trim (dropEndWhile (· == '\r') cs) := trim_append hblank
  rw [← hback] at htrim
  exact htrim.symm

/-- Trimmed, a text is the word with no blank at its ends if nothing but blanks stand around the word. -/
theorem trim_eq_iff {word : List Char} (hne : word ≠ []) (hsolid : ∀ c ∈ word, isBlank c = false) (cs : List Char) :
    trim cs = word ↔ ∃ front back, cs = front ++ word ++ back ∧ ∀ c ∈ front ++ back, isBlank c = true := by
  constructor
  · rintro rfl
    obtain ⟨back, hback, hblank⟩ := dropEndWhile_split isBlank (trimStart cs)
    refine ⟨cs.takeWhile isBlank, back, ?_, fun c hc => ?_⟩
    · rw [List.append_assoc, trim, trimEnd, ← hback, trimStart, List.takeWhile_append_dropWhile]
    · rcases List.mem_append.mp hc with hc | hc
      · exact List.mem_takeWhile_imp hc
      · exact hblank c hc
  · rintro ⟨front, back, rfl, hblank⟩
    obtain ⟨c, r, rfl⟩ := List.exists_cons_of_ne_nil hne
    rw [trim, List.append_assoc, List.cons_append,
      trimStart_append (fun d hd => hblank d (by simp [hd])) (hsolid c (by simp)), ← List.cons_append, trimEnd,
      dropEndWhile_append fun d hd => hblank d (by simp [hd])]
    exact dropEndWhile_of_last fun d hd => hsolid d (List.mem_of_getLast? hd)

end PuppetDocs.Text
