import PuppetDocs.Proofs.Scan.Extent

/-
  PuppetDocs.Proofs.Literal.Escape — any text between delimiters.

  Between delimiters a text is written with a backslash in front of every backslash, of every
  delimiter and, where parts may be interpolated, of every sigil. What is written so ends at the
  closing delimiter that follows it (`body?_escape`) and says the text again (`decode_escape`).
  The scan for the end and the two decoders have rules of their own for backslashes; here they
  agree, as none of them looks past an escaped character.
-/

namespace PuppetDocs

namespace Delimiters

/-- The character is written with a backslash in front of it. -/
def escapes (d : Delimiters) (c : Char) : Bool :=
  c == '\\' || c == d.close || some c == d.nest || some c == d.sigil

def escape (d : Delimiters) : List Char → List Char
  | [] => []
  | c :: r => if d.escapes c then '\\' :: c :: d.escape r else c :: d.escape r

variable {d : Delimiters}

theorem escape_cons (c : Char) (r : List Char) :
    d.escape (c :: r) = if d.escapes c then '\\' :: c :: d.escape r else c :: d.escape r := rfl

theorem escapes_eq_false {c : Char} :
    d.escapes c = false ↔ c ≠ '\\' ∧ c ≠ d.close ∧ some c ≠ d.nest ∧ some c ≠ d.sigil := by
  simp [escapes, and_assoc]

/-- The closing delimiter can be told from whatever else means something in the body. -/
structure Closes (d : Delimiters) : Prop where
  slash : d.close ≠ '\\'
  sigil : some d.close ≠ d.sigil
  nest : some d.close ≠ d.nest

theorem bodyFrom_plain {c : Char} (h : d.escapes c = false) (more : List Char) :
    d.bodyFrom 0 0 (c :: more) = (d.bodyFrom 0 0 more).map (· + 1) := by
  obtain ⟨hslash, hclose, hnest, hsigil⟩ := escapes_eq_false.mp h
  rw [bodyFrom_cons, if_neg (by simpa using hslash), if_neg (by simp [hsigil]), if_neg (by simpa using hnest),
    if_neg (by simpa using hclose)]

theorem Closes.bodyFrom (h : d.Closes) (more : List Char) : d.bodyFrom 0 0 (d.close :: more) = some 0 := by
  rw [bodyFrom_cons, if_neg (by simpa using h.slash), if_neg (by simp [h.sigil]), if_neg (by simpa using h.nest),
    if_pos (by simp)]

/-- The first closing delimiter that no backslash escapes is the one behind the text. -/
theorem body?_escape (h : d.Closes) (content more : List Char) :
    d.body? (d.escape content ++ d.close :: more) = some (d.escape content).length := by
  unfold body?
  induction content with
  | nil => exact h.bodyFrom more
  | cons c content ih =>
    rw [escape_cons]
    split
    · rw [List.cons_append, List.cons_append, bodyFrom_cons, if_pos (by rfl)]
      simp only [ih, Option.map_some, List.length_cons]
    · rename_i hc
      rw [List.cons_append, bodyFrom_plain (Bool.eq_false_iff.mpr hc), ih, Option.map_some, List.length_cons]

end Delimiters

namespace Ruby

variable {d : Delimiters}

/-- Every delimiter stands for itself behind a backslash, and the sigil is `#` or there is none. -/
structure Decodes (d : Delimiters) : Prop where
  itself : ∀ c, d.escapes c = true → escaped c = [c]
  sigil : d.sigil = none ∨ d.sigil = some '#'

theorem decodeRaw_escape (hsigil : d.sigil = none) (content : List Char) : decodeRaw d (d.escape content) = content := by
  induction content with
  | nil => rfl
  | cons c content ih =>
    rw [Delimiters.escape_cons]
    split
    · rename_i hc
      have hescaped : (c == '\\' || c == d.close || some c == d.nest) = true := by
        simpa [Delimiters.escapes, hsigil] using hc
      rw [decodeRaw, if_pos hescaped, ih]
    · rename_i hc
      obtain ⟨hslash, -⟩ := Delimiters.escapes_eq_false.mp (Bool.eq_false_iff.mpr hc)
      rw [decodeRaw, ih]
      exact fun e r he => absurd he hslash

theorem decodeEscapes_escape (hitself : ∀ c, d.escapes c = true → escaped c = [c]) (content : List Char) :
    decodeEscapes (d.escape content) = content := by
  induction content with
  | nil => rfl
  | cons c content ih =>
    rw [Delimiters.escape_cons]
    split
    · rename_i hc
      rw [decodeEscapes, hitself c hc, ih, List.singleton_append]
    · rename_i hc
      obtain ⟨hslash, -⟩ := Delimiters.escapes_eq_false.mp (Bool.eq_false_iff.mpr hc)
      rw [decodeEscapes, ih]
      exact fun e r he => absurd he hslash

theorem interpolates_escape (hsigil : d.sigil = some '#') (content : List Char) :
    interpolates (d.escape content) = false := by
  induction content with
  | nil => rfl
  | cons c content ih =>
    rw [Delimiters.escape_cons]
    split
    · rw [interpolates, ih]
    · rename_i hc
      obtain ⟨hslash, -, -, hhash⟩ := Delimiters.escapes_eq_false.mp (Bool.eq_false_iff.mpr hc)
      have hplain : (c == '#') = false := by simpa [hsigil] using hhash
      rw [interpolates, ih, hplain, Bool.false_and, Bool.false_or]
      exact fun e r he => absurd he hslash

theorem decode_escape (h : Decodes d) (content : List Char) :
    decode d (d.escape content) = { value := String.ofList content, interpolated := false } := by
  rcases h.sigil with hsigil | hsigil
  · simp only [decode, hsigil, decodeRaw_escape hsigil]
  · simp only [decode, hsigil, decodeInterpolating, decodeEscapes_escape h.itself, interpolates_escape hsigil]

/-! ## The literal -/

theorem literal_of_body {lines : LineIndex} {s : Scanner} {r : Reading TokenKind} {gap width n : Nat} {cs : List Char}
    {kind : StrLit → TokenKind} (h : d.body? (cs.drop width) = some n) :
    literal lines s r gap cs width d false kind =
      found s r gap cs (kind (decode d ((cs.drop width).take n))) (width + n + 1) := by
  simp only [literal, h, Bool.false_eq_true, if_false, Nat.add_zero]

/-- Behind its opening, what is written between delimiters is one literal. -/
theorem literal_escape (hcloses : d.Closes) (hdecodes : Decodes d) (lines : LineIndex) (s : Scanner)
    (r : Reading TokenKind) (gap : Nat) (opening content more : List Char) (kind : StrLit → TokenKind) :
    literal lines s r gap (opening ++ (d.escape content ++ d.close :: more)) opening.length d false kind =
      found s r gap (opening ++ (d.escape content ++ d.close :: more))
        (kind { value := String.ofList content, interpolated := false })
        (opening.length + (d.escape content).length + 1) := by
  have hinside : (opening ++ (d.escape content ++ d.close :: more)).drop opening.length =
      d.escape content ++ d.close :: more := List.drop_left
  have hbody := Delimiters.body?_escape hcloses content more
  rw [← hinside] at hbody
  rw [literal_of_body hbody, hinside, List.take_left, decode_escape hdecodes]

end Ruby

end PuppetDocs
