import PuppetDocs.Ruby.Lexeme
import Mathlib.Data.List.Find

/-
  PuppetDocs.Proofs.Scan.Lexeme — where a lexeme ends.

  A lexeme is a non-empty front part of the text (`lexeme?_pos`, `lexeme?_le`), and a line
  feed ends it as the end of the text would: what stands behind the line feed has no say
  (`lexeme?_line`). So a lexeme other than the line feed itself lies in one line
  (`lexeme?_not_mem`). Each class of lexemes has its own pair of lemmas, a bound `_le` and
  the independence `_line`; the lemmas on `lexeme?` are put together from these.

  A carriage return in front of the line feed ends a lexeme as well (`lexeme?_return`), but a
  comment takes it in, and a quote at the end of the line, where the tag of a heredoc could
  begin, takes it for a character of the tag. So most of the lemmas `_line` speak of both.
-/

namespace PuppetDocs.Ruby

open Text (run isNameChar)

/-! ## Runs -/

theorem run_le (p : Char → Bool) (cs : List Char) : run p cs ≤ cs.length := by
  induction cs with
  | nil => simp [run]
  | cons c cs ih =>
    simp only [run, List.takeWhile_cons, List.length_cons] at ih ⊢
    split <;> simp only [List.length_cons, List.length_nil] <;> omega

/-- The characters that end a line. -/
def breaks : List Char := ['\n', '\r']

variable {e : Char}

theorem break_cases {p : Char → Prop} (hp : p '\n' ∧ p '\r') (he : e ∈ breaks) : p e := by
  simp only [breaks, List.mem_cons, List.not_mem_nil, or_false] at he
  rcases he with rfl | rfl
  · exact hp.1
  · exact hp.2

theorem break_apart {p : Char → Bool} (hp : p '\n' = false ∧ p '\r' = false) (he : e ∈ breaks) : p e = false :=
  break_cases (p := fun c => p c = false) hp he

theorem break_ne {c : Char} (hc : c ∉ breaks) (he : e ∈ breaks) : e ≠ c := ne_of_mem_of_not_mem he hc

/-- A run that stops at a character does not see what is behind it. -/
theorem run_line {p : Char → Bool} (hp : p e = false) (a x : List Char) : run p (a ++ e :: x) = run p a := by
  induction a with
  | nil => simp [run, hp]
  | cons c a ih =>
    simp only [run, List.cons_append, List.takeWhile_cons] at ih ⊢
    split
    · simp only [List.length_cons, ih]
    · rfl

theorem run_cons_pos {p : Char → Bool} {c : Char} (h : p c = true) (cs : List Char) :
    run p (c :: cs) = 1 + run p cs := by
  simp [run, h, Nat.add_comm]

theorem drop_line {n : Nat} {a : List Char} (h : n ≤ a.length) (x : List Char) :
    (a ++ e :: x).drop n = a.drop n ++ e :: x := List.drop_append_of_le_length h

/-! ## Names and numbers -/

theorem nameTail_le (cs : List Char) : nameTail cs ≤ cs.length := by
  have h := run_le isNameChar cs
  have hd : (cs.drop (run isNameChar cs)).length = cs.length - run isNameChar cs := List.length_drop
  simp only [nameTail]
  split
  · rename_i heq; rw [heq, List.length_cons] at hd; omega
  · rename_i heq; rw [heq, List.length_cons] at hd; omega
  · exact h

theorem nameTail_line (he : e ∈ breaks) (a x : List Char) : nameTail (a ++ e :: x) = nameTail a := by
  have hname : isNameChar e = false := break_apart (by decide) he
  have hquestion : e ≠ '?' := break_ne (by decide) he
  have hbang : e ≠ '!' := break_ne (by decide) he
  simp only [nameTail, run_line hname, drop_line (run_le isNameChar a)]
  cases a.drop (run isNameChar a) with
  | nil => simp [hquestion, hbang]
  | cons c r =>
    by_cases hq : c = '?'
    · subst hq; rfl
    by_cases hb : c = '!'
    · subst hb; rfl
    simp [hq, hb]

theorem exponent_le (cs : List Char) : exponent cs ≤ cs.length := by
  rcases cs with _ | ⟨e, _ | ⟨c, r⟩⟩
  · simp [exponent]
  · simp [exponent, run]
  · have h0 := run_le Char.isDigit (c :: r)
    have h1 := run_le Char.isDigit r
    simp only [exponent, List.length_cons] at h0 ⊢
    split
    · by_cases hp : c = '+'
      · subst hp; simp only [List.drop_succ_cons, List.drop_zero]; split <;> omega
      by_cases hm : c = '-'
      · subst hm; simp only [List.drop_succ_cons, List.drop_zero]; split <;> omega
      simp [hp, hm]; split <;> omega
    · omega

theorem exponent_line (he : e ∈ breaks) (a x : List Char) : exponent (a ++ e :: x) = exponent a := by
  have hdigit : Char.isDigit e = false := break_apart (by decide) he
  have hsmall : e ≠ 'e' := break_ne (by decide) he
  have hlarge : e ≠ 'E' := break_ne (by decide) he
  have hplus : e ≠ '+' := break_ne (by decide) he
  have hminus : e ≠ '-' := break_ne (by decide) he
  rcases a with _ | ⟨d, _ | ⟨c, r⟩⟩
  · simp [exponent, hsmall, hlarge]
  · simp [exponent, run, hdigit, hplus, hminus]
  · have h0 := run_line hdigit (c :: r) x
    have h1 := run_line hdigit r x
    simp only [List.cons_append, exponent] at h0 ⊢
    by_cases hp : c = '+'
    · subst hp; simp [h1]
    by_cases hm : c = '-'
    · subst hm; simp [h1]
    simp [hp, hm, h0]

/-- The width of a fraction, the dot included, at the front of `cs`. -/
def fraction (cs : List Char) : Nat :=
  match cs with
  | '.' :: d :: r => if d.isDigit then 2 + run isDigitOrBar r else 0
  | _ => 0

/-- The width of a number in base 16 or 2, its mark included, zero if `cs` starts with none. -/
def basedNumber (cs : List Char) : Nat :=
  match cs with
  | '0' :: b :: r =>
    let digits :=
      if b == 'x' || b == 'X' then run (fun c => isHexDigit c || c == '_') r
      else if b == 'b' || b == 'B' then run (fun c => c == '0' || c == '1' || c == '_') r
      else 0
    if digits = 0 then 0 else 2 + digits
  | _ => 0

theorem number_eq (cs : List Char) :
    number cs =
      let whole := run isDigitOrBar cs + fraction (cs.drop (run isDigitOrBar cs))
      max (whole + exponent (cs.drop whole)) (basedNumber cs) := rfl

theorem fraction_le (cs : List Char) : fraction cs ≤ cs.length := by
  unfold fraction
  split
  · split
    · rename_i r _
      have := run_le isDigitOrBar r
      simp only [List.length_cons]; omega
    · omega
  · omega

theorem fraction_line (he : e ∈ breaks) (a x : List Char) : fraction (a ++ e :: x) = fraction a := by
  have hdigit : Char.isDigit e = false := break_apart (by decide) he
  have hbar : isDigitOrBar e = false := break_apart (by decide) he
  have hpoint : e ≠ '.' := break_ne (by decide) he
  rcases a with _ | ⟨c, _ | ⟨d, r⟩⟩
  · simp [fraction, hpoint]
  · by_cases hc : c = '.'
    · subst hc; simp [fraction, hdigit]
    · simp [fraction, hc]
  · by_cases hc : c = '.'
    · subst hc; simp [fraction, run_line hbar]
    · simp [fraction, hc]

theorem basedNumber_le (cs : List Char) : basedNumber cs ≤ cs.length := by
  unfold basedNumber
  split
  · rename_i b r
    have h1 := run_le (fun c => isHexDigit c || c == '_') r
    have h2 := run_le (fun c => c == '0' || c == '1' || c == '_') r
    simp only [List.length_cons]
    split
    · split <;> omega
    · split
      · split <;> omega
      · simp
  · omega

theorem basedNumber_line (he : e ∈ breaks) (a x : List Char) : basedNumber (a ++ e :: x) = basedNumber a := by
  have hhex : (isHexDigit e || e == '_') = false := break_apart (p := fun c => isHexDigit c || c == '_') (by decide) he
  have hbinary : (e == '0' || e == '1' || e == '_') = false :=
    break_apart (p := fun c => c == '0' || c == '1' || c == '_') (by decide) he
  have hzero : e ≠ '0' := break_ne (by decide) he
  have hmarks : e ≠ 'x' ∧ e ≠ 'X' ∧ e ≠ 'b' ∧ e ≠ 'B' :=
    ⟨break_ne (by decide) he, break_ne (by decide) he, break_ne (by decide) he, break_ne (by decide) he⟩
  rcases a with _ | ⟨c, _ | ⟨b, r⟩⟩
  · simp [basedNumber, hzero]
  · by_cases hc : c = '0'
    · subst hc; simp [basedNumber, hmarks]
    · simp [basedNumber, hc]
  · by_cases hc : c = '0'
    · subst hc
      simp only [basedNumber, List.cons_append, run_line (p := fun c => isHexDigit c || c == '_') hhex,
        run_line (p := fun c => c == '0' || c == '1' || c == '_') hbinary]
    · simp [basedNumber, hc]

theorem number_le (cs : List Char) : number cs ≤ cs.length := by
  have h1 := run_le isDigitOrBar cs
  have h2 := fraction_le (cs.drop (run isDigitOrBar cs))
  have h3 := exponent_le (cs.drop (run isDigitOrBar cs + fraction (cs.drop (run isDigitOrBar cs))))
  have h4 := basedNumber_le cs
  simp only [List.length_drop] at h2 h3
  rw [number_eq]
  dsimp only
  omega

theorem number_line (he : e ∈ breaks) (a x : List Char) : number (a ++ e :: x) = number a := by
  have hbar : isDigitOrBar e = false := break_apart (by decide) he
  have h1 := run_le isDigitOrBar a
  have h2 := fraction_le (a.drop (run isDigitOrBar a))
  rw [List.length_drop] at h2
  simp only [number_eq, run_line hbar, drop_line h1, fraction_line he, basedNumber_line he]
  rw [drop_line (by omega), exponent_line he]

theorem number_pos {c : Char} (h : c.isDigit = true) (r : List Char) : 0 < number (c :: r) := by
  have := run_cons_pos (p := isDigitOrBar) (c := c) (by simp [isDigitOrBar, h]) r
  rw [number_eq]
  dsimp only
  omega

/-! ## Fixed texts -/

theorem isPrefixOf_le {s cs : List Char} (h : s.isPrefixOf cs = true) : s.length ≤ cs.length :=
  (List.isPrefixOf_iff_prefix.mp h).length_le

/-- A text without a character begins in front of that character or not at all. -/
theorem isPrefixOf_line {s : List Char} (hs : e ∉ s) (a x : List Char) :
    s.isPrefixOf (a ++ e :: x) = s.isPrefixOf a := by
  induction s generalizing a with
  | nil => simp
  | cons c s ih =>
    have hc : (c == e) = false := by
      simp only [List.mem_cons, not_or] at hs
      exact beq_false_of_ne (Ne.symm hs.1)
    cases a with
    | nil => simp [List.isPrefixOf, hc]
    | cons d a =>
      simp only [List.cons_append, List.isPrefixOf_cons_cons]
      rw [ih (fun h => hs (List.mem_cons_of_mem _ h))]

theorem find_isPrefixOf_line {β : Type} (table : List β) (key : β → List Char)
    (hs : ∀ k ∈ table, e ∉ key k) (a x : List Char) :
    table.find? (fun k => (key k).isPrefixOf (a ++ e :: x)) = table.find? (fun k => (key k).isPrefixOf a) :=
  List.find?_congr fun k hk => isPrefixOf_line (hs k hk) a x

/-! ## Symbols, variables and markers -/

theorem symbolBody_le (cs : List Char) : symbolBody cs ≤ cs.length := by
  rcases cs with _ | ⟨c, r⟩
  · simp [symbolBody]
  · simp only [symbolBody]
    split
    · have := nameTail_le r
      simp only [List.length_cons]; omega
    split
    · rcases r with _ | ⟨d, s⟩
      · simp
      · have := run_le isNameChar s
        simp only [List.length_cons]
        split <;> omega
    split
    · rename_i op hop
      have hpre := List.find?_some hop
      exact isPrefixOf_le hpre
    · omega

theorem symbolBody_line (he : e ∈ breaks) (a x : List Char) : symbolBody (a ++ e :: x) = symbolBody a := by
  have hkeys : ∀ op ∈ symbolOperators, e ∉ id op := by
    have hall : ∀ op ∈ symbolOperators, '\n' ∉ id op ∧ '\r' ∉ id op := by decide
    exact fun op hop => break_cases (p := (· ∉ id op)) (hall op hop) he
  have hvar : isVarStart e = false := break_apart (by decide) he
  have hname : isNameChar e = false := break_apart (by decide) he
  have hat : e ≠ '@' := break_ne (by decide) he
  rcases a with _ | ⟨c, r⟩
  · have hops : symbolOperators.find? (·.isPrefixOf (e :: x)) = none :=
      (find_isPrefixOf_line symbolOperators id hkeys [] x).trans (by decide)
    simp [symbolBody, hops, hvar, hat]
  · have hops := find_isPrefixOf_line symbolOperators id hkeys (c :: r) x
    simp only [id, List.cons_append] at hops
    simp only [List.cons_append, symbolBody, hops, nameTail_line he]
    rcases r with _ | ⟨d, s⟩
    · simp [hvar]
    · simp [run_line hname]

theorem variableName_le (cs : List Char) : variableName cs ≤ cs.length := by
  rcases cs with _ | ⟨c, r⟩
  · simp [variableName]
  · have := run_le isNameChar r
    simp only [variableName, List.length_cons]
    split <;> omega

theorem variableName_line (he : e ∈ breaks) (a x : List Char) : variableName (a ++ e :: x) = variableName a := by
  have hvar : isVarStart e = false := break_apart (by decide) he
  have hname : isNameChar e = false := break_apart (by decide) he
  rcases a with _ | ⟨c, r⟩
  · simp [variableName, hvar]
  · simp [variableName, run_line hname]

theorem percentOpening_le (cs : List Char) : percentOpening cs ≤ cs.length := by
  rcases cs with _ | ⟨c, _ | ⟨d, r⟩⟩
  · simp [percentOpening]
  · simp only [percentOpening, List.length_cons]
    split
    · omega
    · split <;> simp
  · simp only [percentOpening, List.length_cons]
    split
    · omega
    · split
      · split <;> omega
      · omega

theorem percentOpening_line (he : e ∈ breaks) (a x : List Char) : percentOpening (a ++ e :: x) = percentOpening a := by
  have hdel : isPercentDelimiter e = false := break_apart (by decide) he
  have hfl : isPercentFlavour e = false := break_apart (by decide) he
  rcases a with _ | ⟨c, _ | ⟨d, r⟩⟩
  · simp [percentOpening, hdel, hfl]
  · simp [percentOpening, hdel]
  · simp [percentOpening]

/-- A sign of a heredoc marker is one character or none, and in front of the rest. -/
theorem markerSign_eq (cs : List Char) :
    markerSign cs = (0, cs) ∨ ∃ c r, (c = '-' ∨ c = '~') ∧ cs = c :: r ∧ markerSign cs = (1, r) := by
  unfold markerSign
  split
  · exact .inr ⟨'-', _, .inl rfl, rfl, rfl⟩
  · exact .inr ⟨'~', _, .inr rfl, rfl, rfl⟩
  · exact .inl rfl

theorem markerSign_length (cs : List Char) : (markerSign cs).1 + (markerSign cs).2.length = cs.length := by
  rcases markerSign_eq cs with h | ⟨c, r, -, rfl, h⟩
  · simp [h]
  · simp [h, Nat.add_comm]

theorem markerSign_line (he : e ∈ breaks) (a x : List Char) :
    markerSign (a ++ e :: x) = ((markerSign a).1, (markerSign a).2 ++ e :: x) := by
  have hminus : e ≠ '-' := break_ne (by decide) he
  have htilde : e ≠ '~' := break_ne (by decide) he
  rcases a with _ | ⟨c, r⟩
  · simp [markerSign, hminus, htilde]
  · by_cases hm : c = '-'
    · subst hm; rfl
    by_cases ht : c = '~'
    · subst ht; rfl
    simp [markerSign, hm, ht]

theorem heredocMarker_le (cs : List Char) : heredocMarker cs ≤ cs.length := by
  have hlen := markerSign_length cs
  simp only [heredocMarker]
  rcases h : (markerSign cs).2 with _ | ⟨q, s⟩
  · simp
  · rw [h] at hlen
    simp only [List.length_cons] at hlen
    have h1 := run_le isNameChar s
    dsimp only
    split
    · omega
    split
    · have hd : (s.drop (run (fun c => c != q && c != '\n') s)).length
          = s.length - run (fun c => c != q && c != '\n') s := List.length_drop
      split
      · rename_i heq
        rw [heq, List.length_cons] at hd
        split <;> omega
      · omega
    · omega

theorem heredocMarker_line (a x : List Char) : heredocMarker (a ++ '\n' :: x) = heredocMarker a := by
  simp only [heredocMarker, markerSign_line (e := '\n') (by decide)]
  rcases (markerSign a).2 with _ | ⟨q, s⟩
  · have hvar : isVarStart '\n' = false := by decide
    simp [hvar]
  · simp only [List.cons_append, run_line (e := '\n') (p := isNameChar) (by decide),
      run_line (e := '\n') (p := fun c => c != q && c != '\n') (by simp), drop_line (run_le _ s)]
    cases s.drop (run (fun c => c != q && c != '\n') s) with
    | nil =>
      -- The quote is not closed on its line: a line feed is no quote.
      by_cases hq : q = '\n'
      · subst hq; simp
      · simp [Ne.symm hq]
    | cons d s => rfl

/-- A quote that is not closed in front of a carriage return is not closed on the line. -/
theorem heredocMarker_return (a x : List Char) : heredocMarker (a ++ '\r' :: '\n' :: x) = heredocMarker a := by
  simp only [heredocMarker, markerSign_line (e := '\r') (by decide)]
  rcases (markerSign a).2 with _ | ⟨q, s⟩
  · have hvar : isVarStart '\r' = false := by decide
    simp [hvar]
  simp only [List.cons_append, run_line (e := '\r') (p := isNameChar) (by decide)]
  by_cases hq : (q == '\'' || q == '"') = true
  · have hne : '\n' ≠ q ∧ '\r' ≠ q := by
      rcases Bool.or_eq_true _ _ ▸ hq with h | h <;> rw [beq_iff_eq.mp h] <;> decide
    have htail : (['\r', '\n'] ++ x).takeWhile (fun c => c != q && c != '\n') = ['\r'] := by
      simp [hne.2]
    have hsplit : (s ++ (['\r', '\n'] ++ x)).takeWhile (fun c => c != q && c != '\n') = _ := List.takeWhile_append
    have hrun := congrArg List.length hsplit
    rw [htail, apply_ite List.length] at hrun
    by_cases hall : run (fun c => c != q && c != '\n') s = s.length
    · have hlong : run (fun c => c != q && c != '\n') (s ++ '\r' :: '\n' :: x) = s.length + 1 :=
        (hrun.trans (if_pos hall)).trans List.length_append
      have hbeyond : s.drop (s.length + 1) = [] := List.drop_eq_nil_of_le (by omega)
      simp [hlong, hall, List.drop_append, hbeyond, hne.1]
    · have hshort : run (fun c => c != q && c != '\n') (s ++ '\r' :: '\n' :: x)
          = run (fun c => c != q && c != '\n') s := hrun.trans (if_neg hall)
      have hle := run_le (fun c => c != q && c != '\n') s
      obtain ⟨d, t, hdrop⟩ := List.exists_cons_of_ne_nil
        (l := s.drop (run (fun c => c != q && c != '\n') s)) (by simp only [ne_eq, List.drop_eq_nil_iff]; omega)
      rw [hshort, drop_line hle, hdrop]
      rfl
  · simp [hq]

theorem opensQuotedTag_line (a x : List Char) : opensQuotedTag (a ++ '\n' :: x) = opensQuotedTag a := by
  simp only [opensQuotedTag, markerSign_line (e := '\n') (by decide)]
  rcases (markerSign a).2 with _ | ⟨q, _ | ⟨c, s⟩⟩
  · rcases x with _ | ⟨c, x⟩ <;> simp
  · simp
  · rfl

/-- The text ends with a quote, where a tag could begin. -/
def EndsAtQuote (cs : List Char) : Prop := ∃ q ∈ ['\'', '"'], (markerSign cs).2 = [q]

theorem opensQuotedTag_return {a : List Char} (ha : ¬EndsAtQuote a) (x : List Char) :
    opensQuotedTag (a ++ '\r' :: x) = opensQuotedTag a := by
  simp only [opensQuotedTag, markerSign_line (e := '\r') (by decide)]
  rcases h : (markerSign a).2 with _ | ⟨q, _ | ⟨c, s⟩⟩
  · rcases x with _ | ⟨c, x⟩ <;> simp
  · have hq : q ∉ ['\'', '"'] := fun hmem => ha ⟨q, hmem, h⟩
    simp only [List.mem_cons, List.not_mem_nil, or_false, not_or] at hq
    simp [hq]
  · rfl

/-! ## Punctuation -/

theorem punctuation_not_mem : ∀ e ∈ punctuation, '\n' ∉ e.1 ∧ e.1 ≠ [] := by decide

theorem punctuation?_line (he : e ∈ breaks) (a x : List Char) : punctuation? (a ++ e :: x) = punctuation? a := by
  have hkeys : ∀ k ∈ punctuation, e ∉ k.1 := by
    have hall : ∀ k ∈ punctuation, '\n' ∉ k.1 ∧ '\r' ∉ k.1 := by decide
    exact fun k hk => break_cases (p := (· ∉ k.1)) (hall k hk) he
  have h := find_isPrefixOf_line punctuation Prod.fst hkeys a x
  simp only [punctuation?]
  exact congrArg (Option.map _) h

theorem punctuation?_bounds {cs : List Char} {l : Lexeme} {w : Nat} (h : punctuation? cs = some (l, w)) :
    0 < w ∧ w ≤ cs.length := by
  obtain ⟨⟨s, k⟩, hfind, he⟩ := Option.map_eq_some_iff.mp h
  obtain ⟨rfl, rfl⟩ := Prod.mk.inj he
  have hmem := List.mem_of_find?_eq_some hfind
  have hpre := List.find?_some hfind
  exact ⟨List.length_pos_iff.mpr (punctuation_not_mem _ hmem).2, isPrefixOf_le hpre⟩

/-! ## Lexemes -/

/-- What the first characters of a lexeme say about it, and about its width `w`. -/
def Lexeme.Starts (w : Nat) : Lexeme → List Char → Prop
  | .comment, cs => ∃ r, cs = '#' :: r ∧ w = 1 + run (· != '\n') r
  | .word, cs => ∃ c r, cs = c :: r ∧ isNameStart c = true
  | .opening .singleQuote, cs => ∃ r, cs = '\'' :: r
  | .opening .doubleQuote, cs => ∃ r, cs = '"' :: r
  | .opening .backtick, cs => ∃ r, cs = '\x60' :: r
  | .opening (.symbolQuote q), cs => (q = '\'' ∨ q = '"') ∧ ∃ r, cs = ':' :: q :: r
  | .opening .percent, cs => ∃ r, cs = '%' :: r ∧ percentOpening r ≠ 0 ∧ w = 1 + percentOpening r
  | .opening .heredoc, cs => ∃ r, cs = '<' :: '<' :: r ∧ heredocMarker r ≠ 0 ∧ w = 2 + heredocMarker r
  | .plain .newline, cs => ∃ r, cs = '\n' :: r ∧ w = 1
  | .plain k, cs => (∃ c r, cs = c :: r ∧ c ≠ '\n') ∧ (∀ v, k ≠ .string v) ∧ (k = .slash → ['/'] <+: cs)

/-- A width that fits the text, of a lexeme that may start it. -/
structure Lexeme.Fits (l : Lexeme) (w : Nat) (cs : List Char) : Prop where
  starts : l.Starts w cs
  pos : 0 < w
  le : w ≤ cs.length

theorem punctuation_plain : ∀ e ∈ punctuation, e.2 ≠ .newline ∧ e.2.endsValue = false ∨ e.2 = .rparen ∨
    e.2 = .rbracket ∨ e.2 = .rbrace := by decide

theorem punctuation_slash : ∀ e ∈ punctuation, e.2 = .slash → e.1 = ['/'] := by decide

theorem punctuation?_fits {c : Char} {r : List Char} {l : Lexeme} {w : Nat} (hc : c ≠ '\n')
    (h : punctuation? (c :: r) = some (l, w)) : l.Fits w (c :: r) := by
  obtain ⟨hpos, hle⟩ := punctuation?_bounds h
  obtain ⟨⟨s, k⟩, hfind, he⟩ := Option.map_eq_some_iff.mp h
  obtain ⟨rfl, rfl⟩ := Prod.mk.inj he
  have hk := punctuation_plain _ (List.mem_of_find?_eq_some hfind)
  refine ⟨?_, hpos, hle⟩
  cases k with
  | slash =>
    obtain rfl : s = ['/'] := punctuation_slash _ (List.mem_of_find?_eq_some hfind) rfl
    have hfront := List.find?_some hfind
    exact ⟨⟨c, r, rfl, hc⟩, nofun, fun _ => List.isPrefixOf_iff_prefix.mp hfront⟩
  | _ => simp_all [Lexeme.Starts, TokenKind.endsValue]

/-! ## The lexemes that share a first character -/

def atLexeme? (r : List Char) : Option (Lexeme × Nat) :=
  match r with
  | '@' :: s => if variableName s = 0 then none else some (.plain .classVar, 2 + variableName s)
  | _ => if variableName r = 0 then none else some (.plain .instanceVar, 1 + variableName r)

def dollarLexeme? (r : List Char) : Option (Lexeme × Nat) :=
  if variableName r ≠ 0 then some (.plain .globalVar, 1 + variableName r)
  else match r with
    | d :: _ => if isSpecialGlobal d then some (.plain .globalVar, 2) else none
    | [] => none

def colonLexeme? (c : Char) (r : List Char) : Option (Lexeme × Nat) :=
  match r with
  | '\'' :: _ => some (.opening (.symbolQuote '\''), 2)
  | '"' :: _ => some (.opening (.symbolQuote '"'), 2)
  | _ => if symbolBody r = 0 then punctuation? (c :: r) else some (.plain .symbol, 1 + symbolBody r)

def percentLexeme? (c : Char) (r : List Char) : Option (Lexeme × Nat) :=
  if percentOpening r = 0 then punctuation? (c :: r) else some (.opening .percent, 1 + percentOpening r)

def angleLexeme? (c : Char) (r : List Char) : Option (Lexeme × Nat) :=
  match r with
  | '<' :: s =>
    if heredocMarker s ≠ 0 then some (.opening .heredoc, 2 + heredocMarker s)
    else if opensQuotedTag s then none
    else match s with
      | '-' :: _ | '~' :: _ | '\'' :: _ | '"' :: _ => some (.plain .lt, 2)
      | _ => punctuation? (c :: r)
  | _ => punctuation? (c :: r)

theorem lexeme?_cons (c : Char) (r : List Char) :
    lexeme? (c :: r) =
      if c == '\n' then some (.plain .newline, 1)
      else if c == '#' then some (.comment, 1 + run (· != '\n') r)
      else if isNameStart c then some (.word, 1 + nameTail r)
      else if c.isUpper then some (.plain .constant, 1 + run isNameChar r)
      else if c.isDigit then some (.plain .number, number (c :: r))
      else if c == '\'' then some (.opening .singleQuote, 1)
      else if c == '"' then some (.opening .doubleQuote, 1)
      else if c == '\x60' then some (.opening .backtick, 1)
      else if c == '@' then atLexeme? r
      else if c == '$' then dollarLexeme? r
      else if c == ':' then colonLexeme? c r
      else if c == '%' then percentLexeme? c r
      else if c == '<' then angleLexeme? c r
      else punctuation? (c :: r) := rfl

theorem atLexeme?_fits {r : List Char} {l : Lexeme} {w : Nat} (h : atLexeme? r = some (l, w)) :
    l.Fits w ('@' :: r) := by
  have hvar := variableName_le r
  unfold atLexeme? at h
  split at h
  · rename_i s
    have := variableName_le s
    split at h
    · cases h
    · cases h
      exact ⟨⟨⟨'@', _, rfl, by decide⟩, by simp⟩, by omega, by simp only [List.length_cons]; omega⟩
  · split at h
    · cases h
    · cases h
      exact ⟨⟨⟨'@', _, rfl, by decide⟩, by simp⟩, by omega, by simp only [List.length_cons]; omega⟩

theorem dollarLexeme?_fits {r : List Char} {l : Lexeme} {w : Nat} (h : dollarLexeme? r = some (l, w)) :
    l.Fits w ('$' :: r) := by
  have hvar := variableName_le r
  unfold dollarLexeme? at h
  split at h
  · cases h
    exact ⟨⟨⟨'$', _, rfl, by decide⟩, by simp⟩, by omega, by simp only [List.length_cons]; omega⟩
  · split at h
    · split at h
      · cases h
        exact ⟨⟨⟨'$', _, rfl, by decide⟩, by simp⟩, by omega, by simp⟩
      · cases h
    · cases h

theorem colonLexeme?_fits {r : List Char} {l : Lexeme} {w : Nat} (h : colonLexeme? ':' r = some (l, w)) :
    l.Fits w (':' :: r) := by
  have hbody := symbolBody_le r
  unfold colonLexeme? at h
  split at h
  · cases h
    exact ⟨⟨.inl rfl, _, rfl⟩, by omega, by simp⟩
  · cases h
    exact ⟨⟨.inr rfl, _, rfl⟩, by omega, by simp⟩
  · split at h
    · exact punctuation?_fits (by decide) h
    · cases h
      exact ⟨⟨⟨':', _, rfl, by decide⟩, by simp⟩, by omega, by simp only [List.length_cons]; omega⟩

theorem percentLexeme?_fits {r : List Char} {l : Lexeme} {w : Nat} (h : percentLexeme? '%' r = some (l, w)) :
    l.Fits w ('%' :: r) := by
  have hopen := percentOpening_le r
  unfold percentLexeme? at h
  split at h
  · exact punctuation?_fits (by decide) h
  · rename_i hne
    cases h
    exact ⟨⟨r, rfl, hne, rfl⟩, by omega, by simp only [List.length_cons]; omega⟩

theorem angleLexeme?_fits {r : List Char} {l : Lexeme} {w : Nat} (h : angleLexeme? '<' r = some (l, w)) :
    l.Fits w ('<' :: r) := by
  unfold angleLexeme? at h
  split at h
  · rename_i s
    have hmark := heredocMarker_le s
    have hlt : (Lexeme.plain .lt).Fits 2 ('<' :: '<' :: s) :=
      ⟨⟨⟨'<', _, rfl, by decide⟩, by simp⟩, by omega, by simp⟩
    split at h
    · next hmarker =>
      cases h
      exact ⟨⟨s, rfl, hmarker, rfl⟩, by omega, by simp only [List.length_cons]; omega⟩
    · split at h
      · cases h
      · split at h
        · cases h; exact hlt
        · cases h; exact hlt
        · cases h; exact hlt
        · cases h; exact hlt
        · exact punctuation?_fits (by decide) h
  · exact punctuation?_fits (by decide) h

theorem lexeme?_fits {cs : List Char} {l : Lexeme} {w : Nat} (h : lexeme? cs = some (l, w)) : l.Fits w cs := by
  rcases cs with _ | ⟨c, r⟩
  · simp [lexeme?] at h
  have hname := nameTail_le r
  have hrun := run_le isNameChar r
  rw [lexeme?_cons] at h
  by_cases h1 : (c == '\n') = true
  · rw [if_pos h1] at h
    cases h
    exact ⟨⟨r, by rw [beq_iff_eq.mp h1], rfl⟩, by omega, by simp⟩
  rw [if_neg h1] at h
  have hline : c ≠ '\n' := by simpa using h1
  by_cases h2 : (c == '#') = true
  · rw [if_pos h2] at h
    have := run_le (· != '\n') r
    cases h
    exact ⟨⟨r, by rw [beq_iff_eq.mp h2], rfl⟩, by omega, by simp only [List.length_cons]; omega⟩
  rw [if_neg h2] at h
  by_cases h3 : isNameStart c = true
  · rw [if_pos h3] at h
    cases h
    exact ⟨⟨c, r, rfl, h3⟩, by omega, by simp only [List.length_cons]; omega⟩
  rw [if_neg h3] at h
  by_cases h4 : c.isUpper = true
  · rw [if_pos h4] at h
    cases h
    exact ⟨⟨⟨c, r, rfl, hline⟩, by simp⟩, by omega, by simp only [List.length_cons]; omega⟩
  rw [if_neg h4] at h
  by_cases h5 : c.isDigit = true
  · rw [if_pos h5] at h
    cases h
    exact ⟨⟨⟨c, r, rfl, hline⟩, by simp⟩, number_pos h5 r, number_le _⟩
  rw [if_neg h5] at h
  by_cases h6 : (c == '\'') = true
  · rw [if_pos h6] at h
    cases h
    exact ⟨⟨r, by rw [beq_iff_eq.mp h6]⟩, by omega, by simp⟩
  rw [if_neg h6] at h
  by_cases h7 : (c == '"') = true
  · rw [if_pos h7] at h
    cases h
    exact ⟨⟨r, by rw [beq_iff_eq.mp h7]⟩, by omega, by simp⟩
  rw [if_neg h7] at h
  by_cases h8 : (c == '\x60') = true
  · rw [if_pos h8] at h
    cases h
    exact ⟨⟨r, by rw [beq_iff_eq.mp h8]⟩, by omega, by simp⟩
  rw [if_neg h8] at h
  by_cases h9 : (c == '@') = true
  · rw [if_pos h9] at h
    rw [beq_iff_eq.mp h9]
    exact atLexeme?_fits h
  rw [if_neg h9] at h
  by_cases h10 : (c == '$') = true
  · rw [if_pos h10] at h
    rw [beq_iff_eq.mp h10]
    exact dollarLexeme?_fits h
  rw [if_neg h10] at h
  by_cases h11 : (c == ':') = true
  · rw [if_pos h11] at h
    rw [beq_iff_eq.mp h11] at h ⊢
    exact colonLexeme?_fits h
  rw [if_neg h11] at h
  by_cases h12 : (c == '%') = true
  · rw [if_pos h12] at h
    rw [beq_iff_eq.mp h12] at h ⊢
    exact percentLexeme?_fits h
  rw [if_neg h12] at h
  by_cases h13 : (c == '<') = true
  · rw [if_pos h13] at h
    rw [beq_iff_eq.mp h13] at h ⊢
    exact angleLexeme?_fits h
  rw [if_neg h13] at h
  exact punctuation?_fits hline h

/-! ## Lexemes and line feeds -/

theorem atLexeme?_line (he : e ∈ breaks) (a x : List Char) : atLexeme? (a ++ e :: x) = atLexeme? a := by
  have hat : e ≠ '@' := break_ne (by decide) he
  rcases a with _ | ⟨c, s⟩
  · have := variableName_line he [] x
    simp only [List.nil_append] at this
    simp [atLexeme?, this, hat]
  · have h0 := variableName_line he (c :: s) x
    by_cases hc : c = '@'
    · subst hc; simp [atLexeme?, variableName_line he]
    · simp only [List.cons_append] at h0
      simp [atLexeme?, hc, h0]

theorem dollarLexeme?_line (he : e ∈ breaks) (a x : List Char) : dollarLexeme? (a ++ e :: x) = dollarLexeme? a := by
  have h := variableName_line he a x
  have hspecial : isSpecialGlobal e = false := break_apart (by decide) he
  have hvar : isVarStart e = false := break_apart (by decide) he
  rcases a with _ | ⟨c, s⟩
  · simp [dollarLexeme?, hspecial, variableName, hvar]
  · simp only [List.cons_append] at h
    simp [dollarLexeme?, h]

theorem colonLexeme?_line (he : e ∈ breaks) (c : Char) (a x : List Char) :
    colonLexeme? c (a ++ e :: x) = colonLexeme? c a := by
  have hsym := symbolBody_line he a x
  have hpunct := punctuation?_line he (c :: a) x
  have hsingle : e ≠ '\'' := break_ne (by decide) he
  have hdouble : e ≠ '"' := break_ne (by decide) he
  rcases a with _ | ⟨d, s⟩
  · simp only [List.nil_append, List.cons_append] at hsym hpunct
    simp [colonLexeme?, hsym, hpunct, hsingle, hdouble]
  · by_cases hq : d = '\''
    · subst hq; rfl
    by_cases hd : d = '"'
    · subst hd; rfl
    simp only [List.cons_append] at hsym hpunct
    simp [colonLexeme?, hq, hd, hsym, hpunct]

theorem percentLexeme?_line (he : e ∈ breaks) (c : Char) (a x : List Char) :
    percentLexeme? c (a ++ e :: x) = percentLexeme? c a := by
  have hpunct := punctuation?_line he (c :: a) x
  simp only [List.cons_append] at hpunct
  simp [percentLexeme?, percentOpening_line he, hpunct]

/-- The lexeme behind `<`, if a marker is found behind `<<` as in the shorter text. -/
theorem angleLexeme?_break (he : e ∈ breaks) (c : Char) {a x : List Char}
    (hmarker : ∀ s, a = '<' :: s → heredocMarker (s ++ e :: x) = heredocMarker s ∧
      opensQuotedTag (s ++ e :: x) = opensQuotedTag s) : angleLexeme? c (a ++ e :: x) = angleLexeme? c a := by
  have hpunct := punctuation?_line he (c :: a) x
  have hangle : e ≠ '<' := break_ne (by decide) he
  have hsigns : e ≠ '-' ∧ e ≠ '~' ∧ e ≠ '\'' ∧ e ≠ '"' :=
    ⟨break_ne (by decide) he, break_ne (by decide) he, break_ne (by decide) he, break_ne (by decide) he⟩
  rcases a with _ | ⟨d, s⟩
  · simp only [List.nil_append, List.cons_append] at hpunct
    simp [angleLexeme?, hpunct, hangle]
  · simp only [List.cons_append] at hpunct
    by_cases hd : d = '<'
    · subst hd
      obtain ⟨h1, h2⟩ := hmarker s rfl
      rcases s with _ | ⟨b, s⟩
      · simp only [List.nil_append] at hpunct h1 h2
        simp [angleLexeme?, h1, h2, hpunct, hsigns]
      · simp only [List.cons_append] at h1 h2 hpunct
        by_cases hb : b = '-' ∨ b = '~' ∨ b = '\'' ∨ b = '"'
        · rcases hb with rfl | rfl | rfl | rfl <;> simp [angleLexeme?, h1, h2]
        · simp only [not_or] at hb
          simp [angleLexeme?, h1, h2, hpunct, hb]
    · simp [angleLexeme?, hd, hpunct]

/-- A line feed ends a lexeme as the end of the text does. -/
theorem lexeme?_line {a : List Char} (ha : a ≠ []) (x : List Char) : lexeme? (a ++ '\n' :: x) = lexeme? a := by
  have he : '\n' ∈ breaks := by decide
  rcases a with _ | ⟨c, r⟩
  · exact absurd rfl ha
  have hnum := number_line he (c :: r) x
  have hpunct := punctuation?_line he (c :: r) x
  have hangle : angleLexeme? c (r ++ '\n' :: x) = angleLexeme? c r :=
    angleLexeme?_break he c fun s _ => ⟨heredocMarker_line s x, opensQuotedTag_line s x⟩
  simp only [List.cons_append] at hnum hpunct
  rw [List.cons_append, lexeme?_cons, lexeme?_cons, run_line (by decide), nameTail_line he,
    run_line (e := '\n') (p := isNameChar) (by decide), hnum, atLexeme?_line he, dollarLexeme?_line he,
    colonLexeme?_line he, percentLexeme?_line he, hangle, hpunct]

/-- A carriage return in front of the line feed does so too, if it is no part of a comment or of a tag. -/
theorem lexeme?_return {a : List Char} (ha : a ≠ []) (hcomment : a.head? ≠ some '#')
    (htag : ∀ s, a = '<' :: '<' :: s → ¬EndsAtQuote s) (x : List Char) :
    lexeme? (a ++ '\r' :: '\n' :: x) = lexeme? a := by
  have he : '\r' ∈ breaks := by decide
  rcases a with _ | ⟨c, r⟩
  · exact absurd rfl ha
  have hhash : ¬(c == '#') = true := by simpa using hcomment
  have hnum := number_line he (c :: r) ('\n' :: x)
  have hpunct := punctuation?_line he (c :: r) ('\n' :: x)
  simp only [List.cons_append] at hnum hpunct
  have hangle (hc : c = '<') : angleLexeme? c (r ++ '\r' :: '\n' :: x) = angleLexeme? c r := by
    subst hc
    exact angleLexeme?_break he '<' fun s hs =>
      ⟨heredocMarker_return s x, opensQuotedTag_return (htag s (by rw [hs])) _⟩
  rw [List.cons_append, lexeme?_cons, lexeme?_cons, if_neg hhash, if_neg hhash, nameTail_line he,
    run_line (e := '\r') (p := isNameChar) (by decide), hnum, atLexeme?_line he, dollarLexeme?_line he,
    colonLexeme?_line he, percentLexeme?_line he, hpunct]
  by_cases hc : c = '<'
  · rw [hangle hc]
  · simp only [beq_false_of_ne hc, Bool.false_eq_true, if_false]

theorem lexeme?_newline (x : List Char) : lexeme? ('\n' :: x) = some (.plain .newline, 1) := rfl

/-- Where the first line feed stands, if there is one. -/
theorem line_cases (cs : List Char) : '\n' ∉ cs ∨ ∃ a x, '\n' ∉ a ∧ cs = a ++ '\n' :: x := by
  by_cases h : '\n' ∈ cs
  · obtain ⟨a, x, rfl, ha⟩ := List.eq_append_cons_of_mem h
    exact .inr ⟨a, x, ha, rfl⟩
  · exact .inl h

/-- Only the line feed's own lexeme has a line feed in it. -/
theorem lexeme?_not_mem {cs : List Char} {l : Lexeme} {w : Nat} (h : lexeme? cs = some (l, w))
    (hl : l ≠ .plain .newline) : '\n' ∉ cs.take w := by
  rcases line_cases cs with hn | ⟨a, x, ha, rfl⟩
  · exact fun hm => hn (List.mem_of_mem_take hm)
  · rcases a with _ | ⟨c, a⟩
    · rw [List.nil_append, lexeme?_newline] at h
      cases h; exact absurd rfl hl
    · rw [lexeme?_line (by simp)] at h
      rw [List.take_append_of_le_length (lexeme?_fits h).le]
      exact fun hm => ha (List.mem_of_mem_take hm)

end PuppetDocs.Ruby
