import PuppetDocs.Proofs.Manifest.Coverage
import PuppetDocs.Proofs.Manifest.Outline.Words

/-
  PuppetDocs.Proofs.Manifest.Lexed — what the scanner reads at a place, and what that depends on.

  Behind a token of a given kind the text tells which token comes next, and where it ends
  (`token?`); the tokens of an accepted manifest are those, one behind the other (`scan_lexed`),
  but for the headers of heredocs. Only the text up to a closing bracket behind the token
  matters (`token?_bounded`), so that what stands in brackets is read alike wherever it is
  written. The exception is an at sign in front of a parenthesis: whether it begins a header is
  told by the rest of the line.
-/

namespace PuppetDocs

/-- A width that is told within `length` characters is told so too with `width` characters in front of them. -/
theorem map_within {found within : Option Nat} {width n length : Nat} (h : found.map (· + width) = some n)
    (hn : n < length + width) (hwithin : ∀ m, found = some m → m < length → within = some m) :
    within.map (· + width) = some n := by
  obtain ⟨m, hm, rfl⟩ := Option.map_eq_some_iff.mp h
  rw [hwithin m hm (Nat.lt_of_add_lt_add_right hn)]
  rfl

namespace Delimiters

/-- Only the closing delimiter ends a body in front of its first character. -/
theorem bodyFrom_zero {d : Delimiters} {depth : Nat} {c : Char} {r : List Char} (h : d.bodyFrom depth 0 (c :: r) = some 0) :
    depth = 0 ∧ (some c == d.nest) = false ∧ (c == d.close) = true := by
  have hlater : ∀ (o : Option Nat) (k : Nat), o.map (· + (k + 1)) ≠ some 0 := by
    intro o k
    cases o <;> simp
  rw [bodyFrom_cons] at h
  split at h
  · split at h
    · cases h
    · exact absurd h (hlater _ 1)
  split at h
  · split at h
    · cases h
    · exact absurd h (hlater _ 1)
  split at h
  · exact absurd h (hlater _ 0)
  next hnest =>
  split at h
  · next hclose =>
    split at h
    · exact ⟨rfl, Bool.eq_false_iff.mpr hnest, hclose⟩
    · exact absurd h (hlater _ 0)
  · exact absurd h (hlater _ 0)

/-- A body is told by the text up to its closing delimiter. -/
theorem bodyFrom_within {d : Delimiters} {depth braces : Nat} {cs x : List Char} {n : Nat}
    (h : d.bodyFrom depth braces (cs ++ x) = some n) (hn : n < cs.length) : d.bodyFrom depth braces cs = some n := by
  fun_induction d.bodyFrom depth braces cs generalizing n with
  | case1 => simp at hn
  | case2 depth braces c r =>
    rename_i ih
    rw [List.cons_append, bodyFrom] at h
    exact map_within h hn fun _ => ih
  | case3 depth c hc =>
    rw [List.cons_append, bodyFrom_cons, if_pos hc] at h
    split at h
    · cases h
    · obtain ⟨m, -, rfl⟩ := Option.map_eq_some_iff.mp h
      simp at hn
  | case4 depth c hc e s ih =>
    rw [List.cons_append, bodyFrom_cons, if_pos hc] at h
    exact map_within h hn fun _ => ih
  | case5 depth c hc hs => simp at hs
  | case6 depth c hc e s hs ih =>
    have hs' : (some c == d.sigil && (e :: (s ++ x)).head? == some '\x7b') = true := hs
    rw [List.cons_append, List.cons_append, bodyFrom_cons, if_neg hc, if_pos hs'] at h
    exact map_within h hn fun _ => ih
  | case7 depth c r hc hs hnest ih =>
    by_cases hr : r = []
    · obtain rfl : n = 0 := by simpa [hr] using hn
      exact absurd hnest (Bool.eq_false_iff.mp (bodyFrom_zero h).2.1)
    · rw [List.cons_append, bodyFrom_cons, if_neg hc, if_neg (not_sigil_append hs hr x), if_pos hnest] at h
      exact map_within h hn fun _ => ih
  | case8 c r hc hs hnest hclose =>
    by_cases hr : r = []
    · obtain rfl : n = 0 := by simpa [hr] using hn
      rfl
    · rw [List.cons_append, bodyFrom_cons, if_neg hc, if_neg (not_sigil_append hs hr x), if_neg hnest, if_pos hclose] at h
      exact h
  | case9 c r hc hs hnest hclose depth ih =>
    by_cases hr : r = []
    · obtain rfl : n = 0 := by simpa [hr] using hn
      exact absurd (bodyFrom_zero h).1 (Nat.succ_ne_zero depth)
    · rw [List.cons_append, bodyFrom_cons, if_neg hc, if_neg (not_sigil_append hs hr x), if_neg hnest, if_pos hclose] at h
      exact map_within h hn fun _ => ih
  | case10 depth c r hc hs hnest hclose ih =>
    by_cases hr : r = []
    · obtain rfl : n = 0 := by simpa [hr] using hn
      exact absurd (bodyFrom_zero h).2.2 hclose
    · rw [List.cons_append, bodyFrom_cons, if_neg hc, if_neg (not_sigil_append hs hr x), if_neg hnest, if_neg hclose] at h
      exact map_within h hn fun _ => ih

end Delimiters

end PuppetDocs

namespace PuppetDocs.Manifest

open Outline
open Text (byteLength run isNameChar)

/-! ## Lexemes -/

/-- The lexeme that begins with `c`, in front of the character `next`, if it is no word, number or string. -/
def sign? (c : Char) (next : Option Char) (header : Nat) : Option (Lexeme × Nat) :=
  match c, next with
  | '/', some '*' => some (.blockComment, 2)
  | '/', _ => some (.plain .slash, 1)
  | '@', some '(' => if header ≠ 0 then some (.heredoc, 2 + header) else none
  | '=', some '>' => some (.plain .fatArrow, 2)
  | '=', _ => some (.plain .assign, 1)
  | '>', some '>' => some (.plain .returnArrow, 2)
  | '*', _ => some (.plain .star, 1)
  | ',', _ => some (.plain .comma, 1)
  | _, _ =>
    match bracket? c with
    | some kind => some (.plain kind, 1)
    | none => if isOperatorChar c then some (.plain .operator, 1) else none

theorem lexeme?_cons (c : Char) (r : List Char) :
    lexeme? (c :: r) =
      if c == '#' then some (.comment, 1 + run (· != '\n') r)
      else if qualified isLowerStart (c :: r) ≠ 0 then
        some (.plain (wordKind ((c :: r).take (qualified isLowerStart (c :: r)))
          ((c :: r).drop (qualified isLowerStart (c :: r)))), qualified isLowerStart (c :: r))
      else if qualified Char.isUpper (c :: r) ≠ 0 then some (.plain .typeName, qualified Char.isUpper (c :: r))
      else if c.isDigit then some (.plain .number, 1 + run (fun c => isNameChar c || c == '.') r)
      else if c == '$' then
        if qualified isLowerStart r ≠ 0 then some (.plain .variable, 1 + qualified isLowerStart r) else none
      else if c == '\'' || c == '"' then some (.quote c, 1)
      else sign? c r.head? (headerTail r.tail) := by
  unfold lexeme?
  dsimp only
  refine if_congr Iff.rfl rfl (if_congr Iff.rfl rfl (if_congr Iff.rfl rfl (if_congr Iff.rfl rfl (if_congr Iff.rfl rfl
    (if_congr Iff.rfl rfl ?_)))))
  unfold sign?
  cases hbracket : bracket? c with
  | none => cases r <;> dsimp only [List.head?_nil, List.head?_cons, List.tail_cons] <;> split <;> simp_all
  | some kind => cases r <;> dsimp only [List.head?_nil, List.head?_cons, List.tail_cons] <;> split <;> simp_all

/-- The width of a header matters where a header begins. -/
theorem sign?_header {c : Char} {next : Option Char} (h : ¬(c = '@' ∧ next = some '(')) (header header' : Nat) :
    sign? c next header = sign? c next header' := by
  unfold sign?
  split <;> simp_all

/-! ## What a closing bracket bounds -/

section Bounds

variable {first : Char → Bool}

theorem qualifiedTail_bounded (hfirst : first ']' = false) (cs : List Char) :
    ∃ n ≤ cs.length, ∀ z, qualifiedTail first (cs ++ ']' :: z) = n := by
  induction hlength : cs.length using Nat.strongRecOn generalizing cs with
  | ind k ih =>
    subst hlength
    rcases cs with _ | ⟨c, cs⟩
    · exact ⟨0, Nat.le_refl 0, fun _ => rfl⟩
    by_cases hcolons : c = ':' ∧ ∃ r, cs = ':' :: r
    · obtain ⟨rfl, r, rfl⟩ := hcolons
      rcases r with _ | ⟨d, r⟩
      · exact ⟨0, Nat.zero_le _, fun z => by simp [qualifiedTail, hfirst]⟩
      · obtain ⟨n, hn, hr⟩ := ih r.length (by simp; omega) r rfl
        refine ⟨if first d then 3 + n else 0, ?_, fun z => by simp [qualifiedTail, hr]⟩
        simp only [List.length_cons]
        split <;> omega
    · obtain ⟨n, hn, hr⟩ := ih cs.length (by simp) cs rfl
      refine ⟨if isNameChar c then 1 + n else 0, ?_, fun z => ?_⟩
      · simp only [List.length_cons]
        split <;> omega
      · rw [List.cons_append, qualifiedTail, hr]
        intro d r hc hd
        rcases cs with _ | ⟨e, cs⟩
        · cases hd
        · exact hcolons ⟨hc, cs, by rw [(List.cons.inj hd).1]⟩

theorem qualified_bounded (first : Char → Bool) (hfirst : first ']' = false) (cs : List Char) :
    ∃ n ≤ cs.length, ∀ z, qualified first (cs ++ ']' :: z) = n := by
  rcases cs with _ | ⟨c, cs⟩
  · exact ⟨0, Nat.le_refl 0, fun z => by simp [qualified, hfirst]⟩
  by_cases hcolons : c = ':' ∧ ∃ r, cs = ':' :: r
  · obtain ⟨rfl, r, rfl⟩ := hcolons
    rcases r with _ | ⟨d, r⟩
    · exact ⟨0, Nat.zero_le _, fun z => by simp [qualified, hfirst]⟩
    · obtain ⟨n, hn, hr⟩ := qualifiedTail_bounded hfirst r
      refine ⟨if first d then 3 + n else 0, ?_, fun z => by simp [qualified, hr]⟩
      simp only [List.length_cons]
      split <;> omega
  · obtain ⟨n, hn, hr⟩ := qualifiedTail_bounded hfirst cs
    refine ⟨if first c then 1 + n else 0, ?_, fun z => ?_⟩
    · simp only [List.length_cons]
      split <;> omega
    · rw [List.cons_append, qualified, hr]
      intro d r hc hd
      rcases cs with _ | ⟨e, cs⟩
      · cases hd
      · exact hcolons ⟨hc, cs, by rw [(List.cons.inj hd).1]⟩

theorem run_bounded {p : Char → Bool} (hp : p ']' = false) (cs z : List Char) : run p (cs ++ ']' :: z) = run p cs := by
  unfold run
  rw [List.takeWhile_append, List.takeWhile_cons_of_neg (by simp [hp]), List.append_nil]
  split
  · next h => exact h.symm
  · rfl

/-- Where a header ends, or the line, is the same whatever follows. -/
theorem headerTail_bounded {cs : List Char} (h : ')' ∈ cs) (z : List Char) :
    headerTail (cs ++ z) = headerTail cs := by
  have hends : ¬(cs.takeWhile fun c => c != ')' && c != '\n').length = cs.length := by
    intro hlength
    have hall := List.takeWhile_eq_self_iff.mp ((List.takeWhile_prefix _).eq_of_length hlength)
    exact absurd (hall _ h) (by decide)
  have hrun : run (fun c => c != ')' && c != '\n') (cs ++ z) = run (fun c => c != ')' && c != '\n') cs := by
    rw [run, List.takeWhile_append, if_neg hends, run]
  have hle : run (fun c => c != ')' && c != '\n') cs < cs.length :=
    Nat.lt_of_le_of_ne (run_le _ _) hends
  unfold headerTail
  dsimp only
  rw [hrun, List.drop_append_of_le_length (Nat.le_of_lt hle)]
  obtain ⟨d, s, hd⟩ := List.exists_cons_of_ne_nil (List.ne_nil_of_length_pos (by rw [List.length_drop]; omega :
    0 < (cs.drop (run (fun c => c != ')' && c != '\n') cs)).length))
  rw [hd, List.cons_append]
  by_cases hparen : d = ')' <;> simp [hparen]

theorem lexeme?_bounded {cs : List Char} (hhash : cs.head? ≠ some '#')
    (hheader : ∀ inside, cs = '@' :: '(' :: inside → ')' ∈ inside) (z z' : List Char) :
    lexeme? (cs ++ ']' :: z) = lexeme? (cs ++ ']' :: z') := by
  rcases cs with _ | ⟨c, r⟩
  · rfl
  obtain ⟨lower, hle, hlower⟩ := qualified_bounded isLowerStart rfl (c :: r)
  obtain ⟨upper, -, hupper⟩ := qualified_bounded Char.isUpper rfl (c :: r)
  obtain ⟨name, -, hname⟩ := qualified_bounded isLowerStart rfl r
  have hhash : (c == '#') = false := by simpa using hhash
  have hkind : ∀ z, wordKind ((c :: (r ++ ']' :: z)).take lower) ((c :: (r ++ ']' :: z)).drop lower) =
      wordKind ((c :: r).take lower) ((c :: r).drop lower ++ [']']) := by
    intro z
    rw [← List.cons_append, List.take_append_of_le_length hle, List.drop_append_of_le_length hle]
    rcases (c :: r).drop lower with _ | ⟨d, s⟩
    · rfl
    · unfold wordKind
      by_cases hcolon : d = ':' <;> simp [hcolon]
  have hsign : ∀ z, sign? c (r ++ ']' :: z).head? (headerTail (r ++ ']' :: z).tail) =
      sign? c (r ++ [']']).head? (headerTail (r ++ [']']).tail) := by
    intro z
    rcases r with _ | ⟨d, s⟩
    · exact sign?_header (by simp) _ _
    · by_cases hopens : c = '@' ∧ d = '('
      · obtain ⟨rfl, rfl⟩ := hopens
        have hends := hheader s rfl
        simp only [List.cons_append, List.head?_cons, List.tail_cons, headerTail_bounded hends]
      · exact sign?_header (by simpa using hopens) _ _
  simp only [List.cons_append] at hlower hupper
  simp only [List.cons_append, lexeme?_cons, hhash, hlower, hupper, hname, hkind, hsign,
    run_bounded (p := fun c => isNameChar c || c == '.') rfl, Bool.false_eq_true, if_false]

end Bounds

/-! ## Tokens -/

/-- A slash behind a token of this kind begins a regular expression. -/
def beginsRegex : Option TokenKind → Bool
  | none => true
  | some last => !last.endsValue

/-- Kind and width of the token that a lexeme becomes behind a token of kind `last`. Comments and heredocs are none. -/
def Lexeme.token? (last : Option TokenKind) (cs : List Char) (width : Nat) : Lexeme → Option (TokenKind × Nat)
  | .comment | .blockComment | .heredoc => none
  | .quote q =>
    ((Delimiters.quote q (if q == '"' then some '$' else none)).body? (cs.drop width)).map (.string, width + · + 1)
  | .plain .slash =>
    if beginsRegex last then (regexTail? (cs.drop 1)).map (.regex, · + 1) else some (.slash, width)
  | .plain kind => some (kind, width)

/-- Kind and width of the token that the text begins with behind a token of kind `last`, if it begins with one. -/
def token? (last : Option TokenKind) (cs : List Char) : Option (TokenKind × Nat) :=
  if cs.head?.all isGap then none
  else match lexeme? cs with
    | none => some (.unknown, 1)
    | some (l, width) => l.token? last cs width

section Steps

variable {lines : LineIndex} {s s' : Scanner} {r : Reading TokenKind} {last : Option TokenKind} {kind : TokenKind}
  {cs rest : List Char} {l : Lexeme} {n w : Nat}

theorem token?_head (h : token? last cs = some (kind, n)) : ∃ c r, cs = c :: r ∧ isGap c = false := by
  unfold token? at h
  split at h
  · cases h
  · next hgap =>
    rcases cs with _ | ⟨c, r⟩
    · exact absurd rfl hgap
    · exact ⟨c, r, rfl, by simpa using hgap⟩

theorem beginsRegex_eq (r : Reading TokenKind) : beginsRegex r.lastKind? = regexAllowed r := by
  unfold beginsRegex regexAllowed
  cases r.lastKind? <;> rfl

theorem accept_token {gap : Nat} (h : l.token? r.lastKind? cs w = some (kind, n)) :
    accept lines s r gap cs w l = found s r gap cs kind n := by
  unfold Lexeme.token? at h
  split at h
  · cases h
  · cases h
  · cases h
  · obtain ⟨m, hm, heq⟩ := Option.map_eq_some_iff.mp h
    cases heq
    simp only [accept, hm]
  · rw [beginsRegex_eq] at h
    split at h
    · next hregex =>
      obtain ⟨m, hm, heq⟩ := Option.map_eq_some_iff.mp h
      cases heq
      simp only [accept, hregex, hm, if_true]
    · next hregex =>
      cases h
      simp only [accept, if_neg hregex]
  · next hslash =>
    cases h
    unfold accept
    cases kind with
    | slash => exact absurd rfl hslash
    | _ => rfl

/-- The step in front of a token finds it. -/
theorem step_token {gap : List Char} (hgap : Blanks gap) (hs : s.Outside (s.reading.skip gap).offset)
    (h : token? s.reading.lastKind? cs = some (kind, n)) :
    step lines s (gap ++ cs) = found s (s.reading.skip gap) gap.length cs kind n := by
  rw [step_outside hgap (token?_head h) hs]
  unfold token? at h
  split at h
  · cases h
  cases hl : lexeme? cs with
  | none =>
    rw [hl] at h
    cases h
    rfl
  | some lexeme =>
    rw [hl] at h
    exact accept_token (by rwa [lastKind?_skip])

/-- The tokens are those read before, and perhaps the header of a heredoc or what `token?` finds in front of `cs`. -/
def Adds (r : Reading TokenKind) (cs : List Char) (ts : List (Token TokenKind)) : Prop :=
  ts = r.tokens ∨ ∃ t, ts = t :: r.tokens ∧
    (IsHeader t ∨ ∃ kind n, token? r.lastKind? cs = some (kind, n) ∧ n ≤ cs.length ∧ t = r.token kind (cs.take n))

theorem found_adds {gap m : Nat} (hread : token? r.lastKind? cs = some (kind, n)) (hle : n ≤ cs.length)
    (htokens : s.reading.tokens = r.tokens) (h : found s r gap cs kind n = .ok (some (s', m))) :
    Adds r cs s'.reading.tokens := by
  cases h
  exact .inr ⟨_, congrArg _ htokens, .inr ⟨kind, n, hread, hle, rfl⟩⟩

theorem accept_adds {gap m : Nat} (hhead : cs.head?.all isGap = false) (hl : lexeme? cs = some (l, w))
    (htokens : s.reading.tokens = r.tokens) (h : accept lines s r gap cs w l = .ok (some (s', m))) :
    Adds r cs s'.reading.tokens := by
  have hread : token? r.lastKind? cs = l.token? r.lastKind? cs w := by
    rw [token?, hhead, hl]
    rfl
  obtain ⟨hpos, hle, hopens⟩ := lexeme?_fits hl
  unfold accept at h
  split at h
  · cases h
    exact .inl htokens
  · split at h <;> cases h
    exact .inl htokens
  · split at h
    · cases h
    · next hbody =>
      have hlt := body?_lt hbody
      rw [List.length_drop] at hlt
      refine found_adds ?_ (by omega) htokens h
      rw [hread, Lexeme.token?, hbody]
      rfl
  · obtain ⟨inside, below, hcs, -, hw⟩ := hopens
    dsimp only at h
    split at h
    · cases h
    · cases h
    · cases h
      refine .inr ⟨_, congrArg _ htokens, .inl ⟨rfl, ?_⟩⟩
      rw [hcs, hw]
      simp [headerText, Reading.token]
  · split at h
    · next hregex =>
      split at h
      · cases h
      · next hbody =>
        have hlength := regexTail?_le hbody
        rw [List.length_drop] at hlength
        refine found_adds ?_ (by omega) htokens h
        rw [hread, Lexeme.token?, beginsRegex_eq, if_pos hregex, hbody]
        rfl
    · next hregex =>
      refine found_adds ?_ hle htokens h
      rw [hread, Lexeme.token?, beginsRegex_eq, if_neg hregex]
  · next kind hslash =>
    refine found_adds ?_ hle htokens h
    rw [hread]
    unfold Lexeme.token?
    cases kind with
    | slash => exact absurd rfl hslash
    | _ => rfl

theorem step_adds (h : step lines s rest = .ok (some (s', n))) :
    Adds (s.past rest) (rest.drop (gap rest).length) s'.reading.tokens := by
  have htokens : s.reading.tokens = (s.past rest).tokens := (Reading.skip_tokens _ _).symm
  have hpast : s.reading.skip (rest.take (run isGap rest)) = s.past rest := rfl
  have hdrop : rest.drop (run isGap rest) = rest.dropWhile isGap := Ruby.drop_run _ _
  unfold step at h
  dsimp only at h
  rw [hpast, ← gap_length] at h
  rw [← gap_length] at hdrop
  rw [hdrop] at h ⊢
  split at h
  · cases h
  next hne =>
  have hhead : (rest.dropWhile isGap).head?.all isGap = false := by
    have hnot := List.head?_dropWhile_not isGap rest
    cases hcs : (rest.dropWhile isGap).head? with
    | none => exact absurd (List.isEmpty_iff.mpr (List.head?_eq_none_iff.mp hcs)) hne
    | some c =>
      rw [hcs] at hnot
      exact hnot
  have hpos : 1 ≤ (rest.dropWhile isGap).length := List.length_pos_iff.mpr fun hnil => hne (List.isEmpty_iff.mpr hnil)
  split at h
  · split at h
    · cases h
    · cases h
      exact .inl htokens
  · split at h
    · next hl =>
      refine found_adds ?_ hpos htokens h
      rw [token?, hhead, hl]
      rfl
    · next hl => exact accept_adds hhead hl htokens h

theorem regexTail?_bounded {cs x : List Char} {n : Nat} (h : regexTail? (cs ++ x) = some n) (hn : n < cs.length)
    (y : List Char) : regexTail? (cs ++ y) = some n := by
  fun_induction regexTail? cs generalizing n with
  | case1 => simp at hn
  | case2 =>
    rcases x with _ | ⟨e, x⟩
    · cases h
    · obtain ⟨m, -, rfl⟩ := Option.map_eq_some_iff.mp h
      simp at hn
  | case3 e s ih =>
    exact map_within h hn fun _ => ih
  | case4 c r hc hbreak =>
    rw [List.cons_append, regexTail?, if_pos hbreak] at h
    · cases h
    · exact hc
  | case5 c r hc hbreak hslash =>
    rw [List.cons_append, regexTail?, if_neg hbreak, if_pos hslash] at h ⊢
    · exact h
    · exact hc
    · exact hc
  | case6 c r hc hbreak hslash ih =>
    rw [List.cons_append, regexTail?, if_neg hbreak, if_neg hslash] at h ⊢
    · exact map_within h hn fun _ => ih
    · exact hc
    · exact hc

/-- The body of a quoted string and the rest of a regular expression are told in front of the closing bracket. -/
theorem Lexeme.token?_bounded {x y z : List Char} (h : l.token? last (x ++ (y ++ ']' :: z)) w = some (kind, x.length))
    (z' : List Char) : l.token? last (x ++ (y ++ ']' :: z')) w = some (kind, x.length) := by
  unfold Lexeme.token? at h ⊢
  split at h
  · cases h
  · cases h
  · cases h
  · next q =>
    obtain ⟨m, hm, heq⟩ := Option.map_eq_some_iff.mp h
    have hlength : w + m + 1 = x.length := congrArg Prod.snd heq
    have hsigil : (Delimiters.quote q (if q == '"' then some '$' else none)).sigil ≠ some q := by
      dsimp only [Delimiters.quote]
      split
      · next hq =>
        rw [beq_iff_eq.mp hq]
        decide
      · exact Option.some_ne_none q ∘ Eq.symm
    have hw : w ≤ x.length := by omega
    rw [List.drop_append_of_le_length hw] at hm ⊢
    have hbody := Delimiters.bodyFrom_within hm (by rw [List.length_drop]; omega)
    rw [Delimiters.body?, Delimiters.bodyFrom_append hsigil hbody, ← heq]
    rfl
  · split at h
    · next hregex =>
      obtain ⟨m, hm, heq⟩ := Option.map_eq_some_iff.mp h
      have hlength : m + 1 = x.length := congrArg Prod.snd heq
      have hw : 1 ≤ x.length := by omega
      have hsplit : ∀ z, x.drop 1 ++ (y ++ ']' :: z) = (x.drop 1 ++ (y ++ [']'])) ++ z := by simp
      rw [List.drop_append_of_le_length hw, hsplit] at hm
      rw [if_pos hregex, List.drop_append_of_le_length hw, hsplit,
        regexTail?_bounded hm (by simp only [List.length_append, List.length_drop, List.length_singleton]; omega), ← heq]
      rfl
    · next hregex =>
      rw [if_neg hregex, ← h]
  · exact h

/-- What a token is does not depend on the text behind a closing bracket, unless it begins what looks like a header. -/
theorem token?_bounded {x y z : List Char} (h : token? last (x ++ (y ++ ']' :: z)) = some (kind, x.length))
    (hheader : ∀ inside, x ++ y = '@' :: '(' :: inside → ')' ∈ inside) (z' : List Char) :
    token? last (x ++ (y ++ ']' :: z')) = some (kind, x.length) := by
  have hhash : (x ++ y).head? ≠ some '#' := by
    intro hhead
    obtain ⟨r, hr⟩ := List.head?_eq_some_iff.mp hhead
    rw [← List.append_assoc, hr] at h
    cases h
  have hl := lexeme?_bounded hhash hheader z z'
  have hhead : (x ++ (y ++ ']' :: z)).head? = (x ++ (y ++ ']' :: z')).head? := by
    cases x <;> cases y <;> rfl
  unfold token? at h ⊢
  rw [List.append_assoc, List.append_assoc] at hl
  rw [← hl, ← hhead]
  split at h
  · cases h
  next hgap =>
  rw [if_neg hgap]
  split at h
  · exact h
  · exact Lexeme.token?_bounded h z'

end Steps

/-! ## What a scan has read -/

/-- The token stands in the text, and it is what is read there behind a token of kind `last`, or the header of a heredoc. -/
def ReadBehind (text : List Char) (last : Option TokenKind) (t : Token TokenKind) : Prop :=
  IsHeader t ∨ ∃ before after, text = before ++ (t.text.toList ++ after) ∧ t.span.start = byteLength before ∧
    token? last (t.text.toList ++ after) = some (t.kind, t.text.toList.length)

/-- Each of the tokens is read behind the one in front of it, and the first behind one of kind `last`. -/
inductive Lexed (text : List Char) : Option TokenKind → List (Token TokenKind) → Prop
  | nil {last : Option TokenKind} : Lexed text last []
  | cons {last : Option TokenKind} {t : Token TokenKind} {ts : List (Token TokenKind)} :
      ReadBehind text last t → Lexed text (some t.kind) ts → Lexed text last (t :: ts)

/-- The kind of the last token, or `last` if there is none. -/
def kindBehind (last : Option TokenKind) (ts : List (Token TokenKind)) : Option TokenKind :=
  ts.foldl (fun _ t => some t.kind) last

section Lexed

variable {text : List Char} {last : Option TokenKind} {t : Token TokenKind} {ts us : List (Token TokenKind)}

theorem lexed_append : Lexed text last (ts ++ us) ↔ Lexed text last ts ∧ Lexed text (kindBehind last ts) us := by
  induction ts generalizing last with
  | nil => exact ⟨fun h => ⟨.nil, h⟩, fun h => h.2⟩
  | cons t ts ih =>
    constructor
    · intro h
      cases h with
      | cons ht hts => exact ⟨.cons ht (ih.mp hts).1, (ih.mp hts).2⟩
    · intro ⟨h, hus⟩
      cases h with
      | cons ht hts => exact .cons ht (ih.mpr ⟨hts, hus⟩)

theorem Lexed.part (h : Lexed text last ts) (hus : us <:+: ts) : ∃ last', Lexed text last' us := by
  obtain ⟨front, behind, rfl⟩ := hus
  exact ⟨_, (lexed_append.mp (lexed_append.mp h).1).2⟩

theorem Lexed.read (h : Lexed text last ts) (ht : t ∈ ts) : ∃ last', ReadBehind text last' t := by
  obtain ⟨front, behind, rfl⟩ := List.append_of_mem ht
  cases (lexed_append.mp h).2 with
  | cons hread _ => exact ⟨_, hread⟩

theorem kindBehind_reverse (r : Reading TokenKind) : kindBehind none r.tokens.reverse = r.lastKind? := by
  rw [kindBehind, List.foldl_reverse, Reading.lastKind?]
  cases r.tokens <;> rfl

variable {lines : LineIndex} {s s' : Scanner} {before rest : List Char} {n : Nat}

theorem Scanner.Reached.lexed (h : s.Reached before rest) (hlexed : Lexed (before ++ rest) none s.reading.tokens.reverse)
    (hstep : step lines s rest = .ok (some (s', n))) : Lexed (before ++ rest) none s'.reading.tokens.reverse := by
  have htokens : (s.past rest).tokens = s.reading.tokens := Reading.skip_tokens _ _
  rcases step_adds hstep with heq | ⟨t, heq, hread⟩
  · rw [heq, htokens]
    exact hlexed
  rw [heq, htokens, List.reverse_cons]
  refine lexed_append.mpr ⟨hlexed, .cons ?_ .nil⟩
  rcases hread with hheader | ⟨kind, w, htoken, hle, rfl⟩
  · exact .inl hheader
  have hrest : rest = gap rest ++ rest.drop (gap rest).length := by
    conv_lhs => rw [← List.take_append_drop (gap rest).length rest]
    rw [gap_length]
    rfl
  generalize rest.drop (gap rest).length = cs at htoken hle hrest ⊢
  refine .inr ⟨before ++ gap rest, cs.drop w, ?_, ?_, ?_⟩
  · conv_lhs => rw [hrest]
    simp [Reading.token]
  · rw [Reading.token, h.past_offset]
  · have hlength : (cs.take w).length = w := List.length_take_of_le hle
    rw [kindBehind_reverse, ← lastKind?_skip s.reading (gap rest)]
    simpa [Reading.token, hlength, Scanner.past] using htoken

/-- Every token that a walk adds is read behind the one in front of it. -/
theorem walk_lexed (h : s.Reached before rest) (hlexed : Lexed (before ++ rest) none s.reading.tokens.reverse)
    (hwalk : walk lines rest 0 s = .ok s') : Lexed (before ++ rest) none s'.reading.tokens.reverse := by
  induction hlength : rest.length using Nat.strongRecOn generalizing rest before s with
  | ind k ih =>
    subst hlength
    rcases rest with _ | ⟨c, rest⟩
    · cases hwalk
      exact hlexed
    cases hstep : step lines s (c :: rest) with
    | error e => simp [walk, hstep] at hwalk
    | ok found? =>
      rcases found? with _ | ⟨t, n⟩
      · simp only [walk, hstep, Except.ok.injEq] at hwalk
        rw [← hwalk]
        exact hlexed
      · have hf := step_found hstep
        obtain ⟨hpos, hle⟩ := hf.width
        have htext : before ++ (c :: rest) = before ++ (c :: rest).take n ++ (c :: rest).drop n := by
          rw [List.append_assoc, List.take_append_drop]
        rw [walk_next (by simp) hpos hle hstep] at hwalk
        have hnext := h.lexed hlexed hstep
        rw [htext] at hnext ⊢
        refine ih _ ?_ (h.found hf) ?_ hwalk rfl
        · rw [List.length_drop]
          omega
        · rw [Scanner.pass_reading, Reading.skip_tokens]
          exact hnext

theorem scan_lexed {found : Scanned TokenKind} (h : scan text = .ok found) : Lexed text none found.tokens := by
  unfold scan at h
  split at h
  · cases h
  next s hwalk =>
  cases h
  exact walk_lexed (.start text) .nil hwalk

end Lexed

/-! ## Names that have been read -/

section Names

variable {first : Char → Bool} {c : Char} {cs : List Char} {last : Option TokenKind} {kind : TokenKind} {n w : Nat}

theorem Outline.IsQualified.cons (h : IsQualified first (c :: cs)) {d : Char} (hd : isNameChar d = true) :
    IsQualified first (c :: d :: cs) := by
  generalize hall : c :: cs = all at h
  cases h with
  | part hc hbody =>
    obtain ⟨rfl, rfl⟩ := List.cons.inj hall
    exact .part hc (List.forall_mem_cons.mpr ⟨hd, hbody⟩)
  | member hc hbody hpath =>
    obtain ⟨rfl, rfl⟩ := List.cons.inj hall
    exact .member hc (List.forall_mem_cons.mpr ⟨hd, hbody⟩) hpath

theorem qualifiedTail_reads (hc : first c = true) (cs : List Char) :
    IsQualified first (c :: cs.take (qualifiedTail first cs)) := by
  fun_induction qualifiedTail first cs generalizing c with
  | case1 d r hd ih =>
    rw [show 3 + qualifiedTail first r = qualifiedTail first r + 1 + 1 + 1 by omega]
    exact .member hc (List.forall_mem_nil _) (ih hd)
  | case2 d r hd => exact .part hc (List.forall_mem_nil _)
  | case3 d r hcolon hd ih =>
    rw [Nat.add_comm 1, List.take_succ_cons]
    exact (ih hc).cons hd
  | case4 d r hcolon hd => exact .part hc (List.forall_mem_nil _)
  | case5 => exact .part hc (List.forall_mem_nil _)

theorem qualified_reads (h : qualified first cs ≠ 0) : IsReference first (cs.take (qualified first cs)) := by
  fun_cases qualified first cs with
  | case1 c r hc =>
    rw [show 3 + qualifiedTail first r = qualifiedTail first r + 1 + 1 + 1 by omega]
    exact .inr ⟨_, rfl, qualifiedTail_reads hc r⟩
  | case2 c r hc => simp [qualified, hc] at h
  | case3 c r hcolon hc =>
    rw [Nat.add_comm 1, List.take_succ_cons]
    exact .inl (qualifiedTail_reads hc r)
  | case4 c r hcolon hc =>
    rw [qualified, if_neg hc] at h
    · exact absurd rfl h
    · exact hcolon
  | case5 => exact absurd rfl h

/-- The kind belongs to names, type names or variables. -/
def TokenKind.isWord : TokenKind → Bool
  | .name | .typeName | .variable => true
  | _ => false

theorem sign?_kind {next : Option Char} {header : Nat} (h : sign? c next header = some (.plain kind, w)) :
    kind.isWord = false := by
  unfold sign? at h
  split at h
  case h_3 => split at h <;> cases h
  case h_9 =>
    split at h
    · next hbracket =>
      cases h
      unfold bracket? at hbracket
      split at hbracket <;> cases hbracket <;> rfl
    · split at h <;> cases h
      rfl
  all_goals cases h <;> rfl

theorem wordKind_word (cs r : List Char) : wordKind cs r = .name ∨ (wordKind cs r).isWord = false := by
  unfold wordKind keyword?
  split
  · exact .inl rfl
  · split <;> first | exact .inl rfl | exact .inr rfl

/-- What a token of kind `kind` is made of, if it is a name, a type name or a variable. -/
def Worded (kind : TokenKind) (cs : List Char) : Prop :=
  match kind with
  | .name => IsReference isLowerStart cs
  | .typeName => IsReference Char.isUpper cs
  | .variable => ∃ name, cs = '$' :: name ∧ IsReference isLowerStart name
  | _ => True

theorem worded_other (h : kind.isWord = false) (cs : List Char) : Worded kind cs := by
  cases kind <;> trivial

theorem lexeme?_worded (h : lexeme? cs = some (.plain kind, w)) : Worded kind (cs.take w) := by
  rcases cs with _ | ⟨c, r⟩
  · cases h
  rw [lexeme?_cons] at h
  split at h
  · cases h
  split at h
  · next hlower =>
    obtain ⟨hkind, rfl⟩ := Prod.mk.inj (Option.some.inj h)
    obtain rfl := Lexeme.plain.inj hkind
    rcases wordKind_word ((c :: r).take (qualified isLowerStart (c :: r)))
      ((c :: r).drop (qualified isLowerStart (c :: r))) with hname | hother
    · rw [hname]
      exact qualified_reads hlower
    · exact worded_other hother _
  split at h
  · next hupper =>
    cases h
    exact qualified_reads hupper
  split at h
  · cases h
    trivial
  split at h
  · next hc =>
    split at h
    · next hname =>
      cases h
      refine ⟨_, ?_, qualified_reads hname⟩
      rw [Nat.add_comm 1, List.take_succ_cons, beq_iff_eq.mp hc]
    · cases h
  split at h
  · cases h
  · exact worded_other (sign?_kind h) _

theorem token?_worded (h : token? last cs = some (kind, n)) : Worded kind (cs.take n) := by
  unfold token? at h
  split at h
  · cases h
  split at h
  · cases h
    trivial
  next l w hl =>
  unfold Lexeme.token? at h
  split at h
  · cases h
  · cases h
  · cases h
  · obtain ⟨m, -, heq⟩ := Option.map_eq_some_iff.mp h
    cases heq
    trivial
  · split at h
    · obtain ⟨m, -, heq⟩ := Option.map_eq_some_iff.mp h
      cases heq
      trivial
    · cases h
      trivial
  · cases h
    exact lexeme?_worded hl

/-- Names, type names and variables of a manifest are what their kinds say. -/
theorem scan_worded {text : List Char} {found : Scanned TokenKind} (h : scan text = .ok found) :
    ∀ t ∈ found.tokens, Worded t.kind t.text.toList := by
  intro t ht
  obtain ⟨last, hheader | ⟨before, after, -, -, htoken⟩⟩ := (scan_lexed h).read ht
  · rw [hheader.1]
    trivial
  · have hworded := token?_worded htoken
    rwa [List.take_left] at hworded

end Names

end PuppetDocs.Manifest
