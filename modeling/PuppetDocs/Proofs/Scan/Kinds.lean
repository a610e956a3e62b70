import PuppetDocs.Proofs.Scan.Step

/-
  PuppetDocs.Proofs.Scan.Kinds — the kinds of the tokens of a text.

  The token at the end of a text is made when the scan is over, so that none of those found
  before is of its kind: no lexeme is (`told_lexeme`), no literal becomes one, and the bodies
  of heredocs only turn tokens into strings. A token that is a symbol starts with its colon.
  Every step keeps both (`step_told`), and so does a whole scan (`scan_told`).
-/

namespace PuppetDocs.Ruby

/-- The text `cs` may be a token of this kind. -/
structure Told (kind : TokenKind) (cs : List Char) : Prop where
  inner : kind ≠ .eof
  symbol : kind = .symbol → ∃ r, cs = ':' :: r

def AllTold (tokens : List (Token TokenKind)) : Prop := ∀ t ∈ tokens, Told t.kind t.text.toList

/-- None of the tokens marks the end of a text. -/
def Inner (tokens : List (Token TokenKind)) : Prop := ∀ t ∈ tokens, t.kind ≠ .eof

/-- For most kinds any text will do. -/
theorem told_of_ne {kind : TokenKind} {cs : List Char} (hend : kind ≠ .eof) (hsymbol : kind ≠ .symbol) : Told kind cs :=
  ⟨hend, fun h => absurd h hsymbol⟩

theorem told_symbol {r : List Char} {width : Nat} (hw : 0 < width) : Told .symbol ((':' :: r).take width) := by
  obtain ⟨w, rfl⟩ := Nat.exists_eq_succ_of_ne_zero (Nat.ne_of_gt hw)
  exact ⟨nofun, fun _ => ⟨r.take w, rfl⟩⟩

theorem AllTold.cons {t : Token TokenKind} {tokens : List (Token TokenKind)} (ht : Told t.kind t.text.toList)
    (h : AllTold tokens) : AllTold (t :: tokens) :=
  List.forall_mem_cons.mpr ⟨ht, h⟩

/-! ## Lexemes -/

/-- A lexeme, if there is one, is not the end of the text, and is a symbol only behind a colon. -/
def TellsKind (cs : List Char) (found : Option (Lexeme × Nat)) : Prop :=
  ∀ l w, found = some (l, w) → l ≠ .plain .eof ∧ (l = .plain .symbol → 0 < w ∧ ∃ r, cs = ':' :: r)

section Lexemes

variable {cs : List Char} {found found' : Option (Lexeme × Nat)} {l : Lexeme} {w : Nat}

theorem TellsKind.none : TellsKind cs none := nofun

theorem TellsKind.some (hend : l ≠ .plain .eof) (hsymbol : l ≠ .plain .symbol) : TellsKind cs (some (l, w)) := by
  intro _ _ h
  cases h
  exact ⟨hend, fun h => absurd h hsymbol⟩

theorem TellsKind.symbol {r : List Char} {n : Nat} : TellsKind (':' :: r) (Option.some (.plain .symbol, 1 + n)) := by
  intro _ _ h
  cases h
  exact ⟨nofun, fun _ => ⟨by omega, r, rfl⟩⟩

theorem TellsKind.ite {c : Prop} [Decidable c] (h : TellsKind cs found) (h' : TellsKind cs found') :
    TellsKind cs (if c then found else found') := by
  split
  · exact h
  · exact h'

end Lexemes

theorem told_punctuation (cs : List Char) : TellsKind cs (punctuation? cs) := by
  have hkinds : ∀ e ∈ punctuation, e.2 ≠ .eof ∧ e.2 ≠ .symbol := by decide
  intro l w h
  obtain ⟨⟨s, k⟩, hfind, he⟩ := Option.map_eq_some_iff.mp h
  obtain ⟨rfl, rfl⟩ := Prod.mk.inj he
  obtain ⟨hend, hsymbol⟩ : k ≠ .eof ∧ k ≠ .symbol := hkinds _ (List.mem_of_find?_eq_some hfind)
  exact ⟨by simpa using hend, fun h => absurd (Lexeme.plain.inj h) hsymbol⟩

section Shared

variable {cs : List Char} {c : Char} {r : List Char}

theorem told_at : TellsKind cs (atLexeme? r) := by
  unfold atLexeme?
  split <;> exact .ite .none (.some nofun nofun)

theorem told_dollar : TellsKind cs (dollarLexeme? r) := by
  unfold dollarLexeme?
  refine .ite (.some nofun nofun) ?_
  split
  · exact .ite (.some nofun nofun) .none
  · exact .none

theorem told_colon (hc : c = ':') : TellsKind (c :: r) (colonLexeme? c r) := by
  unfold colonLexeme?
  split
  · exact .some nofun nofun
  · exact .some nofun nofun
  · subst hc
    exact .ite (told_punctuation _) .symbol

theorem told_percent : TellsKind (c :: r) (percentLexeme? c r) :=
  .ite (told_punctuation _) (.some nofun nofun)

theorem told_angle : TellsKind (c :: r) (angleLexeme? c r) := by
  unfold angleLexeme?
  split
  · refine .ite (.some nofun nofun) (.ite .none ?_)
    split
    · exact .some nofun nofun
    · exact .some nofun nofun
    · exact .some nofun nofun
    · exact .some nofun nofun
    · exact told_punctuation _
  · exact told_punctuation _

end Shared

theorem told_lexeme (cs : List Char) : TellsKind cs (lexeme? cs) := by
  rcases cs with _ | ⟨c, r⟩
  · exact .none
  have hplain : ∀ (l : Lexeme) (w : Nat), l ≠ .plain .eof → l ≠ .plain .symbol → TellsKind (c :: r) (some (l, w)) :=
    fun _ _ hend hsymbol => .some hend hsymbol
  rw [lexeme?_cons]
  refine .ite (hplain _ _ nofun nofun) (.ite (hplain _ _ nofun nofun) (.ite (hplain _ _ nofun nofun) ?_))
  refine .ite (hplain _ _ nofun nofun) (.ite (hplain _ _ nofun nofun) (.ite (hplain _ _ nofun nofun) ?_))
  refine .ite (hplain _ _ nofun nofun) (.ite (hplain _ _ nofun nofun) (.ite told_at (.ite told_dollar ?_)))
  by_cases hcolon : (c == ':') = true
  · rw [if_pos hcolon]
    exact told_colon (eq_of_beq hcolon)
  · rw [if_neg hcolon]
    exact .ite told_percent (.ite told_angle (told_punctuation _))

/-! ## Steps -/

section Steps

variable {lines : LineIndex} {s s' : Scanner} {r : Reading TokenKind} {gap n width : Nat} {cs rest : List Char}
  {kind : TokenKind}

theorem found_told (h : found s r gap cs kind width = .ok (some (s', n))) (hkind : Told kind (cs.take width))
    (hs : AllTold s.reading.tokens) : AllTold s'.reading.tokens := by
  cases h
  exact hs.cons (by simpa [Reading.token] using hkind)

/-- A token of a kind that any text may have. -/
theorem found_any (h : found s r gap cs kind width = .ok (some (s', n))) (hend : kind ≠ .eof) (hsymbol : kind ≠ .symbol)
    (hs : AllTold s.reading.tokens) : AllTold s'.reading.tokens :=
  found_told h (told_of_ne hend hsymbol) hs

theorem literal_told {d : Delimiters} {flags : Bool} {kind : StrLit → TokenKind}
    (h : literal lines s r gap cs width d flags kind = .ok (some (s', n))) (hend : ∀ v, kind v ≠ .eof)
    (hsymbol : ∀ v, kind v ≠ .symbol) (hs : AllTold s.reading.tokens) : AllTold s'.reading.tokens := by
  unfold literal at h
  dsimp only at h
  split at h
  · cases h
  · exact found_any h (hend _) (hsymbol _) hs

theorem percentLiteral_told (h : percentLiteral lines s r gap cs width = .ok (some (s', n)))
    (hs : AllTold s.reading.tokens) : AllTold s'.reading.tokens := by
  unfold percentLiteral at h
  dsimp only at h
  split at h <;> exact literal_told h (fun _ => nofun) (fun _ => nofun) hs

theorem readBodies_told {tokens tokens' : List (Token TokenKind)} {ps : List Pending} {ls after : List (List Char)}
    (h : readBodies lines tokens ps ls = .ok (tokens', after)) (hs : AllTold tokens) : AllTold tokens' := by
  induction ps generalizing tokens ls with
  | nil =>
    cases h
    exact hs
  | cons p ps ih =>
    unfold readBodies at h
    split at h
    · cases h
    split at h
    · cases h
    · refine ih h fun t ht => ?_
      obtain ⟨u, hu, rfl⟩ := List.mem_map.mp ht
      split
      · exact told_of_ne (by simp) (by simp)
      · exact hs u hu

theorem newline_told (h : newline lines s r gap cs = .ok (some (s', n))) (hs : AllTold s.reading.tokens) :
    AllTold s'.reading.tokens := by
  unfold newline at h
  split at h
  · exact found_any h nofun nofun hs
  · dsimp only at h
    split at h
    · cases h
    · next tokens after hbodies =>
      cases h
      exact readBodies_told hbodies (hs.cons (told_of_ne nofun nofun))

theorem accept_told {l : Lexeme} (h : accept lines s r gap cs width l = .ok (some (s', n)))
    (hl : lexeme? cs = some (l, width)) (hs : AllTold s.reading.tokens) : AllTold s'.reading.tokens := by
  obtain ⟨hend, hsymbol⟩ := told_lexeme cs l width hl
  unfold accept at h
  split at h
  · cases h
    exact hs
  · split at h
    · exact found_any h nofun nofun hs
    · split at h <;> exact found_any h nofun nofun hs
  · exact literal_told h (fun _ => nofun) (fun _ => nofun) hs
  · exact literal_told h (fun _ => nofun) (fun _ => nofun) hs
  · exact literal_told h (fun _ => nofun) (fun _ => nofun) hs
  · exact literal_told h (fun _ => nofun) (fun _ => nofun) hs
  · split at h
    · exact percentLiteral_told h hs
    · exact found_any h nofun nofun hs
  · split at h
    · exact found_any h nofun nofun hs
    · exact found_any h nofun nofun hs
  · exact newline_told h hs
  · split at h <;> exact found_any h nofun nofun hs
  · -- The colon of a symbol stays when the symbol takes in a `=`.
    obtain ⟨hpos, x, rfl⟩ := hsymbol rfl
    split at h
    · exact found_told h (told_symbol (Nat.succ_pos _)) hs
    · exact found_told h (told_symbol hpos) hs
  · split at h
    · split at h
      · cases h
      · exact found_any h nofun nofun hs
    · exact found_any h nofun nofun hs
  · next hplain _ => exact found_any h (fun he => hend (by rw [he])) hplain hs

theorem step_told (h : step lines s rest = .ok (some (s', n))) (hs : AllTold s.reading.tokens) :
    AllTold s'.reading.tokens := by
  unfold step at h
  split at h
  · split at h
    · cases h
      exact hs
    · cases h
  split at h
  · cases h
  dsimp only at h
  generalize rest.drop (blanks rest) = cs at h
  split at h
  · cases h
  split at h
  · exact found_any h nofun nofun hs
  · next hl => exact accept_told h hl hs

end Steps

theorem Run.told {lines : LineIndex} {s s' : Scanner} {rest rest' : List Char} (h : Run lines s rest s' rest')
    (hs : AllTold s.reading.tokens) : AllTold s'.reading.tokens := by
  induction h with
  | here => exact hs
  | next _ hstep _ ih => exact ih (by simpa using step_told hstep hs)

theorem scan_told {text : List Char} {found : Scanned TokenKind} (h : scan text = .ok found) : AllTold found.tokens := by
  unfold scan at h
  dsimp only at h
  split at h
  · cases h
  next s hwalk =>
  split at h
  · cases h
  · cases h
    obtain ⟨rest, hrun, -⟩ := walk_run hwalk
    exact fun t ht => hrun.told nofun t (List.mem_reverse.mp ht)

/-- No token of a text marks its end. -/
theorem scan_inner {text : List Char} {found : Scanned TokenKind} (h : scan text = .ok found) : Inner found.tokens :=
  fun t ht => (scan_told h t ht).inner

end PuppetDocs.Ruby
