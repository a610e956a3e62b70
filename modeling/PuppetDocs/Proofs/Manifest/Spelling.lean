import PuppetDocs.Proofs.Manifest.Tokens

/-
  PuppetDocs.Proofs.Manifest.Spelling — tokens that can be written in one way only.

  Keywords, brackets and signs are their own kinds, so a token of such a kind has the text that
  belongs to the kind (`scan_spelled_kinds`). All other kinds are written in many ways, and nothing
  is said of them.
-/

namespace PuppetDocs.Manifest

open Text (run)

/-- The text of every token of the kind, if there is only one. -/
def TokenKind.spelling? : TokenKind → Option String
  | .classKw => some "class"
  | .defineKw => some "define"
  | .functionKw => some "function"
  | .typeKw => some "type"
  | .planKw => some "plan"
  | .inheritsKw => some "inherits"
  | .lbrace => some "\x7b"
  | .rbrace => some "\x7d"
  | .lparen => some "("
  | .rparen => some ")"
  | .lbracket => some "["
  | .rbracket => some "]"
  | .comma => some ","
  | .assign => some "="
  | .fatArrow => some "=>"
  | .returnArrow => some ">>"
  | .star => some "*"
  | .slash => some "/"
  | _ => none

/-- The token is written as its kind has to be. -/
def IsSpelled (t : Token TokenKind) : Prop := ∀ x, t.kind.spelling? = some x → t.text = x

theorem keyword?_spelling {w : List Char} {kind : TokenKind} (h : keyword? w = some kind) :
    kind.spelling? = some (String.ofList w) := by
  unfold keyword? at h
  split at h <;> cases h <;> next heq => rw [heq]; rfl

theorem wordKind_spelling {w rest : List Char} {x : String} (h : (wordKind w rest).spelling? = some x) :
    String.ofList w = x := by
  unfold wordKind at h
  split at h
  · cases h
  · cases hk : keyword? w with
    | none =>
      rw [hk] at h
      cases h
    | some kind =>
      rw [hk, Option.getD_some, keyword?_spelling hk] at h
      exact Option.some.inj h

theorem bracket?_spelling {c : Char} {kind : TokenKind} (h : bracket? c = some kind) :
    kind.spelling? = some (String.ofList [c]) := by
  unfold bracket? at h
  split at h <;> cases h <;> rfl

theorem lexeme?_spelling {cs : List Char} {kind : TokenKind} {w : Nat} {x : String}
    (h : lexeme? cs = some (.plain kind, w)) (hx : kind.spelling? = some x) : String.ofList (cs.take w) = x := by
  rcases cs with _ | ⟨c, r⟩
  · cases h
  unfold lexeme? at h
  dsimp only at h
  split at h
  · cases h
  split at h
  · cases h
    exact wordKind_spelling hx
  split at h
  · cases h
    cases hx
  split at h
  · cases h
    cases hx
  split at h
  · split at h
    · cases h
      cases hx
    · cases h
  split at h
  · cases h
  split at h
  · cases h
  · cases h
    exact Option.some.inj hx
  · split at h <;> cases h
  · cases h
    exact Option.some.inj hx
  · cases h
    exact Option.some.inj hx
  · cases h
    exact Option.some.inj hx
  · cases h
    exact Option.some.inj hx
  · cases h
    exact Option.some.inj hx
  · split at h
    · next hbracket =>
      cases h
      rw [bracket?_spelling hbracket] at hx
      exact Option.some.inj hx
    · split at h
      · cases h
        cases hx
      · cases h

section Steps

variable {lines : LineIndex} {s s' : Scanner} {r : Reading TokenKind} {rest cs : List Char} {gap n w : Nat}

theorem found_spelled {kind : TokenKind} (hs : ∀ t ∈ s.reading.tokens, IsSpelled t)
    (hkind : ∀ x, kind.spelling? = some x → String.ofList (cs.take w) = x)
    (h : found s r gap cs kind w = .ok (some (s', n))) : ∀ t ∈ s'.reading.tokens, IsSpelled t := by
  cases h
  exact List.forall_mem_cons.mpr ⟨hkind, hs⟩

theorem accept_spelled {l : Lexeme} (hs : ∀ t ∈ s.reading.tokens, IsSpelled t) (hl : lexeme? cs = some (l, w))
    (h : accept lines s r gap cs w l = .ok (some (s', n))) : ∀ t ∈ s'.reading.tokens, IsSpelled t := by
  unfold accept at h
  split at h
  · cases h
    exact hs
  · split at h <;> cases h
    exact hs
  · split at h
    · cases h
    · exact found_spelled hs (by nofun) h
  · dsimp only at h
    split at h
    · cases h
    · cases h
    · refine found_spelled ?_ (by nofun) h
      exact hs
  · split at h
    · split at h
      · cases h
      · exact found_spelled hs (by nofun) h
    · exact found_spelled hs (fun _ => lexeme?_spelling hl) h
  · exact found_spelled hs (fun _ => lexeme?_spelling hl) h

theorem step_spelled (hs : ∀ t ∈ s.reading.tokens, IsSpelled t) (h : step lines s rest = .ok (some (s', n))) :
    ∀ t ∈ s'.reading.tokens, IsSpelled t := by
  unfold step at h
  dsimp only at h
  split at h
  · cases h
  split at h
  · split at h <;> cases h
    exact hs
  · split at h
    · exact found_spelled hs (by nofun) h
    · next hl => exact accept_spelled hs hl h

theorem walk_spelled (hs : ∀ t ∈ s.reading.tokens, IsSpelled t) (h : walk lines rest n s = .ok s') :
    ∀ t ∈ s'.reading.tokens, IsSpelled t := by
  fun_induction walk lines rest n s with
  | case1 => cases h; exact hs
  | case2 _ _ _ _ ih => exact ih hs h
  | case3 => cases h
  | case4 => cases h; exact hs
  | case5 _ _ _ _ _ hstep ih => exact ih (fun t ht => step_spelled hs hstep t ht) h

end Steps

/-- Every token of a manifest whose kind is written in one way only is written so. -/
theorem scan_spelled_kinds {text : List Char} {found : Scanned TokenKind} (h : scan text = .ok found) :
    ∀ t ∈ found.tokens, IsSpelled t := by
  unfold scan at h
  split at h
  · cases h
  next s hwalk =>
  cases h
  exact fun t ht => walk_spelled (List.forall_mem_nil _) hwalk t (List.mem_reverse.mp ht)

end PuppetDocs.Manifest
