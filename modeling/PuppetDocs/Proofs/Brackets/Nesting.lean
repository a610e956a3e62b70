import PuppetDocs.Source.Token

/-
  PuppetDocs.Proofs.Brackets.Nesting — brackets that close each other.

  `nest` goes through tokens with the brackets that are open, the latest first: a closing bracket
  has to be of the kind opened last. Tokens are nested if they close what they open and nothing
  else, and then they may stand anywhere (`Nested.nest`).

  A reader that does not look at every token may pass over a bracket. `Spares Lax` leaves out
  some tokens in the places `Lax`, each told by the tokens in front of it; where no bracket
  stands in such a place, nothing is lost with them (`Spares.nest_eq`).
-/

namespace PuppetDocs

inductive Bracket where
  | round | square | curly
  deriving DecidableEq, Repr

/-- What a token does to the brackets that are open. -/
inductive Side where
  | opens (b : Bracket)
  | closes (b : Bracket)
  | plain
  deriving DecidableEq, Repr

/-- Kinds of tokens some of which are brackets. -/
class Bracketed (κ : Type) where
  side : κ → Side

section Nest

variable {κ : Type} [Bracketed κ]

def Token.side (t : Token κ) : Side := Bracketed.side t.kind

/-- The brackets open behind the tokens, or nothing if one of them closes what is not open. -/
def nest : List Bracket → List (Token κ) → Option (List Bracket)
  | open_, [] => some open_
  | open_, t :: ts =>
    match t.side with
    | .plain => nest open_ ts
    | .opens b => nest (b :: open_) ts
    | .closes b =>
      match open_ with
      | [] => none
      | last :: outer => if last = b then nest outer ts else none

/-- Each closing bracket closes the latest open one of its kind, and none is left open. -/
def Nested (ts : List (Token κ)) : Prop := nest [] ts = some []

variable {open_ open' outer : List Bracket} {t : Token κ} {ts us : List (Token κ)} {b : Bracket}

@[simp] theorem nest_nil : nest open_ ([] : List (Token κ)) = some open_ := rfl

theorem nest_cons (open_ : List Bracket) (t : Token κ) (ts : List (Token κ)) :
    nest open_ (t :: ts) = match t.side with
      | .plain => nest open_ ts
      | .opens b => nest (b :: open_) ts
      | .closes b =>
        match open_ with
        | [] => none
        | last :: outer => if last = b then nest outer ts else none := rfl

theorem nest_plain (h : t.side = .plain) : nest open_ (t :: ts) = nest open_ ts := by
  simp [nest, h]

theorem nest_opens (h : t.side = .opens b) : nest open_ (t :: ts) = nest (b :: open_) ts := by
  simp [nest, h]

theorem nest_closes (h : t.side = .closes b) : nest (b :: open_) (t :: ts) = nest open_ ts := by
  simp [nest, h]

theorem nest_append (open_ : List Bracket) (ts us : List (Token κ)) :
    nest open_ (ts ++ us) = (nest open_ ts).bind fun open' => nest open' us := by
  induction ts generalizing open_ with
  | nil => rfl
  | cons t ts ih =>
    rw [List.cons_append, nest_cons, nest_cons]
    split
    · exact ih _
    · exact ih _
    · split
      · rfl
      · split
        · exact ih _
        · rfl

/-- Brackets further out change nothing. -/
theorem nest_outer (h : nest open_ ts = some open') (outer : List Bracket) :
    nest (open_ ++ outer) ts = some (open' ++ outer) := by
  induction ts generalizing open_ with
  | nil =>
    cases h
    rfl
  | cons t ts ih =>
    rw [nest_cons] at h ⊢
    split at h
    · exact ih h
    · exact ih h
    · next b _ =>
      cases open_ with
      | nil => cases h
      | cons last open_ =>
        dsimp only [List.cons_append] at h ⊢
        split at h
        · next hlast => rw [if_pos hlast]; exact ih h
        · cases h

/-- Only the kinds of the tokens matter. -/
theorem nest_congr (h : ts.map Token.kind = us.map Token.kind) (open_ : List Bracket) : nest open_ ts = nest open_ us := by
  induction ts generalizing us open_ with
  | nil => rw [List.map_eq_nil_iff.mp h.symm]
  | cons t ts ih =>
    cases us with
    | nil => cases h
    | cons u us =>
      obtain ⟨hkind, hkinds⟩ := List.cons.inj h
      have hside : t.side = u.side := congrArg Bracketed.side hkind
      simp only [nest_cons, hside, ih hkinds]

/-- A bracket that is open in front of the tokens and not behind them is closed by one of them. -/
theorem exists_closes (h : nest open_ ts = some []) (hb : b ∈ open_) : ∃ t ∈ ts, t.side = .closes b := by
  have hlater : ∀ {t : Token κ} {ts : List (Token κ)}, (∃ u ∈ ts, u.side = .closes b) → ∃ u ∈ t :: ts, u.side = .closes b :=
    fun ⟨u, hu, hside⟩ => ⟨u, List.mem_cons_of_mem _ hu, hside⟩
  induction ts generalizing open_ with
  | nil =>
    cases h
    cases hb
  | cons t ts ih =>
    rw [nest_cons] at h
    split at h
    · exact hlater (ih h hb)
    · exact hlater (ih h (List.mem_cons_of_mem _ hb))
    · next b' hside =>
      cases open_ with
      | nil => cases hb
      | cons last outer =>
        dsimp only at h
        split at h
        · next hlast =>
          rcases List.mem_cons.mp hb with rfl | hb
          · exact ⟨t, List.mem_cons_self, hlast ▸ hside⟩
          · exact hlater (ih h hb)
        · cases h

namespace Nested

variable {t u : Token κ} {ts us : List (Token κ)} {b : Bracket}

theorem nil : Nested ([] : List (Token κ)) := rfl

theorem nest (h : Nested ts) (open_ : List Bracket) : nest open_ ts = some open_ := by
  simpa using nest_outer h open_

theorem append (h : Nested ts) (k : Nested us) : Nested (ts ++ us) := by
  rw [Nested, nest_append, h]
  exact k

theorem single (h : t.side = .plain) : Nested [t] := nest_plain h

/-- A closing bracket behind nested tokens closes the one in front of them. -/
theorem group (ht : t.side = .opens b) (h : Nested ts) (hu : u.side = .closes b) : Nested (t :: ts ++ [u]) := by
  rw [List.cons_append, Nested, nest_opens ht, nest_append, h.nest]
  exact nest_closes hu

end Nested

end Nest

/-! ## Brackets that do not count -/

/-- The second tokens are the first, which stand behind `before`, without some in places that are `Lax`. -/
inductive Spares {κ : Type} (Lax : List (Token κ) → Token κ → Prop) :
    List (Token κ) → List (Token κ) → List (Token κ) → Prop
  | nil (before : List (Token κ)) : Spares Lax before [] []
  | keep {before ts kept : List (Token κ)} {t : Token κ} :
      Spares Lax (before ++ [t]) ts kept → Spares Lax before (t :: ts) (t :: kept)
  | spare {before ts kept : List (Token κ)} {t : Token κ} :
      Lax before t → Spares Lax (before ++ [t]) ts kept → Spares Lax before (t :: ts) kept

namespace Spares

variable {κ : Type} {Lax : List (Token κ) → Token κ → Prop} {before ts us kept kept' : List (Token κ)}

theorem refl (before ts : List (Token κ)) : Spares Lax before ts ts := by
  induction ts generalizing before with
  | nil => exact .nil before
  | cons t ts ih => exact .keep (ih _)

theorem append (h : Spares Lax before ts kept) (k : Spares Lax (before ++ ts) us kept') :
    Spares Lax before (ts ++ us) (kept ++ kept') := by
  induction h with
  | nil => simpa using k
  | keep _ ih => exact .keep (ih (by simpa using k))
  | spare hlax _ ih => exact .spare hlax (ih (by simpa using k))

/-- Where no bracket stands in a lax place, no bracket is left out. -/
theorem nest_eq [Bracketed κ] (h : Spares Lax before ts kept)
    (hlax : ∀ front t behind, ts = front ++ t :: behind → Lax (before ++ front) t → t.side = .plain)
    (open_ : List Bracket) : nest open_ kept = nest open_ ts := by
  induction h generalizing open_ with
  | nil => rfl
  | @keep before ts kept t _ ih =>
    have hrest := ih fun front u behind hts hu => hlax (t :: front) u behind (by rw [hts]; rfl) (by simpa using hu)
    simp only [nest_cons, hrest]
  | @spare before ts kept t ht _ ih =>
    have hrest := ih fun front u behind hts hu => hlax (t :: front) u behind (by rw [hts]; rfl) (by simpa using hu)
    rw [hrest, nest_plain (hlax [] t ts rfl (by simpa using ht))]

end Spares

end PuppetDocs
