import PuppetDocs.Proofs.Literal.Escape
import PuppetDocs.Proofs.Scan.Step

/-
  PuppetDocs.Proofs.Literal.Forms — the forms of literals, and any text written in them.

  A string is written between quotes, backticks or the delimiters of a percent literal, a quoted
  symbol between quotes behind a colon. In each form the delimiters and the backslash are
  escaped, and `#` where a part may be interpolated. Whatever the text, what is written is one
  token, and the token's value is the text (`scan_write`). The delimiters of a form are listed
  here on their own; that the scanner pairs them up in the same way is `LiteralForm.escapes_eq`.
-/

namespace PuppetDocs.Ruby

/-- The delimiters of a percent literal. -/
inductive PercentPair where
  | parens | brackets | braces | angles | bars | bangs | slashes | carets
  deriving DecidableEq, Repr

namespace PercentPair

def opener : PercentPair → Char
  | parens => '('
  | brackets => '['
  | braces => '\x7b'
  | angles => '<'
  | bars => '|'
  | bangs => '!'
  | slashes => '/'
  | carets => '^'

def closer : PercentPair → Char
  | parens => ')'
  | brackets => ']'
  | braces => '\x7d'
  | angles => '>'
  | bars => '|'
  | bangs => '!'
  | slashes => '/'
  | carets => '^'

end PercentPair

/-- What stands between the percent sign and the opening delimiter. -/
inductive PercentFlavour where
  | raw | interpolating | bare
  deriving DecidableEq, Repr

def PercentFlavour.letter : PercentFlavour → List Char
  | raw => ['q']
  | interpolating => ['Q']
  | bare => []

inductive LiteralForm where
  | single | double | backtick | singleSymbol | doubleSymbol
  | percent (flavour : PercentFlavour) (pair : PercentPair)
  deriving DecidableEq, Repr

namespace LiteralForm

def opening : LiteralForm → List Char
  | single => ['\'']
  | double => ['"']
  | backtick => ['\x60']
  | singleSymbol => [':', '\'']
  | doubleSymbol => [':', '"']
  | percent flavour pair => '%' :: (flavour.letter ++ [pair.opener])

def closing : LiteralForm → Char
  | single | singleSymbol => '\''
  | double | doubleSymbol => '"'
  | backtick => '\x60'
  | percent _ pair => pair.closer

/-- The opening delimiter, where it is another character than the closing one. -/
def partner : LiteralForm → List Char
  | percent _ pair => [pair.opener]
  | _ => []

def interpolating : LiteralForm → Bool
  | single | singleSymbol | percent .raw _ => false
  | _ => true

def kind : LiteralForm → StrLit → TokenKind
  | backtick => .command
  | singleSymbol | doubleSymbol => .quotedSymbol
  | _ => .string

def escapes (f : LiteralForm) (c : Char) : Bool :=
  c == '\\' || c == f.closing || f.partner.contains c || (f.interpolating && c == '#')

def escape (f : LiteralForm) : List Char → List Char
  | [] => []
  | c :: r => if f.escapes c then '\\' :: c :: f.escape r else c :: f.escape r

/-- The text as a literal. -/
def write (f : LiteralForm) (content : List Char) : List Char := f.opening ++ (f.escape content ++ [f.closing])

/-- The token of the whole text of a literal. -/
def token (f : LiteralForm) (content : List Char) : Token TokenKind where
  kind := f.kind { value := String.ofList content, interpolated := false }
  text := String.ofList (f.write content)
  span := ⟨0, Text.byteLength (f.write content)⟩
  spaced := true

/-- Both delimiters are escaped, and `#` only where it could start an interpolation. -/
example : (percent .raw .parens).write "(a)#\\".toList = "%q(\\(a\\)#\\\\)".toList ∧
    (percent .bare .bars).write "|#\x7b".toList = "%|\\|\\#\x7b|".toList := by
  decide

/-! ## The scanner's delimiters -/

/-- What opens the form, and the delimiters with which its body is read. -/
def opens : LiteralForm → Opening
  | single => .singleQuote
  | double => .doubleQuote
  | backtick => .backtick
  | singleSymbol => .symbolQuote '\''
  | doubleSymbol => .symbolQuote '"'
  | percent _ _ => .percent

def delimiters (f : LiteralForm) : Delimiters :=
  let sigil := if f.interpolating then some '#' else none
  match f with
  | percent _ pair => percentDelimiters pair.opener sigil
  | _ => .quote f.closing sigil

variable (f : LiteralForm)

@[simp] theorem delimiters_close : f.delimiters.close = f.closing := by
  cases f with
  | percent flavour pair => cases pair <;> rfl
  | _ => rfl

theorem delimiters_sigil : f.delimiters.sigil = if f.interpolating then some '#' else none := by
  cases f <;> rfl

/-- The opening delimiter nests if it differs from the closing one; otherwise it closes. -/
theorem delimiters_nest : f.delimiters.nest = none ∧ (∀ c ∈ f.partner, c = f.closing) ∨
    ∃ c, f.delimiters.nest = some c ∧ f.partner = [c] ∧ c ≠ f.closing := by
  cases f with
  | percent flavour pair => cases pair <;> simp [delimiters, percentDelimiters, closingOf, partner, closing,
      PercentPair.opener, PercentPair.closer]
  | _ => simp [delimiters, Delimiters.quote, partner]

theorem escapes_eq (c : Char) : f.escapes c = f.delimiters.escapes c := by
  have hsigil : (some c == f.delimiters.sigil) = (f.interpolating && c == '#') := by
    rw [delimiters_sigil]
    cases f.interpolating <;> simp
  rw [escapes, Delimiters.escapes, delimiters_close, hsigil]
  rcases f.delimiters_nest with ⟨hnest, hpartner⟩ | ⟨p, hnest, hpartner, -⟩
  · have hclose : (c == f.closing || f.partner.contains c) = (c == f.closing) := by
      have : f.partner.contains c = true → c = f.closing := fun h => hpartner c (by simpa using h)
      by_cases hc : c = f.closing
      · simp [hc]
      · simpa [hc] using fun h => hc (hpartner c h)
    rw [hnest, Bool.or_assoc (c == '\\'), hclose]
    simp
  · rw [hnest, hpartner, List.contains_cons, List.contains_nil, Bool.or_false, Option.some_beq_some]

theorem escape_eq (content : List Char) : f.escape content = f.delimiters.escape content := by
  induction content with
  | nil => rfl
  | cons c content ih => rw [escape, Delimiters.escape_cons, escapes_eq, ih]

theorem delimiters_closes : f.delimiters.Closes := by
  cases f with
  | percent flavour pair => cases flavour <;> cases pair <;> exact ⟨by decide, by decide, by decide⟩
  | _ => exact ⟨by decide, by decide, by decide⟩

/-- No delimiter is a letter that means something else behind a backslash. -/
theorem escaped_delimiter {c : Char} (hc : c = f.closing ∨ c ∈ f.partner) : escaped c = [c] := by
  cases f with
  | percent flavour pair =>
    have hpartner : c = pair.closer ∨ c = pair.opener := hc.imp_right List.mem_singleton.mp
    rcases hpartner with rfl | rfl <;> cases pair <;> rfl
  | _ =>
    obtain rfl := hc.resolve_right List.not_mem_nil
    rfl

theorem delimiters_decodes : Decodes f.delimiters where
  itself c hc := by
    rw [← escapes_eq, escapes] at hc
    simp only [Bool.or_eq_true, Bool.and_eq_true, beq_iff_eq, List.contains_iff_mem] at hc
    rcases hc with ((rfl | hc) | hc) | ⟨-, rfl⟩
    · rfl
    · exact f.escaped_delimiter (.inl hc)
    · exact f.escaped_delimiter (.inr hc)
    · rfl
  sigil := by
    rw [delimiters_sigil]
    cases f.interpolating <;> simp

/-! ## The scan -/

theorem lexeme?_opening (more : List Char) :
    lexeme? (f.opening ++ more) = some (.opening f.opens, f.opening.length) := by
  cases f with
  | percent flavour pair => cases flavour <;> cases pair <;> rfl
  | _ => rfl

/-- At the start of a text a percent sign opens a literal too. -/
theorem accept_opening (lines : LineIndex) (more : List Char) :
    accept lines {} {} 0 (f.opening ++ more) f.opening.length (.opening f.opens) =
      literal lines {} {} 0 (f.opening ++ more) f.opening.length f.delimiters false f.kind := by
  cases f with
  | percent flavour pair => cases flavour <;> cases pair <;> rfl
  | _ => rfl

theorem opening_head : ∃ c r, f.opening = c :: r ∧ c ∈ ['\'', '"', '\x60', ':', '%'] := by
  cases f <;> exact ⟨_, _, rfl, by decide⟩

theorem length_write (content : List Char) :
    (f.write content).length = f.opening.length + (f.delimiters.escape content).length + 1 := by
  simp only [write, f.escape_eq, List.length_append, List.length_singleton, Nat.add_assoc]

theorem token_start (content : List Char) :
    ({} : Reading TokenKind).token (f.kind { value := String.ofList content, interpolated := false })
      (f.write content) = f.token content := by
  simp [Reading.token, Reading.afterSpace, token]

/-- The first step finds the whole of the text. -/
theorem step_write (lines : LineIndex) (content : List Char) :
    step lines {} (f.write content) =
      .ok (some (({} : Scanner).add (f.token content), (f.write content).length)) := by
  obtain ⟨c, r, hopening, hc⟩ := f.opening_head
  have hmarks : ∀ c ∈ ['\'', '"', '\x60', ':', '%'], c ∉ [' ', '\t', '\r', '\x0c', '\\'] ∧ c ≠ '=' ∧ c ≠ '_' := by
    simp
  obtain ⟨hblank, hmarker⟩ := hmarks c hc
  have hfirst : f.write content = c :: (r ++ (f.escape content ++ [f.closing])) := by rw [write, hopening]; rfl
  obtain ⟨hdocument, hdata⟩ := not_marker hmarker (r ++ (f.escape content ++ [f.closing]))
  rw [← hfirst] at hdocument hdata
  have hstep : step lines {} (f.write content) =
      accept lines {} {} 0 (f.write content) f.opening.length (.opening f.opens) :=
    step_gap [] (by simp) ⟨c, _, hfirst, hblank⟩ hdocument hdata (f.lexeme?_opening _)
  have hinside : f.write content = f.opening ++ (f.delimiters.escape content ++ [f.delimiters.close]) := by
    rw [write, escape_eq, delimiters_close]
  rw [hstep, hinside, accept_opening, literal_escape f.delimiters_closes f.delimiters_decodes, ← hinside,
    ← length_write, found, List.take_length, Nat.zero_add, token_start]

/-- Whatever the text, it is read back from each of its forms, as one token without interpolation. -/
theorem scan_literal_form (f : LiteralForm) (content : List Char) :
    scan (f.write content) = .ok {
      tokens := [f.token content]
      stop := {
        kind := .eof
        text := ""
        span := ⟨Text.byteLength (f.write content), Text.byteLength (f.write content)⟩
        spaced := true }
      comments := [] } := by
  have hne : f.write content ≠ [] := by simp [write]
  have hwalk : walk (.ofText (f.write content)) (f.write content) 0 {} =
      .ok ((({} : Scanner).add (f.token content)).pass (f.write content)) := by
    rw [walk_next hne (f.step_write _ content), List.drop_length, List.take_length, walk]
  simp [scan, hwalk, Scanner.add]

end LiteralForm

end PuppetDocs.Ruby
