import PuppetDocs.Proofs.Manifest.Ends
import PuppetDocs.Proofs.Moved.Primary
import PuppetDocs.Proofs.Scan.Outcome

/-
  PuppetDocs.Proofs.Refusals.Places — syntax errors point at their cause.

  The scanners refuse a text for what they stand in front of or for a marker they have passed,
  the parsers for one of the tokens. The tokens of the text stand where their spans say, so in
  each case the text shows the fault where it is reported, and `SyntaxTree.parse_points` carries
  this over from offsets to lines and columns.

  What the parser of Ruby may be stopped by is known from `tracks_run`: here a text is tracked by
  itself, and only the failures matter.
-/

namespace PuppetDocs

open Text (byteLength)

namespace Ruby

open ParseM

/-- A token of the text, or its end, may be blamed where it stands. -/
theorem token_refuses {text : List Char} {found : Scanned TokenKind} (hscan : scan text = .ok found)
    {t : Token TokenKind} (ht : t ∈ found.tokens ++ [found.stop]) {fault : Fault} (hblames : fault.Blames t) :
    Refuses .ruby (.ofText text) text (.rejected (fault.at (.ofText text) t.span.start)) := by
  obtain ⟨⟨before, data, htext, hcut, -⟩, hstop⟩ := scan_cut hscan
  rcases List.mem_append.mp ht with ht | ht
  · obtain ⟨a, cs, b, rfl, -, hstands⟩ := hcut.stands ht
    refine ⟨fault, a, cs ++ (b ++ data), by simp [htext], hblames.shows ?_, by rw [hstands.span]⟩
    rw [hstands.text]
    exact List.prefix_append cs _
  · rw [List.mem_singleton.mp ht, hstop] at hblames ⊢
    exact ⟨fault, text, [], (List.append_nil text).symm, hblames.shows List.nil_prefix, rfl⟩

/-- The tokens of a text, tracked where they stand. -/
def inPlace {text : List Char} {found : Scanned TokenKind} (hscan : scan text = .ok found) : Relocation where
  text := text
  text' := text
  lines := .ofText text
  lines' := .ofText text
  tokens := found.tokens
  stop := found.stop
  place := id
  drop := 0
  Refused e := ∀ x, e = .rejected x → Refuses .ruby (.ofText text) text e
  mono := monotone_id
  line_eq k := by rw [id, Nat.zero_add]
  slice_eq _ _ _ _ := rfl
  stop_eq _ _ := rfl
  start_eq _ _ := rfl
  refuses t ht fault hblames _ _ := token_refuses hscan ht hblames
  exhausted := nofun

/-- A token that no statement takes is blamed as well. -/
theorem tracks_program (w : Relocation) (depth : Nat) :
    Tracks w (program (Rule.run depth)) (program (Rule.run depth)) (MovedNode w) := by
  refine (tracks_run w depth (.statements [])).bind fun n n' hn => ?_
  refine tracks_peek.bind ?_
  rintro t _ ⟨ht, rfl⟩
  exact .ite (fun _ => tracks_pure hn) fun _ => tracks_fail ht (blames_unbalanced t)

theorem parseTokens_refused {text : List Char} {found : Scanned TokenKind} (hscan : scan text = .ok found)
    {e : ParseFailure} (h : parseTokens text (.ofText text) found.tokens found.stop = .error e) :
    ∀ x, e = .rejected x → Refuses .ruby (.ofText text) text e := by
  let env : ParseEnv := { text, lines := .ofText text }
  let s : Stream TokenKind := { rest := found.tokens, stop := found.stop }
  have hholds : (inPlace hscan).Holds env env s := ⟨rfl, rfl, rfl, rfl, rfl, rfl, List.suffix_rfl⟩
  obtain ⟨hfails, -⟩ := tracks_program (inPlace hscan) (depthBound found.tokens.length) env env s hholds
  have hrun : parseTokens text (.ofText text) found.tokens found.stop =
      (program (Rule.run (depthBound found.tokens.length)) env s).map Prod.fst := rfl
  rw [hrun] at h
  cases hprogram : program (Rule.run (depthBound found.tokens.length)) env s with
  | error e' =>
    rw [hprogram] at h
    cases h
    exact hfails e hprogram
  | ok read =>
    rw [hprogram] at h
    cases h

theorem read_refused {text : List Char} {e : ParseFailure} (h : read text = .error e) :
    ∀ x, e = .rejected x → Refuses .ruby (.ofText text) text e := by
  unfold read at h
  cases hscan : scan text with
  | error e' =>
    rw [hscan] at h
    cases h
    rintro x rfl
    rcases scan_error hscan with hrefuses | ⟨span, hspan, -⟩
    · exact hrefuses
    · cases hspan
  | ok found =>
    simp only [hscan, bind, Except.bind] at h
    cases hparse : parseTokens text (.ofText text) found.tokens found.stop with
    | error e' =>
      rw [hparse] at h
      cases h
      exact parseTokens_refused hscan hparse
    | ok n =>
      rw [hparse] at h
      cases h

end Ruby

namespace Manifest

theorem read_refused {text : List Char} {e : ParseFailure} (h : read text = .error e) :
    ∀ x, e = .rejected x → Refuses .puppet (.ofText text) text e := by
  unfold read at h
  rcases scan_outcome text with ⟨found, hscan, -, -⟩ | ⟨e', hscan, hrefuses⟩
  · simp only [hscan, bind, Except.bind] at h
    rcases parseTokens_outcome hscan with ⟨ds, hparse⟩ | ⟨e', hparse, hfails⟩
    · rw [hparse] at h
      cases h
    · rw [hparse] at h
      cases h
      rintro x rfl
      exact hfails
  · rw [hscan] at h
    cases h
    exact fun _ _ => hrefuses

end Manifest

/-- For every text that is refused, as Ruby or as a manifest, the line that is reported exists, and the column behind
its start is a place between two characters of the text; what stands there begins with the token that is blamed, or with
the opening of the literal, the comment or the heredoc that has no end. -/
theorem SyntaxTree.parse_points {path text : String} {grammar : Grammar} {e : SyntaxError}
    (h : SyntaxTree.parse path text grammar = .error e) : e.Points grammar text.toList := by
  cases grammar with
  | ruby =>
    cases hread : Ruby.read text.toList with
    | error e' =>
      simp only [SyntaxTree.parse, Ruby.parse, hread, settle, bind, Except.bind] at h
      cases h
      exact ParseFailure.points (Ruby.read_refused hread)
    | ok parsed =>
      simp only [SyntaxTree.parse, Ruby.parse, hread, settle, bind, Except.bind] at h
      cases h
  | puppet =>
    cases hread : Manifest.read text.toList with
    | error e' =>
      simp only [SyntaxTree.parse, Manifest.parse, hread, settle, bind, Except.bind] at h
      cases h
      exact ParseFailure.points (Manifest.read_refused hread)
    | ok parsed =>
      simp only [SyntaxTree.parse, Manifest.parse, hread, settle, bind, Except.bind] at h
      cases h

/-- The marker stands on the second line, behind a character of two bytes. -/
theorem SyntaxTree.parse_points_heredoc : ∃ e,
    SyntaxTree.parse "a.rb" "p 1\n'é' + <<~END\n  text\n" .ruby = .error e ∧
      e = { fault := .unterminatedHeredoc "END", line := 2, column := 7 } ∧
      e.Points .ruby "p 1\n'é' + <<~END\n  text\n".toList := by
  have hrefused : (match SyntaxTree.parse "a.rb" "p 1\n'é' + <<~END\n  text\n" .ruby with
      | .error e => e == { fault := .unterminatedHeredoc "END", line := 2, column := 7 }
      | .ok _ => false) = true := by decide +kernel
  cases hparse : SyntaxTree.parse "a.rb" "p 1\n'é' + <<~END\n  text\n" .ruby with
  | error e =>
    rw [hparse] at hrefused
    exact ⟨e, rfl, beq_iff_eq.mp hrefused, SyntaxTree.parse_points hparse⟩
  | ok tree =>
    rw [hparse] at hrefused
    cases hrefused

end PuppetDocs
