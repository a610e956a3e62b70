import PuppetDocs.Proofs.Scan.Coverage
import PuppetDocs.Proofs.Tree.Operators
import PuppetDocs.Proofs.Tree.Primary
import PuppetDocs.Source.Tree

/-
  PuppetDocs.Proofs.Tree.Order — pre-order is source order.

  Every rule lays its nodes if the rules inside it do (`step_lays`), so each bound on the depth
  of the recursion gives a reader that lays the nodes of every rule (`run_lays`). The tokens of
  a text are as the parser needs them, since the scanner cuts the text into them, and so the
  tree of a text lies in it in order.
-/

namespace PuppetDocs.Ruby

open ParseM
open Text (byteLength)

/-! ## The recursion -/

theorem step_lays {text : List Char} {self : Reader} (hself : Lays text self) : Lays text (Rule.step self) := by
  intro α rule
  cases rule with
  | statements stops => exact reads_statements hself stops
  | items stops => exact reads_items hself stops
  | body => exact reads_body hself
  | rescues => exact reads_rescues hself
  | rescueTypes => exact reads_rescueTypes hself
  | statement => exact reads_statement hself
  | modifiers start n => exact resumes_modifiers hself start n
  | sentence => exact reads_sentence hself
  | joined start lhs => exact resumes_joined hself start lhs
  | negation => exact reads_negation hself
  | expr => exact reads_expr hself
  | ternary => exact reads_ternary hself
  | binary min => exact reads_binary hself min
  | operators min start lhs => exact resumes_operators hself min start lhs
  | unary => exact reads_unary hself
  | primary => exact reads_primary hself
  | trailers start n => exact resumes_trailers hself
  | arg => exact reads_arg hself
  | args closer => exact reads_args hself closer
  | moreArgs => exact reads_moreArgs hself
  | params closers => exact reads_params hself closers
  | forTargets => exact reads_forTargets hself
  | elsifs => exact reads_elsifs hself
  | whens => exact reads_whens hself
  | undefNames => exact reads_undefNames hself

theorem run_lays (text : List Char) (depth : Nat) : Lays text (Rule.run depth) := by
  induction depth with
  | zero =>
    intro α rule
    cases rule with
    | modifiers | joined | operators | trailers => exact fun _ _ _ _ _ => gives_throw
    | _ => exact fun _ _ _ _ => gives_throw
  | succ depth ih => exact step_lays ih

/-! ## Whole texts -/

theorem ahead_of_ordered {len e : Nat} {ts : List (Token TokenKind)}
    (hordered : ts.Pairwise fun t u => t.span.stop ≤ u.span.start)
    (hts : ∀ t ∈ ts, t.span.start < t.span.stop ∧ t.span.stop ≤ len) (he : ∀ t ∈ ts, e ≤ t.span.start) (hlen : e ≤ len) :
    Stream.Ahead len e ts := by
  induction ts generalizing e with
  | nil => exact hlen
  | cons t ts ih =>
    obtain ⟨hhead, htail⟩ := List.pairwise_cons.mp hordered
    obtain ⟨hlt, hle⟩ := hts t List.mem_cons_self
    exact ⟨he t List.mem_cons_self, hlt, ih htail (fun u hu => hts u (List.mem_cons_of_mem _ hu)) hhead hle⟩

theorem sound_of_scan {text : List Char} {s : Scanned TokenKind} (h : scan text = .ok s) :
    (Stream.mk s.tokens s.stop 0).Sound (byteLength text) := by
  obtain ⟨⟨before, data, rfl, hcut, -⟩, hstop⟩ := scan_cut h
  refine ⟨ahead_of_ordered hcut.ordered (fun t ht => ?_) (fun _ _ => Nat.zero_le _) (Nat.zero_le _), ?_, ?_⟩
  · obtain ⟨hlt, hle⟩ := hcut.stop_le ht
    rw [Text.byteLength_append]
    omega
  · rw [hstop]
  · rw [hstop]

theorem program_laid {text : List Char} {self : Reader} (hself : Lays text self) {env : ParseEnv} {s : Stream TokenKind}
    (hl : env.lines = .ofText text) (hs : s.Sound (byteLength text)) :
    Gives (program self) env s fun n s' => Laid text s.here s'.here s'.prevEnd [n] := by
  unfold program
  refine (Got.start hs).next hl hself.statements fun n s' h => ?_
  rw [gives_peek]
  split
  · exact gives_pure.mpr h.laid
  · exact gives_fail

/-- A text is parsed if it is scanned and its tokens are a program. -/
theorem parse_ok {text : List Char} {tree : Node} {comments : List Comment} :
    Ruby.parse text = .ok (tree, comments) ↔ ∃ s s', scan text = .ok s ∧ s.comments = comments ∧
      program (Rule.run (depthBound s.tokens.length)) { text, lines := .ofText text } { rest := s.tokens, stop := s.stop } =
        .ok (tree, s') := by
  have hparse : ∀ s : Scanned TokenKind, parseTokens text (.ofText text) s.tokens s.stop =
      (program (Rule.run (depthBound s.tokens.length)) { text, lines := .ofText text }
        { rest := s.tokens, stop := s.stop }).map Prod.fst := fun _ => rfl
  simp only [Ruby.parse, Ruby.read, bind, Except.bind, pure, Except.pure]
  cases hs : scan text with
  | error e => simp [settle]
  | ok s =>
    simp only [hparse]
    constructor
    · intro h
      cases hp : program (Rule.run (depthBound s.tokens.length)) { text, lines := .ofText text }
          { rest := s.tokens, stop := s.stop } with
      | error e => simp [hp, settle, Except.map] at h
      | ok found =>
        simp only [hp, Except.map, settle, Except.ok.injEq, Prod.mk.injEq] at h
        obtain ⟨rfl, rfl⟩ := h
        exact ⟨s, found.2, rfl, rfl, hp⟩
    · rintro ⟨s, s', hs', rfl, hp⟩
      cases hs'
      simp only [hp, Except.map, settle]

theorem parse_laid {text : List Char} {tree : Node} {comments : List Comment}
    (h : Ruby.parse text = .ok (tree, comments)) : ∃ lo hi e, Laid text lo hi e [tree] := by
  obtain ⟨s, s', hs, -, hp⟩ := parse_ok.mp h
  exact ⟨_, _, _, program_laid (run_lays text _) rfl (sound_of_scan hs) tree s' hp⟩

theorem Node.child_mem_preorder {t n x : Node} (hn : n ∈ t.preorder) (hx : x ∈ n.children) : x ∈ t.preorder := by
  induction t using Node.induction with
  | h t ih =>
    rw [Node.preorder_eq] at hn ⊢
    refine List.mem_cons_of_mem _ (List.mem_flatMap.mpr ?_)
    rcases List.mem_cons.mp hn with rfl | hn
    · exact ⟨x, hx, x.mem_preorder⟩
    · obtain ⟨y, hy, hn⟩ := List.mem_flatMap.mp hn
      exact ⟨y, hy, ih y hy hn⟩

/-- Every node of the tree of a text lies in the text around its parts, and pre-order is the order of the text. -/
theorem parse_inPlace {text : List Char} {tree : Node} {comments : List Comment}
    (h : Ruby.parse text = .ok (tree, comments)) :
    (∀ n ∈ tree.preorder, n.span.start ≤ n.span.stop ∧ n.span.stop ≤ byteLength text ∧
      n.line = (LineIndex.ofText text).line n.span.start ∧
      ∀ x ∈ n.children, n.span.start ≤ x.span.start ∧ (x.span.isEmpty = false → x.span.stop ≤ n.span.stop)) ∧
    (tree.preorder.map (·.span.start)).Pairwise (· ≤ ·) := by
  obtain ⟨lo, hi, e, hlaid⟩ := parse_laid h
  refine ⟨fun n hn => ?_, ?_⟩
  · have hplace := hlaid.inPlace tree List.mem_cons_self n hn
    refine ⟨hplace.ordered, hplace.inside, hplace.line, fun x hx => ⟨hplace.starts x hx, fun hne => ?_⟩⟩
    have hx' := hlaid.inPlace tree List.mem_cons_self x (Node.child_mem_preorder hn hx)
    refine hplace.stops x hx (Nat.lt_of_le_of_ne hx'.ordered fun he => ?_)
    simp [Span.isEmpty, he] at hne
  · simpa [starts] using hlaid.sorted

theorem parse_inPlace_call :
    ∃ tree comments, Ruby.parse "a.b c\n".toList = .ok (tree, comments) ∧ (∀ n ∈ tree.preorder, n.span.stop ≤ 6) ∧
      (tree.preorder.map (·.span.start)).Pairwise (· ≤ ·) := by
  have hok : (Ruby.parse "a.b c\n".toList).isOk = true := by decide +kernel
  cases h : Ruby.parse "a.b c\n".toList with
  | error e =>
    rw [h] at hok
    cases hok
  | ok found =>
    obtain ⟨hplace, hsorted⟩ := parse_inPlace h
    exact ⟨found.1, found.2, rfl, fun n hn => (hplace n hn).2.1, hsorted⟩

end PuppetDocs.Ruby
