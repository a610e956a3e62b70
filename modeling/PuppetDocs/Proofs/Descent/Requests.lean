import PuppetDocs.Proofs.Descent.Primary

/-
  PuppetDocs.Proofs.Descent.Requests — the recursion of the parser.

  A `Request` is a rule to be read at a place. One request asks for another if reading the
  first needs an answer to the second: with a reader that has none (`Reader.refusing`), there
  is no reading the first. Behind a request, fewer tokens are left or the rank is lower
  (`Asks.under`), so a chain of requests is no longer than the bound on the recursion, and a
  loop that comes back to itself has used up a token. Loops that only pass over tokens ask for
  nothing: they are recursions on the tokens that are left (`ParseM.skipWhile`, `parensEnd`).
-/

namespace PuppetDocs.Ruby

open ParseM

theorem Rule.rank_le {α : Type} (rule : Rule α) (next : TokenKind) : rule.rank next ≤ 12 := by
  cases rule with
  | negation => exact Nat.le_trans (Rule.rank_negation_le next) (by decide)
  | unary => exact Nat.le_trans (Rule.rank_unary_le next) (by decide)
  | _ => simp [Rule.rank]

theorem Rule.rank_pos {α : Type} (rule : Rule α) (next : TokenKind) : 0 < rule.rank next := by
  cases rule with
  | negation =>
    change 0 < if next = .keyword .notKw then 1 else 7
    split <;> decide
  | unary =>
    change 0 < if isSign next then 1 else 3
    split <;> decide
  | _ => simp [Rule.rank]

/-- The rules that stand for loops: each reads one item and goes on with itself. -/
def Rule.isLoop {α : Type} : Rule α → Bool
  | .items _ | .rescues | .rescueTypes | .modifiers _ _ | .joined _ _ | .operators _ _ _ | .trailers _ _ | .args _
  | .moreArgs | .params _ | .forTargets | .elsifs | .whens | .undefNames => true
  | _ => false

/-- What a loop reads next does not matter for its rank. -/
theorem Rule.rank_loop {α β : Type} {rule : Rule α} {rule' : Rule β} (hloop : rule.isLoop = true)
    (hsame : rule.ctorIdx = rule'.ctorIdx) (next next' : TokenKind) : rule.rank next = rule'.rank next' := by
  cases rule with
  | negation | unary => cases hloop
  | _ => cases rule' <;> first | rfl | cases hsame

/-! ## Running -/

/-- With both bounds large enough, two runs are the same run. -/
theorem run_agree {α : Type} (rule : Rule α) (env : ParseEnv) {s : Stream TokenKind} (hs : s.stop.kind = .eof)
    {k k' : Nat} (hk : 16 * s.rest.length + rule.rank s.peek.kind < k)
    (hk' : 16 * s.rest.length + rule.rank s.peek.kind < k') :
    Agree (Rule.run k rule) (Rule.run k' rule) env s (rule.Leaves s) := by
  induction k generalizing k' α rule env s with
  | zero => exact absurd hk (Nat.not_lt_zero _)
  | succ k ih =>
    cases k' with
    | zero => exact absurd hk' (Nat.not_lt_zero _)
    | succ k' =>
      refine step_agree rule env (Page.holds_rest env hs) fun rule' env' s' hs' hunder => ?_
      have hrank := rule'.rank_le s'.peek.kind
      exact ih rule' env' hs'.stop (by omega) (by omega)

/-! ## Requests -/

/-- A rule to be read at a place of the stream. -/
structure Request where
  {α : Type}
  rule : Rule α
  env : ParseEnv
  stream : Stream TokenKind

namespace Request

/-- How many tokens are left where the request is made. -/
def left (q : Request) : Nat := q.stream.rest.length

def rank (q : Request) : Nat := q.rule.rank q.stream.peek.kind

end Request

open Classical in
/-- The reader `self`, but without an answer to `q`. -/
noncomputable def Reader.refusing (self : Reader) (q : Request) : Reader :=
  fun rule env s => if (⟨rule, env, s⟩ : Request) = q then .error .exhausted else self rule env s

/-- Where `self` answers all it is asked, the rule of `q` cannot be read without an answer to `q'`. -/
def Asks (self : Reader) (q q' : Request) : Prop :=
  Rule.step (Reader.refusing self q') q.rule q.env q.stream = .error .exhausted

/-- Each of the requests is made by the one in front of it. -/
def Descends (self : Reader) : Request → List Request → Prop
  | _, [] => True
  | q, q' :: qs => Asks self q q' ∧ Descends self q' qs

/-- Fewer tokens are left, or as many for a rule of lower rank. -/
def Request.Under (q' q : Request) : Prop := q'.left < q.left ∨ q'.left = q.left ∧ q'.rank < q.rank

section Requests

variable {q q' q'' : Request} {qs : List Request} {depth : Nat}

theorem Request.Under.trans (h : q'.Under q) (k : q''.Under q') : q''.Under q := by
  unfold Request.Under at *
  omega

/-- What a request asks for comes after it, among the tokens that it has left. -/
theorem Asks.under {w : Page} (hq : w.Holds q.env q.stream) (hdepth : 16 * q.left + q.rank ≤ depth)
    (h : Asks (Rule.run depth) q q') : w.Holds q'.env q'.stream ∧ q'.Under q := by
  refine Classical.byContradiction fun hnot => ?_
  -- Otherwise the refusal is not noticed, and what is read has an outcome.
  have hready : Ready w (Rule.run depth) (Reader.refusing (Rule.run depth) q') q.left q.rank := by
    intro α rule env s hs hunder
    have hrank := rule.rank_le s.peek.kind
    have hweight : 16 * s.rest.length + rule.rank s.peek.kind < depth := by omega
    obtain ⟨-, hends, hgives⟩ := run_agree rule env hs.stop hweight hweight
    have hother : (⟨rule, env, s⟩ : Request) ≠ q' := by
      intro he
      subst he
      exact hnot ⟨hs, hunder⟩
    exact ⟨if_neg hother, hends, hgives⟩
  obtain ⟨hsame, hends, -⟩ := step_agree q.rule q.env hq hready
  obtain ⟨x, hx⟩ := hends _ (hsame.symm.trans h)
  cases hx

theorem Descends.pairwise (hq : q.stream.stop.kind = .eof) (hdepth : 16 * q.left + q.rank ≤ depth)
    (h : Descends (Rule.run depth) q qs) : (q :: qs).Pairwise fun a b => b.Under a := by
  induction qs generalizing q with
  | nil => exact List.pairwise_singleton _ _
  | cons q' qs ih =>
    obtain ⟨hasks, hrest⟩ := h
    obtain ⟨hq', hunder⟩ := hasks.under (Page.holds_rest q.env hq) hdepth
    have hrank : q'.rank ≤ 12 := q'.rule.rank_le _
    have htail := ih hq'.stop (by unfold Request.Under at hunder; omega) hrest
    refine List.pairwise_cons.mpr ⟨fun b hb => ?_, htail⟩
    rcases List.mem_cons.mp hb with rfl | hb
    · exact hunder
    · exact hunder.trans ((List.pairwise_cons.mp htail).1 b hb)

/-- A chain is no longer than what its first request weighs. -/
theorem length_le_weight (h : (q :: qs).Pairwise fun a b => b.Under a) : qs.length + 1 ≤ 16 * q.left + q.rank := by
  induction qs generalizing q with
  | nil =>
    have hpos : 0 < q.rank := q.rule.rank_pos _
    simp only [List.length_nil]
    omega
  | cons q' qs ih =>
    obtain ⟨hunder, htail⟩ := List.pairwise_cons.mp h
    have hnext := ih htail
    have hrank : q'.rank ≤ 12 := q'.rule.rank_le _
    have hfirst := hunder q' List.mem_cons_self
    unfold Request.Under at hfirst
    simp only [List.length_cons]
    omega

/-- With no token used up, there are no more requests than ranks. -/
theorem length_le_rank (h : (q :: qs).Pairwise fun a b => b.Under a) (hsame : ∀ q' ∈ qs, q.left = q'.left) :
    qs.length + 1 ≤ q.rank := by
  induction qs generalizing q with
  | nil => exact q.rule.rank_pos _
  | cons q' qs ih =>
    obtain ⟨hunder, htail⟩ := List.pairwise_cons.mp h
    have hleft : q.left = q'.left := hsame q' List.mem_cons_self
    have hnext := ih htail fun b hb => hleft.symm.trans (hsame b (List.mem_cons_of_mem _ hb))
    have hfirst := hunder q' List.mem_cons_self
    unfold Request.Under at hfirst
    simp only [List.length_cons]
    omega

/-- Coming back to a loop, fewer tokens are left. -/
theorem Request.Under.loop (h : q'.Under q) (hloop : q.rule.isLoop = true) (hsame : q.rule.ctorIdx = q'.rule.ctorIdx) :
    q'.left < q.left := by
  rcases h with hlt | ⟨-, hrank⟩
  · exact hlt
  · have heq : q.rank = q'.rank := Rule.rank_loop hloop hsame _ _
    omega

end Requests

/-! ## The whole parser -/

/-- The parser of a file, with this bound on the recursion. -/
def parseWithin (depth : Nat) (text : List Char) (lines : LineIndex) (tokens : List (Token TokenKind))
    (stop : Token TokenKind) : Except ParseFailure Node :=
  ((program (Rule.run depth)).run { text, lines }).run' { rest := tokens, stop }

theorem program_agree {env : ParseEnv} {s : Stream TokenKind} (hs : s.stop.kind = .eof) {k k' : Nat}
    (hk : depthBound s.rest.length ≤ k) (hk' : depthBound s.rest.length ≤ k') :
    Agree (program (Rule.run k)) (program (Rule.run k')) env s fun _ _ => True := by
  unfold depthBound at hk hk'
  have hrank := (Rule.statements []).rank_le s.peek.kind
  unfold program
  refine (run_agree (.statements []) env hs (by omega) (by omega)).bind fun n s' _ => ?_
  refine agree_look sees_peek fun t => ?_
  exact .ite (fun _ => agree_pure trivial) (fun _ => agree_fail)

/-- All bounds that are large enough give one outcome, which is a tree or a syntax error. -/
theorem parseWithin_outcome (text : List Char) (lines : LineIndex) (tokens : List (Token TokenKind))
    (stop : Token TokenKind) (hstop : stop.kind = .eof) :
    ∃ outcome : Except SyntaxError Node, ∀ depth, depthBound tokens.length ≤ depth →
      parseWithin depth text lines tokens stop = outcome.mapError .rejected := by
  have hagree : ∀ depth, depthBound tokens.length ≤ depth → Agree (program (Rule.run (depthBound tokens.length)))
      (program (Rule.run depth)) { text, lines } { rest := tokens, stop } fun _ _ => True :=
    fun depth hdepth => program_agree hstop (Nat.le_refl _) hdepth
  obtain ⟨-, hends, -⟩ := hagree _ (Nat.le_refl _)
  have hrun : ∀ depth, depthBound tokens.length ≤ depth → parseWithin depth text lines tokens stop =
      Prod.fst <$> program (Rule.run (depthBound tokens.length)) { text, lines } { rest := tokens, stop } := by
    intro depth hdepth
    exact congrArg (Prod.fst <$> ·) (hagree depth hdepth).1
  cases hp : program (Rule.run (depthBound tokens.length)) { text, lines } { rest := tokens, stop } with
  | ok x => exact ⟨.ok x.1, fun depth hdepth => by rw [hrun depth hdepth, hp]; rfl⟩
  | error e =>
    obtain ⟨e, rfl⟩ := hends e hp
    exact ⟨.error e, fun depth hdepth => by rw [hrun depth hdepth, hp]; rfl⟩

/-- Whatever the tokens in front of the end of the text are, the parser ends with a tree or a syntax error: its bound,
which is linear in their number, is not reached, and no larger one changes the outcome. Along a chain of requests
tokens are only used up, at most twelve requests follow each other with none used up, and where a loop goes on with
itself one is used up. -/
theorem parseTokens_ends (text : List Char) (lines : LineIndex) (tokens : List (Token TokenKind))
    (stop : Token TokenKind) (hstop : stop.kind = .eof) :
    (∃ outcome : Except SyntaxError Node, parseTokens text lines tokens stop = outcome.mapError .rejected ∧
      ∀ depth, depthBound tokens.length ≤ depth →
        parseWithin depth text lines tokens stop = outcome.mapError .rejected) ∧
    ∀ depth (q : Request) (qs : List Request), q.stream.stop.kind = .eof → depthBound q.left ≤ depth →
      Descends (Rule.run depth) q qs →
        (q :: qs).length < depthBound q.left ∧
        (∀ run, run <:+: q :: qs → (∀ a ∈ run, ∀ b ∈ run, a.left = b.left) → run.length ≤ 12) ∧
        (q :: qs).Pairwise fun a b =>
          b.left ≤ a.left ∧ (a.rule.isLoop = true → a.rule.ctorIdx = b.rule.ctorIdx → b.left < a.left) := by
  constructor
  · obtain ⟨outcome, hall⟩ := parseWithin_outcome text lines tokens stop hstop
    exact ⟨outcome, hall _ (Nat.le_refl _), hall⟩
  · intro depth q qs hq hdepth h
    have hrank : q.rank ≤ 12 := q.rule.rank_le _
    unfold depthBound at hdepth ⊢
    have hunder := h.pairwise hq (by omega)
    refine ⟨?_, fun run hrun hsame => ?_, ?_⟩
    · have hlength := length_le_weight hunder
      simp only [List.length_cons]
      omega
    · cases run with
      | nil => exact Nat.zero_le _
      | cons a run =>
        have hlength := length_le_rank (hunder.sublist hrun.sublist)
          fun b hb => hsame a List.mem_cons_self b (List.mem_cons_of_mem _ hb)
        exact Nat.le_trans hlength (a.rule.rank_le _)
    · refine hunder.imp fun {a b} hab => ⟨?_, fun hloop hsame => hab.loop hloop hsame⟩
      rcases hab with hlt | ⟨heq, -⟩
      · exact Nat.le_of_lt hlt
      · exact Nat.le_of_eq heq

/-- After a lone `not` the text has ended: the strongest rule leaves the token to the weakest operator. -/
theorem parseTokens_ends_not :
    let text := "not".toList
    let word : Token TokenKind := { kind := .keyword .notKw, text := "not", span := ⟨0, 3⟩, spaced := true }
    let stop : Token TokenKind := { kind := .eof, text := "", span := ⟨3, 3⟩, spaced := false }
    let place : Stream TokenKind := { rest := [word], stop }
    let q : Request := ⟨.primary, { text, lines := .ofText text }, place⟩
    let q' : Request := ⟨.negation, { text, lines := .ofText text }, place⟩
    stop.kind = .eof ∧ Descends (Rule.run (depthBound 1)) q [q'] ∧ [q, q'].length < depthBound 1 ∧
      ∃ outcome : Except SyntaxError Node,
        parseTokens text (.ofText text) [word] stop = outcome.mapError .rejected := by
  intro text word stop place q q'
  have hchain : Descends (Rule.run (depthBound 1)) q [q'] := ⟨if_pos rfl, trivial⟩
  obtain ⟨⟨outcome, hparse, -⟩, hchains⟩ := parseTokens_ends text (.ofText text) [word] stop rfl
  exact ⟨rfl, hchain, (hchains (depthBound 1) q [q'] rfl (Nat.le_refl _) hchain).1, outcome, hparse⟩

end PuppetDocs.Ruby
