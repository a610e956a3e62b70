import PuppetDocs.Proofs.Decl.Scan

/-
  PuppetDocs.Proofs.Construct.Syntax — calls with blocks inside a keyword construct.

  A `DoCall` is a name with a block between `do` and `end`, and the block is a list of such
  calls again. A construct is `begin`, `if`, `unless` or a `case` with one `when`, and has a
  list of them as its body. It is written as the value of an assignment, or as the value in the
  only pair of a call, with parentheses around the pair or without.

  `Construct.Shows` says that a node is the construct, every block in it bound to its own name.
  All these texts are spelled (`Construct.spelled`): what differs is how they are parsed.
-/

namespace PuppetDocs.Ruby.Decl

/-! ## Constructs and their words -/

inductive DoCall where
  | mk (name : MethodName) (body : List DoCall)

/-- What stands in front of the body. -/
inductive Opening where
  | begin_
  | if_ (condition : MethodName)
  | unless_ (condition : MethodName)
  | case_ (subject value : MethodName)

structure Construct where
  opening : Opening
  body : List DoCall

abbrev doWord : Word := ⟨[' '], .keyword .doKw, "do".toList⟩

abbrev endWord (indent : List Char) : Word := ⟨indent, .keyword .endKw, "end".toList⟩

abbrev nameWord (gap : List Char) (m : MethodName) : Word := ⟨gap, .ident, m.chars⟩

mutual

def DoCall.words (indent : List Char) : DoCall → List Word
  | .mk name body =>
    nameWord indent name :: doWord :: newline :: (doLines (indent ++ [' ', ' ']) body ++ [endWord indent, newline])

/-- One call behind the other, each on lines of its own. -/
def doLines (indent : List Char) : List DoCall → List Word
  | [] => []
  | c :: calls => c.words indent ++ doLines indent calls

end

def Opening.words : Opening → Piece
  | begin_, gap => [⟨gap, .keyword .beginKw, "begin".toList⟩]
  | if_ condition, gap => [⟨gap, .keyword .ifKw, "if".toList⟩, nameWord [' '] condition]
  | unless_ condition, gap => [⟨gap, .keyword .unlessKw, "unless".toList⟩, nameWord [' '] condition]
  | case_ subject value, gap =>
    [⟨gap, .keyword .caseKw, "case".toList⟩, nameWord [' '] subject, newline, ⟨[], .keyword .whenKw, "when".toList⟩,
      nameWord [' '] value]

def Construct.words (k : Construct) : Piece :=
  fun gap => k.opening.words gap ++ newline :: (doLines [' ', ' '] k.body ++ [endWord []])

/-! ## Where a construct stands -/

/-- A symbol, an arrow and the construct. -/
def pairWords (key : SymbolName) (k : Construct) : Piece :=
  fun gap => ⟨gap, .symbol, ':' :: key.chars⟩ :: ⟨[' '], .fatArrow, "=>".toList⟩ :: k.words [' ']

def assignWords (target : MethodName) (k : Construct) : List Word :=
  nameWord [] target :: assignSign :: (k.words [' '] ++ [newline])

def commandWords (f : MethodName) (key : SymbolName) (k : Construct) : List Word :=
  nameWord [] f :: (pairWords key k [' '] ++ [newline])

def parenWords (f : MethodName) (key : SymbolName) (k : Construct) : List Word :=
  nameWord [] f :: sign .lparen "(" :: (pairWords key k [] ++ [sign .rparen ")", newline])

/-- `x = K` -/
def writeAssign (target : MethodName) (k : Construct) : List Char := print (assignWords target k)

/-- `f :key => K` -/
def writeCommand (f : MethodName) (key : SymbolName) (k : Construct) : List Char := print (commandWords f key k)

/-- `f(:key => K)` -/
def writeParens (f : MethodName) (key : SymbolName) (k : Construct) : List Char := print (parenWords f key k)

example :
    let f : MethodName := ⟨['f'], ⟨'f', [], [], rfl, rfl, nofun, .inl rfl⟩, rfl⟩
    let g : MethodName := ⟨['g'], ⟨'g', [], [], rfl, rfl, nofun, .inl rfl⟩, rfl⟩
    writeCommand f ⟨['k'], 'k', [], [], rfl, rfl, nofun, .inl rfl⟩ ⟨.case_ f f, [.mk g [.mk f []]]⟩ =
      "f :k => case f\nwhen f\n  g do\n    f do\n    end\n  end\nend\n".toList := by
  decide

/-! ## The tree of a construct -/

mutual

def DoCall.Shows : DoCall → Node → Prop
  | .mk name body, n => ∃ b ns, n.kind = .call ⟨none, String.ofList name.chars, [], false, some b⟩ ∧ b.params = [] ∧
      b.body.kind = .statements ns ∧ DoCallsShow body ns

def DoCallsShow : List DoCall → List Node → Prop
  | [], ns => ns = []
  | c :: calls, ns => ∃ m ms, ns = m :: ms ∧ c.Shows m ∧ DoCallsShow calls ms

end

def Opening.keyword : Opening → String
  | begin_ => "begin"
  | if_ _ => "if"
  | unless_ _ => "unless"
  | case_ _ _ => "case"

def Opening.names : Opening → List MethodName
  | begin_ => []
  | if_ condition | unless_ condition => [condition]
  | case_ subject value => [subject, value]

def NameShows (m : MethodName) (n : Node) : Prop := n.kind = .ident (String.ofList m.chars)

/-- The node is the construct: its names, and behind them its body. -/
def Construct.Shows (k : Construct) (n : Node) : Prop :=
  ∃ names body items, n.kind = .control k.opening.keyword (names ++ [body]) ∧
    List.Forall₂ NameShows k.opening.names names ∧ body.kind = .statements items ∧ DoCallsShow k.body items

/-! ## The words are found -/

variable {gap : List Char} {rest : List Word}

/-- A name in front of a blank or a line feed; at the start of a line only in front of a blank. -/
theorem spelled_nameWord (hgap : ∀ c ∈ gap, c = ' ') (m : MethodName) {w : Word} {c : Char} {r : List Char}
    (hw : w.chars = c :: r) (hc : c ∈ [' ', '\n']) (hstart : gap = [] → c = ' ') (h : Spelled (w :: rest)) :
    Spelled (nameWord gap m :: w :: rest) := by
  have hprint : print (w :: rest) = c :: (r ++ print rest) := by rw [print_cons, hw, List.cons_append]
  have hends : EndsName (print (w :: rest)) := by
    rw [hprint]
    simp only [List.mem_cons, List.not_mem_nil, or_false] at hc
    rcases hc with rfl | rfl
    · exact endsName_cons (by decide) (by decide) _
    · exact endsName_cons (by decide) (by decide) _
  refine .word (by simp) (stands_method hgap m hends fun hnil => ?_) h
  rw [hprint, hstart hnil]
  exact method_not_data m (by decide) _

theorem spelled_doWord (h : Spelled rest) : Spelled (doWord :: newline :: rest) :=
  spelled_keyword (by simp) .doKw (by decide) (endsName_cons (by decide) (by decide) _) (spelled_newline h)

theorem spelled_endWord (hgap : ∀ c ∈ gap, c = ' ') {w : Word} (hw : w ∈ [newline, sign .rparen ")"])
    (h : Spelled (w :: rest)) : Spelled (endWord gap :: w :: rest) := by
  refine spelled_keyword hgap .endKw (by decide) ?_ h
  simp only [List.mem_cons, List.not_mem_nil, or_false] at hw
  rcases hw with rfl | rfl
  · exact endsName_cons (by decide) (by decide) _
  · exact endsName_cons (by decide) (by decide) _

mutual

theorem DoCall.spelled : ∀ (c : DoCall) (indent : List Char) (rest : List Word), (∀ d ∈ indent, d = ' ') →
    Spelled rest → Spelled (c.words indent ++ rest)
  | .mk name body, indent, rest, hindent, h => by
    have hinner : ∀ d ∈ indent ++ [' ', ' '], d = ' ' := by
      intro d hd
      rcases List.mem_append.mp hd with hd | hd
      · exact hindent d hd
      · simpa using hd
    have hend : Spelled (endWord indent :: newline :: rest) :=
      spelled_endWord hindent (List.mem_cons_self ..) (spelled_newline h)
    have hbody := doLines_spelled body (indent ++ [' ', ' ']) _ hinner hend
    have hname := spelled_nameWord hindent name rfl (by simp) (fun _ => rfl) (spelled_doWord hbody)
    simpa [DoCall.words] using hname

theorem doLines_spelled : ∀ (calls : List DoCall) (indent : List Char) (rest : List Word), (∀ d ∈ indent, d = ' ') →
    Spelled rest → Spelled (doLines indent calls ++ rest)
  | [], _, _, _, h => h
  | c :: calls, indent, rest, hindent, h => by
    rw [doLines, List.append_assoc]
    exact c.spelled indent _ hindent (doLines_spelled calls indent rest hindent h)

end

theorem Opening.spelled (o : Opening) (hgap : ∀ c ∈ gap, c = ' ') (h : Spelled rest) :
    Spelled (o.words gap ++ newline :: rest) := by
  have hline : Spelled (newline :: rest) := spelled_newline h
  have hname : ∀ (m : MethodName) {rest : List Word}, Spelled (newline :: rest) →
      Spelled (nameWord [' '] m :: newline :: rest) :=
    fun m _ h => spelled_nameWord (by simp) m (show newline.chars = ['\n'] from rfl) (by simp) (by simp) h
  have hblank : ∀ m : MethodName, ∀ ws, EndsName (print (nameWord [' '] m :: ws)) :=
    fun m ws => endsName_cons (by decide) (by decide) _
  cases o with
  | begin_ => exact spelled_keyword hgap .beginKw (by decide) (endsName_cons (by decide) (by decide) _) hline
  | if_ condition => exact spelled_keyword hgap .ifKw (by decide) (hblank condition _) (hname condition hline)
  | unless_ condition => exact spelled_keyword hgap .unlessKw (by decide) (hblank condition _) (hname condition hline)
  | case_ subject value =>
    have hwhen : Spelled (⟨[], .keyword .whenKw, "when".toList⟩ :: nameWord [' '] value :: newline :: rest) :=
      spelled_keyword (by simp) .whenKw (by decide) (hblank value _) (hname value hline)
    exact spelled_keyword hgap .caseKw (by decide) (hblank subject _) (hname subject (spelled_newline hwhen))

theorem Construct.spelled (k : Construct) (hgap : ∀ c ∈ gap, c = ' ') {w : Word}
    (hw : w ∈ [newline, sign .rparen ")"]) (h : Spelled (w :: rest)) : Spelled (k.words gap ++ w :: rest) := by
  have hend : Spelled (endWord [] :: w :: rest) := spelled_endWord (by simp) hw h
  have hbody := doLines_spelled k.body [' ', ' '] _ (by simp) hend
  have hopening := k.opening.spelled hgap hbody
  simpa [Construct.words] using hopening

theorem pairWords_spelled (key : SymbolName) (k : Construct) (hgap : ∀ c ∈ gap, c = ' ') {w : Word}
    (hw : w ∈ [newline, sign .rparen ")"]) (h : Spelled (w :: rest)) :
    Spelled (pairWords key k gap ++ w :: rest) := by
  have harrow : Spelled (⟨[' '], .fatArrow, "=>".toList⟩ :: (k.words [' '] ++ w :: rest)) :=
    spelled_sign (by simp) ⟨'=', ['>'], rfl, by decide, by simp⟩ (by decide) rfl (k.spelled (by simp) hw h)
  exact .word (by simp) (stands_of_head hgap (startsWord_cons (by decide) _ _) (reads_symbol gap key ⟨' ', _, rfl, by simp⟩))
    harrow

theorem assignWords_spelled (target : MethodName) (k : Construct) : Spelled (assignWords target k) := by
  have hvalue : Spelled (k.words [' '] ++ [newline]) := k.spelled (by simp) (List.mem_cons_self ..) (spelled_newline .nil)
  have hblank : ∃ r, print (k.words [' '] ++ [newline]) = ' ' :: r := by
    obtain ⟨opening, body⟩ := k
    cases opening <;> exact ⟨_, rfl⟩
  obtain ⟨r, hprint⟩ := hblank
  refine spelled_nameWord (by simp) target rfl (by simp) (fun _ => rfl) ?_
  refine spelled_sign (by simp) ⟨'=', [], rfl, by decide, by simp⟩ (by decide) ?_ hvalue
  rw [hprint]
  rfl

theorem commandWords_spelled (f : MethodName) (key : SymbolName) (k : Construct) : Spelled (commandWords f key k) :=
  spelled_nameWord (by simp) f rfl (by simp) (fun _ => rfl)
    (pairWords_spelled key k (by simp) (List.mem_cons_self ..) (spelled_newline .nil))

theorem parenWords_spelled (f : MethodName) (key : SymbolName) (k : Construct) : Spelled (parenWords f key k) :=
  .method (by simp) (pairWords_spelled key k (by simp) (by simp)
    (spelled_sign (by simp) (startsWord_cons (by decide) _ _) (by decide) rfl (spelled_newline .nil)))

end PuppetDocs.Ruby.Decl
