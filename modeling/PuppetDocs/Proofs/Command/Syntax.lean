import PuppetDocs.Proofs.Decl.Syntax

/-
  PuppetDocs.Proofs.Command.Syntax — the arguments of a call, with and without parentheses.

  The arguments of a call are values and, at their end, either pairs or one more call that has
  no parentheses, whose last argument may be such a call again. They are written with commas
  between them, and read the same whether a blank or a parenthesis stands in front of them: all
  that the parentheses change is the blank that the first token is marked with.

  What the arguments say is told without spans (`Args.Show`). No part of what they say is a
  block (`Args.Show.blockless`).
-/

namespace PuppetDocs.Ruby.Command

open Decl (MethodName SymbolName Numeral Path Piece Word sign separated print plainString escape)

/-! ## Arguments -/

mutual

inductive Arg where
  | symbol (name : SymbolName)
  | str (content : List Char)
  | int (n : Numeral)
  | nil | true_ | false_
  | array (items : List Arg)
  | operand (o : Operand)

/-- What may stand in front of a dot. -/
inductive Operand where
  | path (p : Path)
  | name (m : MethodName)
  | call (m : MethodName) (args : Option Args)
  | send (receiver : Operand) (m : MethodName) (args : Option Args)

inductive Entry where
  | mk (key value : Arg)

/-- Arguments, at least one. -/
inductive Args where
  | last (a : Arg)
  | pairs (first : Entry) (more : List Entry)
  /-- A call without parentheses takes all the arguments behind its name. -/
  | command (m : MethodName) (args : Args)
  | cons (a : Arg) (more : Args)

end

/-! ## Words -/

mutual

def Arg.words : Arg → Piece
  | .symbol name, gap => [⟨gap, .symbol, ':' :: name.chars⟩]
  | .str content, gap => [⟨gap, .string (plainString content), '\'' :: (escape content ++ ['\''])⟩]
  | .int n, gap => [⟨gap, .number, n.digits⟩]
  | .nil, gap => [⟨gap, .keyword .nilKw, "nil".toList⟩]
  | .true_, gap => [⟨gap, .keyword .trueKw, "true".toList⟩]
  | .false_, gap => [⟨gap, .keyword .falseKw, "false".toList⟩]
  | .array items, gap => ⟨gap, .lbracket, ['[']⟩ :: (separated [] (itemPieces items) ++ [sign .rbracket "]"])
  | .operand o, gap => o.words gap

def itemPieces : List Arg → List Piece
  | [] => []
  | a :: items => a.words :: itemPieces items

def Operand.words : Operand → Piece
  | .path p, gap => p.words gap
  | .name m, gap => [⟨gap, .ident, m.chars⟩]
  | .call m args, gap =>
    ⟨gap, .ident, m.chars⟩ :: sign .lparen "(" :: (separated [] (inside args) ++ [sign .rparen ")"])
  | .send receiver m args, gap =>
    receiver.words gap ++ sign .dot "." :: ⟨[], .ident, m.chars⟩ :: sign .lparen "(" ::
      (separated [] (inside args) ++ [sign .rparen ")"])

/-- What stands between parentheses. -/
def inside : Option Args → List Piece
  | none => []
  | some args => args.pieces

def Entry.words : Entry → Piece
  | .mk key value, gap => key.words gap ++ ⟨[' '], .fatArrow, "=>".toList⟩ :: value.words [' ']

def entryPieces : List Entry → List Piece
  | [] => []
  | e :: entries => e.words :: entryPieces entries

def Args.pieces : Args → List Piece
  | .last a => [a.words]
  | .pairs first more => first.words :: entryPieces more
  | .command m args => [fun gap => ⟨gap, .ident, m.chars⟩ :: separated [' '] args.pieces]
  | .cons a more => a.words :: more.pieces

end

/-- The arguments as they are written behind a blank or a parenthesis. -/
def Args.text (args : Args) : List Char := print (separated [] args.pieces)

/-- The call with a blank behind its name. -/
def bare (m : MethodName) (args : Args) : List Word := ⟨[], .ident, m.chars⟩ :: separated [' '] args.pieces

/-- The call with parentheses. -/
def enclosed (m : MethodName) (args : Args) : List Word :=
  ⟨[], .ident, m.chars⟩ :: sign .lparen "(" :: (separated [] args.pieces ++ [sign .rparen ")"])

/-! ## Gaps -/

/-- Behind other blanks only the first word differs. -/
def Uniform (p : Piece) : Prop := ∃ kind text ws, ∀ gap, p gap = ⟨gap, kind, text⟩ :: ws

theorem Uniform.append {p : Piece} (h : Uniform p) (ws : List Word) : Uniform fun gap => p gap ++ ws := by
  obtain ⟨kind, text, vs, hp⟩ := h
  exact ⟨kind, text, vs ++ ws, fun gap => congrArg (· ++ ws) (hp gap)⟩

theorem uniform_path (p : Path) : Uniform p.words := by
  induction p with
  | name c => exact ⟨_, _, [], fun _ => rfl⟩
  | member p c ih => exact ih.append _

theorem Operand.uniform : ∀ o : Operand, Uniform o.words
  | .path p => uniform_path p
  | .name _ => ⟨_, _, [], fun _ => rfl⟩
  | .call _ _ => ⟨_, _, _, fun _ => rfl⟩
  | .send receiver _ _ => receiver.uniform.append _

theorem Arg.uniform (a : Arg) : Uniform a.words := by
  cases a with
  | operand o => exact o.uniform
  | array items => exact ⟨_, _, _, fun _ => rfl⟩
  | symbol | str | int | nil | true_ | false_ => exact ⟨_, _, [], fun _ => rfl⟩

theorem Entry.uniform : ∀ e : Entry, Uniform e.words
  | .mk key _ => key.uniform.append _

theorem uniform_separated {p : Piece} (hp : Uniform p) (ps : List Piece) : Uniform fun gap => separated gap (p :: ps) := by
  cases ps with
  | nil => exact hp
  | cons q ps => exact hp.append _

theorem Args.uniform (args : Args) : Uniform fun gap => separated gap args.pieces := by
  cases args with
  | last a => exact uniform_separated a.uniform []
  | pairs first more => exact uniform_separated first.uniform _
  | command m args => exact ⟨_, _, _, fun _ => rfl⟩
  | cons a more => exact uniform_separated a.uniform _

theorem Args.print_blank (args : Args) : print (separated [' '] args.pieces) = ' ' :: args.text := by
  obtain ⟨kind, text, ws, hwords⟩ := args.uniform
  simp only [Args.text, hwords]
  rfl

theorem print_bare (m : MethodName) (args : Args) : print (bare m args) = m.chars ++ ' ' :: args.text := by
  rw [← args.print_blank]
  rfl

theorem print_enclosed (m : MethodName) (args : Args) :
    print (enclosed m args) = m.chars ++ '(' :: (args.text ++ [')']) := by
  simp [enclosed, Args.text, print, Word.chars]

/-! ## Trees -/

mutual

def Arg.Shows : Arg → Node → Prop
  | .symbol name, n => n.kind = .symbol (String.ofList name.chars)
  | .str content, n => n.kind = .str (plainString content)
  | .int i, n => n.kind = .number (String.ofList i.digits)
  | .nil, n => n.kind = .nil
  | .true_, n => n.kind = .true_
  | .false_, n => n.kind = .false_
  | .array items, n => ∃ ns, n.kind = .array ns ∧ ItemsShow items ns
  | .operand o, n => o.Shows n

def ItemsShow : List Arg → List Node → Prop
  | [], ns => ns = []
  | a :: items, ns => ∃ m ms, ns = m :: ms ∧ a.Shows m ∧ ItemsShow items ms

def Operand.Shows : Operand → Node → Prop
  | .path p, n => p.Shows n
  | .name m, n => n.kind = .ident (String.ofList m.chars)
  | .call m args, n => ∃ ns, n.kind = .call ⟨none, String.ofList m.chars, ns, true, none⟩ ∧ InsideShows args ns
  | .send receiver m args, n => ∃ r ns,
    n.kind = .call ⟨some r, String.ofList m.chars, ns, true, none⟩ ∧ receiver.Shows r ∧ InsideShows args ns

def InsideShows : Option Args → List Node → Prop
  | none, ns => ns = []
  | some args, ns => args.Show ns

def Entry.Shows : Entry → Node → Prop
  | .mk key value, n => ∃ k v, n.kind = .pair k v ∧ key.Shows k ∧ value.Shows v

def EntriesShow : List Entry → List Node → Prop
  | [], ns => ns = []
  | e :: entries, ns => ∃ m ms, ns = m :: ms ∧ e.Shows m ∧ EntriesShow entries ms

/-- The nodes are what the arguments say; pairs at their end are one hash. -/
def Args.Show : Args → List Node → Prop
  | .last a, ns => ∃ n, ns = [n] ∧ a.Shows n
  | .pairs first more, ns => ∃ n m ms, ns = [n] ∧ n.kind = .hash (m :: ms) ∧ first.Shows m ∧ EntriesShow more ms
  | .command m args, ns => ∃ n ms,
    ns = [n] ∧ n.kind = .call ⟨none, String.ofList m.chars, ms, false, none⟩ ∧ args.Show ms
  | .cons a more, ns => ∃ n ms, ns = n :: ms ∧ a.Shows n ∧ more.Show ms

end

/-! ## Blocks -/

/-- No call in the tree has a block. -/
def Blockless (n : Node) : Prop := ∀ x ∈ n.preorder, ∀ c, x.kind = .call c → c.block = none

theorem blockless_of {n : Node} (hcall : ∀ c, n.kind = .call c → c.block = none) (h : ∀ x ∈ n.children, Blockless x) :
    Blockless n := by
  intro x hx
  rw [n.preorder_eq] at hx
  rcases List.mem_cons.mp hx with rfl | hx
  · exact hcall
  · obtain ⟨child, hchild, hmem⟩ := List.mem_flatMap.mp hx
    exact h child hchild x hmem

theorem blockless_leaf {n : Node} (hcall : ∀ c, n.kind ≠ .call c) (h : n.kind.children = []) : Blockless n :=
  blockless_of (fun c hc => absurd hc (hcall c)) (by rw [Node.children, h]; exact nofun)

theorem blockless_call {n : Node} {receiver : Option Node} {method : String} {args : List Node} {parens : Bool}
    (hkind : n.kind = .call ⟨receiver, method, args, parens, none⟩) (hreceiver : ∀ x ∈ receiver, Blockless x)
    (hargs : ∀ x ∈ args, Blockless x) : Blockless n := by
  refine blockless_of (fun c hc => ?_) fun x hx => ?_
  · rw [hkind] at hc
    cases hc
    rfl
  · simp only [Node.children, hkind, NodeKind.children, List.append_nil, List.mem_append, Option.mem_toList] at hx
    exact hx.elim (hreceiver x) (hargs x)

variable {n : Node} {ns : List Node}

theorem path_blockless {p : Path} (h : p.Shows n) : Blockless n := by
  induction p generalizing n with
  | name c =>
    rw [Path.Shows] at h
    exact blockless_leaf (by simp [h]) (by simp [h, NodeKind.children])
  | member p c ih =>
    obtain ⟨scope, hkind, hscope⟩ := h
    refine blockless_of (by simp [hkind]) fun x hx => ?_
    simp only [Node.children, hkind, NodeKind.children, Option.toList_some, List.mem_singleton] at hx
    exact hx ▸ ih hscope

mutual

theorem Arg.Shows.blockless : ∀ {a : Arg} {n : Node}, a.Shows n → Blockless n
  | .array items, n, h => by
    obtain ⟨ns, hkind, hns⟩ := h
    refine blockless_of (by simp [hkind]) fun x hx => ?_
    simp only [Node.children, hkind, NodeKind.children] at hx
    exact ItemsShow.blockless hns x hx
  | .operand o, n, h => Operand.Shows.blockless h
  | .symbol _, n, h | .str _, n, h | .int _, n, h | .nil, n, h | .true_, n, h | .false_, n, h => by
    rw [Arg.Shows] at h
    exact blockless_leaf (by simp [h]) (by simp [h, NodeKind.children])

theorem ItemsShow.blockless : ∀ {items : List Arg} {ns : List Node}, ItemsShow items ns → ∀ x ∈ ns, Blockless x
  | [], _, h => by
    rw [ItemsShow] at h
    simp [h]
  | _ :: _, _, h => by
    obtain ⟨m, ms, rfl, hm, hms⟩ := h
    exact List.forall_mem_cons.mpr ⟨hm.blockless, hms.blockless⟩

theorem Operand.Shows.blockless : ∀ {o : Operand} {n : Node}, o.Shows n → Blockless n
  | .path _, _, h => path_blockless h
  | .name _, _, h => by
    rw [Operand.Shows] at h
    exact blockless_leaf (by simp [h]) (by simp [h, NodeKind.children])
  | .call _ _, _, h => by
    obtain ⟨ns, hkind, hns⟩ := h
    exact blockless_call hkind (by simp) hns.blockless
  | .send _ _ _, _, h => by
    obtain ⟨r, ns, hkind, hr, hns⟩ := h
    exact blockless_call hkind (by simpa using hr.blockless) hns.blockless

theorem InsideShows.blockless : ∀ {args : Option Args} {ns : List Node}, InsideShows args ns → ∀ x ∈ ns, Blockless x
  | none, _, h => by
    rw [InsideShows] at h
    simp [h]
  | some _, _, h => Args.Show.blockless h

theorem Entry.Shows.blockless : ∀ {e : Entry} {n : Node}, e.Shows n → Blockless n
  | .mk _ _, _, h => by
    obtain ⟨k, v, hkind, hk, hv⟩ := h
    refine blockless_of (by simp [hkind]) fun x hx => ?_
    simp only [Node.children, hkind, NodeKind.children, List.mem_cons, List.not_mem_nil, or_false] at hx
    rcases hx with rfl | rfl
    · exact hk.blockless
    · exact hv.blockless

theorem EntriesShow.blockless : ∀ {entries : List Entry} {ns : List Node}, EntriesShow entries ns → ∀ x ∈ ns, Blockless x
  | [], _, h => by
    rw [EntriesShow] at h
    simp [h]
  | _ :: _, _, h => by
    obtain ⟨m, ms, rfl, hm, hms⟩ := h
    exact List.forall_mem_cons.mpr ⟨hm.blockless, hms.blockless⟩

/-- None of the arguments has a block, and nothing in them has. -/
theorem Args.Show.blockless : ∀ {args : Args} {ns : List Node}, args.Show ns → ∀ x ∈ ns, Blockless x
  | .last _, _, h => by
    obtain ⟨n, rfl, hn⟩ := h
    exact List.forall_mem_singleton.mpr hn.blockless
  | .pairs _ _, _, h => by
    obtain ⟨n, m, ms, rfl, hkind, hm, hms⟩ := h
    refine List.forall_mem_singleton.mpr (blockless_of (by simp [hkind]) ?_)
    rw [Node.children, hkind]
    exact List.forall_mem_cons.mpr ⟨hm.blockless, hms.blockless⟩
  | .command _ _, _, h => by
    obtain ⟨n, ms, rfl, hkind, hms⟩ := h
    exact List.forall_mem_singleton.mpr (blockless_call hkind (by simp) hms.blockless)
  | .cons _ _, _, h => by
    obtain ⟨n, ms, rfl, hn, hms⟩ := h
    exact List.forall_mem_cons.mpr ⟨hn.blockless, hms.blockless⟩

end

end PuppetDocs.Ruby.Command
