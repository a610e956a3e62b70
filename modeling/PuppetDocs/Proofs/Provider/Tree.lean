import PuppetDocs.Proofs.Decl.Commands
import PuppetDocs.Proofs.Decl.RoundTrip
import PuppetDocs.Proofs.Provider.Syntax
import PuppetDocs.Proofs.Tree.Starts

/-
  PuppetDocs.Proofs.Provider.Tree — the tree of a file that declares one provider.

  Two things do not occur in written programs: a call whose argument stands behind a blank, as
  that of `desc`, and a target of an assignment. With them every style of the file is read, and
  its tree is one call with a block around one statement (`ProviderStyle.parse`).
-/

namespace PuppetDocs.Ruby.Decl

open ParseM

variable {after rest : List Word} {w : Word} {Q : Node → Prop} {gap : List Char} {n start : Nat} {hold : Bool}

/-! ## Operands -/

/-- A string is a value on both sides of an assignment and as an argument. -/
theorem takes_stringOperand {v : StrLit} {text : List Char} (hrest : Closed rest) :
    TakesIn hold (Rule.run (n + 2) .unary) (⟨gap, .string v, text⟩ :: rest) rest fun x => x.kind = .str v :=
  takes_unary rfl (takes_string hrest.1) fun _ _ hx => (takes_closed_trailers hrest _).mono fun _ hy => hy ▸ hx

theorem takes_stringArg {v : StrLit} {text : List Char} (hrest : Closed rest) (harrow : headKind rest ≠ .fatArrow) :
    TakesIn hold (Rule.run (n + 7) .arg) (⟨gap, .string v, text⟩ :: rest) rest fun y => y.kind = .str v := by
  have hcolon : headKind rest ≠ .colon := ne_of_mem_of_not_mem hrest.1 (by decide)
  refine takes_arg ⟨_, _, rfl, rfl, fun _ => hcolon⟩ fun start => ?_
  apply (takes_negation (takes_expr (takes_stringOperand hrest) (List.mem_cons_of_mem _ hrest.1)) (by simp)).bind
  intro y hy
  apply (takes_not_eat harrow).known
  exact takes_pure hy

/-! ## Targets of assignments -/

theorem takes_instanceVar {text : List Char} (hw : w.kind = .assign) :
    TakesIn hold (Rule.run (n + 2) .unary) (⟨gap, .instanceVar, text⟩ :: w :: rest) (w :: rest)
      fun x => x.kind = .instanceVar (String.ofList text) := by
  refine takes_unary rfl ?_ fun x start hx => (takes_assign_trailers hw x).mono fun y hy => hy ▸ hx
  show TakesIn hold (readPrimary (Rule.run n)) _ _ _
  apply takes_peek.bind
  intro t ht
  rw [ht.kind, ht.text]
  exact takes_leaf _

/-- A method of `self`, called without arguments. -/
theorem takes_ownMethod (m : MethodName) (hw : w.kind = .assign) :
    TakesIn hold (Rule.run (n + 3) .unary)
      (⟨gap, .keyword .selfKw, "self".toList⟩ :: sign .dot "." :: ⟨[], .ident, m.chars⟩ :: w :: rest) (w :: rest)
      fun x => ∃ r, x.kind = .call ⟨some r, String.ofList m.chars, [], false, none⟩ ∧ r.kind = .self_ := by
  refine takes_unary rfl (takes_keyword fun _ _ => rfl) fun r start hr => ?_
  show TakesIn hold (readTrailers (Rule.run (n + 1)) start r) _ _ _
  apply takes_peek.bind
  intro t ht
  rw [ht.kind]
  apply takes_bump.bind
  intro _ _
  apply (takes_skipNewlines (by simp)).next
  intro _
  have hcall : TakesIn hold (methodCall (Rule.run (n + 1)) r start) (⟨[], .ident, m.chars⟩ :: w :: rest) (w :: rest)
      fun x => x.kind = .call ⟨some r, String.ofList m.chars, [], false, none⟩ := by
    apply takes_peek.bind
    intro u hu
    have hparen : u.kind ≠ .lparen := by simp [hu.kind]
    have hmethod : methodName? u = some (String.ofList m.chars) := by
      rw [methodName?, hu.kind, hu.text]
    rw [if_neg hparen, hmethod]
    apply takes_bump.bind
    intro _ _
    have hnone : TakesIn hold (callArgs (Rule.run (n + 1))) (w :: rest) (w :: rest) fun r => r = ([], false) := by
      apply (takes_no_parenAt_zero (by simp [hw])).known
      apply (takes_no_commandArgs (by simp [hw, operandClosers])).known
      exact takes_pure rfl
    apply hnone.known
    exact takes_mkNode _ _
  apply hcall.bind
  intro x hx
  exact (takes_assign_trailers hw x).mono fun y hy => ⟨r, hy ▸ hx, hr⟩

/-! ## What the tree shows -/

def NameStyle.Shows (style : NameStyle) (name : String) (n : Node) : Prop :=
  n.kind = if style.symbol then .quotedSymbol (plainString name.toList) else .str (plainString name.toList)

def DocIdiom.Shows (doc : String) : DocIdiom → Node → Prop
  | desc, n => ∃ v, n.kind = .call ⟨none, "desc", [v], false, none⟩ ∧ v.kind = .str (plainString doc.toList)
  | instanceVar, n => ∃ t v, n.kind = .assign t v ∧
      t.kind = .instanceVar "@doc" ∧ v.kind = .str (plainString doc.toList)
  | setter, n => ∃ t v, n.kind = .assign t v ∧
      (∃ r, t.kind = .call ⟨some r, "doc", [], false, none⟩ ∧ r.kind = .self_) ∧ v.kind = .str (plainString doc.toList)

/-- The node is the declaration. -/
def ProviderStyle.Shows (style : ProviderStyle) (typeName name doc : String) (n : Node) : Prop :=
  ∃ path typeArg typeCall nameArg b d,
    n.kind = .call ⟨some typeCall, "provide", [nameArg], true, some b⟩ ∧
    typeCall.kind = .call ⟨some path, "type", [typeArg], true, none⟩ ∧
    puppetType.Shows path ∧ style.typeName.Shows typeName typeArg ∧ style.name.Shows name nameArg ∧
    b.params = [] ∧ b.body.kind = .statements [d] ∧ style.idiom.Shows doc d

/-! ## The file is read -/

theorem closed_closing : Closed blockClosing := closed_newline rfl

theorem reads_quotedName (v : StrLit) (text : List Char) :
    ReadsValue (fun gap => [⟨gap, .quotedSymbol v, text⟩]) fun x => x.kind = .quotedSymbol v := by
  refine readsValue_of_token rfl fun {gap rest n} _ => ?_
  show Takes (readPrimary (Rule.run n)) _ rest _
  apply takes_peek.bind
  intro t ht
  rw [ht.kind]
  exact takes_leaf _

theorem reads_stringName (v : StrLit) (text : List Char) :
    ReadsValue (fun gap => [⟨gap, .string v, text⟩]) fun x => x.kind = .str v :=
  readsValue_of_token rfl fun hrest => takes_string hrest

/-- The one argument in parentheses. -/
abbrev NameStyle.piece (style : NameStyle) (name : String) : Piece :=
  fun gap => [⟨gap, style.kind name, style.write name⟩]

def NameStyle.IsArgument (style : NameStyle) (name : String) (ns : List Node) : Prop :=
  ∃ x, ns = [x] ∧ style.Shows name x

theorem NameStyle.reads (style : NameStyle) (name : String) :
    ReadsList [style.piece name] fun ns => style.IsArgument name (groupPairs ns) := by
  have hitem : ReadsValue (style.piece name) (style.Shows name) := by
    unfold NameStyle.piece NameStyle.kind NameStyle.Shows
    split
    · exact reads_quotedName _ _
    · exact reads_stringName _ _
  refine .cons hitem.item fun x hx => .nil ?_
  have hplain : isEntry x = false ∧ Ruby.isBlockPass x = false := by
    unfold NameStyle.Shows at hx
    split at hx
    · simp [isEntry, Ruby.isBlockPass, hx]
    · simp [isEntry, Ruby.isBlockPass, hx]
  have hgroup : groupPairs [x] = [x] := groupPairs_cons hplain.1 hplain.2 []
  exact ⟨x, hgroup, hx⟩

theorem reads_desc (q : Quote) (doc : String) :
    Takes (Rule.run (n + 10) .unary) (⟨[], .ident, descMethod.chars⟩ :: docWord q doc :: blockClosing) blockClosing
      (DocIdiom.desc.Shows doc) := by
  have hcall : Takes (Rule.run (n + 9) .primary) (⟨[], .ident, descMethod.chars⟩ :: docWord q doc :: blockClosing)
      blockClosing (DocIdiom.desc.Shows doc) := by
    refine (takes_command descMethod (by simp) (.inr ⟨_, rfl⟩)
      (takes_stringArg closed_closing (by simp)) (by simp)).mono fun x hx => ?_
    obtain ⟨y, hcall, hy⟩ := hx
    have hgroup : groupPairs [y] = [y] := groupPairs_cons (by simp [isEntry, hy]) (by simp [Ruby.isBlockPass, hy]) []
    rw [hgroup] at hcall
    exact ⟨y, hcall, hy⟩
  exact takes_unary rfl hcall fun x _ hx => (takes_closed_trailers closed_closing x).mono fun y hy => hy ▸ hx

theorem DocIdiom.reads (idiom : DocIdiom) (q : Quote) (doc : String) (hn : 16 ≤ n) :
    Takes (Rule.run n .statement) (idiom.words (docWord q doc) ++ blockClosing) blockClosing (idiom.Shows doc) := by
  obtain ⟨n, rfl⟩ := Nat.exists_eq_add_of_le' hn
  have hvalue : Takes (Rule.run (n + 12) .expr) (docWord q doc :: blockClosing) blockClosing
      fun v => v.kind = .str (plainString doc.toList) :=
    takes_expr (takes_stringOperand closed_closing) (by decide)
  have hend : headKind blockClosing ∈ [TokenKind.newline, .eof, .rparen, .keyword .doKw] := by simp
  have hline : headKind (docWord q doc :: blockClosing) ≠ .newline := by simp [docWord]
  cases idiom with
  | desc => exact takes_statement (takes_expr (reads_desc q doc) (by decide)) (by simp [words, headKind]) hend
  | instanceVar =>
    have htarget : Takes (Rule.run (n + 10) .unary)
        (⟨[], .instanceVar, "@doc".toList⟩ :: assignSign :: docWord q doc :: blockClosing)
        (assignSign :: docWord q doc :: blockClosing) fun x => x.kind = .instanceVar "@doc" := takes_instanceVar rfl
    have hassign := takes_assign rfl htarget (fun x hx => by simp [isAssignable, hx]) hvalue hline (by decide)
    exact takes_statement hassign (by simp [words, headKind]) hend
  | setter =>
    have htarget : Takes (Rule.run (n + 10) .unary)
        (⟨[], .keyword .selfKw, "self".toList⟩ :: sign .dot "." :: ⟨[], .ident, docMethod.chars⟩ :: assignSign ::
          docWord q doc :: blockClosing) (assignSign :: docWord q doc :: blockClosing)
        fun x => ∃ r, x.kind = .call ⟨some r, "doc", [], false, none⟩ ∧ r.kind = .self_ := takes_ownMethod docMethod rfl
    have hassignable : ∀ x : Node, (∃ r, x.kind = .call ⟨some r, "doc", [], false, none⟩ ∧ r.kind = .self_) →
        isAssignable x = true := by
      rintro x ⟨r, hx, -⟩
      simp [isAssignable, hx]
    have hassign := takes_assign rfl htarget hassignable hvalue hline (by decide)
    exact takes_statement hassign (by simp [words, headKind]) hend

/-- The words from the block on. -/
abbrev blockWords (idiom : DocIdiom) (q : Quote) (doc : String) : List Word :=
  ⟨[' '], .keyword .doKw, "do".toList⟩ :: newline :: (idiom.words (docWord q doc) ++ blockClosing)

theorem DocIdiom.opens (idiom : DocIdiom) (value : Word) (rest : List Word) :
    opensLine (headKind (idiom.words value ++ rest)) = true ∧
      headKind (idiom.words value ++ rest) ∉ TokenKind.eof :: bodyStops := by
  cases idiom <;> exact ⟨rfl, by simp [words, bodyStops]⟩

/-- The block and the statement in it belong to the call in front, and the text ends behind it. -/
theorem takes_docBlock (idiom : DocIdiom) (q : Quote) (doc : String) {x : Node} (hx : takesDo x = true) (hn : 20 ≤ n) :
    Takes (Rule.run n (.trailers start x)) (blockWords idiom q doc) []
      fun y => ∃ b d, y.kind = withBlock x b ∧ b.params = [] ∧ b.body.kind = .statements [d] ∧ idiom.Shows doc d := by
  obtain ⟨n, rfl⟩ := Nat.exists_eq_add_of_le' hn
  obtain ⟨hopens, hstop⟩ := idiom.opens (docWord q doc) blockClosing
  have hbelow : (newline :: (idiom.words (docWord q doc) ++ blockClosing)).dropWhile (fun w => isTerminator w.kind) =
      idiom.words (docWord q doc) ++ blockClosing := dropWhile_newline_terminators hopens
  have hitems : Takes (Rule.run (n + 17) (.items bodyStops))
      (newline :: (idiom.words (docWord q doc) ++ blockClosing)) [⟨[], .keyword .endKw, "end".toList⟩]
      fun ns => ∃ d, ns = [d] ∧ idiom.Shows doc d := by
    refine takes_items hbelow hstop (idiom.reads q doc (by omega)) fun d hd => ?_
    have hend : headKind [⟨[], .keyword .endKw, "end".toList⟩] ∈ TokenKind.eof :: bodyStops := by simp [bodyStops]
    exact takes_no_items rfl hend ⟨d, rfl, hd⟩
  have hclosed : Closed [] := ⟨by decide, by decide⟩
  refine (takes_block hx hitems hclosed).mono fun y hy => ?_
  obtain ⟨b, ns, hkind, hparams, hbody, d, rfl, hd⟩ := hy
  exact ⟨b, d, hkind, hparams, hbody, hd⟩

variable (style : ProviderStyle) (typeName name doc : String)

/-- What is read behind `Puppet::Type` is the declaration. -/
theorem ProviderStyle.takes_calls {path : Node} (hpath : puppetType.Shows path) (hn : 60 ≤ n) :
    Takes (Rule.run n (.trailers start path))
      (sign .dot "." :: ⟨[], .ident, typeMethod.chars⟩ :: sign .lparen "(" :: ([style.typeName.word typeName] ++
        sign .rparen ")" :: sign .dot "." :: ⟨[], .ident, provideMethod.chars⟩ :: sign .lparen "(" ::
        ([style.name.word name] ++ sign .rparen ")" :: blockWords style.idiom style.doc doc))) []
      (style.Shows typeName name doc) := by
  refine takes_member_call typeMethod (k := 40) (style.typeName.reads typeName) (by simp [separated]; omega)
    fun i typeCall ns hi htype hns => ?_
  obtain ⟨typeArg, rfl, htypeArg⟩ := hns
  refine takes_member_call provideMethod (k := 20) (style.name.reads name) (by simp [separated]; omega)
    fun i call ns hi hcall hns => ?_
  obtain ⟨nameArg, rfl, hnameArg⟩ := hns
  have hdo : takesDo call = true := by simp [takesDo, hcall]
  refine (takes_docBlock style.idiom style.doc doc hdo hi).mono fun y hy => ?_
  obtain ⟨b, d, hkind, hparams, hbody, hd⟩ := hy
  refine ⟨path, typeArg, typeCall, nameArg, b, d, ?_, htype, hpath, htypeArg, hnameArg, hparams, hbody, hd⟩
  rw [hkind, withBlock, hcall]
  rfl

theorem ProviderStyle.words_eq : ∃ ws, style.words typeName name doc = ⟨[], .constant, "Puppet".toList⟩ :: ws :=
  ⟨_, rfl⟩

theorem ProviderStyle.reads (hn : 120 ≤ n) :
    Takes (Rule.run n (.items [])) (style.words typeName name doc) []
      fun ns => ∃ x, ns = [x] ∧ style.Shows typeName name doc x := by
  obtain ⟨n, rfl⟩ := Nat.exists_eq_add_of_le' hn
  obtain ⟨ws, hws⟩ := style.words_eq typeName name doc
  have hhead : headKind (style.words typeName name doc) = .constant := by rw [hws, headKind_cons]
  have hstatement : Takes (Rule.run (n + 119) .statement) (style.words typeName name doc) []
      (style.Shows typeName name doc) := by
    have hunary : Takes (Rule.run (n + 113) .unary) (style.words typeName name doc) []
        (style.Shows typeName name doc) :=
      puppetType.reads (k := 60) (by simp) (fun m start path hm hpath => style.takes_calls typeName name doc hpath hm)
        (by simp [puppetType, Path.words])
    exact takes_statement (takes_expr hunary (by decide)) (by rw [hhead]; decide) (by decide)
  refine takes_items (dropWhile_terminators (by rw [hhead]; rfl)) (by simp [hhead]) hstatement fun x hx => ?_
  exact takes_no_items rfl (by decide) ⟨x, rfl, hx⟩

/-- In every style the file is parsed, and its tree is the declaration, on the first line. -/
theorem ProviderStyle.parse : ∃ root n, Ruby.parse (style.text typeName name doc) = .ok (root, []) ∧
    root.kind = .statements [n] ∧ n.line = 1 ∧ style.Shows typeName name doc n := by
  have hspelled := style.spelled typeName name doc
  have hlength : 17 ≤ (style.words typeName name doc).length := by
    simp [words, typeOpening, puppetType, Path.words]
  obtain ⟨root, items, hparse, hroot, n, rfl, hn⟩ := parse_spelled hspelled (style.reads typeName name doc (by omega))
  rw [style.print_words] at hparse
  refine ⟨root, n, hparse, hroot, ?_, hn⟩
  -- The first token is the constant, at the start of the text.
  obtain ⟨s, hscan, -, -, hhead, hspells⟩ := scan_spelled hspelled
  obtain ⟨ws, hws⟩ := style.words_eq typeName name doc
  rw [style.print_words] at hscan
  rw [hws] at hhead hspells
  cases htokens : s.tokens with
  | nil => simp [htokens] at hhead
  | cons t ts =>
    rw [htokens] at hhead hspells
    have hkind : t.kind = .constant := (List.forall₂_cons.mp hspells).1.kind
    have hstart : t.span.start = 0 := by simpa using hhead
    rw [first_line hparse hscan htokens hkind hroot, hstart]
    exact LineIndex.line_eq_count [] _

end PuppetDocs.Ruby.Decl
