import PuppetDocs.Proofs.Findings.Notes
import PuppetDocs.Proofs.Registry.Merge

/-
  PuppetDocs.Proofs.Findings.Visibility — who the objects of a file are for.

  An object is documented by a text of its file: a value in the block or among the options of
  the call that declares it, or the comment right above it (`SyntaxTree.Declares`). A text that
  is missing or no literal counts as empty. The docstring of an object is what its text says,
  with the tag `api public` behind the other tags if none of them states who it is for
  (`Declares.docstring`), whatever sort of object it is.
-/

namespace PuppetDocs

open Ruby

/-! ## Docstrings -/

namespace Docstring

/-- The tag of an object that does not say who it is for. -/
def publicTag : Tag := { name := "api", text? := some "public" }

theorem hasTag_addTag (d : Docstring) (t : Tag) : (d.addTag t).hasTag t.name = true := by
  simp [hasTag, tag?, addTag]

theorem hasTag_markPublic (d : Docstring) : d.markPublic.hasTag "api" = true := by
  unfold markPublic
  split
  · assumption
  · exact hasTag_addTag d publicTag

theorem markPublic_text (d : Docstring) : d.markPublic.text = d.text := by
  unfold markPublic
  split <;> rfl

theorem markPublic_tags (d : Docstring) :
    d.markPublic.tags = if d.hasTag "api" then d.tags else d.tags ++ [publicTag] := by
  unfold markPublic
  split <;> rfl

end Docstring

/-! ## Texts -/

/-- The text that a search has found, empty if there is none that can be read. -/
def DocSearch.text : DocSearch → String
  | .found text _ => text
  | .notFound | .unresolvable _ => ""

/-- The text of the comments right above a line. -/
def SyntaxTree.textAbove (tree : SyntaxTree) (line : Nat) : String := ((tree.blockBefore line).map (·.text)).getD ""

/-- A search of the block of a resource type. -/
def searchType (call : Call Node) : DocSearch :=
  match call.block with
  | some block => findDocstringPruned block.body Context.documentsOther
  | none => .notFound

/-- The text that documents what a construct declares. -/
def Construct.text (tree : SyntaxTree) (statement : Node) : Construct → String
  | .resourceType call => (searchType call).text
  | .extension _ _ call | .provider _ call => (searchBlock call).text
  | .function4x _ | .dataType _ => tree.textAbove statement.line
  | .function3x call => (searchValue (call.option? "doc")).text
  | .apiType call => (searchValue (call.option? "docs")).text

/-- The object is declared in the tree, with this text to document it. -/
inductive SyntaxTree.Declares (tree : SyntaxTree) (settings : Settings) : CodeObject → String → Prop
  | construct {program statement : Node} {construct : Construct} {noted : Noted Found} {o : CodeObject} :
      tree.root = .ruby program → (statement, construct) ∈ constructs program →
      Context.findingOf { tree, settings } statement construct = .ok noted → noted.value = .object o →
      Declares tree settings o (construct.text tree statement)
  | definition {definitions : List Manifest.Definition} {d : Manifest.Definition} :
      tree.root = .puppet definitions → d ∈ Manifest.flattenAll definitions →
      Declares tree settings (Context.definition { tree, settings } d).value (tree.textAbove d.line)

/-- Everything that is found as an object is declared. -/
theorem SyntaxTree.declares_of_found {tree : SyntaxTree} {settings : Settings} {o : CodeObject}
    (h : Found.object o ∈ Registry.foundIn settings tree) : ∃ text, tree.Declares settings o text := by
  obtain ⟨finding, hfinding, hvalue⟩ := List.mem_filterMap.mp h
  obtain ⟨noted, hnoted, hvalue⟩ := Option.map_eq_some_iff.mp hvalue
  have hok : finding = .ok noted := by
    cases finding with
    | error p => cases hnoted
    | ok found =>
      cases hnoted
      rfl
  subst hok
  unfold Context.findings at hfinding
  split at hfinding
  · next program hroot =>
    obtain ⟨⟨statement, construct⟩, hmem, hfound⟩ := List.mem_map.mp hfinding
    exact ⟨_, .construct hroot hmem hfound (Option.some.inj hvalue)⟩
  · next definitions hroot =>
    obtain ⟨d, hd, hfound⟩ := List.mem_map.mp hfinding
    cases hfound
    cases hvalue
    exact ⟨_, .definition hroot hd⟩

/-! ## Docstrings of declarations -/

theorem Noted.pure_value {α : Type} (a : α) : (pure a : Noted α).value = a := rfl

/-- A finding is an object with the docstring of this text, or no object. -/
def Found.DocumentedBy (text : String) : Found → Prop
  | .object o => o.docstring = (Docstring.parse text).markPublic
  | .extension _ => True

def Finding.DocumentedBy (text : String) (e : Finding) : Prop := ∀ x, e = .ok x → x.value.DocumentedBy text

theorem Finding.DocumentedBy.after {α : Type} {text : String} {e : Except Problem α} {k : α → Finding}
    (h : ∀ a, (k a).DocumentedBy text) : Finding.DocumentedBy text (e >>= k) := by
  intro x hx
  cases e with
  | error p => cases hx
  | ok a => exact h a x hx

theorem Finding.DocumentedBy.of_ok {text : String} {x : Noted Found} (h : x.value.DocumentedBy text) :
    Finding.DocumentedBy text (.ok x) := by
  intro y hy
  cases hy
  exact h

theorem Finding.DocumentedBy.of_object {text : String} {x : Noted Found} {o : CodeObject} (hx : x.value = .object o)
    (h : o.docstring = (Docstring.parse text).markPublic) : Finding.DocumentedBy text (.ok x) := by
  refine .of_ok ?_
  rw [hx]
  exact h

theorem Finding.DocumentedBy.of_extension {text : String} {x : Noted Found} {e : TypeExtension}
    (hx : x.value = .extension e) : Finding.DocumentedBy text (.ok x) := by
  refine .of_ok ?_
  rw [hx]
  exact True.intro

namespace Context

variable {ctx : Context}

theorem docText_value (search : DocSearch) (subject : String) (line : Nat) :
    (ctx.docText search subject line).value = search.text := by
  cases search <;> rfl

theorem docstring_value (search : DocSearch) (subject : String) (line : Nat) :
    (ctx.docstring search subject line).value = (Docstring.parse search.text).markPublic := by
  unfold docstring
  rw [Noted.bind_value, docText_value, Noted.pure_value]

theorem parse_empty : Docstring.parse "" = {} := by decide +kernel

theorem commentDocstring_value (line : Nat) (subject : String) :
    (ctx.commentDocstring line subject).value = (Docstring.parse (ctx.tree.textAbove line)).markPublic := by
  unfold commentDocstring SyntaxTree.textAbove
  cases ctx.tree.blockBefore line with
  | some block => rw [Noted.pure_value, Option.map_some, Option.getD_some]
  | none => exact congrArg Docstring.markPublic parse_empty.symm

/-! ## Docstrings of constructs -/

section Constructs

variable (statement : Node) (call : Call Node)

theorem documentedBy_resourceType : (ctx.resourceType statement call).DocumentedBy (searchType call).text := by
  refine .after fun name => .of_object rfl ?_
  dsimp only [CodeObject.docstring]
  rw [typeStatements_keep ResourceType.docstring fun _ _ _ _ => rfl, docstring_value]
  rfl

theorem documentedBy_provider (typeCall : Call Node) :
    (ctx.provider statement typeCall call).DocumentedBy (searchBlock call).text := by
  refine .after fun typeName => .after fun name => .of_object rfl ?_
  dsimp only [CodeObject.docstring]
  rw [providerStatements_keep Provider.docstring fun _ _ _ _ _ => rfl, docstring_value]

theorem documentedBy_function4x :
    (ctx.function4x statement call).DocumentedBy (ctx.tree.textAbove statement.line) := by
  refine .after fun name => .of_object rfl ?_
  dsimp only [CodeObject.docstring]
  exact commentDocstring_value _ _

theorem documentedBy_function3x :
    (ctx.function3x statement call).DocumentedBy (searchValue (call.option? "doc")).text := by
  refine .after fun name => .of_object rfl ?_
  dsimp only [CodeObject.docstring]
  exact docstring_value _ _ _

theorem documentedBy_dataType : (ctx.dataType statement call).DocumentedBy (ctx.tree.textAbove statement.line) := by
  refine .after fun name => .of_object rfl ?_
  dsimp only [CodeObject.docstring]
  exact commentDocstring_value _ _

theorem documentedBy_apiType : (ctx.apiType statement call).DocumentedBy (searchValue (call.option? "docs")).text := by
  refine .after fun name => .of_ok ?_
  simp only [Noted.bind_value]
  split
  all_goals
    dsimp only [Noted.bind_value, Noted.pure_value, Found.DocumentedBy, CodeObject.docstring]
    rw [addAttributes_keep ResourceType.docstring fun _ _ _ => rfl, docstring_value]

/-- Whatever is declared has the docstring of the text that documents it. -/
theorem documentedBy_findingOf (construct : Construct) :
    (ctx.findingOf statement construct).DocumentedBy (construct.text ctx.tree statement) := by
  cases construct with
  | resourceType call => exact documentedBy_resourceType statement call
  | extension kind typeCall call => exact .after fun _ => .after fun _ => .of_extension rfl
  | provider typeCall call => exact documentedBy_provider statement call typeCall
  | function4x call => exact documentedBy_function4x statement call
  | function3x call => exact documentedBy_function3x statement call
  | dataType call => exact documentedBy_dataType statement call
  | apiType call => exact documentedBy_apiType statement call

end Constructs

theorem definition_docstring (d : Manifest.Definition) :
    (ctx.definition d).value.docstring = (Docstring.parse (ctx.tree.textAbove d.line)).markPublic := by
  unfold definition
  rw [Noted.bind_value, commentDocstring_value]
  generalize (Docstring.parse (ctx.tree.textAbove d.line)).markPublic = docstring
  split <;> rfl

end Context

/-- The docstring of what is declared says what its text says, and who the object is for. -/
theorem SyntaxTree.Declares.docstring {tree : SyntaxTree} {settings : Settings} {o : CodeObject} {text : String}
    (h : tree.Declares settings o text) : o.docstring = (Docstring.parse text).markPublic := by
  cases h with
  | construct _ _ hfound hvalue =>
    have hdocumented := Context.documentedBy_findingOf _ _ _ hfound
    rw [hvalue] at hdocumented
    exact hdocumented
  | definition => exact Context.definition_docstring _

end PuppetDocs
