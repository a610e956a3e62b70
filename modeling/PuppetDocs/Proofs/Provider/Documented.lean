import PuppetDocs.Proofs.Findings.Notes
import PuppetDocs.Proofs.Provider.Tree
import PuppetDocs.Proofs.Run.Reordering

/-
  PuppetDocs.Proofs.Provider.Documented — a provider is documented as what it is called and says.

  The declaration is recognized in each of its styles (`ProviderStyle.Shows.construct`), its
  names are literals, and the search of its block finds the documentation in each of its
  idioms (`DocIdiom.Shows.documents`). So a run over the file ends with the provider alone,
  without any note, and the style has left no trace in it (`provider_documented`).
-/

namespace PuppetDocs

open Ruby Ruby.Decl

variable {settings : Settings} {style : ProviderStyle} {typeName name doc : String} {n d : Node}

/-! ## The names -/

theorem literal_plainString (text : String) : (plainString text.toList).interpolated = false ∧
    (plainString text.toList).value = text :=
  ⟨rfl, String.ofList_toList⟩

theorem Ruby.Decl.NameStyle.Shows.literal {style : NameStyle} (h : style.Shows name n) : n.literal? = some name := by
  obtain ⟨hplain, hvalue⟩ := literal_plainString name
  unfold NameStyle.Shows at h
  split at h
  · simp [Node.literal?, h, hplain, hvalue]
  · simp [Node.literal?, h, hplain, hvalue]

/-- The one argument of a call is positional. -/
theorem Ruby.Decl.NameStyle.Shows.positional {style : NameStyle} (h : style.Shows name n) {call : Ruby.Call Node}
    (hcall : call.args = [n]) : call.positional = [n] := by
  have hplain : n.isHash = false ∧ n.isBlockPass = false := by
    unfold NameStyle.Shows at h
    split at h
    · simp [Node.isHash, Node.isBlockPass, h]
    · simp [Node.isHash, Node.isBlockPass, h]
  simp [Ruby.Call.positional, Ruby.Call.dropTrailing, hcall, hplain]

/-! ## The documentation -/

/-- Each idiom documents with its string, and says nothing else about the provider. -/
theorem Ruby.Decl.DocIdiom.Shows.documents {idiom : DocIdiom} (h : idiom.Shows doc d) :
    (∃ value, docValue? d = some value ∧ value.literal? = some doc) ∧ ProviderCall.ofNode? d = none := by
  obtain ⟨hplain, hvalue⟩ := literal_plainString doc
  cases idiom with
  | desc =>
    obtain ⟨v, hd, hv⟩ := h
    refine ⟨⟨v, by simp [docValue?, hd], by simp [Node.literal?, hv, hplain, hvalue]⟩, ?_⟩
    simp [ProviderCall.ofNode?, Node.call?, hd]
  | instanceVar =>
    obtain ⟨t, v, hd, ht, hv⟩ := h
    refine ⟨⟨v, by simp [docValue?, isDocField, hd, ht], by simp [Node.literal?, hv, hplain, hvalue]⟩, ?_⟩
    simp [ProviderCall.ofNode?, Node.call?, hd]
  | setter =>
    obtain ⟨t, v, hd, ⟨r, ht, hr⟩, hv⟩ := h
    have hfield : isDocField t = true := by simp [isDocField, ht, Node.isSelf, hr]
    refine ⟨⟨v, by simp [docValue?, hd, hfield], by simp [Node.literal?, hv, hplain, hvalue]⟩, ?_⟩
    simp [ProviderCall.ofNode?, Node.call?, hd]

/-- In a body of one statement that documents, the search ends there. -/
theorem findDocstring_single {body value : Node} (hbody : body.kind = .statements [d]) (hd : docValue? d = some value) :
    findDocstring body = .ofValue value := by
  have hnone : docValue? body = none := by simp [docValue?, hbody]
  have hsome : body.preorder.findSome? docValue? = some value := by
    rw [Node.preorder_eq, List.findSome?_cons, hnone]
    simp [Node.children, NodeKind.children, hbody, Node.preorder_eq d, hd]
  rw [findDocstring_eq, DocSearch.among, hsome]

theorem docstring_found (ctx : Context) (text : String) (at_ : Nat) (subject : String) (line : Nat) :
    ctx.docstring (.found text at_) subject line = pure (Docstring.parse text).markPublic := by
  unfold Context.docstring Context.docText
  rw [pure_bind]

/-! ## The finding -/

def documentedProvider (path typeName name doc : String) : Provider where
  typeName
  name
  location := ⟨path, 1⟩
  docstring := (Docstring.parse (Docs.scrubString doc)).markPublic

theorem puppetType_receiver {path : Node} (h : puppetType.Shows path) {call : Ruby.Call Node}
    (hcall : call.receiver = some path) : call.receiverIs "Puppet::Type" = true := by
  obtain ⟨scope, hpath, hscope⟩ := h
  obtain ⟨pathKind, pathSpan, pathLine⟩ := path
  obtain ⟨scopeKind, scopeSpan, scopeLine⟩ := scope
  dsimp only at hpath hscope
  subst hpath
  cases hscope
  exact receiverIs_qualified hcall (by decide)

/-- The declaration is recognized as one of a provider. -/
theorem Ruby.Decl.ProviderStyle.Shows.construct (h : style.Shows typeName name doc n) :
    ∃ typeCall call, Construct.ofNode? n = some (.provider typeCall call) ∧
      typeCall.args.head?.bind Node.literal? = some typeName ∧
      (∃ first, call.positional = [first] ∧ first.literal? = some name) ∧
      ∃ d, call.blockStatements = [d] ∧ ProviderCall.ofNode? d = none ∧
        ∃ line, searchBlock call = .found (Docs.scrubString doc) line := by
  obtain ⟨path, typeArg, typeNode, nameArg, b, d, hn, htype, hpath, htypeArg, hnameArg, -, hbody, hd⟩ := h
  let typeCall : Ruby.Call Node := ⟨some path, "type", [typeArg], true, none⟩
  let call : Ruby.Call Node := ⟨some typeNode, "provide", [nameArg], true, some b⟩
  obtain ⟨⟨value, hvalue, hliteral⟩, hnone⟩ := hd.documents
  have hinner : call.receiver.bind Node.call? = some typeCall := by simp [call, typeCall, Node.call?, htype]
  have htypeCall : Construct.typeCall? call = some typeCall :=
    typeCall?_eq_some hinner rfl (puppetType_receiver hpath rfl) rfl
  refine ⟨typeCall, call, ?_, htypeArg.literal, ⟨nameArg, hnameArg.positional rfl, hnameArg.literal⟩, d, ?_, hnone,
    value.line, ?_⟩
  · have hcall : n.call? = some call := by simp [Node.call?, hn, call]
    rw [Construct.ofNode?, hcall, Option.bind_some]
    exact congrArg (Option.map _) htypeCall
  · simp [Ruby.Call.blockStatements, Node.statements, call, hbody]
  · have hsearch : searchBlock call = findDocstring b.body := rfl
    rw [hsearch, findDocstring_single hbody hvalue, DocSearch.ofValue, hliteral]

/-- What is found is the provider, without any note. -/
theorem provider_found {ctx : Context} {typeCall call : Ruby.Call Node} {line : Nat} {first : Node}
    (htype : typeCall.args.head?.bind Node.literal? = some typeName) (hname : call.positional = [first])
    (hliteral : first.literal? = some name) (hbody : call.blockStatements = [d]) (hd : ProviderCall.ofNode? d = none)
    (hsearch : searchBlock call = .found (Docs.scrubString doc) line) (hline : n.line = 1) :
    ctx.provider n typeCall call =
      .ok (pure (.object (.provider (documentedProvider ctx.tree.path typeName name doc)))) := by
  have hrequired : ctx.requiredName n call = .ok name := Context.requiredName_ok (by rw [hname]; exact hliteral)
  have hkeep : ∀ p : Provider, ctx.providerStatement p d = pure p := fun p => by
    simp only [Context.providerStatement, hd]
  unfold Context.provider
  rw [Context.resourceTypeName_ok htype, hrequired]
  simp only [hsearch, hbody, docstring_found, List.foldlM_cons, List.foldlM_nil, hkeep, hline, pure_bind]
  rfl

/-! ## The run -/

theorem register_empty (o : CodeObject) : Registry.register {} o = .ok { entries := [(o.key, o)] } :=
  Registry.register_free (by simp [Registry.keys])

/-- A file in which one object is found, and nothing noted, leaves the object alone. -/
theorem addTree_single {tree : SyntaxTree} {o : CodeObject}
    (h : Context.findings { tree, settings } = [.ok (pure (.object o))]) :
    ({ settings } : Run).addTree tree = { settings, registry := { entries := [(o.key, o)] } } := by
  have hcollected : Collected.ofFindings [.ok (pure (.object o))] = { registry := { entries := [(o.key, o)] } } := by
    show (Collected.report {} []).keep (.object o) = _
    simp only [Collected.keep, Collected.report, Registry.record, register_empty, List.map_nil, List.append_nil]
  have hmerge : Registry.merge {} { entries := [(o.key, o)] } = ({ entries := [(o.key, o)] }, []) := by
    simp only [Registry.merge, Registry.objects, List.map_cons, List.map_nil, Registry.registerAll, register_empty,
      List.append_nil]
  unfold Run.addTree
  simp only [h, hcollected, hmerge, Run.report, List.map_nil, List.append_nil]

/-- At the end of a run nothing is left to do for a provider alone. -/
theorem finalize_provider (p : Provider) :
    Registry.finalize { entries := [((CodeObject.provider p).key, .provider p)] } =
    ({ entries := [((CodeObject.provider p).key, .provider p)] }, []) := by
  simp [Registry.finalize, Registry.applyExtensions, Registry.linkProviders, Registry.updateType,
    Registry.defaultNamevars, CodeObject.asProvider?, CodeObject.mapType]

/-- A file that declares a provider, with names and documentation of any text and in any style, is taken in without a
problem. When the run is finished, the registry holds the provider on line 1 and nothing else, and there are no notes.
The style has no part in the result. -/
theorem provider_documented (settings : Settings) {path : String} (hruby : settings.grammarFor path = some .ruby)
    (style : ProviderStyle) (typeName name doc : String) :
    ∃ r, ({ settings } : Run).addSource path (String.ofList (style.text typeName name doc)) = (r, none) ∧
      r.finish = { settings, diagnostics := [], registry := { extensions := [], entries :=
        [(⟨.provider, typeName, name⟩, .provider (documentedProvider path typeName name doc))] } } := by
  obtain ⟨root, n, hparse, hroot, hline, hshows⟩ := style.parse typeName name doc
  obtain ⟨typeCall, call, hconstruct, htype, ⟨first, hname, hliteral⟩, d, hbody, hd, line, hsearch⟩ := hshows.construct
  have hconstructs : constructs root = [(n, .provider typeCall call)] := by
    simp [constructs, Node.statements, hroot, inspected_eq, hconstruct]
  let tree : SyntaxTree := ⟨path, style.text typeName name doc, .ruby root, []⟩
  have htree : SyntaxTree.parse path (String.ofList (style.text typeName name doc)) .ruby = .ok tree := by
    simp only [SyntaxTree.parse, String.toList_ofList, hparse]
    rfl
  have hfindings : Context.findings { tree, settings } =
      [.ok (pure (.object (.provider (documentedProvider path typeName name doc))))] := by
    simp only [Context.findings, tree, hconstructs, List.map_cons, List.map_nil, Context.findingOf]
    rw [provider_found htype hname hliteral hbody hd hsearch hline]
  refine ⟨({ settings } : Run).addTree tree, ?_, ?_⟩
  · simp only [Run.addSource, hruby, htree]
  · rw [addTree_single hfindings]
    simp only [Run.finish, finalize_provider, Run.report, List.append_nil]
    rfl

/-- Quotes, a backslash and the start of an interpolation in the names and in the documentation. -/
theorem provider_documented_quoted :
    Settings.grammarFor {} "p.rb" = some .ruby ∧
      ∃ r, Run.addSource {} "p.rb" (String.ofList
          "Puppet::Type.type(:\"t\\\"\").provide('p\\'') do\n@doc = \"a \\\\ \\#\x7bb\x7d\"\nend".toList) = (r, none) ∧
        r.finish = { registry := { entries :=
          [(⟨.provider, "t\"", "p'"⟩, .provider (documentedProvider "p.rb" "t\"" "p'" "a \\ #\x7bb\x7d"))] } } :=
  ⟨by decide +kernel, provider_documented {} (by decide +kernel)
    ⟨⟨true, .double⟩, ⟨false, .single⟩, .instanceVar, .double⟩ "t\"" "p'" "a \\ #\x7bb\x7d"⟩

end PuppetDocs
