import Mathlib.Data.List.Basic
import PuppetDocs.Findings.File
import PuppetDocs.Proofs.Tree.Order

/-
  PuppetDocs.Proofs.Findings.Notes — what is noted while a declaration is read.

  Reading a declaration notes nothing but warnings, each about a line of the file it is read
  from: in a Ruby file the line of a node of the statement, in a manifest the line of the
  definition or of one of its parameters (`Remark`). None of them is about a name that is used
  twice; that is found out when the object is registered.

  A Ruby construct gives an object or an extension placed at its statement, or fails as
  undocumentable there with nothing noted (`findingOf_reads`): its name is read first.
-/

namespace PuppetDocs

open Ruby

/-! ## Lines of a tree -/

namespace Ruby.Node

theorem preorder_trans {n x y : Node} (hx : x ∈ n.preorder) (hy : y ∈ x.preorder) : y ∈ n.preorder := by
  induction x using Node.induction with
  | h x ih =>
    rw [preorder_eq] at hy
    rcases List.mem_cons.mp hy with rfl | hy
    · exact hx
    · obtain ⟨z, hz, hy⟩ := List.mem_flatMap.mp hy
      exact ih z hz (child_mem_preorder hx hz) hy

theorem child_preorder {n x : Node} (hx : x ∈ n.children) : x ∈ n.preorder := child_mem_preorder n.mem_preorder hx

theorem statements_preorder {n x : Node} (hx : x ∈ n.statements) : x ∈ n.preorder := by
  unfold statements at hx
  split at hx
  · next items hkind => exact child_preorder (by simpa [children, NodeKind.children, hkind] using hx)
  · rw [List.mem_singleton.mp hx]
    exact n.mem_preorder

theorem preorderPruned_preorder {prune : Node → Bool} {n x : Node} (hx : x ∈ n.preorderPruned prune) : x ∈ n.preorder := by
  induction n using Node.induction with
  | h n ih =>
    rw [preorderPruned_eq] at hx
    rcases List.mem_cons.mp hx with rfl | hx
    · exact x.mem_preorder
    · obtain ⟨y, hy, hx⟩ := List.mem_flatMap.mp hx
      have hchild := (List.mem_filter.mp hy).1
      exact preorder_trans (child_preorder hchild) (ih y hchild hx)

/-- A node of the tree is on this line. -/
def HasLine (n : Node) (line : Nat) : Prop := ∃ x ∈ n.preorder, x.line = line

theorem hasLine (n : Node) : n.HasLine n.line := ⟨n, n.mem_preorder, rfl⟩

theorem HasLine.above {n x : Node} {line : Nat} (h : x.HasLine line) (hx : x ∈ n.preorder) : n.HasLine line := by
  obtain ⟨y, hy, hline⟩ := h
  exact ⟨y, preorder_trans hx hy, hline⟩

end Ruby.Node

section Calls

variable {n : Node} {call : Call Node}

theorem arg_preorder (hcall : n.call? = some call) {arg : Node} (harg : arg ∈ call.args) : arg ∈ n.preorder := by
  unfold Node.call? at hcall
  split at hcall
  · next c hkind =>
    cases hcall
    exact Node.child_preorder (by simp [Node.children, NodeKind.children, hkind, harg])
  · cases hcall

theorem block_preorder (hcall : n.call? = some call) {block : Block Node} (hblock : call.block = some block) :
    block.body ∈ n.preorder := by
  unfold Node.call? at hcall
  split at hcall
  · next c hkind =>
    cases hcall
    exact Node.child_preorder (by simp [Node.children, NodeKind.children, hkind, hblock])
  · cases hcall

theorem blockStatements_preorder (hcall : n.call? = some call) {x : Node} (hx : x ∈ call.blockStatements) :
    x ∈ n.preorder := by
  unfold Call.blockStatements at hx
  split at hx
  · next block hblock => exact Node.preorder_trans (block_preorder hcall hblock) (Node.statements_preorder hx)
  · cases hx

theorem dropTrailing_subset (p : Node → Bool) (ns : List Node) : Call.dropTrailing p ns ⊆ ns := by
  unfold Call.dropTrailing
  split
  · exact List.dropLast_subset ns
  · exact fun _ h => h

theorem positional_preorder (hcall : n.call? = some call) {arg : Node} (harg : arg ∈ call.positional) :
    arg ∈ n.preorder :=
  arg_preorder hcall (dropTrailing_subset _ _ (dropTrailing_subset _ _ harg))

theorem hashValue?_preorder {hash value : Node} {key : String} (h : hash.hashValue? key = some value) :
    value ∈ hash.preorder := by
  unfold Node.hashValue? at h
  split at h
  · next entries hkind =>
    obtain ⟨entry, hentry, hvalue⟩ := List.exists_of_findSome?_eq_some h
    have hentry' : entry ∈ hash.preorder := Node.child_preorder (by simpa [Node.children, NodeKind.children, hkind])
    split at hvalue
    · next k v hpair =>
      split at hvalue
      · cases hvalue
        exact Node.child_mem_preorder hentry' (by simp [Node.children, NodeKind.children, hpair])
      · cases hvalue
    · cases hvalue
  · cases h

theorem option?_preorder (hcall : n.call? = some call) {key : String} {value : Node}
    (h : call.option? key = some value) : value ∈ n.preorder := by
  obtain ⟨options, hoptions, hvalue⟩ := Option.bind_eq_some_iff.mp h
  have hfind := (Option.filter_eq_some_iff.mp hoptions).1
  have harg : options ∈ call.args := List.mem_reverse.mp (List.mem_of_find?_eq_some hfind)
  exact Node.preorder_trans (arg_preorder hcall harg) (hashValue?_preorder hvalue)

end Calls

/-! ## Searches -/

/-- A search that ends at a value which cannot be read ends at a line of the tree. -/
def DocSearch.EndsIn (search : DocSearch) (n : Node) : Prop := ∀ line, search = .unresolvable line → n.HasLine line

namespace DocSearch

variable {n : Node}

theorem endsIn_notFound : DocSearch.notFound.EndsIn n := fun _ h => nomatch h

theorem endsIn_ofValue {value : Node} (hvalue : value ∈ n.preorder) : (DocSearch.ofValue value).EndsIn n := by
  intro line h
  unfold ofValue at h
  split at h
  · cases h
  · cases h
    exact value.hasLine.above hvalue

theorem docValue?_preorder {x value : Node} (h : docValue? x = some value) : value ∈ x.preorder := by
  unfold docValue? at h
  split at h
  · next target v hkind =>
    split at h
    · cases h
      exact Node.child_preorder (by simp [Node.children, NodeKind.children, hkind])
    · cases h
  · next c hkind =>
    split at h
    · split at h
      · next v hargs hblock =>
        cases h
        exact Node.child_preorder (by simp [Node.children, NodeKind.children, hkind, hargs])
      · cases h
    · cases h
  · cases h

theorem endsIn_among {ns : List Node} (hns : ∀ x ∈ ns, x ∈ n.preorder) : (DocSearch.among ns).EndsIn n := by
  unfold among
  split
  · next value hvalue =>
    obtain ⟨x, hx, hvalue⟩ := List.exists_of_findSome?_eq_some hvalue
    exact endsIn_ofValue (Node.preorder_trans (hns x hx) (docValue?_preorder hvalue))
  · exact endsIn_notFound

theorem endsIn_findDocstring {root : Node} (hroot : root ∈ n.preorder) : (findDocstring root).EndsIn n := by
  rw [findDocstring_eq]
  exact endsIn_among fun _ hx => Node.preorder_trans hroot hx

theorem endsIn_pruned {root : Node} (hroot : root ∈ n.preorder) (prune : Node → Bool) :
    (findDocstringPruned root prune).EndsIn n := by
  rw [findDocstringPruned_eq]
  exact endsIn_among fun _ hx => Node.preorder_trans hroot (Node.preorderPruned_preorder hx)

theorem endsIn_searchBlock {call : Call Node} (hcall : n.call? = some call) : (searchBlock call).EndsIn n := by
  unfold searchBlock
  split
  · next block hblock => exact endsIn_findDocstring (block_preorder hcall hblock)
  · exact endsIn_notFound

theorem endsIn_searchValue {value : Option Node} (hvalue : ∀ v, value = some v → v ∈ n.preorder) :
    (searchValue value).EndsIn n := by
  unfold searchValue
  split
  · next v => exact endsIn_ofValue (hvalue v rfl)
  · exact endsIn_notFound

end DocSearch

/-! ## Codes -/

theorem Code.text_injective {a b : Code} (h : a.text = b.text) : a = b := by
  have back : ∀ c : Code, all.find? (·.text == c.text) = some c := by
    intro c
    cases c <;> decide
  exact Option.some.inj ((back a).symm.trans (h ▸ back b))

theorem Diagnostic.hasCode_eq {d : Diagnostic} {code : Code} (h : d.code = some code.text) (other : Code) :
    d.hasCode other = decide (code = other) := by
  by_cases e : code = other
  · simp [hasCode, h, e]
  · have text : code.text ≠ other.text := fun he => e (Code.text_injective he)
    simp [hasCode, h, e, text]

/-! ## Remarks -/

/-- A warning about one of these lines of the file, and not about a name that is used twice. -/
structure Remark (path : String) (lines : Nat → Prop) (d : Diagnostic) : Prop where
  severity : d.severity = .warning
  file : d.file = some path
  line : ∃ l, d.line = some l ∧ lines l
  code : d.hasCode .duplicateName = false

theorem Remark.mono {path : String} {lines lines' : Nat → Prop} {d : Diagnostic} (h : Remark path lines d)
    (hlines : ∀ l, lines l → lines' l) : Remark path lines' d := by
  obtain ⟨l, hd, hl⟩ := h.line
  exact ⟨h.severity, h.file, ⟨l, hd, hlines l hl⟩, h.code⟩

theorem hasCode_text (code : Code) {d : Diagnostic} (hd : d.code = some code.text) (hcode : code ≠ .duplicateName) :
    d.hasCode .duplicateName = false := by
  rw [Diagnostic.hasCode_eq hd, decide_eq_false hcode]

theorem remark_undocumentable (ctx : Context) {lines : Nat → Prop} {line : Nat} (hline : lines line) (message : String) :
    Remark ctx.tree.path lines (ctx.undocumentable line message).toDiagnostic :=
  ⟨rfl, rfl, ⟨line, rfl, hline⟩, hasCode_text .undocumentable rfl (by decide)⟩

namespace Noted

instance : LawfulMonad Noted :=
  .mk' Noted (fun x => congrArg (Noted.mk x.value) (List.append_nil x.notes))
    (fun x f => congrArg (Noted.mk (f x).value) (List.nil_append (f x).notes))
    (fun x f g => congrArg (Noted.mk (g (f x.value).value).value) (List.append_assoc _ _ _))

/-- Nothing is noted but remarks on these lines. -/
def Remarks {α : Type} (path : String) (lines : Nat → Prop) (x : Noted α) : Prop := ∀ d ∈ x.notes, Remark path lines d

section Remarks

variable {α β : Type} {path : String} {lines lines' : Nat → Prop} {x : Noted α} {f : α → Noted β}

theorem Remarks.mono (h : x.Remarks path lines) (hlines : ∀ l, lines l → lines' l) : x.Remarks path lines' :=
  fun d hd => (h d hd).mono hlines

theorem remarks_pure (a : α) : (pure a : Noted α).Remarks path lines := fun _ hd => nomatch hd

theorem Remarks.bind (hx : x.Remarks path lines) (hf : ∀ a, (f a).Remarks path lines) :
    (x >>= f).Remarks path lines := by
  intro d hd
  rcases List.mem_append.mp hd with hd | hd
  · exact hx d hd
  · exact hf x.value d hd

/-- What is noted on a condition, before the rest of a reading. -/
theorem Remarks.guarded {c : Prop} [Decidable c] {g : PUnit → Noted β} {note : Noted PUnit}
    (hnote : note.Remarks path lines) (hg : (g ⟨⟩).Remarks path lines) :
    (if c then note >>= g else g ⟨⟩).Remarks path lines := by
  by_cases hc : c
  · rw [if_pos hc]
    exact hnote.bind fun _ => hg
  · rw [if_neg hc]
    exact hg

theorem Remarks.map (hx : x.Remarks path lines) (g : α → β) : (g <$> x).Remarks path lines :=
  hx.bind fun a => remarks_pure (g a)

theorem remarks_mapM {as : List α} (hf : ∀ a ∈ as, (f a).Remarks path lines) : (as.mapM f).Remarks path lines := by
  induction as with
  | nil => exact remarks_pure []
  | cons a as ih =>
    rw [List.mapM_cons]
    refine (hf a List.mem_cons_self).bind fun b => ?_
    exact (ih fun c hc => hf c (List.mem_cons_of_mem _ hc)).bind fun bs => remarks_pure (b :: bs)

theorem remarks_foldlM {as : List α} {g : β → α → Noted β} (hg : ∀ b, ∀ a ∈ as, (g b a).Remarks path lines) (b : β) :
    (as.foldlM g b).Remarks path lines := by
  induction as generalizing b with
  | nil => exact remarks_pure b
  | cons a as ih =>
    rw [List.foldlM_cons]
    exact (hg b a List.mem_cons_self).bind (ih fun c d hd => hg c d (List.mem_cons_of_mem _ hd))

theorem remarks_forM {as : List α} {g : α → Noted Unit} (hg : ∀ a ∈ as, (g a).Remarks path lines) :
    (as.forM g).Remarks path lines := by
  induction as with
  | nil => exact remarks_pure ()
  | cons a as ih =>
    change (g a >>= fun _ => as.forM g).Remarks path lines
    exact (hg a List.mem_cons_self).bind fun _ => ih fun c hc => hg c (List.mem_cons_of_mem _ hc)

/-- What every step of a fold keeps, the fold keeps. -/
theorem foldl_keeps {γ : Type} (field : β → γ) {g : β → α → β} (hg : ∀ b a, field (g b a) = field b) (as : List α)
    (b : β) : field (as.foldl g b) = field b := by
  induction as generalizing b with
  | nil => rfl
  | cons a as ih => exact (ih _).trans (hg b a)

theorem foldlM_value (g : β → α → Noted β) (as : List α) (b : β) :
    (as.foldlM g b).value = as.foldl (fun b a => (g b a).value) b := by
  induction as generalizing b with
  | nil => rfl
  | cons a as ih =>
    rw [List.foldlM_cons]
    exact ih _

theorem bind_value (x : Noted α) (f : α → Noted β) : (x >>= f).value = (f x.value).value := rfl

theorem bind_notes (x : Noted α) (f : α → Noted β) : (x >>= f).notes = x.notes ++ (f x.value).notes := rfl

/-- The notes with a code. -/
def coded (x : Noted α) (code : Code) : List Diagnostic := x.notes.filter (·.hasCode code)

theorem bind_coded (x : Noted α) (f : α → Noted β) (code : Code) :
    (x >>= f).coded code = x.coded code ++ (f x.value).coded code := List.filter_append ..

theorem pure_coded (a : α) (code : Code) : (pure a : Noted α).coded code = [] := rfl

/-- What the steps of a fold note, if that does not depend on what is folded. -/
theorem foldlM_notes {g : β → α → Noted β} {noted : α → List Diagnostic} (hg : ∀ b a, (g b a).notes = noted a)
    (as : List α) (b : β) : (as.foldlM g b).notes = as.flatMap noted := by
  induction as generalizing b with
  | nil => rfl
  | cons a as ih => rw [List.foldlM_cons, bind_notes, hg, ih, List.flatMap_cons]

theorem mapM_value (f : α → Noted β) (as : List α) : (as.mapM f).value = as.map fun a => (f a).value := by
  induction as with
  | nil => rfl
  | cons a as ih =>
    rw [List.mapM_cons, List.map_cons, ← ih]
    rfl

theorem mapM_notes (f : α → Noted β) (as : List α) : (as.mapM f).notes = as.flatMap fun a => (f a).notes := by
  induction as with
  | nil => rfl
  | cons a as ih =>
    rw [List.mapM_cons, bind_notes, bind_notes, ih, List.flatMap_cons]
    exact congrArg _ (List.append_nil _)

end Remarks

end Noted

open Noted

namespace Context

variable {ctx : Context} {lines : Nat → Prop}

theorem remarks_warn {code : Code} (hcode : code ≠ .duplicateName) {line : Nat} (hline : lines line) (message : String) :
    (ctx.warn code line message).Remarks ctx.tree.path lines := by
  intro d hd
  rw [List.mem_singleton.mp hd]
  exact ⟨rfl, rfl, ⟨line, rfl, hline⟩, hasCode_text code rfl hcode⟩

theorem remarks_noteMissing {line : Nat} (hline : lines line) (subject : String) :
    (ctx.noteMissing subject line).Remarks ctx.tree.path lines := by
  unfold noteMissing
  split
  · exact remarks_warn (by decide) hline _
  · exact remarks_pure ()

/-- The line of the subject matters only if nothing is found. -/
theorem remarks_docText {search : DocSearch} {n : Node} (hsearch : search.EndsIn n) {line : Nat}
    (hline : search = .notFound → n.HasLine line) (subject : String) :
    (ctx.docText search subject line).Remarks ctx.tree.path n.HasLine := by
  unfold docText
  split
  · exact remarks_pure _
  · next at_ => exact (remarks_warn (by decide) (hsearch at_ rfl) _).bind fun _ => remarks_pure ""
  · exact (remarks_noteMissing (hline rfl) subject).bind fun _ => remarks_pure ""

/-- A text that is looked for is noted as missing or as unresolvable, and not otherwise. -/
theorem docText_codes (search : DocSearch) (subject : String) (line : Nat) :
    ∀ d ∈ (ctx.docText search subject line).notes,
      d.code = some Code.missingDocstring.text ∨ d.code = some Code.unresolvableDocstring.text := by
  intro d hd
  unfold docText noteMissing at hd
  cases search with
  | found text at_ => cases hd
  | unresolvable at_ => exact .inr (by rw [List.mem_singleton.mp hd]; rfl)
  | notFound =>
    dsimp only at hd
    split at hd
    · exact .inl (by rw [List.mem_singleton.mp hd]; rfl)
    · cases hd

theorem docstring_other {code : Code} (hmissing : code ≠ .missingDocstring) (hunresolvable : code ≠ .unresolvableDocstring)
    (search : DocSearch) (subject : String) (line : Nat) :
    (ctx.docstring search subject line).coded code = [] := by
  have hnotes : (ctx.docstring search subject line).notes = (ctx.docText search subject line).notes := List.append_nil _
  rw [Noted.coded, hnotes]
  refine List.filter_eq_nil_iff.mpr fun d hd => ?_
  rcases docText_codes search subject line d hd with h | h
  · simp [Diagnostic.hasCode_eq h, hmissing.symm]
  · simp [Diagnostic.hasCode_eq h, hunresolvable.symm]

theorem remarks_docstring {search : DocSearch} {n : Node} (hsearch : search.EndsIn n) {line : Nat}
    (hline : n.HasLine line) (subject : String) :
    (ctx.docstring search subject line).Remarks ctx.tree.path n.HasLine :=
  (remarks_docText hsearch (fun _ => hline) subject).bind fun _ => remarks_pure _

theorem remarks_commentDocstring {line : Nat} (hline : lines line) (subject : String) :
    (ctx.commentDocstring line subject).Remarks ctx.tree.path lines := by
  unfold commentDocstring
  split
  · exact remarks_pure _
  · exact (remarks_noteMissing hline subject).bind fun _ => remarks_pure _

/-! ## Readings that may fail -/

/-- The only way to fail is to be undocumentable at this line. -/
def FailsAt {α : Type} (ctx : Context) (line : Nat) (e : Except Problem α) : Prop :=
  ∀ p, e = .error p → ∃ message, p = ctx.undocumentable line message

theorem failsAt_requiredName (statement : Node) (call : Call Node) :
    ctx.FailsAt statement.line (ctx.requiredName statement call) := by
  intro p h
  unfold requiredName at h
  split at h
  · cases h
    exact ⟨_, rfl⟩
  · split at h
    · cases h
    · cases h
      exact ⟨_, rfl⟩

/-- A name is read if it is a literal. -/
theorem requiredName_toOption (ctx : Context) (statement : Node) (call : Call Node) :
    (ctx.requiredName statement call).toOption = call.positional.head?.bind Node.literal? := by
  unfold requiredName
  cases call.positional with
  | nil => rfl
  | cons first rest =>
    rw [List.head?_cons, Option.bind_some]
    cases hfirst : first.literal? with
    | none => simp only [hfirst]; rfl
    | some name => simp only [hfirst]; rfl

theorem requiredName_ok {statement : Node} {call : Call Node} {name : String}
    (h : call.positional.head?.bind Node.literal? = some name) : ctx.requiredName statement call = .ok name := by
  rw [← ctx.requiredName_toOption statement] at h
  cases hname : ctx.requiredName statement call with
  | error p => rw [hname] at h; cases h
  | ok found => rw [hname] at h; cases h; rfl

theorem requiredName_error {statement : Node} {call : Call Node}
    (h : call.positional.head?.bind Node.literal? = none) :
    ∃ message, ctx.requiredName statement call = .error (ctx.undocumentable statement.line message) := by
  rw [← ctx.requiredName_toOption statement] at h
  cases hname : ctx.requiredName statement call with
  | ok found => rw [hname] at h; cases h
  | error p =>
    obtain ⟨message, rfl⟩ := failsAt_requiredName statement call p hname
    exact ⟨message, rfl⟩

theorem failsAt_resourceTypeName (statement : Node) (typeCall : Call Node) (what : String) :
    ctx.FailsAt statement.line (ctx.resourceTypeName statement typeCall what) := by
  intro p h
  unfold resourceTypeName at h
  split at h
  · cases h
  · cases h
    exact ⟨_, rfl⟩

theorem resourceTypeName_ok {statement : Node} {typeCall : Call Node} {typeName : String}
    (h : typeCall.args.head?.bind Node.literal? = some typeName) (what : String) :
    ctx.resourceTypeName statement typeCall what = .ok typeName := by
  simp only [resourceTypeName, h]

theorem failsAt_apiTypeName (statement : Node) (call : Call Node) :
    ctx.FailsAt statement.line (ctx.apiTypeName statement call) := by
  intro p h
  unfold apiTypeName at h
  split at h
  · cases h
    exact ⟨_, rfl⟩
  · split at h
    · cases h
    · cases h
      exact ⟨_, rfl⟩

/-- A statement is read: it fails as undocumentable at its line, or gives a good value with remarks on its lines. -/
structure Reads {α : Type} (ctx : Context) (statement : Node) (good : α → Prop) (e : Except Problem (Noted α)) : Prop where
  fails : ctx.FailsAt statement.line e
  value : ∀ x, e = .ok x → good x.value
  remarks : ∀ x, e = .ok x → x.Remarks ctx.tree.path statement.HasLine

section Reads

variable {α β : Type} {statement : Node} {good : α → Prop}

theorem Reads.of_ok {x : Noted α} (hvalue : good x.value) (hx : x.Remarks ctx.tree.path statement.HasLine) :
    ctx.Reads statement good (.ok x) where
  fails := fun _ h => nomatch h
  value := fun y h => by cases h; exact hvalue
  remarks := fun y h => by cases h; exact hx

/-- What fails like a reading may come in front of one. -/
theorem Reads.after {e : Except Problem β} {f : β → Except Problem (Noted α)} (he : ctx.FailsAt statement.line e)
    (hf : ∀ b, e = .ok b → ctx.Reads statement good (f b)) : ctx.Reads statement good (e >>= f) := by
  cases e with
  | error p =>
    refine ⟨fun q h => ?_, fun _ h => (nomatch h), fun _ h => (nomatch h)⟩
    cases h
    exact he p rfl
  | ok b => exact hf b rfl

/-- What a body makes of its statement is remarked on with it, also if it could not be read. -/
theorem Reads.ofResult {e : Except Problem (Noted α)} (h : ctx.Reads statement good e) :
    (Noted.ofResult e).Remarks ctx.tree.path statement.HasLine := by
  cases e with
  | ok x => exact (h.remarks x rfl).map some
  | error p =>
    obtain ⟨message, rfl⟩ := h.fails p rfl
    intro d hd
    rw [List.mem_singleton.mp hd]
    exact remark_undocumentable ctx statement.hasLine message

end Reads

/-! ## Attributes and features -/

theorem remarks_attributeStatement (a : Attribute) (statement : Node) :
    (ctx.attributeStatement a statement).Remarks ctx.tree.path statement.HasLine := by
  unfold attributeStatement
  split
  · exact remarks_pure _
  split
  · exact remarks_pure _
  split
  case h_3 =>
    split
    · exact remarks_pure _
    · exact (remarks_warn (by decide) statement.hasLine _).bind fun _ => remarks_pure a
  all_goals exact remarks_pure _

theorem remarks_attributeBody {n : Node} {statements : List Node} (h : ∀ x ∈ statements, x ∈ n.preorder) (a : Attribute) :
    (ctx.attributeBody a statements).Remarks ctx.tree.path n.HasLine :=
  remarks_foldlM (fun a x hx => (remarks_attributeStatement a x).mono fun _ hl => hl.above (h x hx)) a

theorem reads_declaredAttribute {statement : Node} {call : Call Node} (hcall : statement.call? = some call)
    (kind : AttributeKind) (typeName : String) :
    ctx.Reads statement (fun _ => True) (ctx.declaredAttribute statement call kind typeName) := by
  refine Reads.after (failsAt_requiredName statement call) fun name _ => .of_ok trivial ?_
  refine (remarks_docText (DocSearch.endsIn_searchBlock hcall) (fun _ => statement.hasLine) _).bind fun docstring => ?_
  exact remarks_attributeBody (fun x hx => blockStatements_preorder hcall hx) _

theorem reads_feature {statement : Node} {call : Call Node} (hcall : statement.call? = some call) :
    ctx.Reads statement (fun _ => True) (ctx.feature statement call) := by
  refine Reads.after (failsAt_requiredName statement call) fun name _ => .of_ok trivial ?_
  dsimp only
  split
  · next value hvalue =>
    have hpreorder := positional_preorder hcall (List.mem_of_getElem? hvalue)
    exact (remarks_docText (DocSearch.endsIn_ofValue hpreorder) (fun _ => statement.hasLine) _).bind fun _ => remarks_pure _
  · exact (remarks_pure "").bind fun _ => remarks_pure _

theorem remarks_ensure {statement : Node} {call : Option (Call Node)}
    (hcall : ∀ c, call = some c → statement.call? = some c) (typeName : String) :
    (ctx.ensure call typeName).Remarks ctx.tree.path statement.HasLine := by
  unfold ensure
  split
  · exact remarks_pure _
  · next block hblock =>
    obtain ⟨c, hc, hblock⟩ := Option.bind_eq_some_iff.mp hblock
    have hbody := block_preorder (hcall c hc) hblock
    have hattribute : ∀ a : Attribute,
        (ctx.attributeBody a block.body.statements).Remarks ctx.tree.path statement.HasLine :=
      remarks_attributeBody fun x hx => Node.preorder_trans hbody (Node.statements_preorder hx)
    dsimp only
    split
    · exact (remarks_pure _).bind fun _ => (hattribute _).bind fun _ => remarks_pure _
    · next hno =>
      refine (remarks_docText (DocSearch.endsIn_findDocstring hbody) (fun h => absurd h hno) _).bind fun _ => ?_
      exact (hattribute _).bind fun _ => remarks_pure _

/-! ## Resource types -/

theorem attributeCall_call? {statement : Node} {c : AttributeCall} (h : AttributeCall.ofNode? statement = some c) :
    ∀ call, c = .feature call ∨ c = .ensurable (some call) ∨ (∃ kind, c = .declare kind call) →
      statement.call? = some call := by
  intro call hcall
  unfold AttributeCall.ofNode? at h
  split at h
  · cases h
    simp at hcall
  · obtain ⟨found, hfound, h⟩ := Option.bind_eq_some_iff.mp h
    have hstatement := (Option.filter_eq_some_iff.mp hfound).1
    split at h <;> cases h <;> simp at hcall <;> rw [← hcall] <;> exact hstatement

theorem remarks_typeItem (typeName : String) (statement : Node) :
    (ctx.typeItem typeName statement).Remarks ctx.tree.path statement.HasLine := by
  unfold typeItem
  split
  · next call h =>
    have hcall := attributeCall_call? h call (.inr (.inr ⟨_, rfl⟩))
    exact (reads_declaredAttribute hcall .parameter typeName).ofResult.bind fun _ => remarks_pure _
  · next call h =>
    have hcall := attributeCall_call? h call (.inr (.inr ⟨_, rfl⟩))
    exact (reads_declaredAttribute hcall .property typeName).ofResult.bind fun _ => remarks_pure _
  · next call h =>
    refine (remarks_ensure (fun c hc => ?_) typeName).bind fun _ => remarks_pure _
    exact attributeCall_call? h c (.inr (.inl (congrArg _ hc)))
  · next call h => exact (reads_feature (attributeCall_call? h call (.inl rfl))).ofResult.bind fun _ => remarks_pure _
  · exact remarks_pure none

theorem remarks_typeStatement (typeName : String) (t : OpenType) (statement : Node) :
    (ctx.typeStatement typeName t statement).Remarks ctx.tree.path statement.HasLine := by
  refine (remarks_typeItem typeName statement).bind fun item => ?_
  cases item with
  | none => exact remarks_pure t
  | some item => exact remarks_pure (t.add item)

theorem typeStatement_value (typeName : String) (t : OpenType) (statement : Node) :
    (ctx.typeStatement typeName t statement).value = match (ctx.typeItem typeName statement).value with
      | some item => t.add item
      | none => t := by
  unfold typeStatement
  rw [bind_value]
  cases (ctx.typeItem typeName statement).value <;> rfl

/-- The statements in the body of a type add to its attributes and features, and leave the rest of it. -/
theorem typeStatements_keep {γ : Type} (field : ResourceType → γ)
    (hfield : ∀ t parameters properties features, field { t with parameters, properties, features } = field t)
    (typeName : String) (statements : List Node) (t : OpenType) :
    field (statements.foldlM (ctx.typeStatement typeName) t).value.close = field t.type := by
  rw [OpenType.close_keeps field fun t _ => hfield t _ _ _, foldlM_value]
  refine foldl_keeps (fun t : OpenType => field t.type) (fun t statement => ?_) statements t
  rw [typeStatement_value]
  split
  · exact OpenType.add_keeps field hfield t _
  · rfl

/-! ## Providers -/

theorem remarks_malformed {lines : Nat → Prop} {line : Nat} (hline : lines line) (message : String) :
    (ctx.malformed line message).Remarks ctx.tree.path lines := remarks_warn (by decide) hline _

theorem remarks_bindings {n : Node} {entries : List Node} (hentries : ∀ entry ∈ entries, entry ∈ n.preorder)
    (method : String) (pair? : Node → Option (Node × Node)) :
    (ctx.bindings method pair? entries).Remarks ctx.tree.path n.HasLine := by
  refine (remarks_mapM fun entry hentry => ?_).bind fun _ => remarks_pure _
  split
  · exact remarks_pure _
  · have hline := entry.hasLine.above (hentries entry hentry)
    exact (remarks_malformed hline _).bind fun _ => remarks_pure []

theorem remarks_mapping {statement : Node} {call : Call Node} (hcall : statement.call? = some call) :
    (ctx.mapping statement call).Remarks ctx.tree.path statement.HasLine := by
  unfold mapping
  split
  · exact (remarks_malformed statement.hasLine _).bind fun _ => remarks_pure []
  · next first extra hargs =>
    have hfirst : first ∈ statement.preorder := arg_preorder hcall (by simp [hargs])
    have hpairs : ∀ entries, first.children = entries → ∀ pair?,
        (ctx.bindings call.method pair? entries).Remarks ctx.tree.path statement.HasLine := by
      rintro _ rfl pair?
      exact remarks_bindings (fun _ h => Node.child_mem_preorder hfirst h) _ _
    refine (remarks_malformed statement.hasLine _).guarded ?_
    split
    · next hkind => exact hpairs _ (by simp [Node.children, NodeKind.children, hkind]) _
    · next hkind => exact hpairs _ (by simp [Node.children, NodeKind.children, hkind]) _
    · exact (remarks_malformed statement.hasLine _).bind fun _ => remarks_pure []

theorem providerCall_call? {statement : Node} {c : ProviderCall} (h : ProviderCall.ofNode? statement = some c) :
    ∀ call, c = .confine call ∨ c = .defaultFor call ∨ c = .commands call → statement.call? = some call := by
  intro call hcall
  obtain ⟨found, hfound, h⟩ := Option.bind_eq_some_iff.mp h
  have hstatement := (Option.filter_eq_some_iff.mp hfound).1
  split at h <;> cases h <;> simp at hcall <;> rw [← hcall] <;> exact hstatement

theorem remarks_providerStatement (p : Provider) (statement : Node) :
    (ctx.providerStatement p statement).Remarks ctx.tree.path statement.HasLine := by
  unfold providerStatement
  split
  · next call h => exact (remarks_mapping (providerCall_call? h call (by simp))).bind fun _ => remarks_pure _
  · next call h => exact (remarks_mapping (providerCall_call? h call (by simp))).bind fun _ => remarks_pure _
  · next call h => exact (remarks_mapping (providerCall_call? h call (by simp))).bind fun _ => remarks_pure _
  · exact remarks_pure _
  · exact remarks_pure p

/-- A statement in the block of a provider only adds to what is listed of the provider. -/
theorem providerStatement_keeps {γ : Type} (field : Provider → γ)
    (hfield : ∀ p confines defaults features commands,
      field { p with confines, defaults, features, commands } = field p) (p : Provider) (statement : Node) :
    field (ctx.providerStatement p statement).value = field p := by
  unfold providerStatement
  split
  · exact foldl_keeps field (g := fun p (b : Binding) => p.addConfine b.key b.value) (fun p _ => hfield p _ _ _ _) _ p
  · exact foldl_keeps field (g := fun p (b : Binding) => p.addDefault b.key b.value) (fun p _ => hfield p _ _ _ _) _ p
  · exact foldl_keeps field (g := fun p (b : Binding) => p.addCommand b.key b.value) (fun p _ => hfield p _ _ _ _) _ p
  · exact foldl_keeps field (g := Provider.addFeature) (fun p _ => hfield p _ _ _ _) _ p
  · rfl

theorem providerStatements_keep {γ : Type} (field : Provider → γ)
    (hfield : ∀ p confines defaults features commands,
      field { p with confines, defaults, features, commands } = field p) (statements : List Node) (p : Provider) :
    field (statements.foldlM ctx.providerStatement p).value = field p := by
  rw [Noted.foldlM_value]
  exact foldl_keeps field (providerStatement_keeps field hfield) statements p

/-! ## Resource API -/

theorem remarks_apiAttribute {n key definition : Node} (hkey : key ∈ n.preorder) (hdefinition : definition ∈ n.preorder)
    (typeName : String) : (ctx.apiAttribute typeName key definition).Remarks ctx.tree.path n.HasLine := by
  have hsearch : (searchValue (definition.hashValue? "desc")).EndsIn n :=
    DocSearch.endsIn_searchValue fun _ hv => Node.preorder_trans hdefinition (hashValue?_preorder hv)
  exact (remarks_docText hsearch (fun _ => key.hasLine.above hkey) _).bind fun _ => remarks_pure _

theorem remarks_apiAttributes {n : Node} {entries : List Node} (hentries : ∀ entry ∈ entries, entry ∈ n.preorder)
    (typeName : String) : (ctx.apiAttributes typeName entries).Remarks ctx.tree.path n.HasLine := by
  refine (remarks_mapM fun entry hentry => ?_).bind fun _ => remarks_pure _
  have hbelow : ∀ x ∈ entry.children, x ∈ n.preorder := fun x hx => Node.child_mem_preorder (hentries entry hentry) hx
  split
  · next key value hkind =>
    simp only [Node.children, NodeKind.children, hkind, List.mem_cons, List.not_mem_nil, or_false, forall_eq_or_imp,
      forall_eq] at hbelow
    exact (remarks_apiAttribute hbelow.1 hbelow.2 typeName).bind fun _ => remarks_pure _
  · have hline := entry.hasLine.above (hentries entry hentry)
    exact (remarks_warn (by decide) hline _).bind fun _ => remarks_pure []

theorem addAttributes_keep {γ : Type} (field : ResourceType → γ)
    (hfield : ∀ t parameters properties, field { t with parameters, properties } = field t)
    (as : List (AttributeKind × Attribute)) (t : ResourceType) :
    field (as.foldl (fun t a => t.addAttribute a.1 a.2) t) = field t := by
  refine foldl_keeps field (fun t a => ?_) as t
  obtain ⟨kind, a⟩ := a
  cases kind
  all_goals exact hfield t _ _

end Context

/-! ## Constructs -/

def Found.location : Found → Location
  | .object o => o.location
  | .extension e => e.location

/-- The call that a construct is recognized by. -/
def Construct.call : Construct → Call Node
  | resourceType call | extension _ _ call | provider _ call | function4x call | function3x call | dataType call
  | apiType call => call

theorem Construct.call_of_ofCall? {call : Call Node} {c : Construct} (h : Construct.ofCall? call = some c) :
    c.call = call := by
  unfold ofCall? at h
  split at h
  case h_2 | h_3 | h_4 =>
    obtain ⟨typeCall, -, rfl⟩ := Option.map_eq_some_iff.mp h
    rfl
  case h_9 => cases h
  all_goals
    split at h
    · cases h
      rfl
    · cases h

theorem Construct.call?_of_ofNode? {statement : Node} {c : Construct} (h : Construct.ofNode? statement = some c) :
    statement.call? = some c.call := by
  obtain ⟨call, hcall, hc⟩ := Option.bind_eq_some_iff.mp h
  rw [hcall, call_of_ofCall? hc]

namespace Context

section Constructs

variable {ctx : Context} {statement : Node} {call : Call Node}

theorem reads_resourceType (hcall : statement.call? = some call) :
    ctx.Reads statement (·.location = ctx.location statement.line) (ctx.resourceType statement call) := by
  refine Reads.after (failsAt_requiredName statement call) fun name _ => .of_ok ?_ ?_
  · exact typeStatements_keep ResourceType.location (fun _ _ _ _ => rfl) _ _ _
  · refine Noted.Remarks.bind ?_ fun docstring => ?_
    · refine remarks_docstring ?_ statement.hasLine _
      split
      · next block hblock => exact DocSearch.endsIn_pruned (block_preorder hcall hblock) _
      · exact DocSearch.endsIn_notFound
    · refine (remarks_foldlM (fun t x hx => ?_) _).bind fun _ => remarks_pure _
      exact (remarks_typeStatement name t x).mono fun _ hl => hl.above (blockStatements_preorder hcall hx)

theorem reads_typeExtension (hcall : statement.call? = some call) (kind : AttributeKind) (typeCall : Call Node) :
    ctx.Reads statement (·.location = ctx.location statement.line) (ctx.typeExtension statement kind typeCall call) := by
  refine Reads.after (failsAt_resourceTypeName statement typeCall _) fun typeName _ => ?_
  have hdeclared : ctx.Reads statement (fun _ => True) (ctx.declaredAttribute statement call kind typeName) :=
    reads_declaredAttribute hcall kind typeName
  refine Reads.after hdeclared.fails fun declared hok => .of_ok rfl ?_
  exact (hdeclared.remarks declared hok).bind fun _ => remarks_pure _

theorem reads_provider (hcall : statement.call? = some call) (typeCall : Call Node) :
    ctx.Reads statement (·.location = ctx.location statement.line) (ctx.provider statement typeCall call) := by
  refine Reads.after (failsAt_resourceTypeName statement typeCall _) fun typeName _ => ?_
  refine Reads.after (failsAt_requiredName statement call) fun name _ => .of_ok ?_ ?_
  · exact providerStatements_keep Provider.location (fun _ _ _ _ _ => rfl) _ _
  · refine (remarks_docstring (DocSearch.endsIn_searchBlock hcall) statement.hasLine _).bind fun docstring => ?_
    refine (remarks_foldlM (fun p x hx => ?_) _).bind fun _ => remarks_pure _
    exact (remarks_providerStatement p x).mono fun _ hl => hl.above (blockStatements_preorder hcall hx)

theorem reads_function4x :
    ctx.Reads statement (·.location = ctx.location statement.line) (ctx.function4x statement call) := by
  refine Reads.after (failsAt_requiredName statement call) fun name _ => .of_ok rfl ?_
  exact (remarks_commentDocstring statement.hasLine _).bind fun _ => remarks_pure _

theorem reads_function3x (hcall : statement.call? = some call) :
    ctx.Reads statement (·.location = ctx.location statement.line) (ctx.function3x statement call) := by
  refine Reads.after (failsAt_requiredName statement call) fun name _ => .of_ok rfl ?_
  have hsearch : (searchValue (call.option? "doc")).EndsIn statement :=
    DocSearch.endsIn_searchValue fun _ hv => option?_preorder hcall hv
  exact (remarks_docstring hsearch statement.hasLine _).bind fun _ => remarks_pure _

theorem reads_dataType :
    ctx.Reads statement (·.location = ctx.location statement.line) (ctx.dataType statement call) := by
  refine Reads.after (failsAt_requiredName statement call) fun name _ => .of_ok rfl ?_
  exact (remarks_commentDocstring statement.hasLine _).bind fun _ => remarks_pure _

theorem reads_apiType (hcall : statement.call? = some call) :
    ctx.Reads statement (·.location = ctx.location statement.line) (ctx.apiType statement call) := by
  refine Reads.after (failsAt_apiTypeName statement call) fun name _ => .of_ok ?_ ?_
  · simp only [Noted.bind_value]
    split <;> exact addAttributes_keep ResourceType.location (fun _ _ _ => rfl) _ _
  have hsearch : (searchValue (call.option? "docs")).EndsIn statement :=
    DocSearch.endsIn_searchValue fun _ hv => option?_preorder hcall hv
  refine (remarks_docstring hsearch statement.hasLine _).bind fun docstring => ?_
  dsimp only
  split
  · next entries hkind =>
    obtain ⟨attributes, hattributes, hkind⟩ := Option.map_eq_some_iff.mp hkind
    have hentries : ∀ entry ∈ entries, entry ∈ statement.preorder := by
      intro entry hentry
      refine Node.child_mem_preorder (option?_preorder hcall hattributes) ?_
      simpa [Node.children, NodeKind.children, hkind] using hentry
    exact (remarks_apiAttributes hentries name).bind fun _ => remarks_pure _
  · exact (remarks_warn (by decide) statement.hasLine _).bind fun _ => (remarks_pure _).bind fun _ => remarks_pure _
  · exact (remarks_pure _).bind fun _ => remarks_pure _

/-- A construct is documented where its statement is, or fails as undocumentable there. -/
theorem reads_findingOf {construct : Construct} (h : Construct.ofNode? statement = some construct) :
    ctx.Reads statement (·.location = ctx.location statement.line) (ctx.findingOf statement construct) := by
  have hcall := Construct.call?_of_ofNode? h
  cases construct with
  | resourceType call => exact reads_resourceType hcall
  | extension kind typeCall call => exact reads_typeExtension hcall kind typeCall
  | provider typeCall call => exact reads_provider hcall typeCall
  | function4x call => exact reads_function4x
  | function3x call => exact reads_function3x hcall
  | dataType call => exact reads_dataType
  | apiType call => exact reads_apiType hcall

end Constructs

/-! ## Manifests -/

section Manifests

open Manifest (Definition)

variable {ctx : Context} {d : Definition}

theorem remarks_documentedParams {lines : Nat → Prop} (hline : lines d.line) (hparams : ∀ p ∈ d.params, lines p.line)
    (docstring : Docstring) : (ctx.documentedParams d docstring).Remarks ctx.tree.path lines := by
  refine (remarks_mapM fun p hp => ?_).bind fun params => (remarks_forM fun t _ => ?_).bind fun _ => remarks_pure params
  · unfold documentedParam
    dsimp only
    split
    · exact (remarks_warn (by decide) (hparams p hp) _).bind fun _ => remarks_pure _
    · exact remarks_pure _
  · unfold unmatchedTag
    split
    · exact remarks_pure ()
    · split
      · exact remarks_pure ()
      · exact remarks_warn (by decide) hline _

theorem remarks_definition {lines : Nat → Prop} (hline : lines d.line) (hparams : ∀ p ∈ d.params, lines p.line) :
    (ctx.definition d).Remarks ctx.tree.path lines := by
  refine (remarks_commentDocstring hline _).bind fun docstring => ?_
  have hdocumented : (ctx.documentedParams d docstring).Remarks ctx.tree.path lines :=
    remarks_documentedParams hline hparams docstring
  split
  case h_5 => exact remarks_pure _
  all_goals exact hdocumented.bind fun _ => remarks_pure _

theorem definition_location (ctx : Context) (d : Definition) : (ctx.definition d).value.location = ctx.location d.line := by
  unfold definition
  rw [bind_value]
  split <;> rfl

end Manifests

end Context

end PuppetDocs
