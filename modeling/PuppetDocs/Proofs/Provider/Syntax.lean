import PuppetDocs.Proofs.Decl.Scan

/-
  PuppetDocs.Proofs.Provider.Syntax — a file that declares one provider.

  The names of the type and of the provider are each written as a string or as a symbol, the
  documentation as a string, all of them in quotes of either sort. The documentation is given
  by a call of `desc` or is assigned to `@doc` or to `self.doc`. Any text can be a name or the
  documentation, and in every style the file is spelled by the same few words
  (`ProviderStyle.spelled`).
-/

namespace PuppetDocs.Ruby.Decl

/-! ## The text -/

/-- A name is written `'a'` or `"a"`, or as a symbol `:'a'` or `:"a"`. -/
structure NameStyle where
  symbol : Bool
  quote : Quote
  deriving DecidableEq, Repr

inductive DocIdiom where
  | desc | instanceVar | setter
  deriving DecidableEq, Repr

structure ProviderStyle where
  typeName : NameStyle
  name : NameStyle
  idiom : DocIdiom
  doc : Quote
  deriving DecidableEq, Repr

def NameStyle.write (style : NameStyle) (name : String) : List Char :=
  (if style.symbol then [':'] else []) ++ style.quote.enclose name.toList

/-- What stands in front of the documentation. -/
def DocIdiom.opening : DocIdiom → String
  | desc => "desc "
  | instanceVar => "@doc = "
  | setter => "self.doc = "

def ProviderStyle.text (style : ProviderStyle) (typeName name doc : String) : List Char :=
  "Puppet::Type.type(".toList ++ style.typeName.write typeName ++ ").provide(".toList ++ style.name.write name ++
    ") do\n".toList ++ style.idiom.opening.toList ++ style.doc.enclose doc.toList ++ "\nend".toList

/-- Quotes are escaped only inside quotes of the same sort. -/
example : (ProviderStyle.text ⟨⟨true, .single⟩, ⟨false, .double⟩, .setter, .double⟩ "t" "p'\"" "#d") =
    "Puppet::Type.type(:'t').provide(\"p'\\\"\") do\nself.doc = \"\\#d\"\nend".toList := by
  decide

/-! ## Its words -/

def puppetType : Path :=
  .member (.name ⟨"Puppet".toList, 'P', "uppet".toList, rfl, rfl, List.all_eq_true.mp rfl⟩)
    ⟨"Type".toList, 'T', "ype".toList, rfl, rfl, List.all_eq_true.mp rfl⟩

def typeMethod : MethodName := ⟨"type".toList, isName_letters rfl rfl, rfl⟩

def provideMethod : MethodName := ⟨"provide".toList, isName_letters rfl rfl, rfl⟩

def descMethod : MethodName := ⟨"desc".toList, isName_letters rfl rfl, rfl⟩

def docMethod : MethodName := ⟨"doc".toList, isName_letters rfl rfl, rfl⟩

def NameStyle.kind (style : NameStyle) (name : String) : TokenKind :=
  if style.symbol then .quotedSymbol (plainString name.toList) else .string (plainString name.toList)

def NameStyle.word (style : NameStyle) (name : String) : Word := ⟨[], style.kind name, style.write name⟩

def docWord (q : Quote) (doc : String) : Word := ⟨[' '], .string (plainString doc.toList), q.enclose doc.toList⟩

def DocIdiom.words (value : Word) : DocIdiom → List Word
  | desc => [⟨[], .ident, descMethod.chars⟩, value]
  | instanceVar => [⟨[], .instanceVar, "@doc".toList⟩, assignSign, value]
  | setter => [⟨[], .keyword .selfKw, "self".toList⟩, sign .dot ".", ⟨[], .ident, docMethod.chars⟩, assignSign, value]

abbrev typeOpening : List Word :=
  puppetType.words [] ++ [sign .dot ".", ⟨[], .ident, typeMethod.chars⟩, sign .lparen "("]

abbrev nameOpening : List Word :=
  [sign .rparen ")", sign .dot ".", ⟨[], .ident, provideMethod.chars⟩, sign .lparen "("]

abbrev blockOpening : List Word := [sign .rparen ")", ⟨[' '], .keyword .doKw, "do".toList⟩, newline]

abbrev blockClosing : List Word := [newline, ⟨[], .keyword .endKw, "end".toList⟩]

def ProviderStyle.words (style : ProviderStyle) (typeName name doc : String) : List Word :=
  typeOpening ++ style.typeName.word typeName :: (nameOpening ++ style.name.word name ::
    (blockOpening ++ (style.idiom.words (docWord style.doc doc) ++ blockClosing)))

variable (style : ProviderStyle) (typeName name doc : String)

theorem print_append (ws vs : List Word) : print (ws ++ vs) = print ws ++ print vs := List.flatMap_append

theorem DocIdiom.print_words (idiom : DocIdiom) (q : Quote) (doc : String) :
    print (idiom.words (docWord q doc)) = idiom.opening.toList ++ q.enclose doc.toList := by
  cases idiom <;> simp [words, opening, docWord, Word.chars, descMethod, docMethod]

theorem ProviderStyle.print_words : print (style.words typeName name doc) = style.text typeName name doc := by
  have htype : print typeOpening = "Puppet::Type.type(".toList := by decide
  have hname : print nameOpening = ").provide(".toList := by decide
  have hblock : print blockOpening = ") do\n".toList := by decide
  have hclosing : print blockClosing = "\nend".toList := by decide
  have htext : style.text typeName name doc = print typeOpening ++ style.typeName.write typeName ++ print nameOpening ++
      style.name.write name ++ print blockOpening ++ style.idiom.opening.toList ++ style.doc.enclose doc.toList ++
      print blockClosing := by
    simp only [htype, hname, hblock, hclosing]
    rfl
  rw [htext, words]
  simp only [print_append, print_cons, DocIdiom.print_words, NameStyle.word, Word.chars, List.nil_append,
    List.append_assoc]

/-! ## The words are found -/

theorem startsWord_enclose (gap : List Char) (q : Quote) (content : List Char) :
    StartsWord gap (q.enclose content) := by
  cases q with
  | single => exact startsWord_cons (by decide) _ _
  | double => exact startsWord_cons (by decide) _ _

theorem NameStyle.stands (style : NameStyle) (name : String) (more : List Char) : (style.word name).Stands more := by
  obtain ⟨symbol, q⟩ := style
  cases symbol with
  | true => exact stands_of_head (by simp) (startsWord_cons (by decide) _ _) (reads_quotedSymbol [] q _ more)
  | false => exact stands_of_head (by simp) (startsWord_enclose [] q _) (reads_quoted [] q _ more)

theorem NameStyle.kind_ne_lparen (style : NameStyle) (name : String) : style.kind name ≠ .lparen := by
  unfold kind
  split <;> simp

variable {rest : List Word}

theorem spelled_name (style : NameStyle) (name : String) (h : Spelled rest) : Spelled (style.word name :: rest) :=
  .word (style.kind_ne_lparen name) (style.stands name _) h

/-- A name that is called with one argument in parentheses. -/
theorem spelled_call (m : MethodName) (style : NameStyle) (name : String) (h : Spelled rest) :
    Spelled (sign .dot "." :: ⟨[], .ident, m.chars⟩ :: sign .lparen "(" :: style.word name :: sign .rparen ")" ::
      rest) :=
  spelled_dot m (.method (by simp) (spelled_name style name
    (spelled_sign (by simp) (startsWord_cons (by decide) _ _) (by decide) rfl h)))

/-- `end` needs nothing behind it. -/
theorem spelled_closing : Spelled blockClosing := by
  have hend : Word.Reads ⟨[], .keyword .endKw, "end".toList⟩ [] := fun _ _ _ _ _ => ⟨.word, 3, rfl, rfl⟩
  exact spelled_newline (.word nofun (stands_of_head (by simp) (startsWord_cons (by decide) _ _) hend) .nil)

theorem spelled_doc (q : Quote) (doc : String) (h : Spelled rest) : Spelled (docWord q doc :: rest) :=
  .word nofun (stands_of_head (by simp) (startsWord_enclose _ q _) (reads_quoted _ q _ _)) h

theorem spelled_assign (q : Quote) (doc : String) (h : Spelled rest) : Spelled (assignSign :: docWord q doc :: rest) :=
  spelled_sign (by simp) ⟨'=', [], rfl, by decide, by simp⟩ (by decide) rfl (spelled_doc q doc h)

theorem DocIdiom.spelled (idiom : DocIdiom) (q : Quote) (doc : String) (h : Spelled rest) :
    Spelled (idiom.words (docWord q doc) ++ rest) := by
  have hblank : ∀ more, EndsName (' ' :: more) := endsName_cons (by decide) (by decide)
  cases idiom with
  | desc =>
    refine .word nofun (stands_of_head (by simp) (startsWord_cons (by decide) _ _) ?_) (spelled_doc q doc h)
    exact reads_method [] descMethod (hblank _)
  | instanceVar =>
    exact spelled_sign (by simp) (startsWord_cons (by decide) _ _) (by decide) rfl (spelled_assign q doc h)
  | setter =>
    refine spelled_keyword (by simp) .selfKw (by decide) (endsName_cons (by decide) (by decide) _) ?_
    refine spelled_dot docMethod (.word nofun ?_ (spelled_assign q doc h))
    exact stands_of_head (by simp) (startsWord_cons (by decide) _ _) (reads_method [] docMethod (hblank _))

theorem ProviderStyle.spelled : Spelled (style.words typeName name doc) := by
  have hbody := style.idiom.spelled style.doc doc spelled_closing
  have hdo : Spelled (⟨[' '], .keyword .doKw, "do".toList⟩ :: newline ::
      (style.idiom.words (docWord style.doc doc) ++ blockClosing)) :=
    spelled_keyword (by simp) .doKw (by decide) (endsName_cons (by decide) (by decide) _) (spelled_newline hbody)
  have hcall := spelled_call typeMethod style.typeName typeName (spelled_call provideMethod style.name name hdo)
  exact puppetType.spelled (by simp) (endsName_cons (by decide) (by decide) _) hcall

end PuppetDocs.Ruby.Decl
