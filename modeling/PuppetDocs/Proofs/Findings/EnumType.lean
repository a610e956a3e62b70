import PuppetDocs.Findings.ApiType
import PuppetDocs.Proofs.Decl.Quotes
import PuppetDocs.Proofs.Registry.Finalize
import PuppetDocs.Proofs.Text.Lines

/-
  PuppetDocs.Proofs.Findings.EnumType — the values that an enumeration type allows.

  The values stand between quotes, with commas between them, and the type may stand inside
  `Optional[...]`. What is between two commas is one value with blanks and quotes around it, so a
  value without commas is read as it is written, brackets and blanks in it included
  (`enumValues_written`); an attribute lists each value once. The empty text is not taken for a
  value, and a value is cut at a comma in it (`enumValues_not_written`).
-/

namespace PuppetDocs

open Text
open Ruby.Decl (Quote)

/-- A value of an enumeration, between quotes of either sort. -/
structure EnumMember where
  quote : Quote
  content : List Char
  /-- No quote stands in it. -/
  plain : content.any isQuote = false

namespace EnumMember

def text (m : EnumMember) : List Char := m.quote.char :: (m.content ++ [m.quote.char])

def value (m : EnumMember) : String := String.ofList m.content

theorem not_quote (m : EnumMember) {c : Char} (hc : c ∈ m.content) : isQuote c = false :=
  Bool.eq_false_iff.mpr (List.any_eq_false.mp m.plain c hc)

end EnumMember

/-- The enumeration of these values, alone or as an optional one. -/
def enumType (optional : Bool) (ms : List EnumMember) : String :=
  let enum := "Enum[".toList ++ (List.intercalate ", ".toList (ms.map EnumMember.text) ++ "]".toList)
  String.ofList (if optional then "Optional[".toList ++ (enum ++ "]".toList) else enum)

example : enumType true [⟨.single, ['a'], by decide⟩, ⟨.double, [], by decide⟩] = "Optional[Enum['a', \"\"]]" := by
  decide

/-! ## Brackets -/

theorem insideBrackets?_written (opener : String) (inside : List Char) :
    insideBrackets? opener (opener.toList ++ (inside ++ [']'])) = some inside := by
  have hopener : after? opener.toList (opener.toList ++ (inside ++ [']'])) = some (inside ++ [']']) := by
    simp [after?]
  rw [insideBrackets?, hopener, Option.bind_some, before?, if_pos (by simp)]
  simp

theorem insideBrackets?_other {opener : String} {text : List Char} (h : opener.toList.isPrefixOf text = false) :
    insideBrackets? opener text = none := by
  simp [insideBrackets?, after?, h]

/-- What stands between the brackets of the enumeration, whether it is optional or not. -/
theorem enumType_inside (optional : Bool) (ms : List EnumMember) :
    insideBrackets? "Enum[" (trim ((insideBrackets? "Optional[" (enumType optional ms).toList).getD
      (enumType optional ms).toList)) = some (List.intercalate ", ".toList (ms.map EnumMember.text)) := by
  have hinner : ∀ values : List Char,
      insideBrackets? "Enum[" (trim ("Enum[".toList ++ (values ++ "]".toList))) = some values := by
    intro values
    have htrim : trim ("Enum[".toList ++ (values ++ "]".toList)) = "Enum[".toList ++ (values ++ "]".toList) :=
      trim_of_ends (c := 'E') (d := ']') rfl rfl ("num[".toList ++ values)
    rw [htrim]
    exact insideBrackets?_written "Enum[" values
  rw [enumType, String.toList_ofList]
  cases optional with
  | true =>
    rw [if_pos rfl, show "]".toList = [']'] from rfl, insideBrackets?_written, Option.getD_some]
    exact hinner _
  | false =>
    have hplain : ∀ rest : List Char, insideBrackets? "Optional[" ("Enum[".toList ++ rest) = none :=
      fun rest => insideBrackets?_other rfl
    rw [if_neg Bool.false_ne_true, hplain, Option.getD_none]
    exact hinner _

/-! ## Values -/

theorem quote_plain (q : Quote) : isBlank q.char = false ∧ isQuote q.char = true ∧ q.char ≠ ',' := by
  cases q <;> decide

/-- A value is what is left without the blanks and quotes around it. -/
theorem trimMatches_text {gap : List Char} (hgap : ∀ c ∈ gap, isBlank c = true) (m : EnumMember) :
    trimMatches isQuote (trim (gap ++ m.text)) = m.content := by
  obtain ⟨hblank, hquote, -⟩ := quote_plain m.quote
  have htrim : trim (gap ++ m.text) = m.text := by
    rw [trim, EnumMember.text, trimStart_append hgap hblank]
    exact dropEndWhile_of_last fun c hc => by
      rw [← List.cons_append, List.getLast?_concat, Option.mem_some_iff] at hc
      rw [← hc]
      exact hblank
  have hlast : dropEndWhile isQuote (m.content ++ [m.quote.char]) = m.content := by
    rw [dropEndWhile_append fun c hc => by rw [List.mem_singleton.mp hc]; exact hquote]
    exact dropEndWhile_of_last fun c hc => m.not_quote (List.mem_of_getLast? hc)
  rw [htrim, trimMatches, EnumMember.text, List.dropWhile_cons_of_pos hquote]
  cases hcontent : m.content with
  | nil => rw [List.nil_append, List.dropWhile_cons_of_pos hquote]; rfl
  | cons c cs =>
    have hc : isQuote c = false := m.not_quote (by rw [hcontent]; exact List.mem_cons_self)
    rw [hcontent] at hlast
    rw [List.cons_append, List.dropWhile_cons_of_neg (by simp [hc])]
    exact hlast

/-- Between the commas stand the values, one by one. -/
theorem values_written {ms : List EnumMember} (h : ∀ m ∈ ms, ',' ∉ m.content) (hne : ms ≠ []) (gap : List Char)
    (hgap : ∀ c ∈ gap, isBlank c = true ∧ c ≠ ',') :
    (splitBy (· = ',') (gap ++ List.intercalate ", ".toList (ms.map EnumMember.text))).map
      (fun v => trimMatches isQuote (trim v)) = ms.map EnumMember.content := by
  induction ms generalizing gap with
  | nil => exact absurd rfl hne
  | cons m ms ih =>
    have hclean : trimMatches isQuote (trim (gap ++ m.text)) = m.content :=
      trimMatches_text (fun c hc => (hgap c hc).1) m
    have hcommas : ∀ c ∈ gap ++ m.text, (decide (c = ',')) = false := by
      intro c hc
      obtain ⟨-, -, hquote⟩ := quote_plain m.quote
      simp only [EnumMember.text, List.mem_append, List.mem_cons, List.not_mem_nil, or_false] at hc
      rw [decide_eq_false_iff_not]
      rcases hc with hc | rfl | hc | rfl
      · exact (hgap c hc).2
      · exact hquote
      · exact fun heq => h m List.mem_cons_self (heq ▸ hc)
      · exact hquote
    cases ms with
    | nil =>
      rw [List.map_singleton, List.intercalate_singleton, splitBy_eq, List.splitOnP_eq_singleton hcommas]
      rw [List.map_singleton, List.map_singleton, hclean]
    | cons m' ms =>
      have hrest := ih (fun n hn => h n (List.mem_cons_of_mem _ hn)) (List.cons_ne_nil m' ms) [' ']
        (List.forall_mem_singleton.mpr (by decide))
      have hsplit : gap ++ List.intercalate ", ".toList ((m :: m' :: ms).map EnumMember.text) =
          (gap ++ m.text) ++ ',' :: ([' '] ++ List.intercalate ", ".toList ((m' :: ms).map EnumMember.text)) := by
        rw [List.map_cons, List.map_cons, List.intercalate_cons_cons]
        simp
      rw [splitBy_eq] at hrest
      rw [hsplit, splitBy_eq, List.splitOnP_append_cons (p := fun c => decide (c = ',')) _ _ rfl,
        List.splitOnP_eq_singleton hcommas, List.map_append, List.map_singleton, hclean, hrest]
      rfl

/-- The pieces that are not empty are the values that are not. -/
theorem kept_values (ms : List EnumMember) :
    ((ms.map EnumMember.content).filter (!·.isEmpty)).map String.ofList = (ms.map EnumMember.value).filter (· ≠ "") := by
  have hempty : ∀ m : EnumMember, (!m.content.isEmpty) = decide (m.value ≠ "") := by
    intro m
    cases hcontent : m.content with
    | nil => simp [EnumMember.value, hcontent]
    | cons c cs => simp [EnumMember.value, hcontent, String.ext_iff]
  induction ms with
  | nil => rfl
  | cons m ms ih =>
    rw [List.map_cons, List.map_cons, List.filter_cons, List.filter_cons, hempty]
    split
    · rw [List.map_cons, ih]
      rfl
    · exact ih

/-- The values of an enumeration are those written in it, but for empty ones, and an attribute of this type lists each
of them once. -/
theorem enumValues_written (optional : Bool) (ms : List EnumMember) (h : ∀ m ∈ ms, ',' ∉ m.content) :
    enumValues (enumType optional ms) = (ms.map EnumMember.value).filter (· ≠ "") ∧
      ∀ (ctx : Context) (typeName : String) (key definition : Ruby.Node),
        (definition.hashValue? "type").map ctx.source = some (enumType optional ms) →
        (ctx.apiAttribute typeName key definition).value.2.values =
          ((ms.map EnumMember.value).filter (· ≠ "")).eraseDups := by
  have hvalues : enumValues (enumType optional ms) = (ms.map EnumMember.value).filter (· ≠ "") := by
    rw [enumValues, enumType_inside]
    dsimp only
    cases ms with
    | nil => rfl
    | cons m ms =>
      have hpieces := values_written h (List.cons_ne_nil m ms) [] nofun
      rw [List.nil_append] at hpieces
      rw [hpieces, kept_values]
  refine ⟨hvalues, fun ctx typeName key definition htype => ?_⟩
  have hattribute : (ctx.apiAttribute typeName key definition).value.2.values =
      (((((definition.hashValue? "type").map ctx.source).map enumValues).getD []).foldl addOnce []) := rfl
  rw [hattribute, htype, Option.map_some, Option.getD_some, hvalues, Registry.foldl_addOnce]
  simp

/-- Brackets, blanks and nothing between the quotes, and a value that is written twice. -/
theorem enumValues_written_optional :
    let ms : List EnumMember := [⟨.single, "] x [".toList, by decide⟩, ⟨.double, [' '], by decide⟩,
      ⟨.single, [], by decide⟩, ⟨.double, [' '], by decide⟩]
    let type : String := "Optional[Enum['] x [', \" \", '', \" \"]]"
    let ctx : Context := { tree := { path := "a.rb", text := [], root := .puppet [], comments := [] }, settings := {} }
    let node (kind : Ruby.NodeKind Ruby.Node) : Ruby.Node := ⟨kind, ⟨0, 0⟩, 1⟩
    let definition := node (.hash [node (.pair (node (.symbol "type")) (node (.str ⟨type, false⟩)))])
    (∀ m ∈ ms, ',' ∉ m.content) ∧ enumType true ms = type ∧ enumValues type = ["] x [", " ", " "] ∧
      (ctx.apiAttribute "t" (node (.symbol "a")) definition).value.2.values = ["] x [", " "] := by
  intro ms type ctx node definition
  have hcommas : ∀ m ∈ ms, ',' ∉ m.content := by decide
  have htype : enumType true ms = type := by decide
  obtain ⟨hvalues, hattribute⟩ := enumValues_written true ms hcommas
  rw [htype] at hvalues hattribute
  refine ⟨hcommas, htype, hvalues.trans (by decide), ?_⟩
  exact (hattribute ctx "t" (node (.symbol "a")) definition rfl).trans (by decide)

/-- The empty text is left out of the values, and a value with a comma falls into two. -/
theorem enumValues_not_written : enumValues "Enum['']" ≠ [""] ∧ enumValues "Enum['a,b']" ≠ ["a,b"] := by
  decide +kernel

end PuppetDocs
