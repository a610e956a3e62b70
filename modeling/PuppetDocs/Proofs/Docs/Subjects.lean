import PuppetDocs.Proofs.Docs.Sections

/-
  PuppetDocs.Proofs.Docs.Subjects — tags about a subject, with its types in front of it or behind.

  `param` and `option` take a list of types and a subject from the front of their text, in either
  order. A text that starts with a list is cut where the list ends; of any other the first word is
  the subject, and a list is looked for behind it. Both ways give the same tag if types, subject
  and text are the same (`parse_subject`).

  Two counts are kept while a list is read: of the square brackets that are open, to find where it
  ends, and of all brackets, to cut it at commas. `awaited` goes through a text with the closing
  brackets that are still to come, and both counts can be told from that (`closeBracket_awaited`,
  `splitOutside_awaited`). Behind a text with nested brackets nothing more is awaited than in front
  of it. So a list ends at the bracket it is written with, and is cut between its types and nowhere
  else (`extractTypes_written`).
-/

namespace PuppetDocs.Docs

open Text

variable {text open_ open' : List Char} {types : List (List Char)} {c d : Char}

/-! ## Nested brackets -/

/-- The bracket that closes an opening one. -/
def closing? (c : Char) : Option Char :=
  if c = '[' then some ']' else if c = '(' then some ')' else if c = '\x7b' then some '\x7d' else none

/-- The closing brackets to come behind a character, the next one first, or nothing if it closes what is not open. -/
def pass (open_ : List Char) (c : Char) : Option (List Char) :=
  match closing? c with
  | some d => some (d :: open_)
  | none => if closesGroup c then if open_.head? = some c then some open_.tail else none else some open_

/-- The closing brackets to come behind a text. -/
def awaited (open_ text : List Char) : Option (List Char) := text.foldlM pass open_

/-- A type as it is written: on one line, with nested brackets, and with commas inside brackets only. -/
structure IsTypeText (text : List Char) : Prop where
  filled : text ≠ []
  trimmed : trim text = text
  oneLine : '\n' ∉ text
  nested : awaited [] text = some []
  /-- A bracket is open in front of every comma. -/
  commas : ∀ i < text.length, text[i]? = some ',' → awaited [] (text.take i) ≠ some []

theorem closing?_eq_some (h : closing? c = some d) :
    c = '[' ∧ d = ']' ∨ c = '(' ∧ d = ')' ∨ c = '\x7b' ∧ d = '\x7d' := by
  unfold closing? at h
  split at h
  · next hc => exact .inl ⟨hc, (Option.some.inj h).symm⟩
  split at h
  · next hc => exact .inr (.inl ⟨hc, (Option.some.inj h).symm⟩)
  split at h
  · next hc => exact .inr (.inr ⟨hc, (Option.some.inj h).symm⟩)
  · cases h

theorem opensGroup_of_closing? (h : closing? c = none) : opensGroup c = false := by
  refine Bool.eq_false_iff.mpr fun hopens => ?_
  simp only [opensGroup, Bool.or_eq_true, beq_iff_eq] at hopens
  rcases hopens with (rfl | rfl) | rfl <;> cases h

/-- A character opens a bracket, closes the one opened last, or is none. -/
theorem pass_cases (h : pass open_ c = some open') :
    (∃ d, closing? c = some d ∧ open' = d :: open_) ∨
    (opensGroup c = false ∧ closesGroup c = true ∧ open_ = c :: open') ∨
    (opensGroup c = false ∧ closesGroup c = false ∧ open' = open_) := by
  unfold pass at h
  split at h
  · next d hclosing =>
    cases h
    exact .inl ⟨d, hclosing, rfl⟩
  · next hnone =>
    have hopens := opensGroup_of_closing? hnone
    split at h
    · next hcloses =>
      split at h
      · next hhead =>
        obtain ⟨outer, rfl⟩ := List.head?_eq_some_iff.mp hhead
        cases h
        exact .inr (.inl ⟨hopens, hcloses, rfl⟩)
      · cases h
    · next hcloses =>
      cases h
      exact .inr (.inr ⟨hopens, Bool.eq_false_iff.mpr hcloses, rfl⟩)

theorem awaited_cons (open_ : List Char) (c : Char) (r : List Char) :
    awaited open_ (c :: r) = (pass open_ c).bind fun open' => awaited open' r := List.foldlM_cons

theorem awaited_append (open_ front back : List Char) :
    awaited open_ (front ++ back) = (awaited open_ front).bind fun open' => awaited open' back := List.foldlM_append

/-! ## The end of a list -/

theorem closeBracket_cons {depth : Nat} (h : ¬(c = ']' ∧ depth ≤ 1)) (r : List Char) :
    closeBracket depth (c :: r) =
      (closeBracket (if c == '[' then depth + 1 else if c == ']' then depth - 1 else depth) r).map
        fun p => (c :: p.1, p.2) := by
  rw [closeBracket, if_neg (by simpa using h)]

/-- Of the brackets that are awaited, the square ones are counted, and the one that ends the list. -/
theorem pass_count (h : pass open_ c = some open') :
    ¬(c = ']' ∧ open_.count ']' + 1 ≤ 1) ∧
    (if c == '[' then open_.count ']' + 1 + 1 else if c == ']' then open_.count ']' + 1 - 1 else open_.count ']' + 1) =
      open'.count ']' + 1 := by
  rcases pass_cases h with ⟨d, hclosing, rfl⟩ | ⟨hopens, -, rfl⟩ | ⟨hopens, hcloses, rfl⟩
  · rcases closing?_eq_some hclosing with ⟨rfl, rfl⟩ | ⟨rfl, rfl⟩ | ⟨rfl, rfl⟩ <;> simp
  · have hsquare : c ≠ '[' := by
      rintro rfl
      cases hopens
    by_cases hc : c = ']'
    · simp [hc]
    · simp [hc, hsquare]
  · have hsquare : c ≠ '[' ∧ c ≠ ']' := by
      constructor
      · rintro rfl
        cases hopens
      · rintro rfl
        cases hcloses
    simp [hsquare]

/-- No bracket in front of which others are awaited ends the list. -/
theorem closeBracket_awaited (h : awaited open_ text = some open') (back : List Char) :
    closeBracket (open_.count ']' + 1) (text ++ back) =
      (closeBracket (open'.count ']' + 1) back).map fun p => (text ++ p.1, p.2) := by
  induction text generalizing open_ with
  | nil =>
    cases h
    exact Option.map_id'.symm
  | cons c r ih =>
    rw [awaited_cons] at h
    obtain ⟨next, hnext, hrest⟩ := Option.bind_eq_some_iff.mp h
    obtain ⟨hinside, hdepth⟩ := pass_count hnext
    rw [List.cons_append, closeBracket_cons hinside, hdepth, ih hrest, Option.map_map]
    rfl

/-! ## The types of a list -/

theorem splitOutside_cons {depth : Nat} (h : ¬(c = ',' ∧ depth = 0)) (r : List Char) :
    splitOutside depth (c :: r) =
      (splitOutside (if opensGroup c then depth + 1 else if closesGroup c then depth - 1 else depth) r).modifyHead
        (c :: ·) := by
  have hne : ∀ (depth : Nat) (r : List Char), splitOutside depth r ≠ [] := by
    intro depth r
    cases r with
    | nil => exact List.cons_ne_nil _ _
    | cons c r =>
      rw [splitOutside]
      split
      · exact List.cons_ne_nil _ _
      · dsimp only
        split <;> exact List.cons_ne_nil _ _
  rw [splitOutside, if_neg (by simpa using h)]
  dsimp only
  split
  · next hnil => exact absurd hnil (hne _ _)
  · next piece pieces hpieces => rw [hpieces, List.modifyHead_cons]

theorem pass_length (h : pass open_ c = some open') :
    (if opensGroup c then open_.length + 1 else if closesGroup c then open_.length - 1 else open_.length) =
      open'.length := by
  rcases pass_cases h with ⟨d, hclosing, rfl⟩ | ⟨hopens, hcloses, rfl⟩ | ⟨hopens, hcloses, rfl⟩
  · rcases closing?_eq_some hclosing with ⟨rfl, -⟩ | ⟨rfl, -⟩ | ⟨rfl, -⟩ <;> simp [opensGroup]
  · simp [hopens, hcloses]
  · simp [hopens, hcloses]

/-- All brackets that are awaited are counted, and a text in which one is at each comma stays in one piece. -/
theorem splitOutside_awaited (h : awaited open_ text = some open')
    (hcommas : ∀ i < text.length, text[i]? = some ',' → awaited open_ (text.take i) ≠ some []) (back : List Char) :
    splitOutside open_.length (text ++ back) = (splitOutside open'.length back).modifyHead (text ++ ·) := by
  induction text generalizing open_ with
  | nil =>
    cases h
    exact (congrFun List.modifyHead_id _).symm
  | cons c r ih =>
    rw [awaited_cons] at h
    obtain ⟨next, hnext, hrest⟩ := Option.bind_eq_some_iff.mp h
    have hinside : ¬(c = ',' ∧ open_.length = 0) := by
      rintro ⟨rfl, hlength⟩
      refine hcommas 0 (Nat.zero_lt_succ _) rfl ?_
      rw [List.length_eq_zero_iff.mp hlength]
      rfl
    have hcommas' : ∀ i < r.length, r[i]? = some ',' → awaited next (r.take i) ≠ some [] := by
      intro i hi hcomma
      have hfront := hcommas (i + 1) (Nat.succ_lt_succ hi) hcomma
      rwa [List.take_succ_cons, awaited_cons, hnext] at hfront
    rw [List.cons_append, splitOutside_cons hinside, pass_length hnext, ih hrest hcommas', List.modifyHead_modifyHead]
    rfl

/-- Types with a comma and a blank between them. -/
def joinTypes (types : List (List Char)) : List Char := List.intercalate [',', ' '] types

theorem joinTypes_cons (t : List Char) (h : types ≠ []) : joinTypes (t :: types) = t ++ ',' :: ' ' :: joinTypes types := by
  obtain ⟨u, us, rfl⟩ := List.exists_cons_of_ne_nil h
  rfl

theorem joinTypes_nested (h : ∀ t ∈ types, IsTypeText t) : awaited [] (joinTypes types) = some [] := by
  induction types with
  | nil => rfl
  | cons t types ih =>
    obtain ⟨ht, htypes⟩ := List.forall_mem_cons.mp h
    by_cases hnil : types = []
    · rw [hnil, joinTypes, List.intercalate_singleton]
      exact ht.nested
    · rw [joinTypes_cons t hnil, awaited_append, ht.nested]
      exact ih htypes

theorem splitOutside_joinTypes {t : List Char} (ht : IsTypeText t) (h : ∀ t ∈ types, IsTypeText t) :
    splitOutside 0 (joinTypes (t :: types)) = t :: types.map (' ' :: ·) := by
  induction types generalizing t with
  | nil =>
    have hsplit : splitOutside 0 (t ++ []) = [t ++ []] := splitOutside_awaited ht.nested ht.commas []
    rw [List.append_nil] at hsplit
    rw [joinTypes, List.intercalate_singleton, hsplit, List.map_nil]
  | cons u types ih =>
    obtain ⟨hu, htypes⟩ := List.forall_mem_cons.mp h
    have hcut : splitOutside 0 (',' :: ' ' :: joinTypes (u :: types)) = [] :: (' ' :: u) :: types.map (' ' :: ·) := by
      have hblank : splitOutside 0 (' ' :: joinTypes (u :: types)) =
          (splitOutside 0 (joinTypes (u :: types))).modifyHead (' ' :: ·) := splitOutside_cons (by decide) _
      rw [splitOutside, if_pos (by decide), hblank, ih hu htypes, List.modifyHead_cons]
    have hsplit : splitOutside 0 (t ++ ',' :: ' ' :: joinTypes (u :: types)) =
        (splitOutside 0 (',' :: ' ' :: joinTypes (u :: types))).modifyHead (t ++ ·) :=
      splitOutside_awaited ht.nested ht.commas _
    rw [joinTypes_cons t (List.cons_ne_nil u types), hsplit, hcut, List.modifyHead_cons, List.append_nil, List.map_cons]

theorem splitTypes_joinTypes (h : ∀ t ∈ types, IsTypeText t) : splitTypes (joinTypes types) = types := by
  cases types with
  | nil => rfl
  | cons t types =>
    obtain ⟨ht, htypes⟩ := List.forall_mem_cons.mp h
    have hpieces : (splitOutside 0 (joinTypes (t :: types))).map trim = t :: types := by
      have hblank : ∀ u ∈ types, (trim ∘ (' ' :: ·)) u = id u := fun u hu => (htypes u hu).trimmed
      rw [splitOutside_joinTypes ht htypes, List.map_cons, ht.trimmed, List.map_map, List.map_congr_left hblank,
        List.map_id]
    have hlast : (t :: types).getLast? ≠ some [] := fun hlast =>
      (h [] (List.mem_of_getLast? hlast)).filled rfl
    rw [splitTypes]
    simp only [hpieces, if_neg hlast]

/-! ## Lists -/

def writeTypes (types : List (List Char)) : List Char := '[' :: (joinTypes types ++ [']'])

/-- A list is found in front of any text, with its types in order. -/
theorem extractTypes_written (h : ∀ t ∈ types, IsTypeText t) (back : List Char) :
    extractTypes (writeTypes types ++ back) = (some types, trimStart back) := by
  have hclose : closeBracket 1 (joinTypes types ++ ']' :: back) = some (joinTypes types, back) := by
    have hfound : closeBracket 1 (joinTypes types ++ ']' :: back) =
        (closeBracket 1 (']' :: back)).map fun p => (joinTypes types ++ p.1, p.2) :=
      closeBracket_awaited (joinTypes_nested h) (']' :: back)
    have hend : closeBracket 1 (']' :: back) = some ([], back) := rfl
    rw [hfound, hend, Option.map_some, List.append_nil]
  have hwritten : writeTypes types ++ back = '[' :: (joinTypes types ++ ']' :: back) := by simp [writeTypes]
  rw [hwritten, extractTypes]
  simp only [hclose, splitTypes_joinTypes h]

/-! ## Tags -/

/-- What a tag says of a subject. -/
structure Remarked where
  types : List (List Char)
  subject : List Char
  text : List Char
  isType : ∀ t ∈ types, IsTypeText t
  named : subject ≠ []
  oneWord : ∀ c ∈ subject, isBlank c = false
  /-- A bracket in front would start a list of types. -/
  noList : subject.head? ≠ some '['
  trimmed : trim text = text
  oneLine : '\n' ∉ text

namespace Remarked

/-- How the line of the tag ends. Without a text nothing has to stand behind the rest. -/
inductive Ending (r : Remarked) : List Char → Prop
  | text : Ending r (' ' :: r.text)
  | none : r.text = [] → Ending r []

def typesFirst (r : Remarked) (ending : List Char) : List Char := writeTypes r.types ++ ' ' :: (r.subject ++ ending)

def subjectFirst (r : Remarked) (ending : List Char) : List Char := r.subject ++ ' ' :: (writeTypes r.types ++ ending)

def tag (r : Remarked) (name : String) : Tag :=
  { name
    text? := if r.text = [] then none else some (String.ofList r.text)
    subject := some (String.ofList r.subject)
    types := some (r.types.map String.ofList) }

end Remarked

/-! ## Words and blanks -/

theorem trimStart_subject (r : Remarked) (back : List Char) : trimStart (r.subject ++ back) = r.subject ++ back := by
  obtain ⟨c, word, hword⟩ := List.exists_cons_of_ne_nil r.named
  have hc := r.oneWord c (by simp [hword])
  rw [hword, List.cons_append]
  exact trimStart_of_head fun d hd => by cases hd; exact hc

/-- The subject ends in front of the first blank. -/
theorem firstWord_subject (r : Remarked) {back : List Char} (h : ∀ c ∈ back.head?, isBlank c = true) :
    firstWord (r.subject ++ back) = (r.subject, trim back) := by
  have hword : ∀ c ∈ r.subject, (!isBlank c) = true := fun c hc => by simp [r.oneWord c hc]
  have hend : back.takeWhile (!isBlank ·) = [] ∧ back.dropWhile (!isBlank ·) = back := by
    cases back with
    | nil => exact ⟨rfl, rfl⟩
    | cons c back =>
      have hc : ¬(!isBlank c) = true := by simp [h c rfl]
      exact ⟨List.takeWhile_cons_of_neg hc, List.dropWhile_cons_of_neg hc⟩
  simp only [firstWord, trimStart_subject]
  rw [List.takeWhile_append_of_pos hword, List.dropWhile_append_of_pos hword, hend.1, hend.2, List.append_nil]

theorem extractTypes_subject (r : Remarked) (back : List Char) : extractTypes (r.subject ++ back) = (none, r.subject ++ back) := by
  obtain ⟨c, word, hword⟩ := List.exists_cons_of_ne_nil r.named
  have hc : c ≠ '[' := by
    rintro rfl
    exact r.noList (by rw [hword]; rfl)
  rw [hword, List.cons_append, extractTypes]
  rintro rest ⟨⟩
  exact hc rfl

/-- The text at the end of a line, with the blank in front of it; of no text nothing is left. -/
def behindBlank (text : List Char) : List Char := trimEnd (' ' :: text)

theorem behindBlank_head (text : List Char) : ∀ c ∈ (behindBlank text).head?, isBlank c = true := by
  intro c hc
  cases htext : allBlank text with
  | true =>
    rw [behindBlank, trimEnd_of_allBlank (show allBlank (' ' :: text) = true from htext)] at hc
    cases hc
  | false =>
    have hsplit : behindBlank text = ' ' :: trimEnd text := trimEnd_append_content [' '] htext
    rw [hsplit] at hc
    cases hc
    rfl

theorem trim_behindBlank {text : List Char} (h : trim text = text) : trim (behindBlank text) = text :=
  (trim_trimEnd _).trans h

theorem trim_trimStart (cs : List Char) : trim (trimStart cs) = trim cs := by
  rw [trim, trim, trimStart_of_head fun c hc => ?_]
  have hhead := List.head?_dropWhile_not isBlank cs
  rw [← trimStart, Option.mem_def.mp hc] at hhead
  simpa using hhead

theorem nonBlank_of_trim {cs text : List Char} (h : trim cs = text) :
    nonBlank cs = if text = [] then none else some (String.ofList text) := by
  simp only [nonBlank, h, List.isEmpty_iff]

/-! ## The two ways -/

/-- Of a line with a text at its end, no more is trimmed off than blanks behind the text. -/
theorem trim_layout {r : Remarked} {front ending : List Char} (hne : front ≠ [])
    (hfirst : ∀ c ∈ front.head?, isBlank c = false) (hlast : Solid front) (h : r.Ending ending) :
    trim (front ++ ending) = front ++ behindBlank r.text := by
  have hstart : trimStart (front ++ ending) = front ++ ending := by
    refine trimStart_of_head fun c hc => hfirst c ?_
    rwa [List.head?_append_of_ne_nil _ hne] at hc
  rw [trim, hstart]
  cases h with
  | none htext =>
    rw [htext, List.append_nil, hlast.trimEnd]
    exact (List.append_nil front).symm
  | text =>
    cases htext : allBlank r.text with
    | true =>
      have hblank : allBlank (' ' :: r.text) = true := htext
      rw [trimEnd_append_blank _ hblank, hlast.trimEnd, behindBlank, trimEnd_of_allBlank hblank, List.append_nil]
    | false => exact trimEnd_append_content front (show allBlank (' ' :: r.text) = false from htext)

theorem solid_subject (r : Remarked) (front : List Char) : Solid (front ++ r.subject) := by
  intro c hc
  rw [List.getLast?_append_of_ne_nil _ r.named] at hc
  exact r.oneWord c (List.mem_of_getLast? hc)

theorem solid_writeTypes (types : List (List Char)) (front : List Char) : Solid (front ++ writeTypes types) := by
  have hend : front ++ writeTypes types = front ++ '[' :: joinTypes types ++ [']'] := by simp [writeTypes]
  intro c hc
  rw [hend, List.getLast?_concat] at hc
  cases hc
  rfl

/-- A list in front ends at its bracket, and behind it the subject is the first word. -/
theorem subjectTag_typesFirst {r : Remarked} {ending : List Char} (h : r.Ending ending) (name : String) :
    subjectTag name (trim (r.typesFirst ending)) = r.tag name := by
  have hfront : r.typesFirst ending = (writeTypes r.types ++ ' ' :: r.subject) ++ ending := by simp [Remarked.typesFirst]
  have htrim : trim (r.typesFirst ending) = writeTypes r.types ++ ' ' :: (r.subject ++ behindBlank r.text) := by
    have hsolid : Solid (writeTypes r.types ++ ' ' :: r.subject) := by
      have hsolid := solid_subject r (writeTypes r.types ++ [' '])
      rwa [List.append_assoc] at hsolid
    rw [hfront, trim_layout (by simp [writeTypes]) (fun c hc => by cases hc; rfl) hsolid h, List.append_assoc,
      List.cons_append]
  have hsubject : trimStart (' ' :: (r.subject ++ behindBlank r.text)) = r.subject ++ behindBlank r.text :=
    trimStart_subject r _
  have hword : firstWord (r.subject ++ behindBlank r.text) = (r.subject, r.text) := by
    rw [firstWord_subject r (behindBlank_head r.text), trim_behindBlank r.trimmed]
  rw [subjectTag, htrim, extractTypes_written r.isType, hsubject]
  simp only [hword, Option.isNone_some, Bool.false_eq_true, if_false, List.isEmpty_iff, r.named,
    nonBlank_of_trim r.trimmed]
  rfl

/-- In front of a list the subject is the first word, and then the list is in front. -/
theorem subjectTag_subjectFirst {r : Remarked} {ending : List Char} (h : r.Ending ending) (name : String) :
    subjectTag name (trim (r.subjectFirst ending)) = r.tag name := by
  have hfront : r.subjectFirst ending = (r.subject ++ ' ' :: writeTypes r.types) ++ ending := by
    simp [Remarked.subjectFirst]
  have hsolid : Solid (r.subject ++ ' ' :: writeTypes r.types) := by
    have hsolid := solid_writeTypes r.types (r.subject ++ [' '])
    rwa [List.append_assoc] at hsolid
  have hfirst : ∀ c ∈ (r.subject ++ ' ' :: writeTypes r.types).head?, isBlank c = false := by
    intro c hc
    rw [List.head?_append_of_ne_nil _ r.named] at hc
    exact r.oneWord c (List.mem_of_mem_head? hc)
  have htrim : trim (r.subjectFirst ending) = r.subject ++ ' ' :: (writeTypes r.types ++ behindBlank r.text) := by
    rw [hfront, trim_layout (by simp [r.named]) hfirst hsolid h, List.append_assoc, List.cons_append]
  have hlist : trim (' ' :: (writeTypes r.types ++ behindBlank r.text)) = writeTypes r.types ++ behindBlank r.text := by
    have hlayout : trim (writeTypes r.types ++ ending) = writeTypes r.types ++ behindBlank r.text :=
      trim_layout (by simp [writeTypes]) (fun c hc => by cases hc; rfl) (solid_writeTypes r.types []) h
    have hblank : ∀ cs, trim (' ' :: cs) = trim cs := fun _ => rfl
    rw [hblank, ← hlayout, trim_trim]
  have hword : firstWord (r.subject ++ ' ' :: (writeTypes r.types ++ behindBlank r.text)) =
      (r.subject, writeTypes r.types ++ behindBlank r.text) := by
    rw [firstWord_subject r (fun c hc => by cases hc; rfl), hlist]
  rw [subjectTag, htrim, extractTypes_subject]
  simp only [hword, Option.isNone_none, if_true, extractTypes_written r.isType, List.isEmpty_iff, r.named, if_false,
    nonBlank_of_trim ((trim_trimStart _).trans (trim_behindBlank r.trimmed))]
  rfl

/-! ## Docstrings -/

/-- A tag of one line says what stands on it, but for the blanks around that. -/
theorem makeTag_line {name : String} (hname : name = "param" ∨ name = "option") (content : List Char) :
    makeTag name content [] = subjectTag name (trim content) := by
  have htext : tagText content [] = trim content := by
    cases hcontent : trim content with
    | nil => simp [tagText, hcontent, joinLines]
    | cons c r => simp [tagText, hcontent, joinLines]
  have hexample : name ≠ "example" := by rcases hname with rfl | rfl <;> decide
  rw [makeTag, if_neg hexample, if_pos hname, htext]

/-- A tag on a line of its own behind a line that opens none. -/
theorem parse_behind_line {line name : List Char} (hline : '\n' ∉ line) (hfilled : allBlank line = false)
    (hplain : opening (trimEnd line) = none) (hname : IsTagName name) {written : List Char} (hwritten : '\n' ∉ written) :
    ∃ content, trim content = trim written ∧
      Docstring.parse (String.ofList (line ++ '\n' :: '@' :: (name ++ ' ' :: written))) =
        { text := String.ofList (trim line), tags := [makeTag (String.ofList name) content []] } := by
  let header := '@' :: (name ++ ' ' :: written)
  obtain ⟨content, hopening, hcontent⟩ := opening_line hname written
  have hcontents : ∀ l ∈ [line, header], allBlank l = false := by
    refine List.forall_mem_cons.mpr ⟨hfilled, List.forall_mem_singleton.mpr ?_⟩
    exact allBlank_of_mem_false (show isBlank '@' = false from rfl) List.mem_cons_self
  have hone : ∀ l ∈ [line, header], '\n' ∉ l := by
    have hsolid : '\n' ∉ name := fun hmem => absurd (hname.solid _ hmem) (by decide)
    refine List.forall_mem_cons.mpr ⟨hline, List.forall_mem_singleton.mpr ?_⟩
    simp [header, hsolid, hwritten]
  have hzero : sharedIndent [line, header] = 0 :=
    (framed_of_filled hcontents (Nat.le_refl 2)).sharedIndent_eq_zero.mpr
      ⟨header, List.mem_cons_self, hcontents header (by simp), rfl⟩
  have houtdent : ∀ l ∈ [line, header], outdent 0 l = trimEnd l := fun l hl => by
    rw [outdent_of_content (hcontents l hl), Nat.min_zero, List.drop_zero]
  have hlines : lines (scrub (line ++ '\n' :: header)) = [trimEnd line, trimEnd header] := by
    have hscrub := lines_scrub_filled hone hcontents (Nat.le_refl 2)
    rwa [hzero, List.map_congr_left houtdent, joinLines_cons line (List.cons_ne_nil header []), joinLines,
      List.intercalate_singleton] at hscrub
  have hsorted : sortLines none (lines (scrub (line ++ '\n' :: header))) =
      ([trimEnd line], [makeTag (String.ofList name) content []]) := by
    rw [hlines, sortLines_plain ((allBlank_trimEnd line).trans hfilled) hplain, sortLines_opening hopening]
    rfl
  have hdescription : trim (joinLines [trimEnd line]) = trim line := by
    rw [joinLines, List.intercalate_singleton, trim_trimEnd]
  refine ⟨content, hcontent, ?_⟩
  rw [Docstring.parse, String.toList_ofList, parseChars, hsorted]
  simp only [hdescription]

theorem newline_writeTypes {types : List (List Char)} (h : ∀ t ∈ types, IsTypeText t) : '\n' ∉ writeTypes types := by
  have hjoined : '\n' ∉ joinTypes types := by
    induction types with
    | nil => exact List.not_mem_nil
    | cons t types ih =>
      obtain ⟨ht, htypes⟩ := List.forall_mem_cons.mp h
      by_cases hnil : types = []
      · rw [hnil, joinTypes, List.intercalate_singleton]
        exact ht.oneLine
      · rw [joinTypes_cons t hnil]
        simp [ht.oneLine, ih htypes]
  simp [writeTypes, hjoined]

/-- Behind a line of description, a tag is read the same with the types in front of its subject and behind it: with
these types, this subject and this text, and no others. -/
theorem parse_subject {name : String} (hname : name = "param" ∨ name = "option") (r : Remarked) {line ending : List Char}
    (hending : r.Ending ending) (hline : '\n' ∉ line) (hfilled : allBlank line = false)
    (hplain : opening (trimEnd line) = none) :
    Docstring.parse (String.ofList (line ++ '\n' :: '@' :: (name.toList ++ ' ' :: r.typesFirst ending))) =
      { text := String.ofList (trim line), tags := [r.tag name] } ∧
    Docstring.parse (String.ofList (line ++ '\n' :: '@' :: (name.toList ++ ' ' :: r.subjectFirst ending))) =
      { text := String.ofList (trim line), tags := [r.tag name] } := by
  have htagName : IsTagName name.toList := by
    rcases hname with rfl | rfl
    · exact ⟨[], 'p', "aram".toList, rfl, .inl rfl, rfl, List.all_eq_true.mp (by decide)⟩
    · exact ⟨[], 'o', "ption".toList, rfl, .inl rfl, rfl, List.all_eq_true.mp (by decide)⟩
  have hsubject : '\n' ∉ r.subject := fun hmem => absurd (r.oneWord _ hmem) (by decide)
  have hend : '\n' ∉ ending := by
    cases hending with
    | none => exact List.not_mem_nil
    | text => simp [r.oneLine]
  have hread : ∀ written, '\n' ∉ written → subjectTag name (trim written) = r.tag name →
      Docstring.parse (String.ofList (line ++ '\n' :: '@' :: (name.toList ++ ' ' :: written))) =
        { text := String.ofList (trim line), tags := [r.tag name] } := by
    intro written hwritten htag
    obtain ⟨content, hcontent, hparse⟩ := parse_behind_line hline hfilled hplain htagName hwritten
    rw [hparse, String.ofList_toList, makeTag_line hname, hcontent, htag]
  constructor
  · refine hread _ ?_ (subjectTag_typesFirst hending name)
    simp [Remarked.typesFirst, newline_writeTypes r.isType, hsubject, hend]
  · refine hread _ ?_ (subjectTag_subjectFirst hending name)
    simp [Remarked.subjectFirst, newline_writeTypes r.isType, hsubject, hend]

/-- A comma inside a type, and a text that starts like a list of types. -/
def portsRemark : Remarked where
  types := ["Hash[String, Tuple[Integer, \x7b\x7d]]".toList, "Undef".toList]
  subject := "ports".toList
  text := "[tcp] The ports.".toList
  isType := List.forall_mem_cons.mpr ⟨⟨by decide, by decide, by decide, by decide, by decide⟩,
    List.forall_mem_singleton.mpr ⟨by decide, by decide, by decide, by decide, by decide⟩⟩
  named := by decide
  oneWord := by
    have hall : "ports".toList.all (!isBlank ·) = true := by decide
    simpa using hall
  noList := by decide
  trimmed := by decide
  oneLine := by decide

theorem parse_subject_ports :
    portsRemark.tag "param" = { name := "param", text? := some "[tcp] The ports.", subject := some "ports",
                                types := some ["Hash[String, Tuple[Integer, \x7b\x7d]]", "Undef"] } ∧
    Docstring.parse "Opens ports.\n@param [Hash[String, Tuple[Integer, \x7b\x7d]], Undef] ports [tcp] The ports." =
      { text := "Opens ports.", tags := [portsRemark.tag "param"] } ∧
    Docstring.parse "Opens ports.\n@param ports [Hash[String, Tuple[Integer, \x7b\x7d]], Undef] [tcp] The ports." =
      { text := "Opens ports.", tags := [portsRemark.tag "param"] } := by
  have hplain : opening (trimEnd "Opens ports.".toList) = none := by decide
  obtain ⟨htypes, hsubject⟩ := parse_subject (.inl rfl) portsRemark .text (by decide) (by decide) hplain
  exact ⟨by decide, htypes, hsubject⟩

end PuppetDocs.Docs
