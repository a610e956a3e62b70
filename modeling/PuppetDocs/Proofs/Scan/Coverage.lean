import PuppetDocs.Proofs.Scan.Step
import PuppetDocs.Proofs.Text.Position

/-
  PuppetDocs.Proofs.Scan.Coverage — the tokens of a text, and what stands between them.

  A scanned text is cut, without gap or overlap, into the stretches that `Cut` allows: blanks,
  comments, embedded documents that begin a line, tokens, and behind a line feed the bodies of
  the heredocs that were opened since the line feed before it. `scan_covers` says that every
  text the scanner accepts is cut in this way into its tokens, up to the end or to a data
  marker at the start of a line, so that scanning loses, doubles and moves nothing.

  The invariant of the walk is `Placed`: the characters taken so far are cut into the tokens
  found so far. Heredoc bodies are found after their tokens, so the tokens of a cut may still
  change their values (`Cut.map`), but neither their places nor what they open.
-/

namespace PuppetDocs

namespace Text

theorem eq_append_of_after? {p cs r : List Char} (h : after? p cs = some r) : cs = p ++ r := by
  rw [after?] at h
  split at h
  · rename_i hp
    obtain ⟨t, rfl⟩ := List.isPrefixOf_iff_prefix.mp hp
    rw [List.drop_left] at h
    rw [Option.some.inj h]
  · cases h

end Text

namespace Ruby

open Text (byteLength run)

/-! ## The stretches of a text -/

/-- A space, a tab, a carriage return, a form feed, or a backslash that joins its line to the next. -/
inductive Blank : List Char → Prop
  | space : Blank [' ']
  | tab : Blank ['\t']
  | carriageReturn : Blank ['\r']
  | formFeed : Blank ['\x0c']
  | joined : Blank ['\\', '\n']
  | joinedReturn : Blank ['\\', '\r', '\n']

def AtLineStart (before : List Char) : Prop := before = [] ∨ EndsLine before

/-- From `=begin` to the end of a line that starts with `=end`. -/
def Document (doc below : List Char) : Prop :=
  ∃ inside last, doc = "=begin".toList ++ inside ++ '\n' :: last ∧ "=end".toList <+: last ∧ IsLine last below

/-- A line that is `__END__`, and all that follows it. -/
def Data (cs : List Char) : Prop :=
  ∃ below, cs = "__END__".toList ++ below ∧ (below = [] ∨ ['\n'] <+: below ∨ ['\r', '\n'] <+: below)

/-- The token covers the characters `cs` behind `before`. -/
structure Stands (t : Token TokenKind) (before cs : List Char) : Prop where
  text : t.text.toList = cs
  span : t.span = ⟨byteLength before, byteLength before + byteLength cs⟩

/-- The characters in front of `rest` are cut into these tokens and what may stand between them; the heredocs are
those that have been opened since the last line feed token, in their order. -/
inductive Cut : List Char → List Char → List (Token TokenKind) → List Heredoc → Prop
  | start (text : List Char) : Cut [] text [] []
  | blank {before b rest : List Char} {ts : List (Token TokenKind)} {hs : List Heredoc} :
      Cut before (b ++ rest) ts hs → Blank b → Cut (before ++ b) rest ts hs
  | comment {before c rest : List Char} {ts : List (Token TokenKind)} {hs : List Heredoc} :
      Cut before ('#' :: c ++ rest) ts hs → '\n' ∉ c → (rest = [] ∨ ['\n'] <+: rest) →
      Cut (before ++ '#' :: c) rest ts hs
  | document {before doc rest : List Char} {ts : List (Token TokenKind)} {hs : List Heredoc} :
      Cut before (doc ++ rest) ts hs → AtLineStart before → Document doc rest → Cut (before ++ doc) rest ts hs
  | token {before cs rest : List Char} {ts : List (Token TokenKind)} {hs : List Heredoc} {t : Token TokenKind} :
      Cut before (cs ++ rest) ts hs → cs ≠ [] → t.kind ≠ .newline → Stands t before cs →
      Cut (before ++ cs) rest (ts ++ [t]) (hs ++ (heredocOf? t).toList)
  | newline {before bodies rest : List Char} {ts : List (Token TokenKind)} {hs : List Heredoc} {t : Token TokenKind} :
      Cut before ('\n' :: bodies ++ rest) ts hs → t.kind = .newline → Stands t before ['\n'] → Bodies hs bodies rest →
      Cut (before ++ '\n' :: bodies) rest (ts ++ [t]) []

/-! ## What a cut says of its tokens -/

theorem Cut.stands {before rest : List Char} {ts : List (Token TokenKind)} {hs : List Heredoc}
    (h : Cut before rest ts hs) {t : Token TokenKind} (ht : t ∈ ts) :
    ∃ a cs b, before = a ++ cs ++ b ∧ cs ≠ [] ∧ Stands t a cs := by
  have wider : ∀ {x : List Char} (y : List Char), (∃ a cs b, x = a ++ cs ++ b ∧ cs ≠ [] ∧ Stands t a cs) →
      ∃ a cs b, x ++ y = a ++ cs ++ b ∧ cs ≠ [] ∧ Stands t a cs := by
    rintro x y ⟨a, cs, b, rfl, hcs, hst⟩
    exact ⟨a, cs, b ++ y, by simp, hcs, hst⟩
  induction h with
  | start => cases ht
  | blank _ _ ih | comment _ _ _ ih | document _ _ _ ih => exact wider _ (ih ht)
  | @token before cs rest ts hs u _ hne _ hst ih =>
    rcases List.mem_append.mp ht with ht | ht
    · exact wider _ (ih ht)
    · rw [List.mem_singleton] at ht
      subst ht
      exact ⟨before, cs, [], by simp, hne, hst⟩
  | @newline before bodies rest ts hs u _ _ hst _ ih =>
    rcases List.mem_append.mp ht with ht | ht
    · exact wider _ (ih ht)
    · rw [List.mem_singleton] at ht
      subst ht
      exact ⟨before, ['\n'], bodies, by simp, by simp, hst⟩

theorem Cut.stop_le {before rest : List Char} {ts : List (Token TokenKind)} {hs : List Heredoc}
    (h : Cut before rest ts hs) {t : Token TokenKind} (ht : t ∈ ts) :
    t.span.start < t.span.stop ∧ t.span.stop ≤ byteLength before := by
  obtain ⟨a, cs, b, rfl, hcs, hst⟩ := h.stands ht
  have := Text.byteLength_pos hcs
  simp only [hst.span, Text.byteLength_append]
  omega

/-- Each token starts at or behind the end of the one in front of it. -/
theorem Cut.ordered {before rest : List Char} {ts : List (Token TokenKind)} {hs : List Heredoc}
    (h : Cut before rest ts hs) : ts.Pairwise fun t u => t.span.stop ≤ u.span.start := by
  induction h with
  | start => exact .nil
  | blank _ _ ih | comment _ _ _ ih | document _ _ _ ih => exact ih
  | token hcut _ _ hst ih | newline hcut _ hst _ ih =>
    refine List.pairwise_append.mpr ⟨ih, List.pairwise_singleton _ _, fun t ht u hu => ?_⟩
    rw [List.mem_singleton] at hu
    rw [hu, hst.span]
    exact (hcut.stop_le ht).2

/-! ## Values found later -/

/-- The same token, but for the value of a string. -/
structure Refilled (t u : Token TokenKind) : Prop where
  text : u.text = t.text
  span : u.span = t.span
  kind : u.kind = t.kind ∨ (∃ v, t.kind = .string v) ∧ ∃ v, u.kind = .string v

theorem Refilled.refl (t : Token TokenKind) : Refilled t t := ⟨rfl, rfl, .inl rfl⟩

theorem Refilled.trans {t u v : Token TokenKind} (h : Refilled t u) (k : Refilled u v) : Refilled t v := by
  refine ⟨k.text.trans h.text, k.span.trans h.span, ?_⟩
  rcases h.kind with h' | ⟨hs, hv⟩
  · rw [← h']; exact k.kind
  · refine .inr ⟨hs, ?_⟩
    rcases k.kind with k' | ⟨-, kv⟩
    · rw [k']; exact hv
    · exact kv

theorem Refilled.stands {t u : Token TokenKind} (h : Refilled t u) {before cs : List Char} (hst : Stands t before cs) :
    Stands u before cs := ⟨by rw [h.text, hst.text], by rw [h.span, hst.span]⟩

theorem Refilled.newline {t u : Token TokenKind} (h : Refilled t u) : u.kind = .newline ↔ t.kind = .newline := by
  rcases h.kind with h' | ⟨⟨v, hv⟩, w, hw⟩
  · rw [h']
  · simp [hv, hw]

theorem Refilled.heredocOf? {t u : Token TokenKind} (h : Refilled t u) : heredocOf? u = heredocOf? t := by
  rcases h.kind with h' | ⟨⟨v, hv⟩, w, hw⟩
  · simp only [Ruby.heredocOf?, h', h.text]
  · simp only [Ruby.heredocOf?, hv, hw, h.text]

/-- New values for strings change nothing about the cut. -/
theorem Cut.map {before rest : List Char} {ts : List (Token TokenKind)} {hs : List Heredoc} (h : Cut before rest ts hs)
    {f : Token TokenKind → Token TokenKind} (hf : ∀ t ∈ ts, Refilled t (f t)) : Cut before rest (ts.map f) hs := by
  induction h with
  | start text => exact .start text
  | blank _ hb ih => exact .blank (ih hf) hb
  | comment _ hc hrest ih => exact .comment (ih hf) hc hrest
  | document _ hstart hdoc ih => exact .document (ih hf) hstart hdoc
  | @token before cs rest ts hs t _ hne hk hst ih =>
    have ht := hf t (by simp)
    rw [List.map_append, List.map_singleton, ← ht.heredocOf?]
    exact .token (ih fun u hu => hf u (by simp [hu])) hne (fun hk' => hk (ht.newline.mp hk')) (ht.stands hst)
  | @newline before bodies rest ts hs t _ hk hst hb ih =>
    have ht := hf t (by simp)
    rw [List.map_append, List.map_singleton]
    exact .newline (ih fun u hu => hf u (by simp [hu])) (ht.newline.mpr hk) (ht.stands hst) hb

theorem readBodies_refilled {lines : LineIndex} {tokens tokens' : List (Token TokenKind)} {ps : List Pending}
    {ls rest : List (List Char)} (h : readBodies lines tokens ps ls = .ok (tokens', rest))
    (hps : ∀ p ∈ ps, ∀ t ∈ tokens, t.span.start = p.start → ∃ v, t.kind = .string v) :
    ∃ f, tokens' = tokens.map f ∧ ∀ t ∈ tokens, Refilled t (f t) := by
  induction ps generalizing ls tokens with
  | nil => cases h; exact ⟨id, by simp, fun t _ => .refl t⟩
  | cons p ps ih =>
    rw [readBodies] at h
    split at h
    · cases h
    rename_i body after hb
    split at h
    · cases h
    rename_i value hvalue
    let g : Token TokenKind → Token TokenKind := fun t =>
      if t.span.start == p.start then { t with kind := .string value } else t
    have hg : ∀ t ∈ tokens, Refilled t (g t) := by
      intro t ht
      by_cases he : t.span.start = p.start
      · have hgt : g t = { t with kind := .string value } := if_pos (by simpa using he)
        rw [hgt]
        exact ⟨rfl, rfl, .inr ⟨hps p (by simp) t ht he, _, rfl⟩⟩
      · have hgt : g t = t := if_neg (by simpa using he)
        rw [hgt]
        exact .refl t
    have hps' : ∀ q ∈ ps, ∀ t ∈ tokens.map g, t.span.start = q.start → ∃ v, t.kind = .string v := by
      intro q hq t ht he
      obtain ⟨u, hu, rfl⟩ := List.mem_map.mp ht
      have hr := hg u hu
      rw [hr.span] at he
      obtain ⟨v, hv⟩ := hps q (by simp [hq]) u hu he
      rcases hr.kind with hk | ⟨-, hk⟩
      · exact ⟨v, hk.trans hv⟩
      · exact hk
    obtain ⟨f, rfl, hf⟩ := ih h hps'
    exact ⟨f ∘ g, by simp [fill, g], fun t ht => (hg t ht).trans (hf _ (List.mem_map_of_mem ht))⟩

/-! ## The invariant of the walk -/

/-- Behind `before` the scanner has cut it into its tokens, and the heredocs that wait for a body are those that the
cut leaves open, each at a string token. -/
structure Placed (s : Scanner) (before rest : List Char) : Prop where
  behind : s.reading.behind = before.reverse
  offset : s.reading.offset = byteLength before
  cut : Cut before rest s.reading.tokens.reverse (s.pending.map Pending.heredoc)
  waiting : ∀ p ∈ s.pending, p.start < byteLength before ∧
    ∀ t ∈ s.reading.tokens, t.span.start = p.start → ∃ v, t.kind = .string v

theorem Placed.start (text : List Char) : Placed {} [] text where
  behind := rfl
  offset := rfl
  cut := .start text
  waiting := by simp

theorem Placed.atLineStart {s : Scanner} {before rest : List Char} (h : Placed s before rest)
    (hs : s.reading.atLineStart = true) : AtLineStart before := by
  rw [Reading.atLineStart, h.behind] at hs
  split at hs
  · rename_i he
    exact .inl (by simpa using he)
  · rename_i c cs he
    refine .inr ⟨cs.reverse, ?_⟩
    rw [← List.reverse_reverse before, he, beq_iff_eq.mp hs, List.reverse_cons]

theorem Cut.blanks {before cs : List Char} {ts : List (Token TokenKind)} {hs : List Heredoc} (h : Cut before cs ts hs) :
    Cut (before ++ cs.take (Ruby.blanks cs)) (cs.drop (Ruby.blanks cs)) ts hs := by
  fun_induction Ruby.blanks cs generalizing before with
  | case1 r ih => simpa [Nat.add_comm 2] using ih (.blank (b := ['\\', '\n']) h .joined)
  | case2 r ih => simpa [Nat.add_comm 3] using ih (.blank (b := ['\\', '\r', '\n']) h .joinedReturn)
  | case3 c r _ _ hc ih =>
    have hb : Blank [c] := by
      simp only [Bool.or_eq_true, beq_iff_eq] at hc
      rcases hc with ((rfl | rfl) | rfl) | rfl
      · exact .space
      · exact .tab
      · exact .carriageReturn
      · exact .formFeed
    simpa [Nat.add_comm 1] using ih (.blank (b := [c]) h hb)
  | case4 | case5 => simpa using h

theorem document_of_embeddedDoc? {rest : List Char} {w : Nat} (hbegin : "=begin".toList.isPrefixOf rest = true)
    (h : embeddedDoc? rest = some w) : Document (rest.take w) (rest.drop w) := by
  obtain ⟨inside, last, htake, hend, hline⟩ := embeddedDoc?_end h
  have hsplit : rest = inside ++ '\n' :: (last ++ rest.drop w) := by
    conv_lhs => rw [← List.take_append_drop w rest, htake]
    simp
  rw [hsplit, isPrefixOf_line (by decide)] at hbegin
  obtain ⟨inside, rfl⟩ := List.isPrefixOf_iff_prefix.mp hbegin
  exact ⟨inside, last, htake, hend, hline⟩

theorem data_of_isDataMarker {cs : List Char} (h : isDataMarker cs = true) : Data cs := by
  rw [isDataMarker] at h
  split at h
  · rename_i hm
    exact ⟨[], Text.eq_append_of_after? hm, .inl rfl⟩
  · rename_i below hm
    exact ⟨_, Text.eq_append_of_after? hm, .inr (.inl ⟨below, rfl⟩)⟩
  · rename_i below hm
    exact ⟨_, Text.eq_append_of_after? hm, .inr (.inr ⟨below, rfl⟩)⟩
  · cases h

theorem Found.reading {lines : LineIndex} {s s' : Scanner} {rest : List Char} {n : Nat} (h : Found lines s rest s' n) :
    s'.reading.behind = s.reading.behind ∧ s'.reading.offset = s.reading.offset := by
  cases h <;> exact ⟨rfl, rfl⟩

/-- Any token that the scanner finds behind `before` stands there. -/
theorem Placed.stands {s : Scanner} {before rest : List Char} (h : Placed s before rest) (gap : List Char)
    (kind : TokenKind) (cs : List Char) : Stands ((s.reading.skip gap).token kind cs) (before ++ gap) cs where
  text := String.toList_ofList
  span := by simp [Reading.token, h.offset]

/-- The line feed behind the markers is no marker. -/
theorem Placed.waiting_newline {s : Scanner} {before rest : List Char} (h : Placed s before rest) (gap : List Char) :
    ∀ p ∈ s.pending, ∀ t ∈ (s.reading.skip gap).token .newline ['\n'] :: s.reading.tokens, t.span.start = p.start →
      ∃ v, t.kind = .string v := by
  intro p hp t ht he
  rcases List.mem_cons.mp ht with rfl | ht
  · have := (h.waiting p hp).1
    simp only [Reading.token, Reading.skip_offset, h.offset] at he
    omega
  · exact (h.waiting p hp).2 t ht he

theorem Placed.cut_found {lines : LineIndex} {s s' : Scanner} {before rest : List Char} {n : Nat}
    (h : Placed s before rest) (hf : Found lines s rest s' n) :
    Cut (before ++ rest.take n) (rest.drop n) s'.reading.tokens.reverse (s'.pending.map Pending.heredoc) := by
  have hblanks := h.cut.blanks
  cases hf with
  | document hstart hbegin hdoc =>
    refine .document (by rw [List.take_append_drop]; exact h.cut) (h.atLineStart hstart) ?_
    exact document_of_embeddedDoc? hbegin hdoc
  | @comment cs hcs =>
    have hdrop : ('#' :: cs).drop (1 + run (· != '\n') cs) = cs.dropWhile (· != '\n') := by
      rw [Nat.add_comm, List.drop_succ_cons, drop_run]
    rw [hcs] at hblanks
    rw [List.take_add, ← List.drop_drop, hcs, take_comment, hdrop, ← List.append_assoc]
    refine .comment (by rw [List.cons_append, List.takeWhile_append_dropWhile]; exact hblanks) ?_ ?_
    · intro hmem
      simpa using List.mem_takeWhile_imp hmem
    · rcases hd : cs.dropWhile (· != '\n') with _ | ⟨c, below⟩
      · exact .inl rfl
      · have hc := List.head_dropWhile_not (· != '\n') (l := cs) (by simp [hd])
        simp only [hd, List.head_cons, bne_eq_false_iff_eq] at hc
        exact .inr ⟨below, by rw [hc]; rfl⟩
  | @token kind cs width hcs hpos hle hk =>
    rw [hcs] at hblanks
    rw [List.take_add, ← List.drop_drop, hcs, ← List.append_assoc]
    have hcut := Cut.token (t := (s.reading.skip (rest.take (Ruby.blanks rest))).token kind (cs.take width))
      (by rw [List.take_append_drop]; exact hblanks) (take_ne_nil hpos hle) hk
      (h.stands _ kind _)
    have hopen : ∀ (o : Option Heredoc) (start : Nat),
        ((o.map fun heredoc => Pending.mk heredoc start).toList).map Pending.heredoc = o.toList := by
      rintro (_ | _) _ <;> rfl
    simpa [Scanner.push, hopen] using hcut
  | @newline below tokens after hcs hbodies =>
    obtain ⟨body, hbelow, hb⟩ := readBodies_bodies hbodies
    obtain ⟨f, rfl, hf⟩ := readBodies_refilled hbodies (h.waiting_newline _)
    have hwidth : below.length - after.flatten.length = body.length := by
      rw [hbelow, List.length_append]
      omega
    rw [hcs] at hblanks
    rw [hwidth, Nat.add_assoc, List.take_add, ← List.drop_drop, hcs, ← List.append_assoc, Nat.add_comm 1,
      List.take_succ_cons, List.drop_succ_cons]
    simp only [List.map_cons, List.reverse_cons, ← List.map_reverse]
    have ht := hf _ List.mem_cons_self
    have hcut := Cut.newline
      (by simpa [← hbelow] using hblanks.map (f := f) fun t ht => hf t (.tail _ (List.mem_reverse.mp ht)))
      (ht.newline.mpr rfl) (ht.stands (h.stands _ .newline ['\n'])) hb
    simpa [hbelow] using hcut

theorem Placed.found {lines : LineIndex} {s s' : Scanner} {before rest : List Char} {n : Nat} (h : Placed s before rest)
    (hf : Found lines s rest s' n) : Placed (s'.pass (rest.take n)) (before ++ rest.take n) (rest.drop n) where
  behind := by simp [hf.reading.1, h.behind]
  offset := by simp [hf.reading.2, h.offset]
  cut := by simpa using h.cut_found hf
  waiting := by
    have hold : ∀ {m : Nat}, ∀ p ∈ s.pending, p.start < byteLength (before ++ rest.take m) := by
      intro m p hp
      have := (h.waiting p hp).1
      rw [Text.byteLength_append]
      omega
    intro p hp
    simp only [Scanner.pass_pending, Scanner.pass_reading, Reading.skip_tokens] at hp ⊢
    cases hf with
    | document => exact ⟨hold p hp, (h.waiting p hp).2⟩
    | comment => exact ⟨hold p hp, (h.waiting p hp).2⟩
    | newline => cases hp
    | @token kind cs width hcs hpos hle =>
      generalize ht : (s.reading.skip (rest.take (Ruby.blanks rest))).token kind (cs.take width) = t at hp ⊢
      have hstart : t.span.start = byteLength (before ++ rest.take (Ruby.blanks rest)) := by
        simp [← ht, Reading.token, h.offset]
      simp only [Scanner.push, List.mem_append, Option.mem_toList, Option.map_eq_some_iff] at hp ⊢
      rcases hp with hp | ⟨d, hd, rfl⟩
      · refine ⟨hold p hp, fun u hu he => ?_⟩
        rcases List.mem_cons.mp hu with rfl | hu
        · have := (h.waiting p hp).1
          rw [hstart, Text.byteLength_append] at he
          omega
        · exact (h.waiting p hp).2 u hu he
      · refine ⟨show t.span.start < _ from ?_, fun u hu (he : u.span.start = t.span.start) => ?_⟩
        · have := Text.byteLength_pos (take_ne_nil hpos hle)
          rw [hstart, List.take_add, hcs, ← List.append_assoc, Text.byteLength_append _ (cs.take width)]
          omega
        · rcases List.mem_cons.mp hu with rfl | hu
          · rw [heredocOf?] at hd
            split at hd
            · rename_i v hv
              exact ⟨v, hv⟩
            · cases hd
          · have := h.cut.stop_le (List.mem_reverse.mpr hu)
            rw [hstart, Text.byteLength_append] at he
            omega

theorem Placed.run {lines : LineIndex} {s s' : Scanner} {before rest rest' : List Char} (h : Placed s before rest)
    (hr : Run lines s rest s' rest') : ∃ taken, rest = taken ++ rest' ∧ Placed s' (before ++ taken) rest' := by
  induction hr generalizing before with
  | here => exact ⟨[], rfl, by simpa using h⟩
  | @next s t s' rest rest' n _ hstep _ ih =>
    obtain ⟨taken, hrest, hp⟩ := ih (h.found (step_found hstep))
    refine ⟨rest.take n ++ taken, ?_, by simpa using hp⟩
    rw [List.append_assoc, ← hrest, List.take_append_drop]

/-- What has been found stays, but for the values of strings. -/
theorem Placed.kept {lines : LineIndex} {s s' : Scanner} {before rest rest' : List Char} (h : Placed s before rest)
    (hr : Run lines s rest s' rest') : ∃ ts f, s'.reading.tokens = ts ++ s.reading.tokens.map f ∧
      ∀ t ∈ s.reading.tokens, Refilled t (f t) := by
  induction hr generalizing before with
  | here s => exact ⟨[], id, by simp, fun t _ => .refl t⟩
  | @next s t s' rest rest' n _ hstep _ ih =>
    have hfound := step_found hstep
    obtain ⟨ts, f, htokens, hf⟩ := ih (h.found hfound)
    simp only [Scanner.pass_reading, Reading.skip_tokens] at htokens hf
    have hone : ∃ us g, t.reading.tokens = us ++ s.reading.tokens.map g ∧ ∀ u ∈ s.reading.tokens, Refilled u (g u) := by
      cases hfound with
      | document | comment => exact ⟨[], id, by simp [Scanner.addComment], fun u _ => .refl u⟩
      | token => exact ⟨[_], id, by rw [List.map_id]; rfl, fun u _ => .refl u⟩
      | newline _ hbodies =>
        obtain ⟨g, rfl, hg⟩ := readBodies_refilled hbodies (h.waiting_newline _)
        exact ⟨[_], g, by rw [List.map_cons]; rfl, fun u hu => hg u (.tail _ hu)⟩
    obtain ⟨us, g, hus, hg⟩ := hone
    refine ⟨ts ++ us.map f, f ∘ g, ?_, fun u hu => (hg u hu).trans (hf _ ?_)⟩
    · rw [htokens, hus, List.map_append, List.map_map, List.append_assoc]
    · rw [hus]
      exact List.mem_append_right _ (List.mem_map_of_mem hu)

/-! ## Coverage -/

/-- The characters in front of the end, or of the data, are cut into the tokens; no heredoc is left open. -/
theorem scan_cut {text : List Char} {s : Scanned TokenKind} (h : scan text = .ok s) :
    (∃ before data, text = before ++ data ∧ Cut before data s.tokens [] ∧
      (data = [] ∨ AtLineStart before ∧ Data data)) ∧
    s.stop = { kind := .eof, text := "", span := ⟨byteLength text, byteLength text⟩, spaced := true } := by
  simp only [scan] at h
  split at h
  · cases h
  rename_i z hwalk
  split at h
  · cases h
  rename_i hpending
  cases h
  obtain ⟨rest, hrun, hend⟩ := walk_run hwalk
  obtain ⟨before, rfl, hplaced⟩ := (Placed.start text).run hrun
  have hcut := hplaced.cut
  rw [hpending] at hcut
  refine ⟨?_, rfl⟩
  rcases hend with rfl | hend
  · exact ⟨before, [], rfl, hcut, .inl rfl⟩
  · rcases step_none hend with ⟨hs, hdata⟩ | hblank
    · exact ⟨before, rest, rfl, hcut, .inr ⟨hplaced.atLineStart hs, data_of_isDataMarker hdata⟩⟩
    · have hcut := hcut.blanks
      rw [hblank, List.take_of_length_le (List.drop_eq_nil_iff.mp hblank)] at hcut
      exact ⟨before ++ rest, [], by simp, hcut, .inl rfl⟩

/-- The tokens of a text and the stretches between them are the text, up to its end or to a data marker at the start
of a line. -/
theorem scan_covers {text : List Char} {s : Scanned TokenKind} (h : scan text = .ok s) :
    (∃ before data, text = before ++ data ∧ Cut before data s.tokens [] ∧
      (data = [] ∨ AtLineStart before ∧ Data data)) ∧
    (∀ t ∈ s.tokens, t.span.start < t.span.stop ∧ t.span.slice? text = some t.text.toList) ∧
    s.tokens.Pairwise (fun t u => t.span.stop ≤ u.span.start) ∧
    s.stop = { kind := .eof, text := "", span := ⟨byteLength text, byteLength text⟩, spaced := true } := by
  obtain ⟨⟨before, data, rfl, hcut, hdata⟩, hstop⟩ := scan_cut h
  refine ⟨⟨before, data, rfl, hcut, hdata⟩, fun t ht => ?_, hcut.ordered, hstop⟩
  obtain ⟨a, cs, b, rfl, hne, hst⟩ := hcut.stands ht
  refine ⟨(hcut.stop_le ht).1, ?_⟩
  rw [hst.span, hst.text, List.append_assoc _ b]
  exact Span.slice?_append a cs (b ++ data)

theorem scan_covers_heredoc :
    ∃ s, scan "p <<A # c\nb\nA\n__END__\nz".toList = .ok s ∧ s.tokens.map Token.text = ["p", "<<A", "\n"] ∧
      ∃ before data, "p <<A # c\nb\nA\n__END__\nz".toList = before ++ data ∧ Cut before data s.tokens [] ∧
        (data = [] ∨ AtLineStart before ∧ Data data) :=
  ⟨_, rfl, rfl, (scan_covers rfl).1⟩

end Ruby
end PuppetDocs
