import Mathlib.Data.List.TakeWhile
import PuppetDocs.Proofs.Tree.Reading
import PuppetDocs.Ruby.Grammar.Args

/-
  PuppetDocs.Proofs.Tree.Args — where arguments and parameters are laid.

  The hash that is made of the entries at the end of an argument list covers the text from the
  first entry to the last one. That no entry in between ends behind the last one is `Rising`.
-/

namespace PuppetDocs.Ruby

open ParseM
open Text (byteLength)

variable {text : List Char}

/-! ## Grouping -/

theorem groupEntries_cases (args : List Node) :
    groupEntries args = args ∨ ∃ front first more, args = front ++ first :: more ∧ (∀ n ∈ first :: more, isEntry n = true) ∧
      groupEntries args = front ++ [{ kind := .hash (first :: more), line := first.line
                                      span := first.span.merge ((first :: more).getLast (by simp)).span }] := by
  have hall : ∀ n ∈ (args.reverse.takeWhile isEntry).reverse, isEntry n = true := fun n hn =>
    List.mem_takeWhile_imp (List.mem_reverse.mp hn)
  generalize hentries : (args.reverse.takeWhile isEntry).reverse = entries at hall
  obtain ⟨front, hargs⟩ : entries <:+ args := by
    rw [← hentries, ← List.reverse_prefix, List.reverse_reverse]
    exact List.takeWhile_prefix _
  rcases entries with _ | ⟨first, more⟩
  · left
    simp only [groupEntries, hentries, List.head?_nil]
  · right
    refine ⟨front, first, more, hargs.symm, hall, ?_⟩
    have htake : args.take (args.length - (first :: more).length) = front := by simp [← hargs]
    simp only [groupEntries, hentries, List.head?_cons, List.getLast?_eq_some_getLast (List.cons_ne_nil first more), htake]

theorem Rising.getLast {ns : List Node} (h : Rising ns) (hne : ns ≠ []) {n : Node} (hn : n ∈ ns) (hc : n.Covers) :
    n.span.stop ≤ (ns.getLast hne).span.stop := by
  have hsplit : ns.dropLast ++ [ns.getLast hne] = ns := List.dropLast_concat_getLast hne
  rw [← hsplit] at hn
  rcases List.mem_append.mp hn with hn | hn
  · rw [Rising, ← hsplit] at h
    exact (List.pairwise_append.mp h).2.2 n hn _ (by simp) hc
  · rw [List.mem_singleton.mp hn]

/-- Entries made one hash lie where they lay; no node ends where none ended. -/
theorem Laid.groupEntries {lo hi e : Nat} {args : List Node} (h : Laid text lo hi e args) (hr : Rising args) :
    Laid text lo hi e (groupEntries args) ∧ Rising (Ruby.groupEntries args) ∧
      ∀ m ∈ Ruby.groupEntries args, m.Covers → ∃ n ∈ args, n.Covers ∧ n.span.stop = m.span.stop := by
  rcases groupEntries_cases args with heq | ⟨front, first, more, rfl, hall, heq⟩
  · rw [heq]
    exact ⟨h, hr, fun m hm hc => ⟨m, hm, hc, rfl⟩⟩
  obtain ⟨hfront, hentries, hlo⟩ := h.split
  obtain ⟨hrfront, hrentries, hcross⟩ := List.pairwise_append.mp hr
  have hne : first :: more ≠ [] := by simp
  generalize hlast : (first :: more).getLast hne = last at heq
  have hmem : last ∈ first :: more := hlast ▸ List.getLast_mem hne
  have hcovers : ∀ n ∈ first :: more, n.Covers := fun n hn => (hentries.mem hn).1.entry (hall n hn)
  -- The last entry ends last, so the hash ends with it.
  have hends : ∀ n ∈ first :: more, n.span.stop ≤ last.span.stop := fun n hn =>
    hlast ▸ Rising.getLast hrentries hne hn (hcovers n hn)
  obtain ⟨hfirst, -, hhi⟩ := hentries.mem (List.mem_cons_self)
  obtain ⟨hplace, hstart, -⟩ := hentries.mem hmem
  have hspan : first.span.merge last.span = ⟨first.span.start, last.span.stop⟩ := by
    have := hends first List.mem_cons_self
    rw [Span.merge, Nat.min_eq_left hstart, Nat.max_eq_right this]
  rw [hspan] at heq
  have hhash : Laid text first.span.start hi e
      [{ kind := .hash (first :: more), span := ⟨first.span.start, last.span.stop⟩, line := first.line }] := by
    refine .single rfl (k := last.span.stop) ?_ hhi ?_ hplace.inside hfirst.line (Nat.le_refl _) ?_ nofun
    · exact ⟨hentries.inPlace, hentries.sorted, hentries.within, fun n hn _ => hends n hn⟩
    · exact Nat.le_trans hstart hplace.ordered
    · exact fun _ => hentries.stops last hmem (hcovers last hmem)
  rw [heq]
  refine ⟨hfront.append hhash hlo hhi (Nat.le_refl _), List.pairwise_append.mpr ⟨hrfront, List.pairwise_singleton _ _, ?_⟩, ?_⟩
  · intro n hn m hm hc
    rw [List.mem_singleton.mp hm]
    exact hcross n hn last hmem hc
  · intro m hm hc
    rcases List.mem_append.mp hm with hm | hm
    · exact ⟨m, List.mem_append_left _ hm, hc, rfl⟩
    · rw [List.mem_singleton.mp hm]
      exact ⟨last, List.mem_append_right _ hmem, hcovers last hmem, rfl⟩

theorem Got.group {s₀ s : Stream TokenKind} {lo : Nat} {args : List Node} (h : Got text s₀ s lo args) :
    Got text s₀ s lo (groupPairs args) := by
  unfold groupPairs
  split
  · rename_i last hlast
    split
    · obtain ⟨front, rfl⟩ := List.getLast?_eq_some_iff.mp hlast
      rw [List.dropLast_concat]
      obtain ⟨hfront, hend, hlo⟩ := h.laid.split
      obtain ⟨hrfront, -, hcross⟩ := List.pairwise_append.mp h.rising
      obtain ⟨hgroup, hrgroup, hends⟩ := hfront.groupEntries hrfront
      have hhi := (hend.mem List.mem_cons_self).2.2
      refine ⟨h.leads, h.from_, hgroup.append hend hlo hhi (Nat.le_refl _),
        List.pairwise_append.mpr ⟨hrgroup, List.pairwise_singleton _ _, ?_⟩⟩
      intro m hm x hx hc
      obtain ⟨n, hn, hcn, hstop⟩ := hends m hm hc
      rw [← hstop]
      exact hcross n hn x hx hcn
    · obtain ⟨hlaid, hrising, -⟩ := h.laid.groupEntries h.rising
      exact ⟨h.leads, h.from_, hlaid, hrising⟩
  · exact h

/-! ## Arguments -/

theorem reads_args {self : Reader} (hself : Lays text self) (closer : TokenKind) : Reads text (readArgs self closer) := by
  intro env s hl hs
  unfold readArgs
  refine (Got.start hs).pass passes_skipNewlines fun _ s' h => ?_
  refine gives_look (looks_atAny _) fun closed => ?_
  split
  · exact gives_pure.mpr h
  · refine h.next hl (hself .arg) fun a s' h => ?_
    refine h.pass passes_skipNewlines fun _ s' h => ?_
    refine h.pass (passes_eat _) fun comma s' h => ?_
    split
    · refine h.next hl hself.args fun more s' h => ?_
      exact gives_pure.mpr h
    · exact gives_pure.mpr h

theorem reads_moreArgs {self : Reader} (hself : Lays text self) : Reads text (readMoreArgs self) := by
  intro env s hl hs
  unfold readMoreArgs
  refine (Got.start hs).pass (passes_eat _) fun comma s' h => ?_
  split
  · refine h.pass passes_skipNewlines fun _ s' h => ?_
    refine h.next hl (hself .arg) fun a s' h => ?_
    refine h.next hl (hself .moreArgs) fun more s' h => ?_
    exact gives_pure.mpr h
  · exact gives_pure.mpr h

theorem reads_commandArgs {self : Reader} (hself : Lays text self) : Reads text (commandArgs self) := by
  intro env s hl hs
  unfold commandArgs
  have hargs : Reads text (do
      let a ← self .arg
      return a :: (← self .moreArgs)) := by
    intro env s hl hs
    refine (Got.start hs).next hl (hself .arg) fun a s' h => ?_
    refine h.next hl (hself .moreArgs) fun more s' h => ?_
    exact gives_pure.mpr h
  refine (Got.start hs).next hl hargs.withoutDo fun args s' h => ?_
  exact gives_pure.mpr h.group

theorem reads_parenArgs {self : Reader} (hself : Lays text self) : Reads text (parenArgs self) := by
  intro env s hl hs
  unfold parenArgs
  refine (Got.start hs).pass (passes_need _ _) fun _ s' h => ?_
  refine h.next hl hself.args.nested fun args s' h => ?_
  refine h.pass (passes_need _ _) fun _ s' h => ?_
  exact gives_pure.mpr h.group

section Arg

variable {self : Reader} {env : ParseEnv} {s : Stream TokenKind}

theorem gives_labelArg (hself : Lays text self) (hl : env.lines = .ofText text) (hs : s.Sound (byteLength text))
    (hk : s.peek.kind = .label) : Gives (labelArg self s.here) env s fun n s' => Got text s s' s.here [n] := by
  unfold labelArg
  simp only [gives_bump, gives_lineOf, hl]
  have hcovers : s.peek.span.start < s.peek.span.stop := hs.peek_covers (by rw [hk]; decide)
  have hend := hs.advance_prevEnd hcovers
  have hnext := hs.advance
  have hinside := hs.peek_span.2
  -- The key and the variable that it may stand for share the text in front of the colon.
  have hshared : ∀ kinds : List (NodeKind Node), (∀ k ∈ kinds, k.children = [] ∧ isEntry ⟨k, ⟨s.peek.span.start,
      s.peek.span.stop - 1⟩, (LineIndex.ofText text).line s.peek.span.start⟩ = false) → Got text s.advance s.advance s.here
      (kinds.map fun kind => ⟨kind, ⟨s.peek.span.start, s.peek.span.stop - 1⟩, (LineIndex.ofText text).line s.peek.span.start⟩) := by
    intro kinds hkinds
    refine ⟨.refl hnext.sound, hnext.starts, ?_, .shared kinds _ _⟩
    refine .shared kinds hkinds (Nat.le_refl _) hnext.starts ?_ ?_ fun _ => ?_ <;> simp only <;> omega
  have hpast : ∀ {s' : Stream TokenKind}, s.advance.Leads (byteLength text) s' → s.here < s'.prevEnd := fun h =>
    Nat.lt_of_lt_of_le hcovers (hend ▸ h.ends)
  refine (passes_skipNewlines env _ hnext.sound).bind fun _ s₁ h₁ => ?_
  refine gives_look (looks_atAny _) fun short => ?_
  split
  · have h := (hshared [.symbol (keyName s.peek.text), .ident (keyName s.peek.text)]
      (by simp [NodeKind.children, isEntry])).move h₁
    exact (h.node hl rfl fun _ => hpast h.leads).mono fun n s' h => h.since hnext
  · have h := (hshared [.symbol (keyName s.peek.text)] (by simp [NodeKind.children, isEntry])).move h₁
    refine h.next hl (hself .negation) fun value s' h => ?_
    exact (h.node hl rfl fun _ => hpast h.leads).mono fun n s' h => h.since hnext

theorem gives_quotedKeyArg (hself : Lays text self) (hl : env.lines = .ofText text) (hs : s.Sound (byteLength text))
    {value : StrLit} (hk : s.peek.kind = .string value) :
    Gives (quotedKeyArg self value s.here) env s fun n s' => Got text s s' s.here [n] := by
  unfold quotedKeyArg
  simp only [gives_bump, gives_lineOf, hl]
  have hcovers : s.peek.span.start < s.peek.span.stop := hs.peek_covers (by simp [hk])
  have hend := hs.advance_prevEnd hcovers
  have hnext := hs.advance
  have hspan := hs.peek_span
  have hpast : ∀ {s' : Stream TokenKind}, s.advance.Leads (byteLength text) s' → s.here < s'.prevEnd := fun h =>
    Nat.lt_of_lt_of_le hcovers (hend ▸ h.ends)
  have h : Got text s.advance s.advance s.here
      [{ kind := .quotedSymbol value, span := s.peek.span, line := (LineIndex.ofText text).line s.peek.span.start }] := by
    refine ⟨.refl hnext.sound, hnext.starts, ?_, List.pairwise_singleton _ _⟩
    exact Laid.shared [.quotedSymbol value] (by simp [NodeKind.children, isEntry]) (Nat.le_refl _) hnext.starts
      hspan.1 hspan.2 fun _ => Nat.le_of_eq hend.symm
  refine h.advance.pass passes_skipNewlines fun _ s' h => ?_
  refine h.next hl (hself .negation) fun value s' h => ?_
  exact (h.node hl rfl fun _ => hpast h.leads).mono fun n s' h => h.since hnext

theorem reads_plainArg (hself : Lays text self) (hl : env.lines = .ofText text) (hs : s.Sound (byteLength text)) :
    Gives (plainArg self s.here) env s fun n s' => Got text s s' s.here [n] := by
  unfold plainArg
  refine (Got.start hs).next hl (hself .negation) fun key s₁ h => ?_
  refine (gives_eat h.sound .fatArrow).bind fun arrow s₂ ⟨h₂, hpast⟩ => ?_
  split
  · rename_i harrow
    have hlt := Nat.lt_of_le_of_lt h.from_ (hpast harrow (by decide))
    have hs₂ := (h.move h₂).leads
    refine (h.move h₂).restart.pass passes_skipNewlines fun _ s' h => ?_
    refine h.next hl (hself .negation) fun value s' h => ?_
    exact (h.node hl rfl fun _ => Nat.lt_of_lt_of_le hlt h.leads.ends).mono fun n s' h => h.since hs₂
  · exact gives_pure.mpr (h.move h₂)

theorem reads_arg (hself : Lays text self) : Reads text (readArg self) := by
  intro env s hl hs
  unfold readArg
  rw [gives_here, gives_peekKind]
  split
  · rw [gives_bump]
    have h := (Got.start hs).advance
    refine gives_look (looks_atAny _) fun bare => ?_
    split
    · exact h.node hl rfl nofun
    · refine h.next hl (hself .ternary) fun value s' h => ?_
      exact h.node hl rfl nofun
  · rename_i hk
    exact gives_labelArg hself hl hs hk
  · rename_i value hk
    refine gives_look (looks_colonAt 1) fun colon => ?_
    split
    · exact gives_quotedKeyArg hself hl hs hk
    · exact reads_plainArg hself hl hs
  · exact reads_plainArg hself hl hs

end Arg

/-! ## Parameters -/

theorem leads_parensEnd {len depth : Nat} {rest rest' : List (Token TokenKind)} {stop : Token TokenKind} {prevEnd e : Nat}
    (hs : (Stream.mk rest stop prevEnd).Sound len) (h : parensEnd depth rest = some (rest', e)) :
    (Stream.mk rest stop prevEnd).Leads len ⟨rest', stop, e⟩ := by
  fun_induction parensEnd depth rest generalizing prevEnd with
  | case1 => cases h
  | case2 depth t rest hk ih => exact hs.advance.trans (ih hs.advance.sound h)
  | case3 | case4 =>
    cases h
    exact hs.advance
  | case5 t rest hk hr depth =>
    rename_i ih
    exact hs.advance.trans (ih hs.advance.sound h)
  | case6 depth t rest hk hr ih => exact hs.advance.trans (ih hs.advance.sound h)

theorem passes_groupParam (start : Nat) : Passes text (groupParam start) := by
  intro env s hs
  unfold groupParam
  rw [gives_bump, gives_get]
  split
  · exact gives_fail
  · rename_i rest e hends
    rw [gives_set, gives_read]
    exact gives_pure.mpr (hs.advance.trans (leads_parensEnd hs.advance.sound hends))

theorem reads_sigilParam (kind : ParamKind) : Reads text (some <$> sigilParam kind) := by
  intro env s hl hs
  have h := (Got.start hs).advance
  refine gives_map.mpr ?_
  unfold sigilParam
  rw [gives_bump]
  refine gives_look (looks_at _) fun named => ?_
  split
  · refine h.pass (f := fun name => pure (name, kind, none)) ?_ fun name s' h => gives_pure.mpr h
    exact fun env s hs => gives_bump.mpr (gives_pure.mpr hs.advance)
  · exact gives_bind.mpr (gives_pure.mpr (gives_pure.mpr h))

theorem reads_param {self : Reader} (hself : Lays text self) (closers : List TokenKind) :
    Reads text (readParam self closers) := by
  intro env s hl hs
  have h := Got.start hs
  unfold readParam
  rw [gives_peekKind]
  split
  · exact reads_sigilParam _ env s hl hs
  · exact reads_sigilParam _ env s hl hs
  · exact reads_sigilParam _ env s hl hs
  · rw [gives_bump]
    refine gives_look (looks_atAny _) fun bare => ?_
    split
    · exact gives_pure.mpr h.advance
    · refine h.advance.next hl (hself .unary) fun value s' h => ?_
      exact gives_pure.mpr h
  · rw [gives_bump]
    refine h.advance.pass (passes_eat _) fun assigned s' h => ?_
    split
    · refine h.next_ite hl (hself .ternary) (hself .unary) fun value s' h => ?_
      exact gives_pure.mpr h
    · exact gives_pure.mpr h
  · rw [gives_here]
    refine h.pass (passes_groupParam _) fun name s' h => ?_
    exact gives_pure.mpr h
  · rw [gives_bump]
    exact gives_pure.mpr h.advance

theorem nodes_param_cons (name : String) (kind : ParamKind) (default? : Option Node) (span : Span)
    (rest : List (Param Node)) : nodes ({ name, kind, default?, span } :: rest) = default?.toList ++ nodes rest := by
  cases default? <;> rfl

theorem reads_params {self : Reader} (hself : Lays text self) (closers : List TokenKind) :
    Reads text (readParams self closers) := by
  intro env s hl hs
  unfold readParams
  refine (Got.start hs).pass_ite passes_skipNewlines fun s' h => ?_
  refine gives_look (looks_atAny _) fun closed => ?_
  split
  · exact gives_pure.mpr h
  · rw [gives_here]
    refine h.next hl (reads_param hself closers) fun found s' h => ?_
    rw [gives_prevEnd]
    refine h.pass_ite passes_skipNewlines fun s' h => ?_
    refine h.pass (passes_eat _) fun comma s' h => ?_
    refine h.pass_ite (passes_eat _) fun s' h => ?_
    refine h.next hl hself.params fun rest s' h => ?_
    split
    · rw [gives_pure, nodes_param_cons]
      exact h
    · exact gives_pure.mpr h

end PuppetDocs.Ruby
