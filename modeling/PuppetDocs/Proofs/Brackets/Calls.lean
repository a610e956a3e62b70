import PuppetDocs.Proofs.Brackets.Params
import PuppetDocs.Proofs.Tree.Calls

/-
  PuppetDocs.Proofs.Brackets.Calls — calls, blocks and definitions keep brackets balanced.

  A block, a lambda and a method open parameter lists; here their heads are followed token by
  token, as the list has to know what opens it. The name of a method is the one lax place that
  does not belong to a list.
-/

namespace PuppetDocs.Ruby

open ParseM

section Blocks

variable {self : Reader} (h : Balances self)
include h

theorem balanced_body : Balanced (readBody self) := by
  unfold readBody
  refine .look looks_here fun start => ?_
  refine (h.rule (.statements _) rfl).bind fun main => ?_
  refine .look (looks_atAny _) fun clauses => ?_
  refine .ite (fun _ => ?_) fun _ => balanced_pure _
  have hclause : ∀ stops, Balanced (do return [← self (.statements stops)] : P (List Node)) :=
    fun stops => (h.rule (.statements stops) rfl).bind fun n => balanced_pure _
  refine (h.rule .rescues rfl).bind fun rescues => ?_
  refine (balanced_eat (by decide)).bind fun _ => ?_
  refine .ite_bind (hclause _) (balanced_pure _) fun else_ => ?_
  refine (balanced_eat (by decide)).bind fun _ => ?_
  exact .ite_bind (hclause _) (balanced_pure _) fun ensure_ => balanced_mkNode _ _

theorem balanced_rescueTypes : Balanced (readRescueTypes self) := by
  unfold readRescueTypes
  refine .look (looks_atAny _) fun closed => ?_
  refine .ite (fun _ => balanced_pure _) fun _ => ?_
  refine (h.rule .ternary rfl).bind fun n => (balanced_eat (by decide)).bind fun comma => ?_
  refine .ite (fun _ => ?_) fun _ => balanced_pure _
  exact balanced_skipNewlines.bind fun _ => (h.rule .rescueTypes rfl).bind fun more => balanced_pure _

theorem balanced_rescues : Balanced (readRescues self) := by
  unfold readRescues
  refine (balanced_eat (by decide)).bind fun found => ?_
  refine .ite (fun _ => ?_) fun _ => balanced_pure _
  refine .look looks_prevEnd fun start => (h.rule .rescueTypes rfl).bind fun types => ?_
  refine (balanced_eat (by decide)).bind fun arrow => ?_
  refine .ite_bind ((h.rule .primary rfl).bind fun n => balanced_pure _) (balanced_pure _) fun binding => ?_
  refine (balanced_eat (by decide)).bind fun _ => (h.rule (.statements _) rfl).bind fun body => ?_
  exact (balanced_mkNode _ _).bind fun clause => (h.rule .rescues rfl).bind fun more => balanced_pure _

variable {env : ParseEnv} {s : Stream TokenKind} {front before : List (Token TokenKind)}

theorem tidies_blockParams {opener : Token TokenKind} (hs : s.stop.kind = .eof)
    (hopener : opener.kind = .lbrace ∨ opener.kind = .keyword .doKw) :
    Tidies Lax (front ++ [opener]) (blockParams self) env s := by
  unfold blockParams
  refine gives_eat_bind.mpr ?_
  split
  · next hpipe =>
    have h₁ := uses_peek hs (by rw [hpipe]; decide)
    have hs₁ : s.advance.stop.kind = .eof := h₁.stop ▸ hs
    have hlist : Passed [.pipe] [opener, s.peek] s.advance.peek := .opened (.block hopener hpipe)
    have hparams : Tidies Lax (front ++ [opener] ++ [s.peek]) (self (.params [.pipe])) env s.advance := by
      simpa using h.params front hs₁ hlist
    have hrest : ∀ params : List (Param Node), Balanced (do
        let _ ← need .pipe "'|'"
        return params) := fun params => (balanced_need (by decide) _).bind fun _ => balanced_pure _
    refine Tidies.after ?_ h₁ (.single (side_of_kind hpipe) _)
    exact hparams.bind fun params _ s₂ h₂ => hrest params env s₂ _ (h₂.stop ▸ hs₁)
  · exact ((balanced_eat (by decide)).bind fun _ => balanced_pure _) env s _ hs

/-- The parameters and the body of a block, behind its opening. -/
theorem tidies_blockInside {opener : Token TokenKind} (hs : s.stop.kind = .eof)
    (hopener : opener.kind = .lbrace ∨ opener.kind = .keyword .doKw) (keyword : Bool) :
    Tidies Lax (front ++ [opener]) (nested (do
      let params ← blockParams self
      let body ← if keyword then self .body else self (.statements [.rbrace])
      return (params, body))) env s := by
  refine gives_withReader.mpr (Tidies.bind (tidies_blockParams h hs hopener) fun params _ s' h₁ => ?_)
  have hbody : Balanced (do
      let body ← if keyword then self .body else self (.statements [.rbrace])
      return (params, body) : P (List (Param Node) × Node)) :=
    .ite_bind (h.rule .body rfl) (h.rule (.statements _) rfl) fun body => balanced_pure _
  exact hbody _ s' _ (h₁.stop ▸ hs)

theorem tidies_block (hs : s.stop.kind = .eof) (hopener : s.peek.kind = .lbrace ∨ s.peek.kind = .keyword .doKw) :
    Tidies Lax before (block self) env s := by
  have hdone : ∀ (inside : List (Param Node) × Node) (opener : Token TokenKind), Balanced (do
      return { params := inside.1, body := inside.2, span := ⟨opener.span.start, ← prevEnd⟩
               line := ← lineOf opener.span.start } : P (Block Node)) :=
    fun _ _ => .look looks_prevEnd fun _ => .look (looks_lineOf _) fun _ => balanced_pure _
  unfold block
  rcases hopener with hk | hk
  · have hkeyword : decide (s.peek.kind = .keyword .doKw) = false := by rw [hk]; rfl
    have h₁ := uses_peek hs (by rw [hk]; decide)
    have hs₁ : s.advance.stop.kind = .eof := h₁.stop ▸ hs
    refine tidies_opens (by rw [hk, hs]; decide) (side_of_kind hk) ?_
    dsimp only
    rw [hkeyword]
    refine Tidies.shuts (tidies_blockInside h hs₁ (.inl hk) false) fun inside _ s₂ h₂ => ?_
    exact closing_need rfl (fun _ => hdone inside s.peek) env s₂ _ (h₂.stop ▸ hs₁)
  · have hkeyword : decide (s.peek.kind = .keyword .doKw) = true := decide_eq_true hk
    have h₁ := uses_peek hs (by rw [hk]; decide)
    have hs₁ : s.advance.stop.kind = .eof := h₁.stop ▸ hs
    refine gives_bump.mpr (Tidies.after ?_ h₁ (.single (side_of_kind hk) before))
    dsimp only
    rw [hkeyword]
    refine Tidies.bind (tidies_blockInside h hs₁ (.inr hk) true) fun inside _ s₂ h₂ => ?_
    exact (balanced_needEnd.bind fun _ => hdone inside s.peek) env s₂ _ (h₂.stop ▸ hs₁)

theorem tidies_attachBlock (hs : s.stop.kind = .eof) (hopener : s.peek.kind = .lbrace ∨ s.peek.kind = .keyword .doKw)
    (n : Node) : Tidies Lax before (attachBlock self n) env s := by
  have hdone : ∀ b : Block Node, Balanced (do
      return { kind := withBlock n b, span := ⟨n.span.start, ← prevEnd⟩, line := n.line } : P Node) :=
    fun _ => .look looks_prevEnd fun _ => balanced_pure _
  unfold attachBlock
  exact (tidies_block h hs hopener).bind fun b _ s' h₁ => hdone b env s' _ (h₁.stop ▸ hs)

end Blocks

/-! ## What follows a value -/

section Trailers

variable {self : Reader} (h : Balances self)
include h

theorem balanced_callArgs : Balanced (callArgs self) := by
  unfold callArgs
  refine .look (looks_parenAt 0) fun paren => ?_
  refine .ite (fun _ => (balanced_parenArgs h).bind fun args => balanced_pure _) fun _ => ?_
  refine .look looks_commandArgStarts fun command => ?_
  exact .ite (fun _ => (balanced_commandArgs h).bind fun args => balanced_pure _) fun _ => balanced_pure _

omit h in
/-- No bracket names a method. -/
theorem side_of_methodName {t : Token TokenKind} {name : String} (ht : methodName? t = some name) : t.side = .plain := by
  obtain ⟨kind, text, span, spaced⟩ := t
  cases kind <;> first | rfl | cases ht

theorem balanced_methodCall (receiver : Node) (start : Nat) : Balanced (methodCall self receiver start) := by
  intro env s before hs
  unfold methodCall
  rw [tidies_peek]
  refine Tidies.ite (fun _ => ?_) fun _ => ?_
  · exact ((balanced_parenArgs h).bind fun args => balanced_mkNode _ _) env s before hs
  · split
    · exact tidies_fail
    · next method hmethod =>
      refine (balancedPlain_bump fun _ => ?_) env s before hs (side_of_methodName hmethod)
      exact (balanced_callArgs h).bind fun args => balanced_mkNode _ _

theorem balancedPlain_scopedName (n : Node) (start : Nat) : BalancedPlain (scopedName self n start) := by
  unfold scopedName
  refine balancedPlain_bump fun _ => ?_
  intro env s before hs
  rw [tidies_at]
  refine tidies_look (looks_parenAt 1) fun paren => ?_
  refine Tidies.ite (fun hconst => ?_) fun _ => balanced_methodCall h n start env s before hs
  have hconst : s.peek.kind = .constant := of_decide_eq_true (Bool.and_eq_true_iff.mp hconst).1
  exact balancedPlain_bump (fun _ => balanced_mkNode _ _) env s before hs (side_of_kind hconst)

theorem tidies_index {env : ParseEnv} {s : Stream TokenKind} {before : List (Token TokenKind)} (hs : s.stop.kind = .eof)
    (hk : s.peek.kind = .lbracket) (n : Node) (start : Nat) : Tidies Lax before (index self n start) env s := by
  unfold index
  refine tidies_bracket hs (side_of_kind hk) ?_
  refine (h.rule (.args _) rfl).nested.closing fun args => ?_
  exact closing_need rfl fun _ => balanced_mkNode _ _

theorem balanced_trailers (start : Nat) (n : Node) : Balanced (readTrailers self start n) := by
  intro env s before hs
  have hon : ∀ n : Node, Balanced (self (.trailers start n)) := fun n => h.rule (.trailers start n) rfl
  have hdot : BalancedPlain (do
      let _ ← bump
      skipNewlines
      let n ← methodCall self n start
      self (.trailers start n)) := by
    refine balancedPlain_bump fun _ => balanced_skipNewlines.bind fun _ => ?_
    exact (balanced_methodCall h n start).bind hon
  have hblock : s.peek.kind = .lbrace ∨ s.peek.kind = .keyword .doKw → Tidies Lax before (do
      let n ← attachBlock self n
      self (.trailers start n)) env s := fun hopener =>
    (tidies_attachBlock h hs hopener n).bind fun n _ s' h₁ => hon n env s' _ (h₁.stop ▸ hs)
  unfold readTrailers
  rw [tidies_peek]
  split
  · next hk => exact hdot env s before hs (side_of_kind hk)
  · next hk => exact hdot env s before hs (side_of_kind hk)
  · refine tidies_look looks_lineGoesOn fun goesOn => ?_
    exact Tidies.ite (fun _ => (balanced_skipNewlines.bind fun _ => hon n) env s before hs) fun _ => tidies_pure n
  · next hk => exact ((balancedPlain_scopedName h n start).bind hon) env s before hs (side_of_kind hk)
  · next hk =>
    refine Tidies.ite (fun _ => tidies_pure n) fun _ => ?_
    exact (tidies_index h hs hk n start).bind fun n _ s' h₁ => hon n env s' _ (h₁.stop ▸ hs)
  · next hk => exact Tidies.ite (fun _ => hblock (.inl hk)) fun _ => tidies_pure n
  · next hk =>
    refine gives_read.mpr ?_
    exact Tidies.ite (fun _ => hblock (.inr hk)) fun _ => tidies_pure n
  · exact tidies_pure n

end Trailers

/-! ## Definitions -/

section Definitions

variable {self : Reader} (h : Balances self) {env : ParseEnv} {s : Stream TokenKind} {before : List (Token TokenKind)}
include h

theorem tidies_parenParams {head : List (Token TokenKind)} (front : List (Token TokenKind)) (hs : s.stop.kind = .eof)
    (hparen : s.peek.kind = .lparen) (hhead : ∀ next, ListHead [.rparen] (head ++ [s.peek]) next) :
    Tidies Lax (front ++ head) (parenParams self) env s := by
  have h₁ := uses_peek hs (by rw [hparen]; decide)
  have hs₁ : s.advance.stop.kind = .eof := h₁.stop ▸ hs
  have hlist : Tidies Lax (front ++ head ++ [s.peek]) (self (.params [.rparen])) env s.advance := by
    simpa using h.params front hs₁ (.opened (hhead s.advance.peek))
  unfold parenParams
  refine tidies_opens (by rw [hparen, hs]; decide) (side_of_kind hparen) ?_
  refine hlist.shuts fun params _ s₂ h₂ => ?_
  exact closing_need rfl (fun _ => balanced_pure _) env s₂ _ (h₂.stop ▸ hs₁)

theorem tidies_lambda (hs : s.stop.kind = .eof) (hk : s.peek.kind = .arrow) : Tidies Lax before (lambda self) env s := by
  have h₁ := uses_peek hs (by rw [hk]; decide)
  have hs₁ : s.advance.stop.kind = .eof := h₁.stop ▸ hs
  have hbody : ∀ (params : List (Param Node)) (start : Nat), Balanced (do
      if ← eatKeyword .doKw then
        let body ← nested (self .body)
        needEnd
        mkNode (.lambda params body) start
      else
        let _ ← need .lbrace "'\x7b'"
        let body ← nested (self (.statements [.rbrace]))
        let _ ← need .rbrace "'\x7d'"
        mkNode (.lambda params body) start) := by
    intro params start
    refine (balanced_eat (by decide)).bind fun keyword => .ite (fun _ => ?_) fun _ => ?_
    · exact (h.rule .body rfl).nested.bind fun body => balanced_needEnd.bind fun _ => balanced_mkNode _ _
    · refine balanced_bracket rfl fun _ => ?_
      refine (h.rule (.statements _) rfl).nested.closing fun body => ?_
      exact closing_need rfl fun _ => balanced_mkNode _ _
  have hrest : ∀ {p : P (List (Param Node))} (start : Nat), Tidies Lax (before ++ [s.peek]) p env s.advance →
      Tidies Lax (before ++ [s.peek]) (p >>= fun params => _) env s.advance := fun start hp =>
    hp.bind fun params _ s₂ h₂ => hbody params start env s₂ _ (h₂.stop ▸ hs₁)
  unfold lambda
  refine gives_bump.mpr (Tidies.after ?_ h₁ (.single (side_of_kind hk) before))
  dsimp only
  rw [tidies_at]
  split
  · next hparen =>
    have hparen : s.advance.peek.kind = .lparen := of_decide_eq_true hparen
    exact hrest _ (tidies_parenParams h before hs₁ hparen fun next => .lambda hk hparen)
  · next hparen =>
    have hhead : ListHead [.lbrace, .keyword .doKw] [s.peek] s.advance.peek := .bareLambda hk (by simpa using hparen)
    exact hrest _ (h.params before hs₁ (.opened hhead))

omit h in
/-- The object of a singleton method is there exactly if a dot follows it. -/
theorem gives_singletonOwner (hs : s.stop.kind = .eof) :
    Gives singletonOwner env s fun _ s' => ∃ owner, s.Uses owner s' ∧ Owner owner ∧ Nested owner ∧
      (owner = [] → s'.peek.kind ∈ owners → (s'.peekAt 1).kind ≠ .dot) := by
  have howners : ∀ kind ∈ owners, kind.side = .plain ∧ kind ≠ .eof := by decide
  unfold singletonOwner
  rw [gives_atAny]
  refine gives_peekAt.mpr ?_
  split
  · next hfound =>
    obtain ⟨howner, hdot⟩ := Bool.and_eq_true_iff.mp hfound
    have howner : s.peek.kind ∈ owners := List.contains_iff_mem.mp howner
    have hdot : (s.peekAt 1).kind = .dot := of_decide_eq_true hdot
    obtain ⟨hplain, hne⟩ : s.peek.side = .plain ∧ s.peek.kind ≠ .eof := howners _ howner
    have hpeek : s.advance.peek.kind = .dot := by rw [peek_advance hs hne, hdot]
    have h₁ := uses_peek hs hne
    have h₂ := uses_peek (h₁.stop ▸ hs) (by rw [hpeek]; decide)
    rw [gives_bump, gives_bump, gives_pure]
    refine ⟨_, h₁.trans h₂, .inr ⟨s.peek, s.advance.peek, rfl, howner, hpeek⟩, ?_, nofun⟩
    exact (Nested.single hplain).append (.single (side_of_kind hpeek))
  · next hnone =>
    refine gives_pure.mpr ⟨[], .refl s, .inl rfl, .nil, fun _ howner hdot => hnone ?_⟩
    exact Bool.and_eq_true_iff.mpr ⟨List.contains_iff_mem.mpr howner, decide_eq_true hdot⟩

omit h in
/-- The `=` of a setter belongs to its name. -/
theorem gives_setter {named : List (Token TokenKind)} (hs : s.stop.kind = .eof) (hnamed : Named named s.peek)
    (name : String) :
    Gives (do
      let next ← peek
      if next.kind = .assign ∧ !next.spaced then
        if ← parenAt 1 then
          let _ ← bump
          return name ++ "="
        else return name
      else return name : P String) env s fun _ s' =>
        ∃ more, s.Uses more s' ∧ Named (named ++ more) s'.peek ∧ Nested more := by
  have hnone : ∃ more, s.Uses more s ∧ Named (named ++ more) s.peek ∧ Nested more :=
    ⟨[], .refl s, by simpa using hnamed, .nil⟩
  rw [gives_peek]
  split
  · next hassign =>
    have h₁ := uses_peek hs (by rw [hassign.1]; decide)
    unfold parenAt
    rw [bind_assoc]
    refine gives_peekAt.mpr ?_
    rw [pure_bind]
    split
    · next hparen =>
      have hparen := of_decide_eq_true hparen
      have hnext := peek_advance hs (by rw [hassign.1]; decide)
      rw [← hnext] at hparen
      rw [gives_bump, gives_pure]
      refine ⟨_, h₁, .setter hnamed hassign.1 (by simpa using hassign.2) hparen.1 (by simpa using hparen.2), ?_⟩
      exact .single (side_of_kind hassign.1)
    · exact gives_pure.mpr hnone
  · exact gives_pure.mpr hnone

omit h in
/-- Whatever stands behind `def` is the name, but for an opening bracket, which has to be closed. -/
theorem gives_definedName (front : List (Token TokenKind)) {owner : List (Token TokenKind)} {keyword : Token TokenKind} (hs : s.stop.kind = .eof)
    (hkeyword : keyword.kind = .keyword .defKw) (howner : Owner owner)
    (hdot : owner = [] → s.peek.kind ∈ owners → (s.peekAt 1).kind ≠ .dot) (start : Nat) :
    Gives (definedName start) env s fun _ s' => ∃ name, s.Uses name s' ∧ Named (keyword :: owner ++ name) s'.peek ∧
      Tidy Lax (front ++ keyword :: owner) name := by
  -- Behind the name the `=` may still follow.
  have hsetter : ∀ (name : List (Token TokenKind)) (s₁ : Stream TokenKind) (text : String), s.Uses name s₁ →
      Named (keyword :: owner ++ name) s₁.peek → Tidy Lax (front ++ keyword :: owner) name →
      Gives (do
        let next ← peek
        if next.kind = .assign ∧ !next.spaced then
          if ← parenAt 1 then
            let _ ← bump
            return text ++ "="
          else return text
        else return text : P String) env s₁ fun _ s' => ∃ name, s.Uses name s' ∧ Named (keyword :: owner ++ name) s'.peek ∧
          Tidy Lax (front ++ keyword :: owner) name := by
    intro name s₁ text h₁ hnamed htidy
    refine (gives_setter (h₁.stop ▸ hs) hnamed text).mono ?_
    rintro _ s₂ ⟨more, h₂, hnamed', hnested⟩
    exact ⟨name ++ more, h₁.trans h₂, by simpa using hnamed', htidy.append (.of_nested hnested _)⟩
  unfold definedName
  rw [gives_bump]
  split
  · next hleft =>
    have h₁ := uses_peek hs (by rw [hleft]; decide)
    have hs₁ : s.advance.stop.kind = .eof := h₁.stop ▸ hs
    have hnested : ∀ right : Token TokenKind, right.kind = .rbracket → Nested (s.peek :: [] ++ [right]) :=
      fun right hright => .group (side_of_kind hleft) .nil (side_of_kind hright)
    refine (gives_expect (by rw [hs₁]; decide)).bind ?_
    rintro right s₂ ⟨hright, h₂⟩
    exact hsetter _ s₂ "[]" (h₁.trans h₂) (.index hkeyword howner hleft hright) (.of_nested (hnested right hright) _)
  · exact gives_bind.mpr gives_fail
  · next hleft heof =>
    have h₁ := uses_peek hs heof
    rw [← peek_advance hs heof] at hdot
    exact hsetter _ s.advance _ h₁ (.name hkeyword howner hleft hdot) (.spare (.methodName hkeyword howner hleft))

theorem tidies_methodParams {named : List (Token TokenKind)} (front : List (Token TokenKind)) (hs : s.stop.kind = .eof)
    (hnamed : Named named s.peek) : Tidies Lax (front ++ named) (methodParams self) env s := by
  unfold methodParams
  rw [tidies_at]
  refine Tidies.ite (fun hparen => ?_) fun hparen => ?_
  · have hparen : s.peek.kind = .lparen := of_decide_eq_true hparen
    exact tidies_parenParams h front hs hparen fun next => .method hnamed hparen
  · rw [tidies_atAny]
    refine Tidies.ite (fun _ => tidies_pure _) fun hbare => ?_
    have hassign : s.peek.kind ≠ .assign := fun hassign => hbare (by rw [hassign]; rfl)
    exact h.params front hs (.opened (.bareMethod hnamed (by simpa using hparen) hassign))

theorem tidies_method (hs : s.stop.kind = .eof) (hk : s.peek.kind = .keyword .defKw) :
    Tidies Lax before (method self) env s := by
  have hbody : ∀ (name : String) (singleton : Bool) (params : List (Param Node)) (start : Nat), Balanced (do
      if ← eat .assign then
        skipNewlines
        let body ← self .statement
        mkNode (.method name singleton params body) start
      else
        let body ← nested (self .body)
        needEnd
        mkNode (.method name singleton params body) start) := by
    intro name singleton params start
    refine (balanced_eat (by decide)).bind fun assigned => .ite (fun _ => ?_) fun _ => ?_
    · exact balanced_skipNewlines.bind fun _ => (h.rule .statement rfl).bind fun body => balanced_mkNode _ _
    · exact (h.rule .body rfl).nested.bind fun body => balanced_needEnd.bind fun _ => balanced_mkNode _ _
  have h₁ := uses_peek hs (by rw [hk]; decide)
  have hs₁ : s.advance.stop.kind = .eof := h₁.stop ▸ hs
  unfold method
  rw [Tidies, gives_bump]
  refine (gives_singletonOwner hs₁).bind ?_
  rintro singleton s₂ ⟨owner, h₂, howner, hnested, hdot⟩
  have hs₂ : s₂.stop.kind = .eof := h₂.stop ▸ hs₁
  refine (gives_definedName before hs₂ hk howner hdot s.peek.span.start).bind ?_
  rintro text s₃ ⟨name, h₃, hnamed, htidy⟩
  have hs₃ : s₃.stop.kind = .eof := h₃.stop ▸ hs₂
  have hhead : Tidy Lax before (s.peek :: owner ++ name) :=
    (Tidy.of_nested ((Nested.single (side_of_kind hk)).append hnested) before).append htidy
  refine Tidies.after ?_ ((h₁.trans h₂).trans h₃) hhead
  exact (tidies_methodParams h before hs₃ hnamed).bind fun params _ s₄ h₄ =>
    hbody text singleton params _ env s₄ _ (h₄.stop ▸ hs₃)

theorem balancedPlain_classDefinition : BalancedPlain (classDefinition self) := by
  have hbody : ∀ (kind : Node → NodeKind Node) (start : Nat), Balanced (do
      let body ← nested (self .body)
      needEnd
      mkNode (kind body) start) := fun kind start =>
    (h.rule .body rfl).nested.bind fun body => balanced_needEnd.bind fun _ => balanced_mkNode _ _
  unfold classDefinition
  refine balancedPlain_bump fun t => ?_
  intro env s before hs
  rw [tidies_peek]
  refine Tidies.ite (fun hoperator => ?_) fun _ => ?_
  · refine (balancedPlain_bump fun _ => ?_) env s before hs (side_of_kind hoperator.1)
    exact (h.rule .expr rfl).bind fun target => hbody _ _
  · refine ((h.rule .unary rfl).bind fun name => ?_) env s before hs
    refine (balanced_eat (by decide)).bind fun inherits => ?_
    exact .ite_bind ((h.rule .expr rfl).map _) (balanced_pure _) fun superclass => hbody _ _

theorem balancedPlain_moduleDefinition : BalancedPlain (moduleDefinition self) := by
  unfold moduleDefinition
  refine balancedPlain_bump fun t => (h.rule .unary rfl).bind fun name => ?_
  exact (h.rule .body rfl).bind fun body => balanced_needEnd.bind fun _ => balanced_mkNode _ _

end Definitions

end PuppetDocs.Ruby
