import PuppetDocs.Proofs.Manifest.Tokens
import PuppetDocs.Proofs.Source.Stream
import PuppetDocs.Source.Tree

/-
  PuppetDocs.Proofs.Manifest.Order — definitions in the order in which they start.

  Reading uses up tokens from the front (`Stream.Follows`), and these start in order, so it moves
  on in the text. `Placed` says of definitions that they and all nested ones, a definition in
  front of those nested in it, start in order between two places, each with the line of its
  start, and that their parameters have lines of the text. Every rule places the definitions it
  gives between the places where it begins and ends if the rules inside it do (`step_places`).
-/

namespace PuppetDocs

namespace Stream

variable {κ : Type} {s s' s'' : Stream κ}

/-- Reading came from the first stream to the second by using up tokens. -/
structure Follows (s s' : Stream κ) : Prop where
  stop : s'.stop = s.stop
  rest : s'.rest <:+ s.rest

theorem Follows.refl (s : Stream κ) : s.Follows s := ⟨rfl, List.suffix_refl _⟩

theorem Follows.trans (h : s.Follows s') (k : s'.Follows s'') : s.Follows s'' :=
  ⟨k.stop.trans h.stop, k.rest.trans h.rest⟩

theorem follows_advance (s : Stream κ) : s.Follows s.advance := by
  obtain ⟨rest, stop, prevEnd⟩ := s
  cases rest with
  | nil => exact .refl _
  | cons t rest => exact ⟨rfl, List.suffix_cons t rest⟩

/-- The offset of the next token. -/
def offset (s : Stream κ) : Nat := s.peek.span.start

/-- The tokens that are left and the end of the text start in order. -/
def InOrder (s : Stream κ) : Prop := ((s.rest ++ [s.stop]).map (·.span.start)).Pairwise (· ≤ ·)

theorem Follows.inOrder (h : s.Follows s') (hs : s.InOrder) : s'.InOrder := by
  unfold InOrder
  rw [h.stop]
  exact hs.sublist ((h.rest.sublist.append_right _).map _)

theorem InOrder.offset_le (hs : s.InOrder) {t : Token κ} (ht : t ∈ s.rest ++ [s.stop]) : s.offset ≤ t.span.start := by
  obtain ⟨rest, stop, prevEnd⟩ := s
  cases rest with
  | nil =>
    rw [List.mem_singleton.mp ht]
    exact Nat.le_refl _
  | cons u rest =>
    unfold InOrder at hs
    rw [List.cons_append, List.map_cons, List.pairwise_cons] at hs
    rcases List.mem_cons.mp ht with rfl | ht
    · exact Nat.le_refl _
    · exact hs.1 _ (List.mem_map_of_mem ht)

theorem Follows.offset_le (h : s.Follows s') (hs : s.InOrder) : s.offset ≤ s'.offset := by
  have hpeek : s'.peek ∈ s'.rest ++ [s'.stop] := by
    obtain ⟨rest, stop, prevEnd⟩ := s'
    cases rest <;> simp [peek]
  refine hs.offset_le ?_
  rw [← h.stop]
  exact (h.rest.sublist.append_right _).subset hpeek

end Stream

namespace Manifest

open ParseM
open Text (byteLength)

variable {α : Type}

/-! ## Parsers that only use up tokens -/

def Passes (p : P α) : Prop := ∀ env s, Gives p env s fun _ s' => s.Follows s'

theorem Passes.bind {β : Type} {p : P α} {f : α → P β} (hp : Passes p) (hf : ∀ a, Passes (f a)) : Passes (p >>= f) :=
  fun env s => (hp env s).bind fun a s' hs => (hf a env s').mono fun _ _ => hs.trans

theorem Passes.pure (a : α) : Passes (pure a : P α) := fun _ s => gives_pure.mpr (.refl s)

theorem Passes.fail {fault : Fault} {k : Nat} : Passes (fail fault k : P α) := fun _ _ => gives_fail

theorem Passes.ite {c : Prop} [Decidable c] {p q : P α} (hp : Passes p) (hq : Passes q) : Passes (if c then p else q) := by
  split
  · exact hp
  · exact hq

theorem passes_look {p : P α} (hp : Looks p) : Passes p := fun env s => (hp env s).mono fun _ _ hs => hs ▸ .refl s

theorem passes_bump : Passes (bump : P (Token TokenKind)) := by
  intro env s a s' h
  cases h
  exact s.follows_advance

theorem passes_eat (kind : TokenKind) : Passes (eat kind) :=
  (passes_look looks_peekKind).bind fun _ => .ite (passes_bump.bind fun _ => .pure true) (.pure false)

theorem passes_need (kind : TokenKind) (expected : String) : Passes (need kind expected) :=
  (passes_look looks_peek).bind fun _ => .ite passes_bump .fail

theorem gives_optional (kind : TokenKind) {p : P α} {env : ParseEnv} {s : Stream TokenKind}
    (hp : ∀ s₁, s.Follows s₁ → Gives p env s₁ fun _ s' => s₁.Follows s') :
    Gives (optional kind p) env s fun _ s' => s.Follows s' := by
  refine (passes_eat kind env s).bind fun found s₁ h₁ => ?_
  split
  · exact (hp s₁ h₁).bind fun _ s' h => gives_pure.mpr (h₁.trans h)
  · exact gives_pure.mpr h₁

theorem group_suffix {last : Token TokenKind} {outer ts rest : List (Token TokenKind)} {stop : Nat}
    (h : group last outer ts = .closed rest stop) : rest <:+ ts := by
  induction ts generalizing last outer with
  | nil => cases h
  | cons t ts ih =>
    have hdeeper : ∀ {last outer}, group last outer ts = .closed rest stop → rest <:+ t :: ts :=
      fun h => (ih h).trans (List.suffix_cons t ts)
    unfold group at h
    split at h
    · exact hdeeper h
    split at h
    · split at h
      · cases outer with
        | nil =>
          cases h
          exact List.suffix_cons t _
        | cons l outer => exact hdeeper h
      · cases h
    · exact hdeeper h

theorem passes_skipGroup : Passes skipGroup := by
  refine passes_bump.bind fun opener env s => ?_
  rw [gives_get]
  split
  · next rest stop hgroup =>
    intro a s' h
    cases h
    exact ⟨rfl, group_suffix hgroup⟩
  · exact gives_fail
  · exact gives_fail

theorem looks_written (start stop : Nat) : Looks (written start stop) := by
  intro env s
  unfold written
  rw [gives_read]
  split
  · exact gives_pure.mpr rfl
  · exact gives_throw

theorem passes_readType : Passes readType := by
  refine passes_bump.bind fun t => (passes_look (looks_at .lbracket)).bind fun bracket => ?_
  have hrest : Passes (do return String.ofList (← written t.span.start (← prevEnd)) : P String) :=
    (passes_look looks_prevEnd).bind fun stop => (passes_look (looks_written _ stop)).bind fun _ => .pure _
  exact .ite (passes_skipGroup.bind fun _ => hrest) hrest

/-! ## Definitions in their places -/

@[simp] theorem flattenAll_nil : flattenAll [] = [] := by simp [flattenAll]

theorem flattenAll_cons (d : Definition) (ds : List Definition) :
    flattenAll (d :: ds) = d :: flattenAll d.nested ++ flattenAll ds := by
  cases d
  simp [flattenAll, Definition.flatten]

/-- The line of the definition is that of its start, and its parameters have lines. -/
structure Definition.Lined (lines : LineIndex) (d : Definition) : Prop where
  line : d.line = lines.line d.span.start
  params : ∀ p ∈ d.params, ∃ k, p.line = lines.line k

/-- The definitions and those nested in them start in order from `lo` to `hi`. -/
structure Placed (lines : LineIndex) (lo hi : Nat) (ds : List Definition) : Prop where
  sorted : ((flattenAll ds).map (·.span.start)).Pairwise (· ≤ ·)
  within : ∀ d ∈ flattenAll ds, lo ≤ d.span.start ∧ d.span.start ≤ hi
  lined : ∀ d ∈ flattenAll ds, d.Lined lines

namespace Placed

variable {lines : LineIndex} {lo mid hi : Nat} {d : Definition} {ds : List Definition}

theorem nil : Placed lines lo hi [] := ⟨by simp, by simp, by simp⟩

theorem mono {lo' hi' : Nat} (h : Placed lines lo hi ds) (hlo : lo' ≤ lo) (hhi : hi ≤ hi') : Placed lines lo' hi' ds where
  sorted := h.sorted
  within := fun d hd => ⟨Nat.le_trans hlo (h.within d hd).1, Nat.le_trans (h.within d hd).2 hhi⟩
  lined := h.lined

/-- A definition in front of those nested in it. -/
theorem single (hstart : d.span.start = lo) (hle : lo ≤ hi) (hlined : d.Lined lines) (h : Placed lines lo hi d.nested) :
    Placed lines lo hi [d] := by
  have hall : flattenAll [d] = d :: flattenAll d.nested := by simp [flattenAll_cons]
  refine ⟨?_, ?_, ?_⟩
  · rw [hall, List.map_cons]
    refine List.pairwise_cons.mpr ⟨fun k hk => ?_, h.sorted⟩
    obtain ⟨x, hx, rfl⟩ := List.mem_map.mp hk
    rw [hstart]
    exact (h.within x hx).1
  · intro x hx
    rw [hall] at hx
    rcases List.mem_cons.mp hx with rfl | hx
    · exact ⟨Nat.le_of_eq hstart.symm, hstart ▸ hle⟩
    · exact h.within x hx
  · intro x hx
    rw [hall] at hx
    rcases List.mem_cons.mp hx with rfl | hx
    · exact hlined
    · exact h.lined x hx

/-- A definition, and those that follow it in the text. -/
theorem cons (hd : Placed lines lo mid [d]) (h : Placed lines mid hi ds) (hlo : lo ≤ mid) (hhi : mid ≤ hi) :
    Placed lines lo hi (d :: ds) := by
  have hall : flattenAll (d :: ds) = flattenAll [d] ++ flattenAll ds := by simp [flattenAll_cons]
  refine ⟨?_, ?_, ?_⟩
  · rw [hall, List.map_append]
    refine List.pairwise_append.mpr ⟨hd.sorted, h.sorted, fun a ha b hb => ?_⟩
    obtain ⟨x, hx, rfl⟩ := List.mem_map.mp ha
    obtain ⟨y, hy, rfl⟩ := List.mem_map.mp hb
    exact Nat.le_trans (hd.within x hx).2 (h.within y hy).1
  · intro x hx
    rw [hall] at hx
    rcases List.mem_append.mp hx with hx | hx
    · exact (hd.mono (Nat.le_refl lo) hhi).within x hx
    · exact (h.mono hlo (Nat.le_refl hi)).within x hx
  · intro x hx
    rw [hall] at hx
    rcases List.mem_append.mp hx with hx | hx
    · exact hd.lined x hx
    · exact h.lined x hx

end Placed

/-! ## Rules -/

/-- What is known of the value of a rule that is read from the first stream to the second. -/
def Rule.Post (lines : LineIndex) (s s' : Stream TokenKind) : {α : Type} → Rule α → α → Prop
  | _, .items _ _, ds => Placed lines s.offset s'.offset ds
  | _, .definition, d => Placed lines s.offset s'.offset [d]
  | _, .params, ps => ∀ p ∈ ps, ∃ k, p.line = lines.line k
  | _, .defaultValue _, _ => True

/-- Every rule uses up tokens, and its definitions are placed where it is read. -/
def Places (self : Reader) : Prop :=
  ∀ {α : Type} (rule : Rule α) (env : ParseEnv) (s : Stream TokenKind), s.InOrder →
    Gives (self rule) env s fun a s' => s.Follows s' ∧ rule.Post env.lines s s' a

section Rules

variable {self : Reader} {env : ParseEnv} {s : Stream TokenKind}

/-- What is read behind the tokens that were passed over is read from where these start on. -/
theorem items_after {s₁ : Stream TokenKind} (hself : Places self) (hs : s.InOrder) (hfollows : s.Follows s₁)
    (opener : Option (Token TokenKind)) (open_ : List (Token TokenKind)) :
    Gives (self (.items opener open_)) env s₁ fun ds s' => s.Follows s' ∧ Placed env.lines s.offset s'.offset ds := by
  refine (hself (.items opener open_) env s₁ (hfollows.inOrder hs)).mono fun ds s' h => ?_
  exact ⟨hfollows.trans h.1, h.2.mono (hfollows.offset_le hs) (Nat.le_refl _)⟩

theorem looks_definitionFollows (kind : TokenKind) : Looks (definitionFollows kind) := by
  cases kind
  case classKw | defineKw | functionKw | planKw => exact (looks_peekAt 1).bind fun _ => .pure _
  case typeKw => exact (looks_peekAt 1).bind fun _ => (looks_peekAt 2).bind fun _ => .pure _
  all_goals exact .pure false

theorem places_items (hself : Places self) (opener : Option (Token TokenKind)) (open_ : List (Token TokenKind))
    (hs : s.InOrder) :
    Gives (readItems self opener open_) env s fun ds s' => s.Follows s' ∧ Placed env.lines s.offset s'.offset ds := by
  have hadvance := s.follows_advance
  have hnone : s.Follows s ∧ Placed env.lines s.offset s.offset [] := ⟨.refl s, .nil⟩
  unfold readItems
  rw [gives_peek]
  split
  · split
    · exact gives_fail
    · exact gives_pure.mpr hnone
  split
  · rw [gives_bump]
    exact items_after hself hs hadvance _ _
  split
  · split
    · split
      · rw [gives_bump]
        exact items_after hself hs hadvance _ _
      · exact gives_fail
    · split
      · exact gives_pure.mpr hnone
      · exact gives_fail
  · refine gives_look (looks_definitionFollows _) fun follows => ?_
    split
    · refine (hself .definition env s hs).bind fun d s₁ hd => ?_
      have hle := hd.1.offset_le hs
      refine (hself (.items opener open_) env s₁ (hd.1.inOrder hs)).bind fun ds s₂ hds => gives_pure.mpr ⟨?_, ?_⟩
      · exact hd.1.trans hds.1
      · exact hd.2.cons hds.2 hle (hds.1.offset_le (hd.1.inOrder hs))
    · rw [gives_bump]
      exact items_after hself hs hadvance _ _

theorem places_alias {start line : Nat} {s₁ : Stream TokenKind} (hs : s.InOrder) (hfollows : s.Follows s₁)
    (hstart : start = s.offset) (hline : line = env.lines.line start) :
    Gives (readAlias start line) env s₁ fun d s' => s.Follows s' ∧ Placed env.lines s.offset s'.offset [d] := by
  unfold readAlias
  refine (passes_need _ _ env s₁).bind fun name s₂ h₂ => ?_
  refine (passes_need _ _ env s₂).bind fun _ s₃ h₃ => ?_
  refine (passes_readType env s₃).bind fun aliased s₄ h₄ => ?_
  have h := hfollows.trans (h₂.trans (h₃.trans h₄))
  rw [gives_prevEnd]
  refine gives_pure.mpr ⟨h, .single hstart (h.offset_le hs) ⟨hline, fun p hp => nomatch hp⟩ .nil⟩

/-- A definition from behind its parameters on. -/
theorem places_body (hself : Places self) (hs : s.InOrder) {s₁ : Stream TokenKind} (hfollows : s.Follows s₁)
    (kind : DefinitionKind) (name : String) {params : List Parameter}
    (hparams : ∀ p ∈ params, ∃ k, p.line = env.lines.line k) :
    Gives (do
      let parent ← optional .inheritsKw (do return (← bump).text)
      let returnType ← optional .returnArrow readType
      let brace ← need .lbrace "'\x7b'"
      let nested ← self (.items (some brace) [])
      let _ ← need .rbrace "'\x7d'"
      return {
        kind, name, params, parent, returnType, span := ⟨s.offset, ← prevEnd⟩, line := env.lines.line s.offset, nested })
      env s₁ fun d s' => s.Follows s' ∧ Placed env.lines s.offset s'.offset [d] := by
  have hparent : Passes (do return (← bump).text : P String) := passes_bump.bind fun t => .pure t.text
  refine (gives_optional _ fun s' _ => hparent env s').bind fun parent s₂ h₂ => ?_
  refine (gives_optional _ fun s' _ => passes_readType env s').bind fun returnType s₃ h₃ => ?_
  refine (passes_need _ _ env s₃).bind fun brace s₄ h₄ => ?_
  have hopen : s.Follows s₄ := hfollows.trans (h₂.trans (h₃.trans h₄))
  refine (items_after hself hs hopen _ _).bind fun nested s₅ h₅ => ?_
  refine (passes_need _ _ env s₅).bind fun _ s₆ h₆ => ?_
  have hend : s.Follows s₆ := h₅.1.trans h₆
  rw [gives_prevEnd]
  refine gives_pure.mpr ⟨hend, .single rfl (hend.offset_le hs) ⟨rfl, hparams⟩ ?_⟩
  exact h₅.2.mono (Nat.le_refl _) (h₆.offset_le (h₅.1.inOrder hs))

theorem places_definition (hself : Places self) (hs : s.InOrder) :
    Gives (readDefinition self) env s fun d s' => s.Follows s' ∧ Placed env.lines s.offset s'.offset [d] := by
  unfold readDefinition
  rw [gives_bump]
  dsimp only
  rw [gives_lineOf]
  split
  · exact places_alias hs s.follows_advance rfl rfl
  · refine (passes_need _ _ env s.advance).bind fun name s₁ h₁ => ?_
    have hname : s.Follows s₁ := s.follows_advance.trans h₁
    rw [gives_at]
    split
    · rw [gives_bind, gives_bump]
      have hopen : s.Follows s₁.advance := hname.trans s₁.follows_advance
      refine (hself .params env s₁.advance (hopen.inOrder hs)).mono fun params s₂ h₂ => ?_
      exact places_body hself hs (hopen.trans h₂.1) _ _ h₂.2
    · rw [gives_bind, gives_pure]
      exact places_body hself hs hname _ _ fun p hp => nomatch hp

theorem places_default (hself : Places self) (start : Nat) (hs : s.InOrder) :
    Gives (readDefault self start) env s fun _ s' => s.Follows s' ∧ True := by
  -- The rest of a default value, from behind what was passed over.
  have hrest : ∀ s₁, s.Follows s₁ → Gives (self (.defaultValue start)) env s₁ fun _ s' => s.Follows s' ∧ True :=
    fun s₁ h₁ => (hself (.defaultValue start) env s₁ (h₁.inOrder hs)).mono fun _ _ h => ⟨h₁.trans h.1, trivial⟩
  unfold readDefault
  rw [gives_peekKind]
  split
  · rw [gives_prevEnd]
    exact gives_look (looks_written _ _) fun _ => gives_pure.mpr ⟨.refl s, trivial⟩
  split
  · exact (passes_skipGroup env s).bind fun _ s₁ h₁ => hrest s₁ h₁
  split
  · exact gives_fail
  · rw [gives_bump]
    exact hrest _ s.follows_advance

/-- A parameter has the line of the token that it starts with. -/
theorem places_param (hself : Places self) (hs : s.InOrder) :
    Gives (readParam self) env s fun p s' => s.Follows s' ∧ ∃ k, p.line = env.lines.line k := by
  have hdefault : ∀ s₁, s.Follows s₁ →
      Gives (do self (.defaultValue (← here)) : P String) env s₁ fun _ s' => s₁.Follows s' := by
    intro s₁ h₁
    rw [gives_here]
    exact (hself (.defaultValue _) env s₁ (h₁.inOrder hs)).mono fun _ _ h => h.1
  have hrest : ∀ (type? : Option String) (s₁ : Stream TokenKind), s.Follows s₁ →
      Gives (do
        let capturesRest ← eat .star
        let variable_ ← need .variable "parameter name"
        let default? ← optional .assign (do self (.defaultValue (← here)))
        return {
          name := String.ofList (variable_.text.toList.drop 1), type?, default?, capturesRest
          line := env.lines.line s.offset } : P Parameter)
        env s₁ fun p s' => s.Follows s' ∧ ∃ k, p.line = env.lines.line k := by
    intro type? s₁ h₁
    refine (passes_eat _ env s₁).bind fun capturesRest s₂ h₂ => ?_
    refine (passes_need _ _ env s₂).bind fun variable_ s₃ h₃ => ?_
    have hname := h₁.trans (h₂.trans h₃)
    refine (gives_optional _ fun s' h' => hdefault s' (hname.trans h')).bind fun default? s₄ h₄ => ?_
    exact gives_pure.mpr ⟨hname.trans h₄, ⟨s.offset, rfl⟩⟩
  unfold readParam
  rw [gives_here, gives_lineOf, gives_at]
  dsimp only
  split
  · refine Gives.bind ?_ hrest
    exact gives_map.mpr (passes_readType env s)
  · exact gives_bind.mpr (gives_pure.mpr (hrest none s (.refl s)))

theorem places_params (hself : Places self) (hs : s.InOrder) :
    Gives (readParams self) env s fun ps s' => s.Follows s' ∧ ∀ p ∈ ps, ∃ k, p.line = env.lines.line k := by
  unfold readParams
  refine (passes_eat _ env s).bind fun done s₁ h₁ => ?_
  split
  · exact gives_pure.mpr ⟨h₁, fun p hp => nomatch hp⟩
  · refine (places_param hself (h₁.inOrder hs)).bind fun p s₂ h₂ => ?_
    refine (passes_eat _ env s₂).bind fun comma s₃ h₃ => ?_
    have hparam := h₁.trans (h₂.1.trans h₃)
    rw [gives_at]
    dsimp only
    split
    · rw [gives_peek]
      exact gives_bind.mpr gives_fail
    · refine (hself .params env s₃ (hparam.inOrder hs)).bind fun ps s₄ h₄ => gives_pure.mpr ⟨hparam.trans h₄.1, ?_⟩
      intro q hq
      rcases List.mem_cons.mp hq with rfl | hq
      · exact h₂.2
      · exact h₄.2 q hq

theorem step_places (hself : Places self) : Places (Rule.step self) := by
  intro α rule env s hs
  cases rule with
  | items opener open_ => exact places_items hself opener open_ hs
  | definition => exact places_definition hself hs
  | params => exact places_params hself hs
  | defaultValue start => exact places_default hself start hs

end Rules

theorem run_places (depth : Nat) : Places (Rule.run depth) := by
  induction depth with
  | zero => exact fun _ _ _ _ => gives_throw
  | succ depth ih => exact step_places ih

/-- A text that is accepted is scanned, and its tokens are read as definitions. -/
theorem parse_ok {text : List Char} {ds : List Definition} {comments : List Comment}
    (h : Manifest.parse text = .ok (ds, comments)) :
    ∃ found s', scan text = .ok found ∧ found.comments = comments ∧
      Rule.run (depthBound found.tokens.length) (.items none []) { text, lines := .ofText text }
        { rest := found.tokens, stop := found.stop } = .ok (ds, s') := by
  unfold Manifest.parse Manifest.read at h
  cases hscan : scan text with
  | error e =>
    rw [hscan] at h
    cases h
  | ok found =>
    have hrun : parseTokens text (.ofText text) found.tokens found.stop =
        (Rule.run (depthBound found.tokens.length) (.items none []) { text, lines := .ofText text }
          { rest := found.tokens, stop := found.stop }).map Prod.fst := rfl
    simp only [hscan, bind, Except.bind, hrun] at h
    cases hitems : Rule.run (depthBound found.tokens.length) (.items none []) { text, lines := .ofText text }
        { rest := found.tokens, stop := found.stop } with
    | error e =>
      rw [hitems] at h
      cases h
    | ok read =>
      rw [hitems] at h
      cases h
      exact ⟨found, read.2, rfl, rfl, hitems⟩

/-- The definitions of a text start in order, each with the line of its start. -/
theorem parse_placed {text : List Char} {ds : List Definition} {comments : List Comment}
    (h : Manifest.parse text = .ok (ds, comments)) : ∃ lo hi, Placed (.ofText text) lo hi ds := by
  obtain ⟨found, s', hscan, -, hitems⟩ := parse_ok h
  have hinOrder : (Stream.mk found.tokens found.stop 0).InOrder := scan_ascending hscan
  exact ⟨_, _, (run_places _ (.items none []) _ _ hinOrder ds s' hitems).2⟩

end Manifest

end PuppetDocs
