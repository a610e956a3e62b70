import PuppetDocs.Proofs.Tree.Placement
import PuppetDocs.Ruby.Grammar.Rule

/-
  PuppetDocs.Proofs.Tree.Reading — how parsers lay nodes.

  `Stream.Sound` is what the scanner promises about the tokens ahead; reading keeps it and
  moves on (`Stream.Leads`). `Got` is the state of a parser in the middle of its work: which
  nodes it has laid since it began, from which start on. `Reads` says of a parser that it lays
  the nodes of its value (`nodes`) from where it begins, `Resumes` that it goes on with a node
  laid already.

  A parser written with `do` is followed bind by bind: `Got.pass` for what lays nothing,
  `Got.next` for what lays further nodes, and `Got.node` where a node is made of all of them.
-/

namespace PuppetDocs

namespace Stream

open Ruby (TokenKind)

/-- The tokens follow each other, each over some text, from `e` up to `len` at the latest. -/
def Ahead (len : Nat) : Nat → List (Token TokenKind) → Prop
  | e, [] => e ≤ len
  | e, t :: rest => e ≤ t.span.start ∧ t.span.start < t.span.stop ∧ Ahead len t.span.stop rest

structure Sound (len : Nat) (s : Stream TokenKind) : Prop where
  ahead : Ahead len s.prevEnd s.rest
  stop : s.stop.span = ⟨len, len⟩
  eof : s.stop.kind = .eof

/-- The offset of the next token. -/
abbrev here (s : Stream TokenKind) : Nat := s.peek.span.start

/-- Reading came from the first stream to the second. -/
structure Leads (len : Nat) (s s' : Stream TokenKind) : Prop where
  sound : s'.Sound len
  ends : s.prevEnd ≤ s'.prevEnd
  starts : s.here ≤ s'.here

variable {len : Nat} {s s' s'' : Stream TokenKind}

theorem Ahead.le {e : Nat} {rest : List (Token TokenKind)} (h : Ahead len e rest) : e ≤ len := by
  induction rest generalizing e with
  | nil => exact h
  | cons t rest ih =>
    obtain ⟨h1, h2, h3⟩ := h
    have := ih h3
    omega

/-- The end of the token read last, the next token, and the end of the text stand in this order. -/
theorem Sound.here_bounds (h : s.Sound len) : s.prevEnd ≤ s.here ∧ s.here ≤ len := by
  obtain ⟨rest, stop, prevEnd⟩ := s
  rcases rest with _ | ⟨t, rest⟩
  · have hstop : stop.span = ⟨len, len⟩ := h.stop
    have hend : prevEnd ≤ len := h.ahead
    simpa [here, peek, hstop] using hend
  · obtain ⟨h1, h2, h3⟩ := h.ahead
    have := h3.le
    refine ⟨h1, ?_⟩
    change t.span.start ≤ len
    omega

theorem Leads.refl (h : s.Sound len) : s.Leads len s := ⟨h, Nat.le_refl _, Nat.le_refl _⟩

theorem Leads.trans (h : s.Leads len s') (k : s'.Leads len s'') : s.Leads len s'' :=
  ⟨k.sound, Nat.le_trans h.ends k.ends, Nat.le_trans h.starts k.starts⟩

theorem Sound.peek_span (h : s.Sound len) : s.here ≤ s.peek.span.stop ∧ s.peek.span.stop ≤ len := by
  obtain ⟨rest, stop, prevEnd⟩ := s
  rcases rest with _ | ⟨t, rest⟩
  · have hstop : stop.span = ⟨len, len⟩ := h.stop
    simp [here, peek, hstop]
  · obtain ⟨-, h2, h3⟩ := h.ahead
    exact ⟨Nat.le_of_lt h2, h3.le⟩

/-- Only the token at the end of the text is empty. -/
theorem Sound.peek_covers (h : s.Sound len) (hk : s.peek.kind ≠ .eof) : s.here < s.peek.span.stop := by
  obtain ⟨rest, stop, prevEnd⟩ := s
  rcases rest with _ | ⟨t, rest⟩
  · exact absurd h.eof hk
  · exact h.ahead.2.1

theorem Sound.advance (h : s.Sound len) : s.Leads len s.advance := by
  obtain ⟨rest, stop, prevEnd⟩ := s
  rcases rest with _ | ⟨t, rest⟩
  · exact .refl h
  · obtain ⟨h1, h2, h3⟩ := h.ahead
    have hsound : (Stream.mk rest stop t.span.stop).Sound len := ⟨h3, h.stop, h.eof⟩
    have hend : prevEnd ≤ t.span.start := h1
    have hhere : t.span.stop ≤ (Stream.mk rest stop t.span.stop).here := hsound.here_bounds.1
    refine ⟨hsound, ?_, ?_⟩
    · change prevEnd ≤ t.span.stop
      omega
    · change t.span.start ≤ (Stream.mk rest stop t.span.stop).here
      omega

/-- Reading goes on behind the end of a token that covers some text. -/
theorem Sound.advance_prevEnd (h : s.Sound len) (hlt : s.here < s.peek.span.stop) :
    s.advance.prevEnd = s.peek.span.stop := by
  obtain ⟨rest, stop, prevEnd⟩ := s
  rcases rest with _ | ⟨t, rest⟩
  · have hstop : stop.span = ⟨len, len⟩ := h.stop
    simp [here, peek, hstop] at hlt
  · rfl

theorem Sound.skipWhile (h : s.Sound len) (p : TokenKind → Bool) : s.Leads len (s.skipWhile p) := by
  obtain ⟨rest, stop, prevEnd⟩ := s
  induction rest generalizing prevEnd with
  | nil => exact .refl h
  | cons t rest ih =>
    rw [skipWhile_cons]
    split
    · have hadvance := h.advance
      exact hadvance.trans (ih t.span.stop hadvance.sound)
    · exact .refl h

end Stream

namespace Ruby

open ParseM
open Text (byteLength)

/-! ## Nodes laid so far -/

/-- The nodes that a value holds, in the order of the source. -/
class HasNodes (α : Type) where
  nodes : α → List Node

export HasNodes (nodes)

instance : HasNodes Node := ⟨fun n => [n]⟩
instance : HasNodes (List Node) := ⟨id⟩
instance : HasNodes (Option Node) := ⟨Option.toList⟩
instance : HasNodes (List (Param Node)) := ⟨defaults⟩
instance : HasNodes (Block Node) := ⟨fun b => defaults b.params ++ [b.body]⟩
instance {α : Type} : HasNodes (List Node × α) := ⟨Prod.fst⟩
instance : HasNodes (List (Param Node) × Node) := ⟨fun p => defaults p.1 ++ [p.2]⟩
instance : HasNodes (Option (String × ParamKind × Option Node)) := ⟨fun o => (o.bind (·.2.2)).toList⟩

@[simp] theorem nodes_node (n : Node) : nodes n = [n] := rfl
@[simp] theorem nodes_list (ns : List Node) : nodes ns = ns := rfl
@[simp] theorem nodes_option (o : Option Node) : nodes o = o.toList := rfl
@[simp] theorem nodes_params (ps : List (Param Node)) : nodes ps = defaults ps := rfl
@[simp] theorem nodes_block (b : Block Node) : nodes b = defaults b.params ++ [b.body] := rfl
@[simp] theorem nodes_fst {α : Type} (p : List Node × α) : nodes p = p.1 := rfl
@[simp] theorem nodes_body (p : List (Param Node) × Node) : nodes p = defaults p.1 ++ [p.2] := rfl

/-- Since `s₀` the parser has come to `s` and laid the nodes `ns`, which start from `lo` on. -/
structure Got (text : List Char) (s₀ s : Stream TokenKind) (lo : Nat) (ns : List Node) : Prop where
  leads : s₀.Leads (byteLength text) s
  from_ : lo ≤ s.here
  laid : Laid text lo s.here s.prevEnd ns
  rising : Rising ns

/-- The parser reads on and lays nothing. -/
def Passes {α : Type} (text : List Char) (p : P α) : Prop :=
  ∀ env s, s.Sound (byteLength text) → Gives p env s fun _ s' => s.Leads (byteLength text) s'

/-- The parser lays the nodes of its value from where it begins. -/
def Reads {α : Type} [HasNodes α] (text : List Char) (p : P α) : Prop :=
  ∀ env s, env.lines = .ofText text → s.Sound (byteLength text) → Gives p env s fun a s' => Got text s s' s.here (nodes a)

/-- The parser makes one node of `n`, which is laid already from `start` on, and of what it reads. -/
def Resumes (text : List Char) (start : Nat) (n : Node) (p : P Node) : Prop :=
  ∀ env s₀ s, env.lines = .ofText text → Got text s₀ s start [n] → Gives p env s fun m s' => Got text s₀ s' start [m]

section Got

variable {text : List Char} {s₀ s s' : Stream TokenKind} {lo : Nat} {ns : List Node} {env : ParseEnv}

theorem Got.start (h : s.Sound (byteLength text)) : Got text s s s.here [] :=
  ⟨.refl h, Nat.le_refl _, .nil, .nil⟩

theorem Got.sound (h : Got text s₀ s lo ns) : s.Sound (byteLength text) := h.leads.sound

theorem Got.move (h : Got text s₀ s lo ns) (hs : s.Leads (byteLength text) s') : Got text s₀ s' lo ns where
  leads := h.leads.trans hs
  from_ := Nat.le_trans h.from_ hs.starts
  laid := h.laid.mono (Nat.le_refl _) hs.starts hs.ends
  rising := h.rising

theorem Got.advance (h : Got text s₀ s lo ns) : Got text s₀ s.advance lo ns := h.move h.sound.advance

/-- What is laid from the next token on goes behind what is laid. -/
theorem Got.append {ms : List Node} (h : Got text s₀ s lo ns) (k : Got text s s' s.here ms) :
    Got text s₀ s' lo (ns ++ ms) where
  leads := h.leads.trans k.leads
  from_ := Nat.le_trans h.from_ k.leads.starts
  laid := h.laid.append k.laid h.from_ k.leads.starts k.leads.ends
  rising := h.rising.append k.rising h.laid k.laid h.sound.here_bounds.1

theorem Got.pass {α β : Type} {p : P α} {f : α → P β} {Q : β → Stream TokenKind → Prop} (h : Got text s₀ s lo ns)
    (hp : Passes text p) (hf : ∀ a s', Got text s₀ s' lo ns → Gives (f a) env s' Q) : Gives (p >>= f) env s Q :=
  (hp env s h.sound).bind fun a s' hs => hf a s' (h.move hs)

theorem Got.next {α β : Type} [HasNodes α] {p : P α} {f : α → P β} {Q : β → Stream TokenKind → Prop}
    (h : Got text s₀ s lo ns) (hl : env.lines = .ofText text) (hp : Reads text p)
    (hf : ∀ a s', Got text s₀ s' lo (ns ++ nodes a) → Gives (f a) env s' Q) : Gives (p >>= f) env s Q :=
  (hp env s hl h.sound).bind fun a s' hs => hf a s' (h.append hs)

theorem Got.pass_ite {α β : Type} {c : Prop} [Decidable c] {p : P α} {q : P β} {Q : β → Stream TokenKind → Prop}
    (h : Got text s₀ s lo ns) (hp : Passes text p) (hq : ∀ s', Got text s₀ s' lo ns → Gives q env s' Q) :
    Gives (if c then p >>= fun _ => q else q) env s Q := by
  split
  · exact h.pass hp fun _ s' h => hq s' h
  · exact hq s h

theorem Got.next_ite {α β : Type} [HasNodes α] {c : Prop} [Decidable c] {p p' : P α} {f : α → P β}
    {Q : β → Stream TokenKind → Prop} (h : Got text s₀ s lo ns) (hl : env.lines = .ofText text) (hp : Reads text p)
    (hp' : Reads text p') (hf : ∀ a s', Got text s₀ s' lo (ns ++ nodes a) → Gives (f a) env s' Q) :
    Gives (if c then p >>= f else p' >>= f) env s Q := by
  split
  · exact h.next hl hp hf
  · exact h.next hl hp' hf

/-- What was read in front of the first stream counts as well. -/
theorem Got.since {s₁ : Stream TokenKind} (h : Got text s₁ s lo ns) (hs : s₀.Leads (byteLength text) s₁) :
    Got text s₀ s lo ns := ⟨hs.trans h.leads, h.from_, h.laid, h.rising⟩

/-- The same nodes, with the parser beginning here. -/
theorem Got.restart (h : Got text s₀ s lo ns) : Got text s s lo ns := ⟨.refl h.sound, h.from_, h.laid, h.rising⟩

/-- Nodes laid from later on are laid from here on. -/
theorem Got.from_start {lo' : Nat} (h : Got text s₀ s lo ns) (hle : lo' ≤ lo) : Got text s₀ s lo' ns :=
  ⟨h.leads, Nat.le_trans hle h.from_, h.laid.mono hle (Nat.le_refl _) (Nat.le_refl _), h.rising⟩

/-- A node is laid from its own start on. -/
theorem Got.from_node {n : Node} (h : Got text s₀ s lo [n]) : Got text s₀ s n.span.start [n] ∧ lo ≤ n.span.start := by
  obtain ⟨-, hlo, hhi⟩ := h.laid.mem List.mem_cons_self
  have hlaid : Laid text lo s.here s.prevEnd ([] ++ n :: []) := h.laid
  exact ⟨⟨h.leads, hhi, hlaid.split.2.1, h.rising⟩, hlo⟩

/-- A node over parts that are laid. An entry has to cover some text. -/
theorem gives_mkNode {kind : NodeKind Node} (hl : env.lines = .ofText text) (hleads : s₀.Leads (byteLength text) s)
    (hfrom : lo ≤ s.here) (hlaid : Laid text lo s.here s.prevEnd kind.children)
    (hentry : isEntry { kind, span := ⟨lo, lo⟩, line := 0 } = true → lo < s.prevEnd) :
    Gives (mkNode kind lo) env s fun n s' => Got text s₀ s' lo [n] := by
  intro n s' hn
  cases hn
  obtain ⟨hend, hhere⟩ := hleads.sound.here_bounds
  refine ⟨hleads, hfrom, .single rfl hlaid hfrom (Nat.le_max_right _ _) ?_ (by rw [hl]) (Nat.le_max_left _ _) ?_ ?_,
    List.pairwise_singleton _ _⟩
  · change max s.prevEnd lo ≤ _
    omega
  · intro hc
    change lo < max s.prevEnd lo at hc
    change max s.prevEnd lo ≤ s.prevEnd
    omega
  · intro he
    have := hentry he
    change lo < max s.prevEnd lo
    omega

theorem Got.node {kind : NodeKind Node} (h : Got text s₀ s lo ns) (hl : env.lines = .ofText text)
    (hkind : kind.children = ns) (hentry : isEntry { kind, span := ⟨lo, lo⟩, line := 0 } = true → lo < s.prevEnd) :
    Gives (mkNode kind lo) env s fun n s' => Got text s₀ s' lo [n] :=
  gives_mkNode hl h.leads h.from_ (hkind ▸ h.laid) hentry

theorem Got.resume {β : Type} {p : P Node} {f : Node → P β} {n : Node} {Q : β → Stream TokenKind → Prop}
    (h : Got text s₀ s lo [n]) (hl : env.lines = .ofText text) (hp : Resumes text lo n p)
    (hf : ∀ m s', Got text s₀ s' lo [m] → Gives (f m) env s' Q) : Gives (p >>= f) env s Q :=
  (hp env s₀ s hl h).bind hf

theorem Got.make {β : Type} {kind : NodeKind Node} {f : Node → P β} {Q : β → Stream TokenKind → Prop}
    (h : Got text s₀ s lo ns) (hl : env.lines = .ofText text) (hkind : kind.children = ns)
    (hentry : isEntry { kind, span := ⟨lo, lo⟩, line := 0 } = true → lo < s.prevEnd)
    (hf : ∀ n s', Got text s₀ s' lo [n] → Gives (f n) env s' Q) : Gives (mkNode kind lo >>= f) env s Q :=
  (h.node hl hkind hentry).bind hf

end Got

/-! ## Tools -/

section Tools

variable {text : List Char}

theorem looks_atAny (kinds : List TokenKind) : Looks (atAny kinds) := looks_peekKind.bind fun _ => .pure _

theorem gives_atAny {α : Type} {kinds : List TokenKind} {f : Bool → P α} {env : ParseEnv} {s : Stream TokenKind}
    {Q : α → Stream TokenKind → Prop} :
    Gives (atAny kinds >>= f) env s Q ↔ Gives (f (kinds.contains s.peek.kind)) env s Q := Iff.rfl

theorem looks_parenAt (n : Nat) : Looks (parenAt n) := (looks_peekAt n).bind fun _ => .pure _

theorem looks_colonAt (n : Nat) : Looks (colonAt n) := (looks_peekAt n).bind fun _ => .pure _

theorem looks_commandArgStarts : Looks commandArgStarts := looks_peek.bind fun _ => (looks_peekAt 1).bind fun _ => .pure _

theorem passes_skipWhile (p : TokenKind → Bool) : Passes text (skipWhile p) := by
  intro env s hs a s' h
  cases h
  exact hs.skipWhile p

theorem passes_skipNewlines : Passes text skipNewlines := passes_skipWhile _

theorem passes_skipTerminators : Passes text skipTerminators := passes_skipWhile _

/-- A token that was expected, and is not the end of the text, is used up. -/
theorem gives_eat {env : ParseEnv} {s : Stream TokenKind} (hs : s.Sound (byteLength text)) (kind : TokenKind) :
    Gives (eat kind) env s fun found s' =>
      s.Leads (byteLength text) s' ∧ (found = true → kind ≠ .eof → s.here < s'.prevEnd) := by
  unfold eat
  rw [gives_peekKind]
  split
  · rename_i hk
    rw [gives_bump]
    refine gives_pure.mpr ⟨hs.advance, fun _ hne => ?_⟩
    have hcovers := hs.peek_covers (hk ▸ hne)
    rw [hs.advance_prevEnd hcovers]
    exact hcovers
  · exact gives_pure.mpr ⟨.refl hs, nofun⟩

theorem gives_need {env : ParseEnv} {s : Stream TokenKind} (hs : s.Sound (byteLength text)) (kind : TokenKind)
    (expected : String) : Gives (need kind expected) env s fun _ s' =>
      s.Leads (byteLength text) s' ∧ (kind ≠ .eof → s.here < s'.prevEnd) := by
  unfold need expect
  rw [gives_peek]
  split
  · rename_i hk
    intro t s' h
    cases h
    refine ⟨hs.advance, fun hne => ?_⟩
    have hcovers := hs.peek_covers (hk ▸ hne)
    rw [hs.advance_prevEnd hcovers]
    exact hcovers
  · exact gives_fail

theorem passes_eat (kind : TokenKind) : Passes text (eat kind) := fun _ _ hs => (gives_eat hs kind).mono fun _ _ h => h.1

theorem passes_need (kind : TokenKind) (expected : String) : Passes text (need kind expected) :=
  fun _ _ hs => (gives_need hs kind expected).mono fun _ _ h => h.1

theorem passes_needEnd : Passes text needEnd := by
  intro env s hs
  unfold needEnd
  exact (passes_need _ _ env s hs).bind fun _ s' h => gives_pure.mpr h

theorem Reads.nested {α : Type} [HasNodes α] {p : P α} (h : Reads text p) : Reads text (nested p) :=
  fun env s hl hs => h { env with holdDo := false } s hl hs

theorem Reads.withoutDo {α : Type} [HasNodes α] {p : P α} (h : Reads text p) : Reads text (withoutDo p) :=
  fun env s hl hs => h { env with holdDo := true } s hl hs

theorem Reads.nil {α : Type} [HasNodes α] {a : α} (h : nodes a = []) : Reads text (pure a) := by
  intro env s _ hs
  rw [gives_pure, h]
  exact .start hs

theorem Reads.singleton {p : P Node} (h : Reads text p) : Reads text (do return [← p]) := fun env s hl hs =>
  (h env s hl hs).bind fun _ _ hn => gives_pure.mpr hn

/-- The node of one token. -/
theorem reads_leaf {kind : NodeKind Node} (h : kind.children = [])
    (hentry : isEntry { kind, span := ⟨0, 0⟩, line := 0 } = false) : Reads text (leaf kind) := by
  intro env s hl hs n s' hn
  cases hn
  have hspan := hs.peek_span
  have hnext := hs.advance
  have hlaid : Laid text s.here s.advance.here 0 kind.children := by
    rw [h]
    exact .nil
  exact ⟨hnext, hnext.starts, .single rfl hlaid hnext.starts hspan.1 hspan.2 (by rw [hl]) (Nat.zero_le _)
    (fun hc => Nat.le_of_eq (hs.advance_prevEnd hc).symm) (fun he => absurd (hentry.symm.trans he) (by decide)),
    List.pairwise_singleton _ _⟩

end Tools

/-! ## Rules -/

/-- What is to be shown of a parser for the rule. -/
def Rule.Lays (text : List Char) : {α : Type} → Rule α → P α → Prop
  | _, .modifiers start n, p => Resumes text start n p
  | _, .joined start lhs, p => Resumes text start lhs p
  | _, .operators _ start lhs, p => Resumes text start lhs p
  | _, .trailers start n, p => Resumes text start n p
  | _, .statements _, p => Reads text p
  | _, .items _, p => Reads text p
  | _, .body, p => Reads text p
  | _, .rescues, p => Reads text p
  | _, .rescueTypes, p => Reads text p
  | _, .statement, p => Reads text p
  | _, .sentence, p => Reads text p
  | _, .negation, p => Reads text p
  | _, .expr, p => Reads text p
  | _, .ternary, p => Reads text p
  | _, .binary _, p => Reads text p
  | _, .unary, p => Reads text p
  | _, .primary, p => Reads text p
  | _, .arg, p => Reads text p
  | _, .args _, p => Reads text p
  | _, .moreArgs, p => Reads text p
  | _, .params _, p => Reads text p
  | _, .forTargets, p => Reads text p
  | _, .elsifs, p => Reads text p
  | _, .whens, p => Reads text p
  | _, .undefNames, p => Reads text p

/-- The reader lays the nodes of every rule. -/
def Lays (text : List Char) (self : Reader) : Prop := ∀ {α : Type} (rule : Rule α), rule.Lays text (self rule)

theorem Lays.statements {text : List Char} {self : Reader} (h : Lays text self) {stops : List TokenKind} :
    Reads text (self (.statements stops)) := h (.statements stops)

theorem Lays.params {text : List Char} {self : Reader} (h : Lays text self) {closers : List TokenKind} :
    Reads text (self (.params closers)) := h (.params closers)

theorem Lays.args {text : List Char} {self : Reader} (h : Lays text self) {closer : TokenKind} :
    Reads text (self (.args closer)) := h (.args closer)

theorem Lays.binary {text : List Char} {self : Reader} (h : Lays text self) {min : Nat} :
    Reads text (self (.binary min)) := h (.binary min)

theorem Lays.operators {text : List Char} {self : Reader} (h : Lays text self) {min start : Nat} {n : Node} :
    Resumes text start n (self (.operators min start n)) := h (.operators min start n)

theorem Lays.joined {text : List Char} {self : Reader} (h : Lays text self) {start : Nat} {n : Node} :
    Resumes text start n (self (.joined start n)) := h (.joined start n)

theorem Lays.modifiers {text : List Char} {self : Reader} (h : Lays text self) {start : Nat} {n : Node} :
    Resumes text start n (self (.modifiers start n)) := h (.modifiers start n)

theorem Lays.trailers {text : List Char} {self : Reader} (h : Lays text self) {start : Nat} {n : Node} :
    Resumes text start n (self (.trailers start n)) := h (.trailers start n)

end Ruby

end PuppetDocs
