import PuppetDocs.Proofs.Source.Stream
import PuppetDocs.Ruby.Grammar.Args

/-
  PuppetDocs.Proofs.Tree.Placement — trees that lie in their text as it is written.

  A node is in place (`Node.InPlace`) if its span lies in the text, its line is that of its
  start, and its parts lie inside it. `Laid` says of nodes next to each other that they and
  all nodes below them are in place, and that the starts met in pre-order ascend between two
  bounds. Nodes are laid in the order in which they are read: `Laid.append` puts what was read
  later behind what was read before, and `Laid.single` makes one node of its parts.

  A node for which nothing was read is empty and may lie behind the end of its parent, so only
  the ends of nodes that cover some text are bounded.
-/

namespace PuppetDocs.Ruby

open Text (byteLength)

/-- The node covers some text. -/
def Node.Covers (n : Node) : Prop := n.span.start < n.span.stop

structure Node.InPlace (text : List Char) (n : Node) : Prop where
  ordered : n.span.start ≤ n.span.stop
  inside : n.span.stop ≤ byteLength text
  line : n.line = (LineIndex.ofText text).line n.span.start
  starts : ∀ x ∈ n.children, n.span.start ≤ x.span.start
  stops : ∀ x ∈ n.children, x.Covers → x.span.stop ≤ n.span.stop
  /-- The hash that is made of entries ends with the last of them. -/
  entry : isEntry n = true → n.Covers

/-- The starts of these nodes and of all nodes below them, in pre-order. -/
def starts (ns : List Node) : List Nat := (ns.flatMap Node.preorder).map (·.span.start)

@[simp] theorem starts_nil : starts [] = [] := rfl

@[simp] theorem starts_cons (n : Node) (ns : List Node) : starts (n :: ns) = n.span.start :: starts n.children ++ starts ns := by
  simp [starts, Node.preorder_eq n]

@[simp] theorem starts_append (ns ms : List Node) : starts (ns ++ ms) = starts ns ++ starts ms := by
  simp [starts]

theorem Node.mem_preorder (n : Node) : n ∈ n.preorder := by
  rw [Node.preorder_eq]
  exact List.mem_cons_self

theorem start_mem {n : Node} {ns : List Node} (h : n ∈ ns) : n.span.start ∈ starts ns :=
  List.mem_map_of_mem (List.mem_flatMap.mpr ⟨n, h, n.mem_preorder⟩)

/-- The nodes lie in order; they start from `lo` to `hi` and end at `e` at the latest. -/
structure Laid (text : List Char) (lo hi e : Nat) (ns : List Node) : Prop where
  inPlace : ∀ n ∈ ns, ∀ m ∈ n.preorder, m.InPlace text
  sorted : (starts ns).Pairwise (· ≤ ·)
  within : ∀ k ∈ starts ns, lo ≤ k ∧ k ≤ hi
  stops : ∀ n ∈ ns, n.Covers → n.span.stop ≤ e

namespace Laid

variable {text : List Char} {lo hi e : Nat} {ns ms : List Node} {n : Node}

theorem nil : Laid text lo hi e [] := ⟨by simp, by simp, by simp, by simp⟩

theorem mono {lo' hi' e' : Nat} (h : Laid text lo hi e ns) (hlo : lo' ≤ lo) (hhi : hi ≤ hi') (he : e ≤ e') :
    Laid text lo' hi' e' ns where
  inPlace := h.inPlace
  sorted := h.sorted
  within := fun k hk => ⟨Nat.le_trans hlo (h.within k hk).1, Nat.le_trans (h.within k hk).2 hhi⟩
  stops := fun n hn hc => Nat.le_trans (h.stops n hn hc) he

theorem append {mid e' : Nat} (h : Laid text lo mid e ns) (k : Laid text mid hi e' ms) (hlo : lo ≤ mid) (hhi : mid ≤ hi)
    (he : e ≤ e') : Laid text lo hi e' (ns ++ ms) where
  inPlace := by
    intro n hn
    rcases List.mem_append.mp hn with hn | hn
    · exact h.inPlace n hn
    · exact k.inPlace n hn
  sorted := by
    rw [starts_append]
    exact List.pairwise_append.mpr ⟨h.sorted, k.sorted, fun a ha b hb => Nat.le_trans (h.within a ha).2 (k.within b hb).1⟩
  within := by
    intro a ha
    rw [starts_append] at ha
    rcases List.mem_append.mp ha with ha | ha
    · exact ⟨(h.within a ha).1, Nat.le_trans (h.within a ha).2 hhi⟩
    · exact ⟨Nat.le_trans hlo (k.within a ha).1, (k.within a ha).2⟩
  stops := by
    intro n hn hc
    rcases List.mem_append.mp hn with hn | hn
    · exact Nat.le_trans (h.stops n hn hc) he
    · exact k.stops n hn hc

/-- Nodes laid in order, cut in front of one of them. -/
theorem split {m : Node} (h : Laid text lo hi e (ns ++ m :: ms)) :
    Laid text lo m.span.start e ns ∧ Laid text m.span.start hi e (m :: ms) ∧ lo ≤ m.span.start := by
  have hs := h.sorted
  rw [starts_append, List.pairwise_append] at hs
  obtain ⟨hns, hms, hcross⟩ := hs
  have hsorted := hms
  rw [starts_cons, List.cons_append, List.pairwise_cons] at hms
  obtain ⟨hlo, hhi⟩ := h.within _ (start_mem (List.mem_append_right ns List.mem_cons_self))
  refine ⟨?_, ?_, hlo⟩
  · exact ⟨fun n hn => h.inPlace n (by simp [hn]), hns,
      fun k hk => ⟨(h.within k (by simp [hk])).1, hcross k hk _ (start_mem List.mem_cons_self)⟩,
      fun n hn => h.stops n (by simp [hn])⟩
  · refine ⟨fun n hn => h.inPlace n (List.mem_append_right _ hn), hsorted, fun k hk => ⟨?_, ?_⟩,
      fun n hn => h.stops n (List.mem_append_right _ hn)⟩
    · rw [starts_cons] at hk
      rcases List.mem_cons.mp hk with rfl | hk
      · exact Nat.le_refl _
      · exact hms.1 k hk
    · exact (h.within k (by rw [starts_append]; exact List.mem_append_right _ hk)).2

/-- A node whose parts lie in order from its start on. -/
theorem single {k : Nat} (hstart : n.span.start = lo) (h : Laid text lo hi k n.children) (hhi : lo ≤ hi)
    (hordered : lo ≤ n.span.stop) (hinside : n.span.stop ≤ byteLength text)
    (hline : n.line = (LineIndex.ofText text).line lo) (hk : k ≤ n.span.stop)
    (he : n.Covers → n.span.stop ≤ e) (hentry : isEntry n = true → n.Covers) : Laid text lo hi e [n] where
  inPlace := by
    subst hstart
    intro m hm x hx
    rw [List.mem_singleton.mp hm, Node.preorder_eq] at hx
    rcases List.mem_cons.mp hx with rfl | hx
    · refine ⟨hordered, hinside, hline, fun y hy => ?_, fun y hy hc => Nat.le_trans (h.stops y hy hc) hk, hentry⟩
      exact (h.within _ (start_mem hy)).1
    · obtain ⟨y, hy, hx⟩ := List.mem_flatMap.mp hx
      exact h.inPlace y hy x hx
  sorted := by
    simp only [starts_cons, starts_nil, List.append_nil, hstart]
    exact List.pairwise_cons.mpr ⟨fun a ha => (h.within a ha).1, h.sorted⟩
  within := by
    intro a ha
    simp only [starts_cons, starts_nil, List.append_nil, hstart] at ha
    rcases List.mem_cons.mp ha with rfl | ha
    · exact ⟨Nat.le_refl _, hhi⟩
    · exact h.within a ha
  stops := by
    intro m hm hc
    rw [List.mem_singleton] at hm
    subst hm
    exact he hc

theorem mem (h : Laid text lo hi e ns) (hn : n ∈ ns) : n.InPlace text ∧ lo ≤ n.span.start ∧ n.span.start ≤ hi :=
  ⟨h.inPlace n hn n n.mem_preorder, h.within _ (start_mem hn)⟩

/-- The parts of a node lie in order from its start on. -/
theorem parts (h : Laid text lo hi e [n]) : Laid text n.span.start hi e n.children where
  inPlace := by
    intro m hm x hx
    refine h.inPlace n List.mem_cons_self x ?_
    rw [Node.preorder_eq]
    exact List.mem_cons_of_mem _ (List.mem_flatMap.mpr ⟨m, hm, hx⟩)
  sorted := by
    have hs := h.sorted
    simp only [starts_cons, starts_nil, List.append_nil] at hs
    exact (List.pairwise_cons.mp hs).2
  within := by
    intro k hk
    have hs := h.sorted
    simp only [starts_cons, starts_nil, List.append_nil] at hs
    exact ⟨(List.pairwise_cons.mp hs).1 k hk, (h.within k (by simp [hk])).2⟩
  stops := by
    intro m hm hc
    have htop := (h.mem List.mem_cons_self).1
    have hstart := htop.starts m hm
    have hstop := htop.stops m hm hc
    -- A part that covers some text makes its node cover some.
    have hn : n.Covers := by
      unfold Node.Covers at hc ⊢
      omega
    exact Nat.le_trans hstop (h.stops n List.mem_cons_self hn)

/-- Nodes without parts over one and the same span. -/
theorem shared {span : Span} (kinds : List (NodeKind Node))
    (hkinds : ∀ k ∈ kinds, k.children = [] ∧ isEntry ⟨k, span, (LineIndex.ofText text).line span.start⟩ = false)
    (hlo : lo ≤ span.start) (hhi : span.start ≤ hi) (hordered : span.start ≤ span.stop)
    (hinside : span.stop ≤ byteLength text) (he : span.start < span.stop → span.stop ≤ e) :
    Laid text lo hi e (kinds.map fun kind => ⟨kind, span, (LineIndex.ofText text).line span.start⟩) := by
  generalize hns : kinds.map (fun kind => Node.mk kind span ((LineIndex.ofText text).line span.start)) = ns
  have hnode : ∀ n ∈ ns, n.span = span ∧ n.line = (LineIndex.ofText text).line span.start ∧ n.children = [] ∧
      isEntry n = false := by
    intro n hn
    rw [← hns] at hn
    obtain ⟨k, hk, rfl⟩ := List.mem_map.mp hn
    exact ⟨rfl, rfl, hkinds k hk⟩
  have hpreorder : ∀ n ∈ ns, n.preorder = [n] := by
    intro n hn
    rw [Node.preorder_eq, (hnode n hn).2.2.1]
    rfl
  have hstarts : ∀ k ∈ starts ns, k = span.start := by
    intro k hk
    obtain ⟨m, hm, rfl⟩ := List.mem_map.mp hk
    obtain ⟨n, hn, hm⟩ := List.mem_flatMap.mp hm
    rw [hpreorder n hn, List.mem_singleton] at hm
    rw [hm, (hnode n hn).1]
  refine ⟨?_, ?_, ?_, ?_⟩
  · intro n hn m hm
    obtain ⟨hspan, hline, hparts, hentry⟩ := hnode n hn
    rw [hpreorder n hn, List.mem_singleton] at hm
    rw [hm]
    exact ⟨by rw [hspan]; exact hordered, by rw [hspan]; exact hinside, by rw [hspan, hline], by simp [hparts],
      by simp [hparts], by simp [hentry]⟩
  · refine List.pairwise_of_forall_mem_list fun a ha b hb => ?_
    exact Nat.le_of_eq ((hstarts a ha).trans (hstarts b hb).symm)
  · intro k hk
    rw [hstarts k hk]
    exact ⟨hlo, hhi⟩
  · intro n hn hc
    rw [Node.Covers, (hnode n hn).1] at hc
    rw [(hnode n hn).1]
    exact he hc

end Laid

/-- Of nodes next to each other, those that cover some text end no later than the ones behind them. -/
def Rising (ns : List Node) : Prop := ns.Pairwise fun n m => n.Covers → n.span.stop ≤ m.span.stop

theorem Rising.shared (kinds : List (NodeKind Node)) (span : Span) (line : Nat) :
    Rising (kinds.map fun kind => ⟨kind, span, line⟩) :=
  List.pairwise_map.mpr (List.pairwise_of_forall fun _ _ _ => Nat.le_refl _)

theorem Rising.append {text : List Char} {lo hi e mid hi' e' : Nat} {ns ms : List Node} (h : Rising ns) (k : Rising ms)
    (hns : Laid text lo hi e ns) (hms : Laid text mid hi' e' ms) (he : e ≤ mid) : Rising (ns ++ ms) := by
  refine List.pairwise_append.mpr ⟨h, k, fun n hn m hm hc => ?_⟩
  have hstop := hns.stops n hn hc
  obtain ⟨hplace, hstart, -⟩ := hms.mem hm
  have := hplace.ordered
  omega

end PuppetDocs.Ruby
