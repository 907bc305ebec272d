import FishServer.JsonBuilderTree

namespace FishServer

open BlockHeap LinkTree Transition

def JsonNode.branch (f : JsonNode) : Bool :=
  match f.value with
  | .node _ | .list _ => true
  | _ => false

/-- The loop of `clearAdd`; a call without a node starts at the head. None is a pointer to a node that was freed,
or a bound `n` that is too small. -/
def Builder.clearLoop : ℕ → Builder → Option ℕ → Option Builder
  | 0, _, _ => none
  | _ + 1, b, none => some { b with addlen := 0, addhead := none }
  | n + 1, b, some p =>
    (b.heap.block p).bind fun f =>
      (if f.branch then clearLoop n b (f.child.or b.addhead) else some b).bind fun b =>
        (b.heap.block p).bind fun f =>
          (b.heap.free p).bind fun h => clearLoop n { b with heap := h } f.next

def Builder.clearAdd (n : ℕ) (b : Builder) (p : Option ℕ) : Option Builder := b.clearLoop n (p.or b.addhead)

def Builder.Clears (b : Builder) (nodes : List ℕ) : Prop :=
  ∃ b' order, (∀ n, nodes.length < n → b.clearAdd n none = some b') ∧ order.Perm nodes ∧
    Released order b.heap b'.heap

/-- Down from a node, always into the first node or list among the siblings, there is one with nothing in it. -/
inductive MeetsEmpty (h : Heap JsonNode) : ℕ → Prop
  | here {p : ℕ} {f : JsonNode} : h.block p = some f → f.branch = true → f.child = none → MeetsEmpty h p
  | inside {p c : ℕ} {f : JsonNode} : h.block p = some f → f.branch = true → f.child = some c → MeetsEmpty h c →
    MeetsEmpty h p
  | after {p q : ℕ} {f : JsonNode} : h.block p = some f → f.branch = false → f.next = some q → MeetsEmpty h q →
    MeetsEmpty h p

section

variable {b : Builder} {p : ℕ} {f : JsonNode}

theorem clearLoop_leaf (hf : b.heap.block p = some f) (hb : f.branch = false) (n : ℕ) :
    b.clearLoop (n + 1) (some p) =
      (b.heap.free p).bind (fun h => Builder.clearLoop n { b with heap := h } f.next) := by
  rw [Builder.clearLoop, hf, Option.bind_some, hb, if_neg Bool.false_ne_true, Option.bind_some, hf, Option.bind_some]

theorem clearLoop_branch (hf : b.heap.block p = some f) (hb : f.branch = true) (n : ℕ) :
    b.clearLoop (n + 1) (some p) = (b.clearLoop n (f.child.or b.addhead)).bind (fun b =>
      (b.heap.block p).bind (fun f =>
        (b.heap.free p).bind (fun h => Builder.clearLoop n { b with heap := h } f.next))) := by
  rw [Builder.clearLoop, hf, Option.bind_some, hb, if_pos rfl]

theorem Released.shrinks {β : Type*} {bs : List ℕ} {h h' : Heap β} (hr : Released bs h h') {q : ℕ} {v : β}
    (hq : h'.block q = some v) : h.block q = some v := by
  rw [← hr.kept q, hq]
  intro hm
  rw [hr.gone q hm] at hq
  cases hq

theorem clearLoop_stuck {h : Heap JsonNode} {r : ℕ} (hr : MeetsEmpty h r) (n : ℕ) (b : Builder) (p : ℕ)
    (hp : MeetsEmpty h p) (hhead : b.addhead = some r) (hheap : ∀ q f, b.heap.block q = some f → h.block q = some f) :
    b.clearLoop n (some p) = none := by
  induction n generalizing b p with
  | zero => rfl
  | succ n ih =>
    cases hf : b.heap.block p with
    | none => rw [Builder.clearLoop, hf, Option.bind_none]
    | some f =>
      have hblock := hheap p f hf
      cases hp with
      | here hg hb hc =>
        obtain rfl := Option.some.inj (hblock.symm.trans hg)
        rw [clearLoop_branch hf hb, hc, hhead, Option.none_or, ih b r hr hhead hheap, Option.bind_none]
      | inside hg hb hc hm =>
        obtain rfl := Option.some.inj (hblock.symm.trans hg)
        rw [clearLoop_branch hf hb, hc, Option.some_or, ih b _ hm hhead hheap, Option.bind_none]
      | after hg hb hn hm =>
        obtain rfl := Option.some.inj (hblock.symm.trans hg)
        rw [clearLoop_leaf hf hb, hn]
        obtain ⟨h', hfree, hrel⟩ := released_free b.heap hf
        rw [hfree, Option.bind_some]
        apply ih { b with heap := h' } _ hm hhead
        intro q g hg
        exact hheap q g (Released.shrinks hrel hg)

theorem clearLoop_child {h : Heap JsonNode} {c : Shape} (hf : h.block p = some f)
    (hc : Spans (childOf h) (nextOf h) f.child c)
    (hgood : b.addhead = none ∨ ∀ q, some p = some q → ¬MeetsEmpty h q)
    (ih : (b.addhead = none ∨ ∀ q, f.child = some q → ¬MeetsEmpty h q) →
      ∃ b' order, (∀ n, c.nodes.length < n → b.clearLoop n f.child = some b') ∧ b'.addhead = none ∧
        order.Perm c.nodes ∧ Released order b.heap b'.heap) :
    ∃ b₁ order, (∀ n, c.nodes.length < n →
        (if f.branch then b.clearLoop n (f.child.or b.addhead) else some b) = some b₁) ∧
      (b₁.addhead = none ∨ ∀ q, f.next = some q → ¬MeetsEmpty h q) ∧ order.Perm c.nodes ∧
        Released order b.heap b₁.heap := by
  cases hb : f.branch with
  | false =>
    have hnone : f.child = none := by
      unfold JsonNode.branch at hb
      unfold JsonNode.child
      split at hb <;> simp_all
    rw [hnone] at hc
    obtain rfl := hc.of_none
    refine ⟨b, [], fun n _ => if_neg Bool.false_ne_true, ?_, List.Perm.refl _, Released.refl _⟩
    rcases hgood with hn | hg
    · exact .inl hn
    · exact .inr (fun q hq hm => hg p rfl (.after hf hb hq hm))
  | true =>
    simp only [if_true]
    cases hchild : f.child with
    | none =>
      rw [hchild] at hc
      obtain rfl := hc.of_none
      have hn : b.addhead = none := hgood.resolve_right (fun hg => hg p rfl (.here hf hb hchild))
      refine ⟨{ b with addlen := 0, addhead := none }, [], ?_, .inl rfl, List.Perm.refl _, Released.refl _⟩
      intro n hlt
      obtain ⟨n, rfl⟩ := Nat.exists_eq_add_one.mpr hlt
      rw [Option.none_or, hn]
      rfl
    | some q =>
      obtain ⟨b₁, order, hcall, hhead, hperm, hrel⟩ := ih (by
        rcases hgood with hn | hg
        · exact .inl hn
        · exact .inr (fun q hq hm => hg p rfl (.inside hf hb hq hm)))
      rw [hchild] at hcall
      exact ⟨b₁, order, hcall, .inl hhead, hperm, hrel⟩

theorem clearLoop_released {h : Heap JsonNode} {p : Option ℕ} {s : Shape}
    (hspan : Spans (childOf h) (nextOf h) p s) (hnodup : s.nodes.Nodup) (b : Builder)
    (hlive : ∀ q ∈ s.nodes, b.heap.block q = h.block q ∧ (h.block q).isSome)
    (hgood : b.addhead = none ∨ ∀ q, p = some q → ¬MeetsEmpty h q) :
    ∃ b' order, (∀ n, s.nodes.length < n → b.clearLoop n p = some b') ∧ b'.addhead = none ∧
      order.Perm s.nodes ∧ Released order b.heap b'.heap := by
  induction hspan generalizing b with
  | nil =>
    refine ⟨{ b with addlen := 0, addhead := none }, [], ?_, rfl, List.Perm.refl _, Released.refl _⟩
    intro n hn
    obtain ⟨n, rfl⟩ := Nat.exists_eq_add_one.mpr hn
    rfl
  | @node p c s hc hs ihc ihs =>
    simp only [Shape.nodes, List.nodup_cons, List.mem_append, not_or] at hnodup
    obtain ⟨⟨hpc, hps⟩, hcs⟩ := hnodup
    obtain ⟨hcn, hsn, hapart⟩ := List.nodup_append.mp hcs
    simp only [Shape.nodes, List.mem_cons, List.mem_append] at hlive
    obtain ⟨hbp, hsome⟩ := hlive p (.inl rfl)
    obtain ⟨f, hf⟩ := Option.isSome_iff_exists.mp hsome
    have hbf := hbp.trans hf
    have hchild : childOf h p = f.child := by rw [childOf, hf, Option.bind_some]
    have hnext : nextOf h p = f.next := by rw [nextOf, hf, Option.bind_some]
    rw [hchild] at hc ihc
    rw [hnext] at ihs
    obtain ⟨b₁, cs, hcall, hhead, hcperm, hcrel⟩ :=
      clearLoop_child hf hc hgood (fun hg => ihc hcn b (fun q hq => hlive q (.inr (.inl hq))) hg)
    have hpcs : p ∉ cs := fun hm => hpc (hcperm.mem_iff.mp hm)
    have hbp₁ : b₁.heap.block p = some f := (hcrel.kept p hpcs).trans hbf
    obtain ⟨h₂, hfree, hprel⟩ := released_free b₁.heap hbp₁
    have hlive₂ : ∀ q ∈ s.nodes, h₂.block q = h.block q ∧ (h.block q).isSome := by
      intro q hq
      obtain ⟨hbq, hq'⟩ := hlive q (.inr (.inr hq))
      refine ⟨?_, hq'⟩
      rw [hprel.kept q, hcrel.kept q, hbq]
      · intro hm
        exact hapart q (hcperm.mem_iff.mp hm) q hq rfl
      · rw [List.mem_singleton]
        rintro rfl
        exact hps hq
    obtain ⟨b₃, ss, hloop, hhead₃, hsperm, hsrel⟩ := ihs hsn { b₁ with heap := h₂ } hlive₂ hhead
    refine ⟨b₃, cs ++ [p] ++ ss, ?_, hhead₃, ?_, (hcrel.trans hprel).trans hsrel⟩
    · intro n hn
      rw [Shape.nodes, List.length_cons, List.length_append] at hn
      obtain ⟨n, rfl⟩ := Nat.exists_eq_add_one.mpr (Nat.zero_lt_of_lt hn)
      rw [Builder.clearLoop, hbf, Option.bind_some, hcall n (by omega), Option.bind_some, hbp₁, Option.bind_some, hfree,
        Option.bind_some, hloop n (by omega)]
    · rw [Shape.nodes, List.append_assoc, List.singleton_append]
      exact List.perm_middle.trans ((hcperm.append hsperm).cons p)

end

theorem clearAdd_clears_iff (t : Placed) (hr : Reach Placed.step Placed.once Placed.new t) :
    ∃ printed, t.builder.printed = some printed ∧
      (t.builder.Clears printed ↔ ∀ p, t.builder.addhead = some p → ¬MeetsEmpty t.builder.heap p) := by
  have hs := placed_sound hr
  obtain ⟨s, hspan, hnodup, hlt, hn⟩ := hs.spans
  refine ⟨s.nodes, hspan.walk hn, ?_⟩
  constructor
  · rintro ⟨b', order, hcall, -, -⟩ p hp hm
    have hnone := clearLoop_stuck hm (s.nodes.length + 1) t.builder p hm hp (fun _ _ h => h)
    have hsome := hcall (s.nodes.length + 1) (Nat.lt_succ_self _)
    rw [Builder.clearAdd, Option.none_or, hp, hnone] at hsome
    cases hsome
  · intro hgood
    obtain ⟨b', order, hcall, -, hperm, hrel⟩ :=
      clearLoop_released hspan hnodup t.builder (fun q hq => ⟨rfl, hs.live q (hlt q hq)⟩) (.inr hgood)
    exact ⟨b', order, hcall, hperm, hrel⟩

theorem clearAdd_list : ∃ t, Placed.run topList = some t ∧ t.builder.Clears [0, 1] := by
  have hrun : (Placed.run topList).isSome = true := by decide
  have hprinted : (Placed.run topList).bind (fun t => t.builder.printed) = some [0, 1] := by decide
  have hhead : (Placed.run topList).bind (fun t => t.builder.addhead) = some 0 := by decide
  have hlist : (Placed.run topList).bind (fun t => t.builder.heap.block 0) =
      some ⟨[], 0, .list (some 1), 0, none⟩ := by decide
  have htext : (Placed.run topList).bind (fun t => t.builder.heap.block 1) =
      some ⟨['a'], 1, .string ['b'], 1, none⟩ := by decide
  obtain ⟨t, ht⟩ := Option.isSome_iff_exists.mp hrun
  obtain ⟨printed, hp, hiff⟩ := clearAdd_clears_iff t (Placed.reach_run ht)
  rw [ht, Option.bind_some] at hprinted hhead hlist htext
  obtain rfl := Option.some.inj (hp.symm.trans hprinted)
  refine ⟨t, ht, hiff.mpr ?_⟩
  intro p hp hm
  obtain rfl := Option.some.inj (hhead.symm.trans hp)
  have hleaf : ¬MeetsEmpty t.builder.heap 1 := by
    intro hm
    cases hm with
    | here hf hb | inside hf hb =>
      cases htext.symm.trans hf
      cases hb
    | after hf _ hn =>
      cases htext.symm.trans hf
      cases hn
  cases hm with
  | here hf _ hc =>
    cases hlist.symm.trans hf
    cases hc
  | inside hf _ hc hm =>
    cases hlist.symm.trans hf
    cases hc
    exact hleaf hm
  | after hf hb =>
    cases hlist.symm.trans hf
    cases hb

-- a list with nothing in it at the head: the call for its child starts at the head again
theorem clearAdd_emptyList :
    ¬∀ (t : Placed) (printed : List ℕ), Reach Placed.step Placed.once Placed.new t →
      t.builder.printed = some printed → t.builder.Clears printed := by
  intro h
  let ops : List BuilderOp := [.createList false, .pushTop 0]
  have hrun : (Placed.run ops).isSome = true := by decide
  have hprinted : (Placed.run ops).bind (fun t => t.builder.printed) = some [0] := by decide
  have hhead : (Placed.run ops).bind (fun t => t.builder.addhead) = some 0 := by decide
  have hlist : (Placed.run ops).bind (fun t => t.builder.heap.block 0) = some ⟨[], 0, .list none, 0, none⟩ := by decide
  obtain ⟨t, ht⟩ := Option.isSome_iff_exists.mp hrun
  rw [ht, Option.bind_some] at hprinted hhead hlist
  obtain ⟨b', order, hcall, -, -⟩ := h t [0] (Placed.reach_run ht) hprinted
  have hm : MeetsEmpty t.builder.heap 0 := .here hlist rfl rfl
  have hnone := clearLoop_stuck hm 2 t.builder 0 hm hhead (fun _ _ hb => hb)
  have hsome := hcall 2 (by decide)
  rw [Builder.clearAdd, Option.none_or, hhead, hnone] at hsome
  cases hsome

end FishServer
