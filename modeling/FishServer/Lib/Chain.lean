import FishServer.Lib.Heap

namespace BlockHeap

variable {α β : Type*}

structure Cell (α β : Type*) where
  make : α → Option ℕ → β
  node : β → Option (α × Option ℕ)
  node_make : ∀ x q, node (make x q) = some (x, q)

-- none is a read of a block that is not allocated, or is of another kind
def Heap.cell (h : Heap β) (c : Cell α β) (p : ℕ) : Option (α × Option ℕ) := (h.block p).bind c.node

/-- From `p` on the links lead through the blocks of `l`, with their values, and end there. -/
def Chain (c : Cell α β) (h : Heap β) : Option ℕ → List (ℕ × α) → Prop
  | p, [] => p = none
  | p, (b, x) :: l => p = some b ∧ ∃ q, h.cell c b = some (x, q) ∧ Chain c h q l

/-- The loop that goes on to the end of the chain. `last` is the block it comes from. None is a read of a block
that is not there, or a bound on the steps that is too small. -/
def endFrom (c : Cell α β) (h : Heap β) : ℕ → Option ℕ → Option ℕ → Option (Option ℕ)
  | _, last, none => some last
  | 0, _, some _ => none
  | n + 1, _, some b => (h.cell c b).bind (fun x => endFrom c h n (some b) x.2)

def freeFrom (c : Cell α β) : ℕ → Heap β → Option ℕ → Option (Heap β)
  | _, h, none => some h
  | 0, _, some _ => none
  | n + 1, h, some b => (h.cell c b).bind (fun x => (h.free b).bind (fun h => freeFrom c n h x.2))

section

variable {c : Cell α β} {h h' : Heap β} {p : Option ℕ} {l : List (ℕ × α)}

theorem cell_congr {b : ℕ} (hb : h'.block b = h.block b) : h'.cell c b = h.cell c b := by
  rw [Heap.cell, hb, Heap.cell]

theorem cell_live {b : ℕ} {x : α × Option ℕ} (hb : h.cell c b = some x) : ∃ v, h.block b = some v := by
  unfold Heap.cell at hb
  cases hv : h.block b with
  | none => simp [hv] at hb
  | some v => exact ⟨v, rfl⟩

theorem cell_gone {b : ℕ} (hb : h.block b = none) : h.cell c b = none := by
  rw [Heap.cell, hb, Option.bind_none]

theorem chain_congr (hl : ∀ b ∈ l.map Prod.fst, h'.block b = h.block b) (hc : Chain c h p l) : Chain c h' p l := by
  induction l generalizing p with
  | nil => exact hc
  | cons x l ih =>
    obtain ⟨hp, q, hq, hrest⟩ := hc
    refine ⟨hp, q, ?_, ih (fun b hm => hl b (List.mem_cons_of_mem _ hm)) hrest⟩
    rw [cell_congr (hl x.1 List.mem_cons_self), hq]

theorem chain_live (hc : Chain c h p l) : ∀ b ∈ l.map Prod.fst, ∃ v, h.block b = some v := by
  induction l generalizing p with
  | nil =>
    intro b hb
    cases hb
  | cons x l ih =>
    obtain ⟨-, q, hq, hrest⟩ := hc
    intro b hb
    rcases List.mem_cons.mp hb with rfl | hb
    · exact cell_live hq
    · exact ih hrest b hb

theorem endFrom_chain (n : ℕ) (last : Option ℕ) (hc : Chain c h p l) (hn : l.length ≤ n) :
    endFrom c h n last p = some ((l.map Prod.fst).getLast?.or last) := by
  induction l generalizing n last p with
  | nil =>
    obtain rfl := hc
    cases n <;> rfl
  | cons x l ih =>
    obtain ⟨rfl, q, hq, hrest⟩ := hc
    cases n with
    | zero => simp at hn
    | succ n =>
      rw [endFrom, hq, Option.bind_some, ih n _ hrest (Nat.le_of_succ_le_succ hn), List.map_cons, List.getLast?_cons]
      cases (l.map Prod.fst).getLast? <;> rfl

theorem chain_append {l : List (ℕ × α)} {p : Option ℕ} {e b : ℕ} {x y : α} (hc : Chain c h p (l ++ [(e, y)]))
    (hd : (l.map Prod.fst ++ [e]).Nodup) (hb : h.cell c b = some (x, none)) (hm : b ∉ l.map Prod.fst ++ [e]) :
    h.cell c e = some (y, none) ∧
      Chain c (h.modify (fun _ => c.make y (some b)) e) p (l ++ [(e, y)] ++ [(b, x)]) := by
  induction l generalizing p with
  | nil =>
    obtain ⟨rfl, q, hq, rfl⟩ := hc
    obtain ⟨v, hv⟩ := cell_live hq
    have hbe : b ≠ e := fun hbe => hm (List.mem_singleton.mpr hbe)
    refine ⟨hq, rfl, some b, ?_, rfl, none, ?_, rfl⟩
    · rw [Heap.cell, modify_self, hv, Option.map_some, Option.bind_some, c.node_make]
    · rw [cell_congr (modify_block h _ hbe), hb]
  | cons z l ih =>
    obtain ⟨rfl, q, hq, hrest⟩ := hc
    obtain ⟨hz, hd⟩ := List.nodup_cons.mp hd
    rw [List.map_cons, List.cons_append, List.mem_cons, not_or] at hm
    obtain ⟨he, hchain⟩ := ih hrest hd hm.2
    refine ⟨he, rfl, q, ?_, hchain⟩
    rw [cell_congr (modify_block h _ _), hq]
    rintro rfl
    exact hz (List.mem_append_right _ List.mem_cons_self)

theorem freeFrom_released (n : ℕ) (hc : Chain c h p l) (hd : (l.map Prod.fst).Nodup) (hn : l.length ≤ n) :
    ∃ h', freeFrom c n h p = some h' ∧ Released (l.map Prod.fst) h h' := by
  induction l generalizing n h p with
  | nil =>
    obtain rfl := hc
    refine ⟨h, ?_, Released.refl h⟩
    cases n <;> rfl
  | cons x l ih =>
    obtain ⟨rfl, q, hq, hrest⟩ := hc
    obtain ⟨hx, hd⟩ := List.nodup_cons.mp hd
    cases n with
    | zero => simp at hn
    | succ n =>
      obtain ⟨v, hv⟩ := cell_live hq
      obtain ⟨h₁, hf, hr⟩ := released_free h hv
      have hrest : Chain c h₁ q l := by
        apply chain_congr _ hrest
        intro b hb
        apply hr.kept
        rw [List.mem_singleton]
        rintro rfl
        exact hx hb
      obtain ⟨h₂, hg, hr₂⟩ := ih n hrest hd (Nat.le_of_succ_le_succ hn)
      refine ⟨h₂, ?_, hr.trans hr₂⟩
      rw [freeFrom, hq, Option.bind_some, hf, Option.bind_some, hg]

end

end BlockHeap
