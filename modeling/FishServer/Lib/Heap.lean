import Mathlib

namespace BlockHeap

variable {β : Type*}

/-- Memory as blocks. A block is named by its place in the order of allocation, so that a block that was
freed is never mistaken for a later one at its address. -/
structure Heap (β : Type*) where
  block : ℕ → Option β
  fresh : ℕ
  freed : List ℕ
  unused : ∀ b, fresh ≤ b → block b = none

def Heap.empty : Heap β := ⟨fun _ => none, 0, [], fun _ _ => rfl⟩

def Heap.malloc (h : Heap β) (v : β) : Heap β where
  block := Function.update h.block h.fresh (some v)
  fresh := h.fresh + 1
  freed := h.freed
  unused b hb := by
    rw [Function.update_of_ne (by omega)]
    exact h.unused b (by omega)

def Heap.modify (h : Heap β) (f : β → β) (p : ℕ) : Heap β where
  block := Function.update h.block p ((h.block p).map f)
  fresh := h.fresh
  freed := h.freed
  unused b hb := by
    by_cases hp : b = p
    · subst hp
      rw [Function.update_self, h.unused b hb, Option.map_none]
    · rw [Function.update_of_ne hp]
      exact h.unused b hb

-- none is the release of a block that is not allocated
def Heap.free (h : Heap β) (p : ℕ) : Option (Heap β) :=
  if (h.block p).isSome then
    some
      { block := Function.update h.block p none
        fresh := h.fresh
        freed := h.freed ++ [p]
        unused := fun b hb => by
          by_cases hp : b = p
          · rw [hp, Function.update_self]
          · rw [Function.update_of_ne hp]
            exact h.unused b hb }
  else none

@[simp] theorem malloc_fresh (h : Heap β) (v : β) : (h.malloc v).fresh = h.fresh + 1 := rfl

@[simp] theorem malloc_freed (h : Heap β) (v : β) : (h.malloc v).freed = h.freed := rfl

@[simp] theorem malloc_new (h : Heap β) (v : β) : (h.malloc v).block h.fresh = some v :=
  Function.update_self ..

theorem malloc_block (h : Heap β) (v : β) {b : ℕ} (hb : b < h.fresh) :
    (h.malloc v).block b = h.block b :=
  Function.update_of_ne hb.ne ..

@[simp] theorem modify_fresh (h : Heap β) (f : β → β) (p : ℕ) : (h.modify f p).fresh = h.fresh := rfl

@[simp] theorem modify_freed (h : Heap β) (f : β → β) (p : ℕ) : (h.modify f p).freed = h.freed := rfl

@[simp] theorem modify_self (h : Heap β) (f : β → β) (p : ℕ) :
    (h.modify f p).block p = (h.block p).map f :=
  Function.update_self ..

theorem modify_block (h : Heap β) (f : β → β) {p b : ℕ} (hb : b ≠ p) :
    (h.modify f p).block b = h.block b :=
  Function.update_of_ne hb ..

theorem lt_fresh (h : Heap β) {b : ℕ} {v : β} (hb : h.block b = some v) : b < h.fresh := by
  by_contra hl
  rw [h.unused b (by omega)] at hb
  cases hb

def Heap.since (h h' : Heap β) : List ℕ := List.range' h.fresh (h'.fresh - h.fresh)

theorem mem_since {h h' : Heap β} {b : ℕ} : b ∈ h.since h' ↔ h.fresh ≤ b ∧ b < h'.fresh := by
  rw [Heap.since, List.mem_range'_1]
  omega

theorem since_nodup (h h' : Heap β) : (h.since h').Nodup := List.nodup_range'

theorem since_self (h : Heap β) : h.since h = [] := by
  rw [Heap.since, Nat.sub_self, List.range'_zero]

theorem since_append {h h' h'' : Heap β} (hl : h.fresh ≤ h'.fresh) (hr : h'.fresh ≤ h''.fresh) :
    h.since h' ++ h'.since h'' = h.since h'' := by
  unfold Heap.since
  have hm : h'.fresh = h.fresh + 1 * (h'.fresh - h.fresh) := by omega
  have hn : h''.fresh - h.fresh = h'.fresh - h.fresh + (h''.fresh - h'.fresh) := by omega
  rw [hn, ← List.range'_append, ← hm]

/-- The blocks `bs`, and no other, went from allocated to freed. -/
structure Released (bs : List ℕ) (h h' : Heap β) : Prop where
  fresh : h'.fresh = h.fresh
  gone : ∀ b ∈ bs, h'.block b = none
  kept : ∀ b, b ∉ bs → h'.block b = h.block b
  freed : h'.freed = h.freed ++ bs

theorem Released.refl (h : Heap β) : Released [] h h := by
  constructor
  · rfl
  · intro b hb
    cases hb
  · intro b hb
    rfl
  · exact (List.append_nil _).symm

theorem Released.trans {bs cs : List ℕ} {h h' h'' : Heap β} (hb : Released bs h h')
    (hc : Released cs h' h'') : Released (bs ++ cs) h h'' := by
  constructor
  · exact hc.fresh.trans hb.fresh
  · intro b hm
    by_cases hcs : b ∈ cs
    · exact hc.gone b hcs
    · rw [hc.kept b hcs]
      exact hb.gone b ((List.mem_append.mp hm).resolve_right hcs)
  · intro b hm
    rw [List.mem_append, not_or] at hm
    rw [hc.kept b hm.2, hb.kept b hm.1]
  · rw [hc.freed, hb.freed, List.append_assoc]

theorem released_free (h : Heap β) {p : ℕ} {v : β} (hp : h.block p = some v) :
    ∃ h', h.free p = some h' ∧ Released [p] h h' := by
  unfold Heap.free
  rw [hp, Option.isSome_some, if_pos rfl]
  refine ⟨_, rfl, rfl, ?_, ?_, rfl⟩
  · intro b hb
    rw [List.mem_singleton.mp hb]
    exact Function.update_self ..
  · intro b hb
    exact Function.update_of_ne (fun he => hb (List.mem_singleton.mpr he)) ..

theorem released_modify (h : Heap β) {p : ℕ} {v : β} (hp : h.block p = some v) (w : β) :
    ∃ h', (h.modify (fun _ => w) p).free p = some h' ∧ Released [p] h h' := by
  have hm : (h.modify (fun _ => w) p).block p = some w := by
    rw [modify_self, hp]
    rfl
  obtain ⟨h', hf, hr⟩ := released_free _ hm
  refine ⟨h', hf, hr.fresh, hr.gone, ?_, hr.freed⟩
  intro b hb
  rw [hr.kept b hb]
  exact modify_block _ _ (fun he => hb (List.mem_singleton.mpr he))

end BlockHeap
