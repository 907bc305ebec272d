import Mathlib

namespace LinkedList

variable {α : Type*}

structure Node (α : Type*) where
  val : α
  prev : Option ℕ
  next : Option ℕ

/-- A doubly linked list: its nodes by address, the first and the last of them, and their number.
`fresh` is the address of the next node. -/
structure DList (α : Type*) where
  node : ℕ → Option (Node α)
  head : Option ℕ
  curr : Option ℕ
  len : ℤ
  fresh : ℕ

def DList.empty : DList α := ⟨fun _ => none, none, none, 0, 0⟩

def DList.value (d : DList α) (p : ℕ) : Option α := (d.node p).map Node.val

def change (node : ℕ → Option (Node α)) (f : Node α → Node α) : Option ℕ → ℕ → Option (Node α)
  | none => node
  | some p => Function.update node p ((node p).map f)

def setNext (x : Option ℕ) (n : Node α) : Node α := { n with next := x }

def setPrev (x : Option ℕ) (n : Node α) : Node α := { n with prev := x }

def DList.modify (d : DList α) (f : α → α) (p : ℕ) : DList α :=
  { d with node := change d.node (fun n => { n with val := f n.val }) (some p) }

def DList.append (d : DList α) (v : α) : DList α :=
  if d.head = none then
    { node := Function.update d.node d.fresh (some ⟨v, none, none⟩)
      head := some d.fresh
      curr := some d.fresh
      len := d.len + 1
      fresh := d.fresh + 1 }
  else
    { node := Function.update (change d.node (setNext (some d.fresh)) d.curr) d.fresh
        (some ⟨v, d.curr, none⟩)
      head := d.head
      curr := some d.fresh
      len := d.len + 1
      fresh := d.fresh + 1 }

def DList.remove (d : DList α) (p : ℕ) : DList α :=
  match d.node p with
  | none => d
  | some n =>
    { node := Function.update (change (change d.node (setNext n.next) n.prev) (setPrev n.prev) n.next)
        p none
      head := if d.head = some p then n.next else d.head
      curr := if d.curr = some p then n.prev else d.curr
      len := d.len - 1
      fresh := d.fresh }

def DList.findFrom (d : DList α) (test : α → Bool) : ℕ → Option ℕ → Option ℕ
  | _, none => none
  | 0, some _ => none
  | n + 1, some p =>
    match d.node p with
    | none => none
    | some v => if test v.val then some p else d.findFrom test n v.next

def DList.find (d : DList α) (test : α → Bool) : Option ℕ := d.findFrom test d.fresh d.head

/-- The loop that releases every node from `p` on and reads the next pointer before each release. None is
a read of a node that is not there, or a bound on the steps that is too small. -/
def clearFrom : ℕ → (ℕ → Option (Node α)) → Option ℕ → Option (ℕ → Option (Node α))
  | _, node, none => some node
  | 0, _, some _ => none
  | n + 1, node, some p =>
    match node p with
    | none => none
    | some v => clearFrom n (Function.update node p none) v.next

-- `curr` keeps the address of a node that is gone
def DList.clear (d : DList α) : Option (DList α) :=
  (clearFrom d.fresh d.node d.head).map (fun node => { d with node, head := none, len := 0 })

/-! Segments of the list. -/

def Seg (node : ℕ → Option (Node α)) : Option ℕ → List ℕ → Option ℕ → Prop
  | _, [], _ => True
  | prev, p :: l, next =>
    (∃ v, node p = some ⟨v, prev, l.head?.or next⟩) ∧ Seg node (some p) l next

theorem seg_append (node : ℕ → Option (Node α)) (prev next : Option ℕ) (l₁ l₂ : List ℕ) :
    Seg node prev (l₁ ++ l₂) next ↔
      Seg node prev l₁ (l₂.head?.or next) ∧ Seg node (l₁.getLast?.or prev) l₂ next := by
  induction l₁ generalizing prev with
  | nil => simp [Seg]
  | cons p l ih =>
    have hl : (p :: l).getLast?.or prev = l.getLast?.or (some p) := by
      cases l with
      | nil => rfl
      | cons q l => simp [List.getLast?_cons]
    have hh : (l ++ l₂).head?.or next = l.head?.or (l₂.head?.or next) := by
      cases l <;> simp
    rw [List.cons_append, Seg, Seg, ih, hl, hh, and_assoc]

theorem seg_congr {node node' : ℕ → Option (Node α)} {prev next : Option ℕ} {l : List ℕ}
    (h : ∀ p ∈ l, node' p = node p) (hs : Seg node prev l next) : Seg node' prev l next := by
  induction l generalizing prev with
  | nil => trivial
  | cons p l ih =>
    obtain ⟨⟨v, hv⟩, hl⟩ := hs
    refine ⟨⟨v, ?_⟩, ih (fun q hq => h q (by simp [hq])) hl⟩
    rw [h p (by simp), hv]

theorem change_of_ne (node : ℕ → Option (Node α)) (f : Node α → Node α) (p : Option ℕ) (q : ℕ)
    (h : p ≠ some q) : change node f p q = node q := by
  cases p with
  | none => rfl
  | some p =>
    apply Function.update_of_ne
    rintro rfl
    exact h rfl

theorem change_self (node : ℕ → Option (Node α)) (f : Node α → Node α) (p : ℕ) :
    change node f (some p) p = (node p).map f := Function.update_self ..

theorem seg_setNext {node : ℕ → Option (Node α)} {prev next : Option ℕ} {l : List ℕ} (hd : l.Nodup)
    (hs : Seg node prev l next) (x : Option ℕ) :
    Seg (change node (setNext x) l.getLast?) prev l x := by
  induction l generalizing prev with
  | nil => trivial
  | cons p l ih =>
    obtain ⟨⟨v, hv⟩, hl⟩ := hs
    obtain ⟨hp, hd⟩ := List.nodup_cons.mp hd
    cases l with
    | nil =>
      refine ⟨⟨v, ?_⟩, trivial⟩
      rw [List.getLast?_singleton, change_self, hv]
      rfl
    | cons q l =>
      rw [List.getLast?_cons_cons]
      refine ⟨⟨v, ?_⟩, ih hd hl⟩
      rw [change_of_ne, hv]
      · rfl
      · intro he
        exact hp (List.mem_of_getLast? he)

theorem seg_setPrev {node : ℕ → Option (Node α)} {prev next : Option ℕ} {l : List ℕ} (hd : l.Nodup)
    (hs : Seg node prev l next) (x : Option ℕ) :
    Seg (change node (setPrev x) l.head?) x l next := by
  cases l with
  | nil => trivial
  | cons p l =>
    obtain ⟨⟨v, hv⟩, hl⟩ := hs
    obtain ⟨hp, -⟩ := List.nodup_cons.mp hd
    refine ⟨⟨v, ?_⟩, ?_⟩
    · rw [List.head?_cons, change_self, hv]
      rfl
    · apply seg_congr _ hl
      intro q hq
      apply change_of_ne
      rintro ⟨⟩
      exact hp hq

structure DList.Holds (d : DList α) (l : List ℕ) : Prop where
  seg : Seg d.node none l none
  nodup : l.Nodup
  head : d.head = l.head?
  curr : l ≠ [] → d.curr = l.getLast?
  len : d.len = l.length
  live : ∀ p, (d.node p).isSome → p ∈ l
  fresh : ∀ p ∈ l, p < d.fresh

theorem DList.holds_empty : (DList.empty : DList α).Holds [] where
  seg := trivial
  nodup := List.nodup_nil
  head := rfl
  curr := fun h => absurd rfl h
  len := rfl
  live := fun p h => by simp [DList.empty] at h
  fresh := fun p h => by simp at h

variable {d : DList α} {l : List ℕ}

theorem DList.Holds.mem_of_value (h : d.Holds l) {p : ℕ} {v : α} (hv : d.value p = some v) : p ∈ l := by
  apply h.live
  unfold DList.value at hv
  cases hn : d.node p with
  | none => simp [hn] at hv
  | some n => rfl

theorem DList.Holds.fresh_notMem (h : d.Holds l) : d.fresh ∉ l := by
  intro hm
  exact absurd (h.fresh _ hm) (lt_irrefl _)

theorem change_isSome (node : ℕ → Option (Node α)) (f : Node α → Node α) (p : Option ℕ) (q : ℕ) :
    (change node f p q).isSome = (node q).isSome := by
  by_cases h : p = some q
  · subst h
    rw [change_self, Option.isSome_map]
  · rw [change_of_ne node f p q h]

theorem DList.Holds.append (h : d.Holds l) (v : α) : (d.append v).Holds (l ++ [d.fresh]) := by
  have hf := h.fresh_notMem
  have hnodup : (l ++ [d.fresh]).Nodup := by
    rw [List.nodup_append]
    refine ⟨h.nodup, List.nodup_singleton _, ?_⟩
    rintro p hp q hq rfl
    exact hf (List.mem_singleton.mp hq ▸ hp)
  have hbound : ∀ p ∈ l ++ [d.fresh], p < d.fresh + 1 := by
    intro p hp
    rcases List.mem_append.mp hp with hp | hp
    · exact Nat.lt_succ_of_lt (h.fresh p hp)
    · rw [List.mem_singleton.mp hp]
      exact Nat.lt_succ_self _
  by_cases hl : l = []
  · subst hl
    have hd : d.head = none := h.head
    rw [DList.append, if_pos hd]
    refine ⟨⟨⟨v, ?_⟩, trivial⟩, hnodup, rfl, fun _ => rfl, by rw [h.len]; rfl, ?_, hbound⟩
    · exact Function.update_self ..
    · intro p hp
      by_cases he : p = d.fresh
      · simp [he]
      · simp only [Function.update_of_ne he] at hp
        exact absurd (h.live p hp) (by simp)
  · have hd : d.head ≠ none := by
      rw [h.head]
      simpa using hl
    rw [DList.append, if_neg hd]
    refine ⟨?_, hnodup, ?_, ?_, ?_, ?_, hbound⟩
    · rw [seg_append]
      constructor
      · have hs := seg_setNext h.nodup h.seg (some d.fresh)
        rw [← h.curr hl] at hs
        apply seg_congr _ hs
        intro p hp
        apply Function.update_of_ne
        rintro rfl
        exact hf hp
      · refine ⟨⟨v, ?_⟩, trivial⟩
        rw [h.curr hl]
        simp
    · simp only
      rw [h.head]
      cases l with
      | nil => exact absurd rfl hl
      | cons p l => rfl
    · intro _
      simp
    · simp only [h.len]
      simp
    · intro p hp
      by_cases he : p = d.fresh
      · simp [he]
      · simp only [Function.update_of_ne he, change_isSome] at hp
        exact List.mem_append_left _ (h.live p hp)

theorem nodup_middle {l₁ l₂ : List ℕ} {p : ℕ} (h : (l₁ ++ p :: l₂).Nodup) :
    l₁.Nodup ∧ l₂.Nodup ∧ p ∉ l₁ ∧ p ∉ l₂ ∧ ∀ q ∈ l₁, q ∉ l₂ := by
  rw [List.nodup_append, List.nodup_cons] at h
  obtain ⟨h₁, ⟨hp, h₂⟩, hd⟩ := h
  refine ⟨h₁, h₂, fun hm => hd p hm p (by simp) rfl, hp, ?_⟩
  intro q hq hq'
  exact hd q hq q (by simp [hq']) rfl

theorem DList.Holds.middle {l₁ l₂ : List ℕ} {p : ℕ} (h : d.Holds (l₁ ++ p :: l₂)) :
    Seg d.node none l₁ (some p) ∧ (∃ v, d.node p = some ⟨v, l₁.getLast?, l₂.head?⟩) ∧
      Seg d.node (some p) l₂ none := by
  have hs := (seg_append d.node none none l₁ (p :: l₂)).mp h.seg
  obtain ⟨h₁, hv, h₂⟩ := hs
  simp only [Option.or_none] at hv
  exact ⟨h₁, hv, h₂⟩

theorem seg_unlink {node : ℕ → Option (Node α)} {l₁ l₂ : List ℕ} {p : ℕ} (hn : (l₁ ++ p :: l₂).Nodup)
    (h₁ : Seg node none l₁ (some p)) (h₂ : Seg node (some p) l₂ none) :
    Seg (Function.update (change (change node (setNext l₂.head?) l₁.getLast?) (setPrev l₁.getLast?) l₂.head?) p none)
      none (l₁ ++ l₂) none := by
  obtain ⟨hd₁, hd₂, hp₁, hp₂, hdis⟩ := nodup_middle hn
  have hlast : ∀ q ∈ l₂, l₁.getLast? ≠ some q := fun q hq hl => hdis q (List.mem_of_getLast? hl) hq
  have hhead : ∀ q ∈ l₁, l₂.head? ≠ some q := fun q hq hl => hdis q hq (List.mem_of_head? hl)
  rw [seg_append]
  constructor
  · apply seg_congr _ (seg_setNext hd₁ h₁ (l₂.head?.or none))
    intro q hq
    have hqp : q ≠ p := fun he => hp₁ (he ▸ hq)
    rw [Function.update_of_ne hqp, change_of_ne _ _ _ _ (hhead q hq), Option.or_none]
  · rw [Option.or_none]
    have h₂' : Seg (change node (setNext l₂.head?) l₁.getLast?) (some p) l₂ none :=
      seg_congr (fun q hq => change_of_ne _ _ _ _ (hlast q hq)) h₂
    apply seg_congr _ (seg_setPrev hd₂ h₂' l₁.getLast?)
    intro q hq
    have hqp : q ≠ p := fun he => hp₂ (he ▸ hq)
    exact Function.update_of_ne hqp ..

theorem DList.remove_some {p : ℕ} {n : Node α} (hv : d.node p = some n) : d.remove p =
    { node := Function.update (change (change d.node (setNext n.next) n.prev) (setPrev n.prev) n.next) p none
      head := if d.head = some p then n.next else d.head
      curr := if d.curr = some p then n.prev else d.curr
      len := d.len - 1
      fresh := d.fresh } := by
  simp only [DList.remove, hv]

theorem DList.Holds.remove {p : ℕ} (h : d.Holds l) (hp : p ∈ l) : (d.remove p).Holds (l.erase p) := by
  obtain ⟨l₁, l₂, rfl⟩ := List.append_of_mem hp
  obtain ⟨hd₁, hd₂, hp₁, hp₂, hdis⟩ := nodup_middle h.nodup
  obtain ⟨h₁, ⟨v, hv⟩, h₂⟩ := h.middle
  have he : (l₁ ++ p :: l₂).erase p = l₁ ++ l₂ := by
    rw [List.erase_append_right _ hp₁, List.erase_cons_head]
  rw [he, DList.remove_some hv]
  refine ⟨seg_unlink h.nodup h₁ h₂, ?_, ?_, ?_, ?_, ?_, ?_⟩
  · rw [List.nodup_append]
    exact ⟨hd₁, hd₂, fun q hq r hr he => hdis q hq (he ▸ hr)⟩
  · simp only [h.head]
    cases l₁ with
    | nil => simp
    | cons q l₁ =>
      rw [if_neg]
      · rfl
      · rintro ⟨⟩
        simp at hp₁
  · intro hnil
    simp only
    rw [h.curr (by simp)]
    cases l₂ with
    | nil => simp
    | cons q l₂ =>
      rw [List.getLast?_append_cons, List.getLast?_append_cons, List.getLast?_cons_cons, if_neg]
      intro hl
      exact hp₂ (List.mem_of_getLast? hl)
  · simp only [h.len, List.length_append, List.length_cons]
    omega
  · intro q hq
    have hqp : q ≠ p := by
      rintro rfl
      simp at hq
    simp only [Function.update_of_ne hqp, change_isSome] at hq
    have hm := h.live q hq
    simp only [List.mem_append, List.mem_cons] at hm ⊢
    tauto
  · intro q hq
    apply h.fresh
    simp only [List.mem_append, List.mem_cons] at hq ⊢
    tauto

theorem seg_modify {node : ℕ → Option (Node α)} {prev next : Option ℕ} {l : List ℕ} (f : α → α)
    (p : Option ℕ) (hs : Seg node prev l next) :
    Seg (change node (fun n => { n with val := f n.val }) p) prev l next := by
  induction l generalizing prev with
  | nil => trivial
  | cons q l ih =>
    obtain ⟨⟨v, hv⟩, hl⟩ := hs
    refine ⟨?_, ih hl⟩
    by_cases he : p = some q
    · subst he
      exact ⟨f v, by rw [change_self, hv]; rfl⟩
    · exact ⟨v, by rw [change_of_ne _ _ _ _ he, hv]⟩

theorem DList.Holds.modify (h : d.Holds l) (f : α → α) (p : ℕ) : (d.modify f p).Holds l where
  seg := seg_modify f (some p) h.seg
  nodup := h.nodup
  head := h.head
  curr := h.curr
  len := h.len
  live := fun q hq => h.live q (by rwa [DList.modify, change_isSome] at hq)
  fresh := h.fresh

theorem DList.value_modify_self (d : DList α) (f : α → α) (p : ℕ) :
    (d.modify f p).value p = (d.value p).map f := by
  simp only [DList.value, DList.modify]
  rw [change_self, Option.map_map, Option.map_map]
  rfl

theorem DList.value_modify_of_ne (d : DList α) (f : α → α) {p q : ℕ} (h : q ≠ p) :
    (d.modify f p).value q = d.value q := by
  simp only [DList.value, DList.modify]
  rw [change_of_ne]
  rintro ⟨⟩
  exact h rfl

theorem DList.modify_modify (d : DList α) (f g : α → α) (p : ℕ) :
    (d.modify f p).modify g p = d.modify (g ∘ f) p := by
  simp only [DList.modify, change, Function.update_self, Option.map_map, Function.update_idem]
  rfl

theorem map_val_change (node : ℕ → Option (Node α)) (f : Node α → Node α)
    (hf : ∀ n, (f n).val = n.val) (p : Option ℕ) (q : ℕ) :
    (change node f p q).map Node.val = (node q).map Node.val := by
  by_cases h : p = some q
  · subst h
    rw [change_self, Option.map_map]
    congr 1
    funext n
    exact hf n
  · rw [change_of_ne _ _ _ _ h]

theorem DList.value_append_self (d : DList α) (v : α) : (d.append v).value d.fresh = some v := by
  unfold DList.value DList.append
  split_ifs <;> simp

theorem DList.value_append_of_ne (d : DList α) (v : α) {p : ℕ} (h : p ≠ d.fresh) :
    (d.append v).value p = d.value p := by
  unfold DList.value DList.append
  split_ifs
  · simp only [Function.update_of_ne h]
  · simp only [Function.update_of_ne h]
    apply map_val_change
    intro n
    rfl

theorem DList.fresh_append (d : DList α) (v : α) : (d.append v).fresh = d.fresh + 1 := by
  unfold DList.append
  split_ifs <;> rfl

theorem DList.value_remove_of_ne (d : DList α) {p q : ℕ} (h : q ≠ p) :
    (d.remove p).value q = d.value q := by
  unfold DList.value DList.remove
  cases d.node p with
  | none => rfl
  | some n =>
    simp only
    rw [Function.update_of_ne h, map_val_change, map_val_change] <;> exact fun _ => rfl

theorem DList.value_remove_self (d : DList α) (p : ℕ) : (d.remove p).value p = none := by
  unfold DList.value DList.remove
  cases h : d.node p with
  | none => simp [h]
  | some n => simp

theorem DList.fresh_remove (d : DList α) (p : ℕ) : (d.remove p).fresh = d.fresh := by
  unfold DList.remove
  cases d.node p <;> rfl

theorem DList.findFrom_seg (d : DList α) (test : α → Bool) {prev : Option ℕ} {l : List ℕ} (n : ℕ)
    (hs : Seg d.node prev l none) (hn : l.length ≤ n) :
    d.findFrom test n l.head? = l.find? (fun p => (d.value p).any test) := by
  induction l generalizing n prev with
  | nil => cases n <;> rfl
  | cons p l ih =>
    obtain ⟨⟨v, hv⟩, hl⟩ := hs
    cases n with
    | zero => simp at hn
    | succ n =>
      have hp : d.value p = some v := by rw [DList.value, hv]; rfl
      simp only [List.head?_cons, DList.findFrom, hv, Option.or_none, List.find?_cons, hp, Option.any_some]
      cases test v with
      | false => exact ih n hl (by simpa using hn)
      | true => rfl

theorem DList.Holds.length_le (h : d.Holds l) : l.length ≤ d.fresh := by
  have hs : l.Subperm (List.range d.fresh) :=
    h.nodup.subperm (fun p hp => List.mem_range.mpr (h.fresh p hp))
  simpa using hs.length_le

theorem DList.Holds.find (h : d.Holds l) (test : α → Bool) :
    d.find test = l.find? (fun p => (d.value p).any test) := by
  unfold DList.find
  rw [h.head]
  exact d.findFrom_seg test d.fresh h.seg h.length_le

theorem DList.Holds.find_some (h : d.Holds l) {test : α → Bool} {p : ℕ} (hp : d.find test = some p) :
    ∃ v, d.value p = some v ∧ test v = true := by
  rw [h.find] at hp
  have ht := List.find?_some hp
  cases hv : d.value p with
  | none => simp [hv] at ht
  | some v => exact ⟨v, rfl, by simpa [hv] using ht⟩

theorem DList.Holds.find_none (h : d.Holds l) {test : α → Bool} (hn : d.find test = none) {p : ℕ} {v : α}
    (hv : d.value p = some v) : test v = false := by
  rw [h.find, List.find?_eq_none] at hn
  have ht := hn p (h.mem_of_value hv)
  simpa [hv] using ht

/-- From `p` on the `next` pointers lead over exactly the nodes of the list, in its order. -/
inductive DList.Path (d : DList α) : Option ℕ → List ℕ → Prop
  | nil : Path d none []
  | cons {p : ℕ} {n : Node α} {l : List ℕ} : d.node p = some n → Path d n.next l → Path d (some p) (p :: l)

theorem path_of_seg (d : DList α) {prev : Option ℕ} {l : List ℕ} (hs : Seg d.node prev l none) :
    d.Path l.head? l := by
  induction l generalizing prev with
  | nil => exact .nil
  | cons p l ih =>
    obtain ⟨⟨v, hv⟩, hl⟩ := hs
    rw [Option.or_none] at hv
    apply DList.Path.cons hv
    exact ih hl

theorem DList.Holds.value_of_mem (h : d.Holds l) {p : ℕ} (hp : p ∈ l) : ∃ v, d.value p = some v := by
  obtain ⟨l₁, l₂, rfl⟩ := List.append_of_mem hp
  obtain ⟨-, ⟨v, hv⟩, -⟩ := h.middle
  refine ⟨v, ?_⟩
  unfold DList.value
  rw [hv, Option.map_some]

theorem DList.Holds.path (h : d.Holds l) : d.Path d.head l := by
  rw [h.head]
  exact path_of_seg d h.seg

theorem DList.Holds.next_iff_prev (h : d.Holds l) {p q : ℕ} {m n : Node α} (hp : d.node p = some m)
    (hq : d.node q = some n) : m.next = some q ↔ n.prev = some p := by
  constructor
  · intro hm
    obtain ⟨l₁, l₂, rfl⟩ := List.append_of_mem (h.live p (by rw [hp]; rfl))
    obtain ⟨-, ⟨v, hv⟩, -⟩ := h.middle
    obtain rfl : ⟨v, l₁.getLast?, l₂.head?⟩ = m := Option.some.inj (hv.symm.trans hp)
    obtain ⟨l₃, rfl⟩ := List.head?_eq_some_iff.mp hm
    rw [List.append_cons] at h
    obtain ⟨-, ⟨w, hw⟩, -⟩ := h.middle
    obtain rfl : ⟨w, (l₁ ++ [p]).getLast?, l₃.head?⟩ = n := Option.some.inj (hw.symm.trans hq)
    exact List.getLast?_concat ..
  · intro hn
    obtain ⟨l₁, l₂, rfl⟩ := List.append_of_mem (h.live q (by rw [hq]; rfl))
    obtain ⟨-, ⟨v, hv⟩, -⟩ := h.middle
    obtain rfl : ⟨v, l₁.getLast?, l₂.head?⟩ = n := Option.some.inj (hv.symm.trans hq)
    obtain ⟨l₃, rfl⟩ := List.getLast?_eq_some_iff.mp hn
    rw [← List.append_cons] at h
    obtain ⟨-, ⟨w, hw⟩, -⟩ := h.middle
    obtain rfl : ⟨w, l₃.getLast?, (q :: l₂).head?⟩ = m := Option.some.inj (hw.symm.trans hp)
    rfl

theorem DList.Holds.head_iff_prev (h : d.Holds l) {p : ℕ} {n : Node α} (hp : d.node p = some n) :
    d.head = some p ↔ n.prev = none := by
  obtain ⟨l₁, l₂, rfl⟩ := List.append_of_mem (h.live p (by rw [hp]; rfl))
  obtain ⟨-, ⟨v, hv⟩, -⟩ := h.middle
  obtain rfl : ⟨v, l₁.getLast?, l₂.head?⟩ = n := Option.some.inj (hv.symm.trans hp)
  rw [h.head, List.getLast?_eq_none_iff]
  constructor
  · intro he
    by_contra hne
    obtain ⟨q, l₃, rfl⟩ := List.exists_cons_of_ne_nil hne
    obtain rfl : q = p := Option.some.inj he
    exact (List.nodup_cons.mp h.nodup).1 (by simp)
  · rintro rfl
    rfl

theorem clearFrom_seg {node : ℕ → Option (Node α)} {prev : Option ℕ} {l : List ℕ} (n : ℕ) (hd : l.Nodup)
    (hs : Seg node prev l none) (hn : l.length ≤ n) :
    ∃ node', clearFrom n node l.head? = some node' ∧ (∀ p ∈ l, node' p = none) ∧
      ∀ p, p ∉ l → node' p = node p := by
  induction l generalizing n node prev with
  | nil =>
    refine ⟨node, by cases n <;> rfl, ?_, fun p _ => rfl⟩
    intro p hp
    cases hp
  | cons q l ih =>
    obtain ⟨⟨v, hv⟩, hl⟩ := hs
    obtain ⟨hq, hd⟩ := List.nodup_cons.mp hd
    cases n with
    | zero => simp at hn
    | succ n =>
      have hl' : Seg (Function.update node q none) (some q) l none := by
        apply seg_congr _ hl
        intro p hp
        apply Function.update_of_ne
        rintro rfl
        exact hq hp
      obtain ⟨node', hc, hgone, hkept⟩ := ih n hd hl' (by simpa using hn)
      refine ⟨node', ?_, ?_, ?_⟩
      · rw [List.head?_cons, clearFrom, hv]
        simpa using hc
      · intro p hp
        rcases List.mem_cons.mp hp with rfl | hp
        · rw [hkept p hq, Function.update_self]
        · exact hgone p hp
      · intro p hp
        rw [List.mem_cons, not_or] at hp
        rw [hkept p hp.2, Function.update_of_ne hp.1]

theorem DList.Holds.clear (h : d.Holds l) :
    ∃ d', d.clear = some d' ∧ d'.Holds [] ∧ d'.fresh = d.fresh := by
  obtain ⟨node, hc, hgone, hkept⟩ := clearFrom_seg d.fresh h.nodup h.seg h.length_le
  unfold DList.clear
  rw [h.head, hc]
  refine ⟨_, rfl, ?_, rfl⟩
  constructor
  · trivial
  · exact List.nodup_nil
  · rfl
  · exact fun he => absurd rfl he
  · rfl
  · intro p hp
    by_cases hm : p ∈ l
    · simp [hgone p hm] at hp
    · simp only [hkept p hm] at hp
      exact absurd (h.live p hp) hm
  · intro p hp
    cases hp

end LinkedList
