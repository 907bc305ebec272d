import FishServer.JsonBuilder
import FishServer.Lib.LinkTree

namespace FishServer

open BlockHeap LinkTree Transition

def childOf (h : Heap JsonNode) (p : ℕ) : Option ℕ := (h.block p).bind JsonNode.child

def nextOf (h : Heap JsonNode) (p : ℕ) : Option ℕ := (h.block p).bind JsonNode.next

def Builder.printed (b : Builder) : Option (List ℕ) :=
  walk (childOf b.heap) (nextOf b.heap) (b.heap.fresh + 1) b.addhead

def JsonNode.fixed (f : JsonNode) : JsonNode :=
  { f with
    next := none
    value := match f.value with
      | .list _ => .list none
      | v => v }

def JsonNode.lens (f : JsonNode) : ℕ := f.keyAddlen + f.valueAddlen

-- what is counted with a node when it is hung somewhere; a node that was added when it was made has no 4
def JsonNode.extra (f : JsonNode) (loose : Bool) : ℕ :=
  match f.value with
  | .node _ => if loose then 4 else 0
  | v => v.num

def JsonNode.made (h : Heap JsonNode) (f : JsonNode) : ℕ :=
  match f.value with
  | .node (some c) => ((h.block c).map (fun g => g.value.num + g.keyAddlen + 5)).getD 0
  | _ => 0

def Placed.counted (t : Placed) (p : ℕ) : ℕ :=
  match t.builder.heap.block p with
  | none => 0
  | some f => f.made t.builder.heap + if t.place p = some .direct then f.lens + f.extra (t.loose p) else 0

def Placed.total (t : Placed) : ℕ := ∑ p ∈ Finset.range t.builder.heap.fresh, t.counted p

structure JsonNode.Sized (h : Heap JsonNode) (f : JsonNode) : Prop where
  key : f.keyAddlen = f.key.length % 2 ^ 32
  string : ∀ s, f.value = .string s → f.valueAddlen = s.length % 2 ^ 32
  inter : ∀ n, f.value = .inter n → f.valueAddlen = (Printf.decimal n).length
  node : ∀ c, f.value = .node c → ∃ q g, c = some q ∧ h.block q = some g ∧ f.valueAddlen = g.valueAddlen
  list : ∀ c, f.value = .list c → f.keyAddlen = 0 ∧ f.valueAddlen = 0

structure Placed.Sound (t : Placed) : Prop where
  tied : Tied (childOf t.builder.heap) (nextOf t.builder.heap) t.builder.addhead t.builder.heap.fresh
  live : ∀ p < t.builder.heap.fresh, (t.builder.heap.block p).isSome
  placed : ∀ p, t.place p ≠ none → p < t.builder.heap.fresh
  curr : ∀ q, t.builder.addcurr = some q → q < t.builder.heap.fresh
  value_place : ∀ p f c, t.builder.heap.block p = some f → f.value = .node (some c) → t.place c = some .value
  list_place : ∀ p f c, t.builder.heap.block p = some f → f.value = .list (some c) → t.place c = some .direct
  next_place : ∀ p q, nextOf t.builder.heap p = some q → t.place q = some .direct
  head_place : ∀ q, t.builder.addhead = some q → t.place q = some .direct
  sized : ∀ p f, t.builder.heap.block p = some f → f.Sized t.builder.heap
  added : ∀ p f c, t.builder.heap.block p = some f → f.value = .node c → t.loose p = false →
    t.place p = some .direct
  counts : t.builder.addlen = t.total % 2 ^ 32

/-! What does not change. -/

section

variable {f g : JsonNode} {h h' : Heap JsonNode}

theorem fixed_key (hf : f.fixed = g.fixed) : f.key = g.key :=
  show f.fixed.key = g.fixed.key by rw [hf]

theorem fixed_keyAddlen (hf : f.fixed = g.fixed) : f.keyAddlen = g.keyAddlen :=
  show f.fixed.keyAddlen = g.fixed.keyAddlen by rw [hf]

theorem fixed_valueAddlen (hf : f.fixed = g.fixed) : f.valueAddlen = g.valueAddlen :=
  show f.fixed.valueAddlen = g.fixed.valueAddlen by rw [hf]

theorem fixed_lens (hf : f.fixed = g.fixed) : f.lens = g.lens :=
  congrArg₂ (· + ·) (fixed_keyAddlen hf) (fixed_valueAddlen hf)

theorem fixed_value (hf : f.fixed = g.fixed) :
    f.value = g.value ∨ ∃ c c', f.value = .list c ∧ g.value = .list c' := by
  have hv := congrArg JsonNode.value hf
  simp only [JsonNode.fixed] at hv
  cases hf' : f.value <;> cases hg : g.value <;> simp_all

theorem fixed_num (hf : f.fixed = g.fixed) : f.value.num = g.value.num := by
  rcases fixed_value hf with he | ⟨c, c', he, he'⟩
  · rw [he]
  · rw [he, he']
    rfl

theorem fixed_extra (hf : f.fixed = g.fixed) (l : Bool) : f.extra l = g.extra l := by
  unfold JsonNode.extra
  rcases fixed_value hf with he | ⟨c, c', he, he'⟩
  · rw [he]
  · rw [he, he']
    rfl

theorem fixed_made (hf : f.fixed = g.fixed)
    (hc : ∀ c, g.value = .node (some c) → (h.block c).map JsonNode.fixed = (h'.block c).map JsonNode.fixed) :
    f.made h = g.made h' := by
  unfold JsonNode.made
  rcases fixed_value hf with he | ⟨c, c', he, he'⟩
  · rw [he]
    cases hg : g.value with
    | string | inter | list => rfl
    | node c =>
      cases c with
      | none => rfl
      | some c =>
        have hb := hc c hg
        cases hx : h.block c <;> cases hy : h'.block c <;> simp only [hx, hy, Option.map_none, Option.map_some] at hb
        · simp [hx, hy]
        · cases hb
        · cases hb
        · have hb := Option.some.inj hb
          simp only [hx, hy, Option.map_some, Option.getD_some, fixed_num hb, fixed_keyAddlen hb]
  · rw [he, he']

theorem fixed_sized (hf : f.fixed = g.fixed) (hs : f.Sized h)
    (hb : ∀ q, (h'.block q).map JsonNode.fixed = (h.block q).map JsonNode.fixed) : g.Sized h' := by
  have hk := fixed_keyAddlen hf
  have hv := fixed_valueAddlen hf
  have hval : ∀ v, g.value = v → (∀ c, v ≠ .list c) → f.value = v := by
    intro v hg hl
    rcases fixed_value hf with he | ⟨c, c', -, he⟩
    · rw [he, hg]
    · exact absurd (hg.symm.trans he) (hl c')
  constructor
  · rw [← hk, ← fixed_key hf]
    exact hs.key
  · intro s hg
    rw [← hv]
    exact hs.string s (hval _ hg (by simp))
  · intro n hg
    rw [← hv]
    exact hs.inter n (hval _ hg (by simp))
  · intro c hg
    obtain ⟨q, x, hc, hx, hvx⟩ := hs.node c (hval _ hg (by simp))
    have hq := hb q
    rw [hx, Option.map_some] at hq
    obtain ⟨y, hy, hyx⟩ := Option.map_eq_some_iff.mp hq
    refine ⟨q, y, hc, hy, ?_⟩
    rw [← hv, hvx, fixed_valueAddlen hyx]
  · intro c hg
    rw [← hk, ← hv]
    rcases fixed_value hf with he | ⟨c, c', he, -⟩
    · exact hs.list c (he.trans hg)
    · exact hs.list c he

@[simp] theorem setNext_fixed (p : ℕ) (f : JsonNode) : (f.setNext p).fixed = f.fixed := rfl

theorem setChild_fixed (p : ℕ) {c : Option ℕ} (hf : f.value = .list c) : (f.setChild p).fixed = f.fixed := by
  simp [JsonNode.fixed, JsonNode.setChild, hf]

theorem counted_congr {t t' : Placed} {p : ℕ}
    (hb : (t'.builder.heap.block p).map JsonNode.fixed = (t.builder.heap.block p).map JsonNode.fixed)
    (hc : ∀ f c, t.builder.heap.block p = some f → f.value = .node (some c) →
      (t'.builder.heap.block c).map JsonNode.fixed = (t.builder.heap.block c).map JsonNode.fixed)
    (hp : t'.place p = some .direct ↔ t.place p = some .direct) (hl : t'.loose p = t.loose p) :
    t'.counted p = t.counted p := by
  unfold Placed.counted
  cases hx : t.builder.heap.block p with
  | none =>
    rw [hx, Option.map_none, Option.map_eq_none_iff] at hb
    rw [hb]
  | some f =>
    rw [hx, Option.map_some] at hb
    obtain ⟨g, hg, hgf⟩ := Option.map_eq_some_iff.mp hb
    simp only [hg, fixed_made hgf (hc f · hx), fixed_lens hgf, fixed_extra hgf, hl, hp]

end

theorem childOf_malloc (h : Heap JsonNode) (f : JsonNode) :
    childOf (h.malloc f) = Function.update (childOf h) h.fresh f.child := by
  funext p
  by_cases hp : p = h.fresh
  · subst hp
    simp [childOf]
  · simp [childOf, Heap.malloc, Function.update_of_ne hp]

theorem nextOf_malloc (h : Heap JsonNode) (f : JsonNode) :
    nextOf (h.malloc f) = Function.update (nextOf h) h.fresh f.next := by
  funext p
  by_cases hp : p = h.fresh
  · subst hp
    simp [nextOf]
  · simp [nextOf, Heap.malloc, Function.update_of_ne hp]

theorem childOf_fresh (h : Heap JsonNode) : childOf h h.fresh = none := by
  rw [childOf, h.unused _ le_rfl, Option.bind_none]

theorem nextOf_fresh (h : Heap JsonNode) : nextOf h h.fresh = none := by
  rw [nextOf, h.unused _ le_rfl, Option.bind_none]

section

variable {t : Placed}

theorem Placed.Sound.unplaced (hs : t.Sound) {p : ℕ} (hp : t.builder.heap.fresh ≤ p) : t.place p = none := by
  by_contra h
  exact absurd (hs.placed p h) (by omega)

theorem Placed.Sound.child_place (hs : t.Sound) {p c : ℕ} (h : childOf t.builder.heap p = some c) :
    t.place c ≠ none := by
  obtain ⟨f, hf, hc⟩ := Option.bind_eq_some_iff.mp h
  unfold JsonNode.child at hc
  split at hc
  · next d hd =>
    subst hc
    rw [hs.value_place p f c hf hd]
    simp
  · next d hd =>
    subst hc
    rw [hs.list_place p f c hf hd]
    simp
  · cases hc

theorem Placed.Sound.untied (hs : t.Sound) {q : ℕ} (hq : t.place q = none) :
    Untied (childOf t.builder.heap) (nextOf t.builder.heap) t.builder.addhead q := by
  constructor
  · intro p hp
    exact hs.child_place hp hq
  · intro p hp
    rw [hs.next_place p q hp] at hq
    cases hq
  · intro hp
    rw [hs.head_place q hp] at hq
    cases hq

theorem malloc_cases {h : Heap JsonNode} {f g : JsonNode} {p : ℕ} (hg : (h.malloc f).block p = some g) :
    p = h.fresh ∧ g = f ∨ p ≠ h.fresh ∧ h.block p = some g := by
  by_cases hp : p = h.fresh
  · subst hp
    rw [malloc_new] at hg
    exact .inl ⟨rfl, (Option.some.inj hg).symm⟩
  · right
    refine ⟨hp, ?_⟩
    rwa [← Function.update_of_ne hp (some f) h.block]

theorem malloc_kept (h : Heap JsonNode) (f : JsonNode) {p : ℕ} {g : JsonNode} (hg : h.block p = some g) :
    (h.malloc f).block p = some g := by
  rw [malloc_block h f (lt_fresh h hg), hg]

theorem JsonNode.Sized.malloc {h : Heap JsonNode} {g : JsonNode} (hg : g.Sized h) (f : JsonNode) :
    g.Sized (h.malloc f) := by
  refine ⟨hg.key, hg.string, hg.inter, ?_, hg.list⟩
  intro c hc
  obtain ⟨q, x, hq, hx, hv⟩ := hg.node c hc
  exact ⟨q, x, hq, malloc_kept h f hx, hv⟩

structure Placed.Fresh (t : Placed) (f : JsonNode) (place : ℕ → Option Place) (l : Bool) : Prop where
  next : f.next = none
  sized : f.Sized t.builder.heap
  loose : ∀ c, f.value = .node c → l = true
  child : ∀ c, f.child = some c → f.value = .node (some c) ∧ c < t.builder.heap.fresh ∧ t.place c = none ∧
    place c = some .value
  others : ∀ p, f.child ≠ some p → place p = t.place p

def Placed.alloc (t : Placed) (f : JsonNode) (place : ℕ → Option Place) (l : Bool) : Placed where
  builder := { t.builder with
    heap := t.builder.heap.malloc f
    addlen := (t.builder.addlen + f.made t.builder.heap) % 2 ^ 32 }
  place
  loose := Function.update t.loose t.builder.heap.fresh l

variable {f : JsonNode} {place : ℕ → Option Place} {l : Bool}

theorem Placed.Fresh.kept (hf : t.Fresh f place l) {p : ℕ} {d : Place} (hp : t.place p = some d) :
    place p = some d := by
  rw [hf.others p, hp]
  intro hc
  rw [(hf.child p hc).2.2.1] at hp
  cases hp

theorem Placed.Fresh.direct (hf : t.Fresh f place l) (p : ℕ) :
    place p = some .direct ↔ t.place p = some .direct := by
  by_cases hc : f.child = some p
  · obtain ⟨-, -, hn, hv⟩ := hf.child p hc
    simp [hn, hv]
  · rw [hf.others p hc]

theorem Placed.Fresh.tied (hf : t.Fresh f place l) (hs : t.Sound) :
    Tied (childOf (t.builder.heap.malloc f)) (nextOf (t.builder.heap.malloc f)) t.builder.addhead
      (t.builder.heap.fresh + 1) := by
  rw [childOf_malloc, nextOf_malloc, hf.next, ← nextOf_fresh t.builder.heap, Function.update_eq_self]
  apply Tied.mono _ (Nat.le_succ _)
  cases hc : f.child with
  | none =>
    rw [← childOf_fresh t.builder.heap, Function.update_eq_self]
    exact hs.tied
  | some c =>
    obtain ⟨-, hb, hn, -⟩ := hf.child c hc
    exact hs.tied.set_child (hs.untied hn) hb _

theorem Placed.Fresh.counted_old (hf : t.Fresh f place l) (hs : t.Sound) {p : ℕ}
    (hp : p < t.builder.heap.fresh) : (t.alloc f place l).counted p = t.counted p := by
  have hblock : ∀ q < t.builder.heap.fresh, (t.alloc f place l).builder.heap.block q = t.builder.heap.block q := by
    intro q hq
    exact malloc_block _ f hq
  apply counted_congr
  · rw [hblock p hp]
  · intro g c hg hv
    rw [hblock c]
    apply hs.tied.child_bound p c
    rw [childOf, hg, Option.bind_some, JsonNode.child, hv]
  · exact hf.direct p
  · exact Function.update_of_ne hp.ne ..

theorem Placed.Fresh.counted_new (hf : t.Fresh f place l) (hs : t.Sound) :
    (t.alloc f place l).counted t.builder.heap.fresh = f.made t.builder.heap := by
  have hp : place t.builder.heap.fresh ≠ some .direct := by
    intro hp
    rw [hf.direct, hs.unplaced le_rfl] at hp
    cases hp
  have hm : f.made (t.builder.heap.malloc f) = f.made t.builder.heap := by
    apply fixed_made rfl
    intro c hc
    rw [malloc_block _ f (hf.child c (by rw [JsonNode.child, hc])).2.1]
  unfold Placed.counted Placed.alloc
  simp only [malloc_new, if_neg hp, hm, Nat.add_zero]

theorem Placed.Fresh.total (hf : t.Fresh f place l) (hs : t.Sound) :
    (t.alloc f place l).total = t.total + f.made t.builder.heap := by
  change ∑ p ∈ Finset.range (t.builder.heap.fresh + 1), (t.alloc f place l).counted p = _
  rw [Finset.sum_range_succ, hf.counted_new hs]
  congr 1
  apply Finset.sum_congr rfl
  intro p hp
  exact hf.counted_old hs (Finset.mem_range.mp hp)

theorem Placed.Sound.alloc (hs : t.Sound) (hf : t.Fresh f place l) : (t.alloc f place l).Sound := by
  constructor
  · exact hf.tied hs
  · intro p hp
    rcases Nat.lt_succ_iff_lt_or_eq.mp hp with hp | rfl
    · obtain ⟨g, hg⟩ := Option.isSome_iff_exists.mp (hs.live p hp)
      exact Option.isSome_iff_exists.mpr ⟨g, malloc_kept _ f hg⟩
    · exact Option.isSome_iff_exists.mpr ⟨f, malloc_new _ f⟩
  · intro p hp
    by_cases hc : f.child = some p
    · exact (hf.child p hc).2.1.trans (Nat.lt_succ_self _)
    · exact (hs.placed p (by rw [← hf.others p hc]; exact hp)).trans (Nat.lt_succ_self _)
  · intro q hq
    exact (hs.curr q hq).trans (Nat.lt_succ_self _)
  · intro p g c hg hv
    rcases malloc_cases hg with ⟨rfl, rfl⟩ | ⟨-, hg⟩
    · exact (hf.child c (by rw [JsonNode.child, hv])).2.2.2
    · exact hf.kept (hs.value_place p g c hg hv)
  · intro p g c hg hv
    rcases malloc_cases hg with ⟨rfl, rfl⟩ | ⟨-, hg⟩
    · have hn := (hf.child c (by rw [JsonNode.child, hv])).1
      rw [hv] at hn
      cases hn
    · exact hf.kept (hs.list_place p g c hg hv)
  · intro p q hq
    change nextOf (t.builder.heap.malloc f) p = some q at hq
    rw [nextOf_malloc, hf.next, ← nextOf_fresh t.builder.heap, Function.update_eq_self] at hq
    exact hf.kept (hs.next_place p q hq)
  · intro q hq
    exact hf.kept (hs.head_place q hq)
  · intro p g hg
    rcases malloc_cases hg with ⟨rfl, rfl⟩ | ⟨-, hg⟩
    · exact hf.sized.malloc g
    · exact (hs.sized p g hg).malloc f
  · intro p g c hg hv hloose
    rcases malloc_cases hg with ⟨rfl, rfl⟩ | ⟨hp, hg⟩
    · have hl : l = false := by simpa [Placed.alloc] using hloose
      rw [hf.loose c hv] at hl
      cases hl
    · have hl : t.loose p = false := by simpa [Placed.alloc, Function.update_of_ne hp] using hloose
      exact hf.kept (hs.added p g c hg hv hl)
  · rw [hf.total hs]
    change (t.builder.addlen + f.made t.builder.heap) % 2 ^ 32 = _
    rw [hs.counts, Nat.mod_add_mod]

end

inductive Builder.Linked (b : Builder) (q : ℕ) : Builder → Prop
  | head : b.addhead = none → Linked b q { b with addhead := some q, addcurr := some q }
  | next {w : ℕ} {g : JsonNode} {curr : Option ℕ} : b.heap.block w = some g → curr = b.addcurr ∨ curr = some q →
    Linked b q { b with heap := b.heap.modify (JsonNode.setNext q) w, addcurr := curr }
  | child {w : ℕ} {g : JsonNode} : b.heap.block w = some g → g.value = .list none →
    Linked b q { b with heap := b.heap.modify (JsonNode.setChild q) w }

section

variable {b b' : Builder} {q : ℕ}

theorem modify_fixed {h : Heap JsonNode} {u : JsonNode → JsonNode} {w : ℕ}
    (hu : ∀ g, h.block w = some g → (u g).fixed = g.fixed) (p : ℕ) :
    ((h.modify u w).block p).map JsonNode.fixed = (h.block p).map JsonNode.fixed := by
  by_cases hp : p = w
  · subst hp
    rw [modify_self]
    cases hg : h.block p with
    | none => rfl
    | some g => exact congrArg some (hu g hg)
  · rw [modify_block h u hp]

theorem Builder.Linked.fixed (hl : b.Linked q b') (p : ℕ) :
    (b'.heap.block p).map JsonNode.fixed = (b.heap.block p).map JsonNode.fixed := by
  cases hl with
  | head => rfl
  | next => exact modify_fixed (fun g _ => setNext_fixed q g) p
  | @child w g hg hv =>
    apply modify_fixed
    intro g' hg'
    obtain rfl := Option.some.inj (hg.symm.trans hg')
    exact setChild_fixed q hv

theorem Builder.Linked.block (hl : b.Linked q b') {p : ℕ} {f : JsonNode} (hf : b'.heap.block p = some f) :
    ∃ g, b.heap.block p = some g ∧ f.fixed = g.fixed := by
  have h := hl.fixed p
  rw [hf, Option.map_some] at h
  obtain ⟨g, hg, hgf⟩ := Option.map_eq_some_iff.mp h.symm
  exact ⟨g, hg, hgf.symm⟩

theorem Builder.Linked.fresh (hl : b.Linked q b') : b'.heap.fresh = b.heap.fresh := by
  cases hl <;> rfl

theorem Builder.Linked.curr (hl : b.Linked q b') : b'.addcurr = b.addcurr ∨ b'.addcurr = some q := by
  cases hl with
  | head => exact .inr rfl
  | next _ hc => exact hc
  | child => exact .inl rfl

theorem childOf_modify {h : Heap JsonNode} {u : JsonNode → JsonNode} {w : ℕ} (hu : ∀ g, (u g).child = g.child) :
    childOf (h.modify u w) = childOf h := by
  funext p
  by_cases hp : p = w
  · subst hp
    unfold childOf
    rw [modify_self]
    cases h.block p with
    | none => rfl
    | some g => exact hu g
  · unfold childOf
    rw [modify_block h u hp]

theorem nextOf_modify {h : Heap JsonNode} {u : JsonNode → JsonNode} {w : ℕ} (hu : ∀ g, (u g).next = g.next) :
    nextOf (h.modify u w) = nextOf h := by
  funext p
  by_cases hp : p = w
  · subst hp
    unfold nextOf
    rw [modify_self]
    cases h.block p with
    | none => rfl
    | some g => exact hu g
  · unfold nextOf
    rw [modify_block h u hp]

theorem childOf_setNext (h : Heap JsonNode) (q w : ℕ) : childOf (h.modify (JsonNode.setNext q) w) = childOf h :=
  childOf_modify (fun _ => rfl)

theorem nextOf_setChild (h : Heap JsonNode) (q w : ℕ) : nextOf (h.modify (JsonNode.setChild q) w) = nextOf h :=
  nextOf_modify (fun _ => rfl)

theorem nextOf_setNext {h : Heap JsonNode} {w : ℕ} {g : JsonNode} (hg : h.block w = some g) (q : ℕ) :
    nextOf (h.modify (JsonNode.setNext q) w) = Function.update (nextOf h) w (some q) := by
  funext p
  by_cases hp : p = w
  · subst hp
    simp [nextOf, hg, JsonNode.setNext]
  · rw [Function.update_of_ne hp]
    unfold nextOf
    rw [modify_block _ _ hp]

theorem childOf_setChild {h : Heap JsonNode} {w : ℕ} {g : JsonNode} (hg : h.block w = some g) (q : ℕ) :
    childOf (h.modify (JsonNode.setChild q) w) = Function.update (childOf h) w (some q) := by
  funext p
  by_cases hp : p = w
  · subst hp
    simp [childOf, hg, JsonNode.setChild, JsonNode.child]
  · rw [Function.update_of_ne hp]
    unfold childOf
    rw [modify_block _ _ hp]

theorem Builder.Linked.tied (hl : b.Linked q b') {bound : ℕ}
    (ht : Tied (childOf b.heap) (nextOf b.heap) b.addhead bound)
    (hq : Untied (childOf b.heap) (nextOf b.heap) b.addhead q) (hb : q < bound) :
    Tied (childOf b'.heap) (nextOf b'.heap) b'.addhead bound := by
  cases hl with
  | head => exact ht.set_root hq hb
  | @next w g curr hg =>
    rw [childOf_setNext, nextOf_setNext hg]
    exact ht.set_next hq hb w
  | @child w g hg =>
    rw [childOf_setChild hg, nextOf_setChild]
    exact ht.set_child hq hb w

theorem Builder.Linked.child_cases (hl : b.Linked q b') {p c : ℕ} (hc : childOf b'.heap p = some c) :
    c = q ∨ childOf b.heap p = some c := by
  cases hl with
  | head => exact .inr hc
  | next =>
    rw [childOf_setNext] at hc
    exact .inr hc
  | child hg =>
    rw [childOf_setChild hg] at hc
    exact (update_cases hc).imp_left And.right

theorem Builder.Linked.next_cases (hl : b.Linked q b') {p c : ℕ} (hc : nextOf b'.heap p = some c) :
    c = q ∨ nextOf b.heap p = some c := by
  cases hl with
  | head => exact .inr hc
  | next hg =>
    rw [nextOf_setNext hg] at hc
    exact (update_cases hc).imp_left And.right
  | child =>
    rw [nextOf_setChild] at hc
    exact .inr hc

theorem Builder.Linked.head_cases (hl : b.Linked q b') {c : ℕ} (hc : b'.addhead = some c) :
    c = q ∨ b.addhead = some c := by
  cases hl with
  | head => exact .inl (Option.some.inj hc).symm
  | next => exact .inr hc
  | child => exact .inr hc

end

section

variable {t : Placed} {b : Builder} {q : ℕ} {f : JsonNode} {l : Bool}

def Placed.link (t : Placed) (b : Builder) (q n : ℕ) (l : Bool) : Placed where
  builder := { b with addlen := (t.builder.addlen + n) % 2 ^ 32 }
  place := Function.update t.place q (some .direct)
  loose := Function.update t.loose q l

theorem Placed.link_place {n p : ℕ} (hp : p ≠ q) : (t.link b q n l).place p = t.place p :=
  Function.update_of_ne hp ..

theorem Placed.link_loose {n p : ℕ} (hp : p ≠ q) : (t.link b q n l).loose p = t.loose p :=
  Function.update_of_ne hp ..

theorem Placed.link_kept {n p : ℕ} {d : Place} (hq : t.place q = none) (hp : t.place p = some d) :
    (t.link b q n l).place p = some d := by
  have hne : p ≠ q := by
    rintro rfl
    rw [hp] at hq
    cases hq
  exact (Placed.link_place hne).trans hp

theorem Placed.link_self {n : ℕ} : (t.link b q n l).place q = some .direct := Function.update_self ..

theorem Placed.link_counted (hl : t.builder.Linked q b) (n : ℕ) {p : ℕ} (hp : p ≠ q) :
    (t.link b q n l).counted p = t.counted p := by
  apply counted_congr
  · exact hl.fixed p
  · intro f c _ _
    exact hl.fixed c
  · rw [Placed.link_place hp]
  · exact Placed.link_loose hp

theorem Placed.link_counted_self (hl : t.builder.Linked q b) (n : ℕ) (hq : t.place q = none)
    (hf : b.heap.block q = some f) : (t.link b q n l).counted q = t.counted q + (f.lens + f.extra l) := by
  obtain ⟨g, hg, hgf⟩ := hl.block hf
  have hb : (t.link b q n l).builder.heap.block q = some f := hf
  have hm : f.made (t.link b q n l).builder.heap = g.made t.builder.heap :=
    fixed_made hgf (fun c _ => hl.fixed c)
  have hloose : (t.link b q n l).loose q = l := Function.update_self ..
  unfold Placed.counted
  simp only [hb, hg, hm, hloose, Placed.link_self, hq, if_pos, reduceCtorEq, if_false, Nat.add_zero]

theorem Placed.link_total (hl : t.builder.Linked q b) (n : ℕ) (hq : t.place q = none)
    (hf : b.heap.block q = some f) : (t.link b q n l).total = t.total + (f.lens + f.extra l) := by
  have hmem : q ∈ Finset.range t.builder.heap.fresh := by
    rw [Finset.mem_range, ← hl.fresh]
    exact lt_fresh _ hf
  change ∑ p ∈ Finset.range b.heap.fresh, (t.link b q n l).counted p = _
  rw [hl.fresh, Placed.total, ← Finset.add_sum_erase _ _ hmem, ← Finset.add_sum_erase _ t.counted hmem,
    Placed.link_counted_self hl n hq hf, Nat.add_right_comm]
  congr 2
  apply Finset.sum_congr rfl
  intro p hp
  exact Placed.link_counted hl n (Finset.ne_of_mem_erase hp)

theorem Placed.Sound.link (hs : t.Sound) (hl : t.builder.Linked q b) (hq : t.place q = none)
    (hf : b.heap.block q = some f) : (t.link b q (f.lens + f.extra l) l).Sound := by
  have hlt : q < t.builder.heap.fresh := by
    rw [← hl.fresh]
    exact lt_fresh _ hf
  constructor
  · change Tied (childOf b.heap) (nextOf b.heap) b.addhead b.heap.fresh
    rw [hl.fresh]
    exact hl.tied hs.tied (hs.untied hq) hlt
  · intro p hp
    change p < b.heap.fresh at hp
    change (b.heap.block p).isSome = true
    rw [hl.fresh] at hp
    have hlive := hs.live p hp
    rwa [← Option.isSome_map (f := JsonNode.fixed), ← hl.fixed, Option.isSome_map] at hlive
  · intro p hp
    change p < b.heap.fresh
    rw [hl.fresh]
    by_cases he : p = q
    · rwa [he]
    · exact hs.placed p (by rwa [Placed.link_place he] at hp)
  · intro p hp
    change p < b.heap.fresh
    rw [hl.fresh]
    rcases hl.curr with hc | hc
    · exact hs.curr p (hc.symm.trans hp)
    · rwa [← Option.some.inj (hc.symm.trans hp)]
  · intro p f' c hf' hv
    obtain ⟨g, hg, hgf⟩ := hl.block hf'
    rcases fixed_value hgf with he | ⟨d, d', he, -⟩
    · exact Placed.link_kept hq (hs.value_place p g c hg (he.symm.trans hv))
    · rw [hv] at he
      cases he
  · intro p f' c hf' hv
    have hc : childOf b.heap p = some c := by
      change (b.heap.block p).bind JsonNode.child = some c
      change b.heap.block p = some f' at hf'
      rw [hf', Option.bind_some, JsonNode.child, hv]
    rcases hl.child_cases hc with rfl | hc
    · exact Placed.link_self
    · obtain ⟨g, hg, hgf⟩ := hl.block hf'
      rw [childOf, hg, Option.bind_some] at hc
      rcases fixed_value hgf with he | ⟨d, d', -, he⟩
      · exact Placed.link_kept hq (hs.list_place p g c hg (he.symm.trans hv))
      · have hd : d' = some c := by simpa [JsonNode.child, he] using hc
        exact Placed.link_kept hq (hs.list_place p g c hg (by rw [he, hd]))
  · intro p c hc
    rcases hl.next_cases hc with rfl | hc
    · exact Placed.link_self
    · exact Placed.link_kept hq (hs.next_place p c hc)
  · intro c hc
    rcases hl.head_cases hc with rfl | hc
    · exact Placed.link_self
    · exact Placed.link_kept hq (hs.head_place c hc)
  · intro p f' hf'
    obtain ⟨g, hg, hgf⟩ := hl.block hf'
    exact fixed_sized hgf.symm (hs.sized p g hg) hl.fixed
  · intro p f' c hf' hv hloose
    by_cases he : p = q
    · subst he
      exact Placed.link_self
    · obtain ⟨g, hg, hgf⟩ := hl.block hf'
      have hloose : t.loose p = false := by rwa [Placed.link_loose he] at hloose
      rcases fixed_value hgf with hv' | ⟨d, d', hv', -⟩
      · exact Placed.link_kept hq (hs.added p g c hg (hv'.symm.trans hv) hloose)
      · rw [hv] at hv'
        cases hv'
  · rw [Placed.link_total hl _ hq hf]
    change (t.builder.addlen + (f.lens + f.extra l)) % 2 ^ 32 = _
    rw [hs.counts, Nat.mod_add_mod]

end

section

variable {b b' : Builder} {p num : ℕ}

theorem mod_counts (a x y z : ℕ) :
    (((a + x) % 2 ^ 32 + y) % 2 ^ 32 + z) % 2 ^ 32 = (a + (x + y + z)) % 2 ^ 32 := by
  rw [Nat.mod_add_mod, Nat.add_assoc, Nat.mod_add_mod]
  congr 1
  omega

theorem Builder.add_linked (hc : ∀ q, b.addcurr = some q → (b.heap.block q).isSome)
    (h : b.add p num = some b') :
    ∃ b₁ f, b.Linked p b₁ ∧ b₁.heap.block p = some f ∧
      b' = { b₁ with addlen := (b.addlen + (f.lens + num)) % 2 ^ 32 } := by
  obtain ⟨b₁, h₁, h⟩ := Option.bind_eq_some_iff.mp h
  obtain ⟨f, hf, hb⟩ := Option.bind_eq_some_iff.mp h
  unfold Builder.append at h₁
  have hlen : b₁.addlen = b.addlen := by
    split_ifs at h₁
    · cases h₁
      rfl
    · obtain ⟨q, -, rfl⟩ := Option.map_eq_some_iff.mp h₁
      rfl
  refine ⟨b₁, f, ?_, hf, ?_⟩
  · split_ifs at h₁ with hh
    · cases h₁
      exact .head hh
    · obtain ⟨q, hq, rfl⟩ := Option.map_eq_some_iff.mp h₁
      obtain ⟨g, hg⟩ := Option.isSome_iff_exists.mp (hc q hq)
      exact .next hg (.inr rfl)
  · cases hb
    simp only [Builder.count, mod_counts, hlen, JsonNode.lens]

theorem lastOf_next {h : Heap JsonNode} {n q last : ℕ} (hl : lastOf h n q = some last) :
    ∃ g, h.block last = some g ∧ g.next = none := by
  induction n generalizing q with
  | zero => cases hl
  | succ n ih =>
    rw [lastOf] at hl
    obtain ⟨g, hg, hl⟩ := Option.bind_eq_some_iff.mp hl
    cases hn : g.next with
    | none =>
      rw [hn] at hl
      cases hl
      exact ⟨g, hg, hn⟩
    | some q' =>
      rw [hn] at hl
      exact ih hl

theorem Builder.hang_linked {parent child : ℕ} (h : b.hang parent child = some b') : b.Linked child b' := by
  have hnext : ∀ q, (lastOf b.heap b.heap.fresh q).map
      (fun last => { b with heap := b.heap.modify (JsonNode.setNext child) last }) = some b' →
      b.Linked child b' := by
    intro q hq
    obtain ⟨last, hl, rfl⟩ := Option.map_eq_some_iff.mp hq
    obtain ⟨g, hg, -⟩ := lastOf_next hl
    exact .next hg (.inl rfl)
  unfold Builder.hang at h
  obtain ⟨f, hf, h⟩ := Option.bind_eq_some_iff.mp h
  split at h
  · next hv =>
    cases h
    exact .child hf hv
  · exact hnext _ h
  · exact hnext _ h

theorem Builder.Linked.addlen {q : ℕ} (hl : b.Linked q b') : b'.addlen = b.addlen := by
  cases hl <;> rfl

end

section

variable {t t' : Placed} {f : JsonNode}

theorem Placed.Sound.addlen_lt (hs : t.Sound) : t.builder.addlen < 2 ^ 32 := by
  rw [hs.counts]
  exact Nat.mod_lt _ (by norm_num)

theorem Placed.Sound.curr_live (hs : t.Sound) :
    ∀ q, t.builder.addcurr = some q → (t.builder.heap.block q).isSome :=
  fun q hq => hs.live q (hs.curr q hq)

structure JsonNode.Plain (f : JsonNode) : Prop where
  next : f.next = none
  child : f.child = none
  notNode : ∀ c, f.value ≠ .node c

theorem JsonNode.Plain.made (hf : f.Plain) (h : Heap JsonNode) : f.made h = 0 := by
  unfold JsonNode.made
  split
  · next c hc => exact absurd hc (hf.notNode _)
  · rfl

theorem JsonNode.Plain.fresh (hf : f.Plain) (hsized : f.Sized t.builder.heap) : t.Fresh f t.place true := by
  constructor
  · exact hf.next
  · exact hsized
  · intro c _
    rfl
  · intro c hc
    rw [hf.child] at hc
    cases hc
  · intro p _
    rfl

theorem JsonNode.Plain.alloc_eq (hs : t.Sound) (hf : f.Plain) :
    t.alloc f t.place true = t.make false (t.builder.alloc f) := by
  have hlen := Nat.mod_eq_of_lt hs.addlen_lt
  simp only [Placed.alloc, Placed.make, Builder.alloc, hf.made, Nat.add_zero, hlen, Bool.not_false, Bool.false_eq_true,
    if_false]

theorem Placed.Sound.makePlain (hs : t.Sound) (hf : f.Plain) (hsized : f.Sized t.builder.heap) :
    (t.make false (t.builder.alloc f)).Sound := by
  rw [← hf.alloc_eq hs]
  exact hs.alloc (hf.fresh hsized)

theorem Placed.Sound.makeAdded (hs : t.Sound) (hf : f.Plain) (hsized : f.Sized t.builder.heap) {b : Builder}
    (hb : (t.builder.alloc f).add t.builder.heap.fresh f.value.num = some b) : (t.make true b).Sound := by
  have ht := hs.alloc (hf.fresh hsized)
  have hlen := Nat.mod_eq_of_lt hs.addlen_lt
  have hbuilder : (t.alloc f t.place true).builder = t.builder.alloc f := by
    rw [hf.alloc_eq hs]
    rfl
  rw [← hbuilder] at hb
  obtain ⟨b₁, g, hl, hg, rfl⟩ := Builder.add_linked ht.curr_live hb
  have hlink := @Placed.Sound.link _ _ _ _ false ht hl (hs.unplaced le_rfl) hg
  obtain ⟨f', hf', hgf⟩ := hl.block hg
  obtain rfl : f = f' := Option.some.inj ((malloc_new _ f).symm.trans hf')
  have hextra : g.extra false = f.value.num := by
    rw [fixed_extra hgf]
    unfold JsonNode.extra
    split
    · next c hc => exact absurd hc (hf.notNode c)
    · rfl
  rw [hextra] at hlink
  simpa [Placed.link, Placed.alloc, Placed.make, Placed.put] using hlink

theorem Builder.Linked.count {b b' : Builder} {q : ℕ} (hl : b.Linked q b') (n : ℕ) :
    Builder.Linked { b with addlen := n } q { b' with addlen := n } := by
  cases hl with
  | head h => exact .head h
  | next hg hc => exact .next hg hc
  | child hg hv => exact .child hg hv

def nodeOf (key : CStr) (node : ℕ) (g : JsonNode) : JsonNode :=
  ⟨key, key.length % 2 ^ 32, .node (some node), g.valueAddlen, none⟩

theorem nodeOf_fresh {key : CStr} {node : ℕ} {g : JsonNode} (hg : t.builder.heap.block node = some g)
    (hp : t.place node = none) :
    t.Fresh (nodeOf key node g) (Function.update t.place node (some .value)) true := by
  constructor
  · rfl
  · constructor
    · rfl
    · rintro s ⟨⟩
    · rintro n ⟨⟩
    · rintro c ⟨⟩
      exact ⟨node, g, rfl, hg, rfl⟩
    · rintro c ⟨⟩
  · intro c _
    rfl
  · rintro c ⟨⟩
    exact ⟨rfl, lt_fresh _ hg, hp, Function.update_self ..⟩
  · intro p hc
    apply Function.update_of_ne
    rintro rfl
    exact hc rfl

theorem nodeOf_made {key : CStr} {node : ℕ} {g : JsonNode} {h : Heap JsonNode} (hg : h.block node = some g) :
    (nodeOf key node g).made h = g.value.num + g.keyAddlen + 5 := by
  simp [nodeOf, JsonNode.made, hg]

theorem Placed.Sound.makeLoose (hs : t.Sound) {key : CStr} {node : ℕ} {g : JsonNode}
    (hg : t.builder.heap.block node = some g) (hp : t.place node = none) :
    ((t.make false ((((t.builder.alloc (nodeOf key node g)).count g.value.num).count g.keyAddlen).count 5)).put
      node .value).Sound := by
  have ht := hs.alloc (@nodeOf_fresh t key _ _ hg hp)
  have hcount := mod_counts t.builder.addlen g.value.num g.keyAddlen 5
  simpa only [Placed.alloc, Placed.make, Placed.put, Builder.alloc, Builder.count, nodeOf_made hg, hcount, Bool.not_false,
    Bool.false_eq_true, if_false] using ht

theorem Placed.Sound.makeNode (hs : t.Sound) {key : CStr} {node : ℕ} {g : JsonNode} {b : Builder}
    (hg : t.builder.heap.block node = some g) (hp : t.place node = none)
    (hb : (t.builder.alloc (nodeOf key node g)).add t.builder.heap.fresh g.value.num = some b) :
    ((t.make true ((b.count g.keyAddlen).count 5)).put node .value).Sound := by
  have hfresh := @nodeOf_fresh t key _ _ hg hp
  have ht := hs.alloc hfresh
  have hne : node ≠ t.builder.heap.fresh := (lt_fresh _ hg).ne
  obtain ⟨b₁, f, hl, hf, rfl⟩ := @Builder.add_linked (t.builder.alloc (nodeOf key node g)) _ _ _ ht.curr_live hb
  have hl' := hl.count ((t.builder.addlen + (nodeOf key node g).made t.builder.heap) % 2 ^ 32)
  have hplace : Function.update t.place node (some .value) t.builder.heap.fresh = none := by
    rw [Function.update_of_ne hne.symm]
    exact hs.unplaced le_rfl
  have hlink := @Placed.Sound.link _ _ _ _ false ht hl' hplace hf
  obtain ⟨f', hf', hff⟩ := hl.block hf
  obtain rfl : nodeOf key node g = f' := Option.some.inj ((malloc_new _ _).symm.trans hf')
  have hextra : f.extra false = 0 := fixed_extra hff false
  have hcount : ((((t.builder.addlen + (f.lens + g.value.num)) % 2 ^ 32 + g.keyAddlen) % 2 ^ 32) + 5) % 2 ^ 32 =
      ((t.builder.addlen + (g.value.num + g.keyAddlen + 5)) % 2 ^ 32 + f.lens) % 2 ^ 32 := by
    rw [mod_counts, Nat.mod_add_mod]
    congr 1
    omega
  rw [hextra, Nat.add_zero] at hlink
  simpa only [Placed.link, Placed.alloc, Placed.make, Placed.put, Builder.alloc, Builder.count, nodeOf_made hg, hcount,
    Bool.not_true, if_true, Function.update_idem, Function.update_comm hne] using hlink

end

section

variable {t t' : Placed}

theorem Placed.Sound.hang (hs : t.Sound) {b : Builder} {q : ℕ} {f : JsonNode} (hl : t.builder.Linked q b)
    (hq : t.place q = none) (hf : b.heap.block q = some f) :
    Placed.Sound (({ t with builder := { b with addlen := (t.builder.addlen + (f.lens + f.value.num)) % 2 ^ 32 } } :
      Placed).put q .direct) := by
  have hlink := @Placed.Sound.link _ _ _ _ (t.loose q) hs hl hq hf
  have hextra : f.extra (t.loose q) = f.value.num := by
    obtain ⟨g, hg, hgf⟩ := hl.block hf
    unfold JsonNode.extra
    split
    · next c hc =>
      cases hloose : t.loose q with
      | true => rw [if_pos rfl, hc, NodeValue.num]
      | false =>
        rcases fixed_value hgf with he | ⟨d, d', he, -⟩
        · have hplace := hs.added q g c hg (he.symm.trans hc) hloose
          rw [hq] at hplace
          cases hplace
        · rw [hc] at he
          cases he
    · rfl
  rw [hextra] at hlink
  simpa only [Placed.link, Placed.put, Function.update_eq_self] using hlink

theorem Placed.Sound.pushPlain (hs : t.Sound) {f : JsonNode} (hf : f.Plain) (hsized : f.Sized t.builder.heap)
    {add : Bool} {b : Builder}
    (hb : (if add then (t.builder.alloc f).add t.builder.heap.fresh f.value.num else some (t.builder.alloc f)) =
      some b) : (t.make add b).Sound := by
  cases add with
  | true => exact hs.makeAdded hf hsized hb
  | false =>
    cases hb
    exact hs.makePlain hf hsized

theorem sized_string (h : Heap JsonNode) (key value : CStr) :
    JsonNode.Sized h ⟨key, key.length % 2 ^ 32, .string value, value.length % 2 ^ 32, none⟩ := by
  constructor
  · rfl
  · rintro s ⟨⟩
    rfl
  · rintro n ⟨⟩
  · rintro c ⟨⟩
  · rintro c ⟨⟩

theorem sized_inter (h : Heap JsonNode) (key : CStr) (value : ℤ) :
    JsonNode.Sized h ⟨key, key.length % 2 ^ 32, .inter value, (Printf.decimal value).length, none⟩ := by
  constructor
  · rfl
  · rintro s ⟨⟩
  · rintro n ⟨⟩
    rfl
  · rintro c ⟨⟩
  · rintro c ⟨⟩

theorem sized_list (h : Heap JsonNode) : JsonNode.Sized h ⟨[], 0, .list none, 0, none⟩ := by
  constructor
  · rfl
  · rintro s ⟨⟩
  · rintro n ⟨⟩
  · rintro c ⟨⟩
  · intro c _
    exact ⟨rfl, rfl⟩

theorem Placed.Sound.step (hs : t.Sound) {op : BuilderOp} (hop : t.once op) (h : t.step op = some t') : t'.Sound := by
  cases op with
  | createList add =>
    cases h
    exact hs.makePlain ⟨rfl, rfl, by simp⟩ (sized_list _)
  | pushString key value add =>
    obtain ⟨b, hb, rfl⟩ := Option.map_eq_some_iff.mp h
    exact hs.pushPlain ⟨rfl, rfl, by simp⟩ (sized_string _ key value) hb
  | pushInter key value add =>
    obtain ⟨b, hb, rfl⟩ := Option.map_eq_some_iff.mp h
    exact hs.pushPlain ⟨rfl, rfl, by simp⟩ (sized_inter _ key value) hb
  | pushNode key node add =>
    obtain ⟨b, hb, rfl⟩ := Option.map_eq_some_iff.mp h
    obtain ⟨g, hg, hb⟩ := Option.bind_eq_some_iff.mp hb
    obtain ⟨b₁, hadd, hb⟩ := Option.bind_eq_some_iff.mp hb
    cases hb
    cases add with
    | true => exact hs.makeNode hg hop hadd
    | false =>
      cases hadd
      exact hs.makeLoose hg hop
  | pushChild parent child =>
    obtain ⟨b, hb, rfl⟩ := Option.map_eq_some_iff.mp h
    obtain ⟨b₁, hhang, hb⟩ := Option.bind_eq_some_iff.mp hb
    obtain ⟨f, hf, hb⟩ := Option.bind_eq_some_iff.mp hb
    cases hb
    have hl := Builder.hang_linked hhang
    have ht := hs.hang hl hop hf
    simp only [Builder.count, mod_counts, hl.addlen]
    exact ht
  | pushTop node =>
    obtain ⟨b, hb, rfl⟩ := Option.map_eq_some_iff.mp h
    obtain ⟨g, hg, hb⟩ := Option.bind_eq_some_iff.mp hb
    obtain ⟨b₁, f, hl, hf, rfl⟩ := Builder.add_linked hs.curr_live hb
    have ht := hs.hang hl hop hf
    obtain ⟨g', hg', hgf⟩ := hl.block hf
    obtain rfl := Option.some.inj (hg.symm.trans hg')
    rw [fixed_num hgf] at ht
    exact ht

theorem Placed.sound_new : Placed.new.Sound := by
  constructor
  · constructor
    all_goals intros
    all_goals simp_all [Placed.new, Builder.new, Heap.empty, childOf, nextOf]
  all_goals simp_all [Placed.new, Builder.new, Heap.empty, nextOf, Placed.total]

theorem placed_sound (hr : Reach Placed.step Placed.once Placed.new t) : t.Sound :=
  hr.invariant Placed.sound_new (fun _ _ _ hs hop h => hs.step hop h)

theorem Placed.Sound.spans (hs : t.Sound) :
    ∃ s, Spans (childOf t.builder.heap) (nextOf t.builder.heap) t.builder.addhead s ∧ s.nodes.Nodup ∧
      (∀ p ∈ s.nodes, p < t.builder.heap.fresh) ∧ s.nodes.length < t.builder.heap.fresh + 1 := by
  obtain ⟨s, hspans, hnodup, hlt⟩ := hs.tied.spans
  refine ⟨s, hspans, hnodup, hlt, ?_⟩
  have hcard : s.nodes.length ≤ (List.range t.builder.heap.fresh).length := by
    apply List.Subperm.length_le
    apply hnodup.subperm
    intro p hp
    exact List.mem_range.mpr (hlt p hp)
  rw [List.length_range] at hcard
  omega

end

end FishServer
