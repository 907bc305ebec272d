import Mathlib

/-! Nodes with a pointer to a first child and a pointer to a next sibling, at most one pointer to each. -/

namespace LinkTree

/-- The nodes in the order of a walk: a node, what is below it, and its siblings. -/
inductive Shape
  | nil
  | node (p : ℕ) (child next : Shape)

def Shape.nodes : Shape → List ℕ
  | .nil => []
  | .node p child next => p :: (child.nodes ++ next.nodes)

inductive Spans (child next : ℕ → Option ℕ) : Option ℕ → Shape → Prop
  | nil : Spans child next none .nil
  | node {p : ℕ} {c n : Shape} : Spans child next (child p) c → Spans child next (next p) n →
    Spans child next (some p) (.node p c n)

theorem Shape.sum_nodes (f : ℕ → ℕ) (p : ℕ) (child next : Shape) :
    ((Shape.node p child next).nodes.map f).sum =
      f p + ((child.nodes.map f).sum + (next.nodes.map f).sum) := by
  rw [Shape.nodes, List.map_cons, List.sum_cons, List.map_append, List.sum_append]

/-- The same nodes by following the pointers; none is a walk of more than `n` levels. -/
def walk (child next : ℕ → Option ℕ) : ℕ → Option ℕ → Option (List ℕ)
  | 0, _ => none
  | _ + 1, none => some []
  | n + 1, some p => do
    let below ← walk child next n (child p)
    let after ← walk child next n (next p)
    some (p :: (below ++ after))

def Parent (child next : ℕ → Option ℕ) (w z : ℕ) : Prop := child w = some z ∨ next w = some z

/-- No node has two pointers to it, and the pointers lead to the nodes below `bound`. -/
structure Tied (child next : ℕ → Option ℕ) (root : Option ℕ) (bound : ℕ) : Prop where
  child_inj : ∀ p p' q, child p = some q → child p' = some q → p = p'
  next_inj : ∀ p p' q, next p = some q → next p' = some q → p = p'
  apart : ∀ p p' q, child p = some q → next p' ≠ some q
  root_child : ∀ p q, root = some q → child p ≠ some q
  root_next : ∀ p q, root = some q → next p ≠ some q
  child_bound : ∀ p q, child p = some q → q < bound
  next_bound : ∀ p q, next p = some q → q < bound
  root_bound : ∀ q, root = some q → q < bound

structure Untied (child next : ℕ → Option ℕ) (root : Option ℕ) (q : ℕ) : Prop where
  child : ∀ p, child p ≠ some q
  next : ∀ p, next p ≠ some q
  root : root ≠ some q

inductive Depth (child next : ℕ → Option ℕ) (root : Option ℕ) : ℕ → ℕ → Prop
  | root {r : ℕ} : root = some r → Depth child next root 0 r
  | step {d w z : ℕ} : Depth child next root d w → Parent child next w z → Depth child next root (d + 1) z

variable {child next : ℕ → Option ℕ} {root : Option ℕ} {bound : ℕ}

theorem update_cases {α : ℕ → Option ℕ} {p q w z : ℕ} (h : Function.update α p (some q) w = some z) :
    w = p ∧ z = q ∨ α w = some z := by
  by_cases hp : w = p
  · subst hp
    rw [Function.update_self] at h
    exact .inl ⟨rfl, (Option.some.inj h).symm⟩
  · rw [Function.update_of_ne hp] at h
    exact .inr h

theorem Spans.of_none {t : Shape} (h : Spans child next none t) : t = .nil := by
  cases h
  rfl

theorem Spans.of_some {p : ℕ} {t : Shape} (h : Spans child next (some p) t) : ∃ c n, t = .node p c n := by
  cases h
  exact ⟨_, _, rfl⟩

theorem Spans.walk {p : Option ℕ} {t : Shape} (h : Spans child next p t) {n : ℕ}
    (hn : t.nodes.length < n) : walk child next n p = some t.nodes := by
  induction h generalizing n with
  | nil =>
    obtain ⟨n, rfl⟩ := Nat.exists_eq_add_one.mpr hn
    rfl
  | @node p c s _ _ ihc ihn =>
    obtain ⟨n, rfl⟩ := Nat.exists_eq_add_one.mpr (Nat.zero_lt_of_lt hn)
    rw [Shape.nodes, List.length_cons, List.length_append] at hn
    rw [LinkTree.walk, ihc (by omega), ihn (by omega)]
    rfl

section

variable (h : Tied child next root bound)

include h

theorem Tied.mono {bound' : ℕ} (hb : bound ≤ bound') : Tied child next root bound' where
  child_inj := h.child_inj
  next_inj := h.next_inj
  apart := h.apart
  root_child := h.root_child
  root_next := h.root_next
  child_bound p q hp := (h.child_bound p q hp).trans_le hb
  next_bound p q hp := (h.next_bound p q hp).trans_le hb
  root_bound q hq := (h.root_bound q hq).trans_le hb

theorem Tied.swap : Tied next child root bound where
  child_inj := h.next_inj
  next_inj := h.child_inj
  apart p p' q hp hp' := h.apart p' p q hp' hp
  root_child := h.root_next
  root_next := h.root_child
  child_bound := h.next_bound
  next_bound := h.child_bound
  root_bound := h.root_bound

omit h in
theorem Untied.swap {q : ℕ} (hq : Untied child next root q) : Untied next child root q :=
  ⟨hq.next, hq.child, hq.root⟩

theorem Tied.set_child {q : ℕ} (hq : Untied child next root q) (hb : q < bound) (p : ℕ) :
    Tied (Function.update child p (some q)) next root bound := by
  constructor
  · intro w w' z hw hw'
    rcases update_cases hw with ⟨rfl, rfl⟩ | hc <;> rcases update_cases hw' with ⟨rfl, hz⟩ | hc'
    · rfl
    · exact absurd hc' (hq.child w')
    · subst hz
      exact absurd hc (hq.child w)
    · exact h.child_inj w w' z hc hc'
  · exact h.next_inj
  · intro w w' z hw
    rcases update_cases hw with ⟨rfl, rfl⟩ | hw
    · exact hq.next w'
    · exact h.apart w w' z hw
  · intro w z hz hw
    rcases update_cases hw with ⟨rfl, rfl⟩ | hw
    · exact hq.root hz
    · exact h.root_child w z hz hw
  · exact h.root_next
  · intro w z hw
    rcases update_cases hw with ⟨rfl, rfl⟩ | hw
    · exact hb
    · exact h.child_bound w z hw
  · exact h.next_bound
  · exact h.root_bound

theorem Tied.set_next {q : ℕ} (hq : Untied child next root q) (hb : q < bound) (p : ℕ) :
    Tied child (Function.update next p (some q)) root bound :=
  (h.swap.set_child hq.swap hb p).swap

theorem Tied.set_root {q : ℕ} (hq : Untied child next root q) (hb : q < bound) :
    Tied child next (some q) bound := by
  constructor
  · exact h.child_inj
  · exact h.next_inj
  · exact h.apart
  · rintro w z ⟨⟩
    exact hq.child w
  · rintro w z ⟨⟩
    exact hq.next w
  · exact h.child_bound
  · exact h.next_bound
  · rintro z ⟨⟩
    exact hb

theorem Tied.parent_unique {w w' z : ℕ} (hw : Parent child next w z) (hw' : Parent child next w' z) :
    w = w' := by
  rcases hw with hw | hw <;> rcases hw' with hw' | hw'
  · exact h.child_inj _ _ _ hw hw'
  · exact absurd hw' (h.apart _ _ _ hw)
  · exact absurd hw (h.apart _ _ _ hw')
  · exact h.next_inj _ _ _ hw hw'

theorem Tied.root_no_parent {r w : ℕ} (hr : root = some r) : ¬Parent child next w r := by
  rintro (hw | hw)
  · exact h.root_child w r hr hw
  · exact h.root_next w r hr hw

theorem Tied.depth_unique {d d' z : ℕ} (hz : Depth child next root d z) (hz' : Depth child next root d' z) :
    d = d' := by
  induction hz generalizing d' with
  | root hr =>
    cases hz' with
    | root => rfl
    | step _ hp => exact absurd hp (h.root_no_parent hr)
  | step _ hp ih =>
    cases hz' with
    | root hr => exact absurd hp (h.root_no_parent hr)
    | step hw hp' =>
      obtain rfl := h.parent_unique hp hp'
      rw [ih hw]

theorem Tied.depth_bound {d z : ℕ} (hz : Depth child next root d z) : z < bound := by
  cases hz with
  | root hr => exact h.root_bound z hr
  | step _ hp =>
    rcases hp with hp | hp
    · exact h.child_bound _ _ hp
    · exact h.next_bound _ _ hp

omit h in
theorem depth_above {d z : ℕ} (hz : Depth child next root d z) :
    ∀ e ≤ d, ∃ w, Depth child next root e w := by
  induction hz with
  | @root r hr =>
    intro e he
    obtain rfl := Nat.le_zero.mp he
    exact ⟨r, .root hr⟩
  | @step d w z hw hp ih =>
    intro e he
    by_cases hd : e = d + 1
    · subst hd
      exact ⟨z, .step hw hp⟩
    · exact ih e (by omega)

theorem Tied.depth_lt {d z : ℕ} (hz : Depth child next root d z) : d < bound := by
  choose! f hf using depth_above hz
  have hcard : (Finset.range (d + 1)).card ≤ (Finset.range bound).card := by
    apply Finset.card_le_card_of_injOn f
    · intro e he
      have he := Finset.mem_range.mp he
      exact Finset.mem_coe.mpr (Finset.mem_range.mpr (h.depth_bound (hf e (by omega))))
    · intro e he e' he' hef
      have he := Finset.mem_range.mp he
      have he' := Finset.mem_range.mp he'
      have hd := hf e' (by omega)
      rw [← hef] at hd
      exact h.depth_unique (hf e (by omega)) hd
  simpa using hcard

theorem Tied.spans_below (m d z : ℕ) (hz : Depth child next root d z) (hm : bound ≤ d + m) :
    ∃ t, Spans child next (some z) t := by
  induction m generalizing d z with
  | zero => exact absurd (h.depth_lt hz) (by omega)
  | succ m ih =>
    have hlink : ∀ p : Option ℕ, (∀ q, p = some q → Parent child next z q) → ∃ t, Spans child next p t := by
      intro p hp
      cases p with
      | none => exact ⟨.nil, .nil⟩
      | some q => exact ih (d + 1) q (.step hz (hp q rfl)) (by omega)
    obtain ⟨c, hc⟩ := hlink (child z) (fun q hq => .inl hq)
    obtain ⟨n, hn⟩ := hlink (next z) (fun q hq => .inr hq)
    exact ⟨.node z c n, .node hc hn⟩

omit h in
theorem depth_below {d y z : ℕ} (hy : Depth child next root d y)
    (hz : Relation.ReflTransGen (Parent child next) y z) :
    z = y ∨ ∃ e, d < e ∧ Depth child next root e z := by
  induction hz with
  | refl => exact .inl rfl
  | tail _ hp ih =>
    right
    rcases ih with rfl | ⟨e, he, hw⟩
    · exact ⟨d + 1, Nat.lt_succ_self d, .step hy hp⟩
    · exact ⟨e + 1, Nat.lt_succ_of_lt he, .step hw hp⟩

theorem Tied.below_unique {d y y' z : ℕ} (hy : Depth child next root d y) (hy' : Depth child next root d y')
    (hz : Relation.ReflTransGen (Parent child next) y z)
    (hz' : Relation.ReflTransGen (Parent child next) y' z) : y = y' := by
  induction hz with
  | refl =>
    rcases depth_below hy' hz' with he | ⟨e, he, hd⟩
    · exact he
    · exact absurd (h.depth_unique hy hd) (by omega)
  | @tail w z hw hp ih =>
    rcases Relation.ReflTransGen.cases_tail hz' with he | ⟨w', hw', hp'⟩
    · subst he
      rcases depth_below hy hw with rfl | ⟨e, he, hd⟩
      · exact absurd (h.depth_unique hy' (.step hy hp)) (by omega)
      · exact absurd (h.depth_unique hy' (.step hd hp)) (by omega)
    · obtain rfl := h.parent_unique hp hp'
      exact ih hw'

omit h in
theorem Spans.nodes_below {p : Option ℕ} {t : Shape} (hs : Spans child next p t) :
    ∀ z ∈ t.nodes, ∃ y, p = some y ∧ Relation.ReflTransGen (Parent child next) y z := by
  induction hs with
  | nil =>
    intro z hz
    cases hz
  | @node p c n _ _ ihc ihn =>
    intro z hz
    refine ⟨p, rfl, ?_⟩
    rcases List.mem_cons.mp hz with rfl | hz
    · exact .refl
    rcases List.mem_append.mp hz with hz | hz
    · obtain ⟨y, hy, hb⟩ := ihc z hz
      exact Relation.ReflTransGen.head (.inl hy) hb
    · obtain ⟨y, hy, hb⟩ := ihn z hz
      exact Relation.ReflTransGen.head (.inr hy) hb

theorem Tied.nodup {p : Option ℕ} {t : Shape} (hs : Spans child next p t) {d : ℕ}
    (hd : ∀ q, p = some q → Depth child next root d q) : t.nodes.Nodup := by
  induction hs generalizing d with
  | nil => exact List.nodup_nil
  | @node p c n hc hn ihc ihn =>
    have hp := hd p rfl
    have hdc : ∀ q, child p = some q → Depth child next root (d + 1) q := fun q hq => .step hp (.inl hq)
    have hdn : ∀ q, next p = some q → Depth child next root (d + 1) q := fun q hq => .step hp (.inr hq)
    have hself : ∀ y, Depth child next root (d + 1) y →
        ¬Relation.ReflTransGen (Parent child next) y p := by
      intro y hy hb
      rcases depth_below hy hb with rfl | ⟨e, he, hde⟩
      · exact absurd (h.depth_unique hp hy) (by omega)
      · exact absurd (h.depth_unique hp hde) (by omega)
    rw [Shape.nodes, List.nodup_cons, List.nodup_append, List.mem_append]
    refine ⟨?_, ihc hdc, ihn hdn, ?_⟩
    · rintro (hm | hm)
      · obtain ⟨y, hy, hb⟩ := hc.nodes_below p hm
        exact hself y (hdc y hy) hb
      · obtain ⟨y, hy, hb⟩ := hn.nodes_below p hm
        exact hself y (hdn y hy) hb
    · rintro z hz z' hz' rfl
      obtain ⟨y, hy, hb⟩ := hc.nodes_below z hz
      obtain ⟨y', hy', hb'⟩ := hn.nodes_below z hz'
      obtain rfl := h.below_unique (hdc y hy) (hdn y' hy') hb hb'
      exact h.apart p p y hy hy'

theorem Tied.nodes_bound {p : Option ℕ} {t : Shape} (hs : Spans child next p t)
    (hp : ∀ q, p = some q → q < bound) : ∀ z ∈ t.nodes, z < bound := by
  induction hs with
  | nil =>
    intro z hz
    cases hz
  | @node p c n hc hn ihc ihn =>
    intro z hz
    rcases List.mem_cons.mp hz with rfl | hz
    · exact hp z rfl
    rcases List.mem_append.mp hz with hz | hz
    · exact ihc (fun q hq => h.child_bound p q hq) z hz
    · exact ihn (fun q hq => h.next_bound p q hq) z hz

theorem Tied.spans : ∃ t, Spans child next root t ∧ t.nodes.Nodup ∧ ∀ z ∈ t.nodes, z < bound := by
  have hroot : ∃ t, Spans child next root t := by
    cases hr : root with
    | none => exact ⟨.nil, .nil⟩
    | some r => exact h.spans_below bound 0 r (.root hr) (by omega)
  obtain ⟨t, ht⟩ := hroot
  exact ⟨t, ht, h.nodup ht (fun q hq => .root hq), h.nodes_bound ht h.root_bound⟩

end

end LinkTree
