import Mathlib

namespace OrderedSearch

variable {σ α β : Type*}

/-- Things that are asked for one after the other in the items of a state. What is not asked for changes the state. -/
structure Search (σ α β : Type*) where
  asks : β → Bool
  hit : β → α → Bool
  items : σ → List α
  grow : σ → β → σ

/-- Each thing that is asked for hits an item, and these items stand in the order in which they are asked for. -/
def InOrder (q : Search σ α β) : List β → σ → ℕ → Prop
  | [], _, _ => True
  | b :: bs, s, i =>
    if q.asks b = true then ∃ j a, i ≤ j ∧ (q.items s)[j]? = some a ∧ q.hit b a = true ∧ InOrder q bs s j
    else InOrder q bs (q.grow s b) i

def seek (q : Search σ α β) (b : β) (s : σ) (i : ℕ) : Option ℕ :=
  (((q.items s).drop i).findIdx? (q.hit b)).map (i + ·)

/-- A cursor that goes on to the next item that is hit, and never back. -/
def advance (q : Search σ α β) : List β → σ → ℕ → Option (σ × ℕ)
  | [], s, i => some (s, i)
  | b :: bs, s, i => if q.asks b = true then (seek q b s i).bind (advance q bs s) else advance q bs (q.grow s b) i

variable {q : Search σ α β} {b : β} {bs cs : List β} {s : σ} {i j : ℕ}

theorem seek_hits (h : seek q b s i = some j) : i ≤ j ∧ ∃ a, (q.items s)[j]? = some a ∧ q.hit b a = true := by
  obtain ⟨d, hd, rfl⟩ := Option.map_eq_some_iff.mp h
  obtain ⟨hlt, hhit, -⟩ := List.findIdx?_eq_some_iff_getElem.mp hd
  rw [List.length_drop] at hlt
  rw [List.getElem_drop] at hhit
  exact ⟨Nat.le_add_right i d, _, List.getElem?_eq_getElem (by omega), hhit⟩

theorem seek_first (h : seek q b s i = some j) {k : ℕ} {a : α} (hi : i ≤ k) (ha : (q.items s)[k]? = some a)
    (hit : q.hit b a = true) : j ≤ k := by
  obtain ⟨d, hd, rfl⟩ := Option.map_eq_some_iff.mp h
  obtain ⟨hlt, -, hbefore⟩ := List.findIdx?_eq_some_iff_getElem.mp hd
  obtain ⟨hk, rfl⟩ := List.getElem?_eq_some_iff.mp ha
  by_contra hless
  apply hbefore (k - i) (by omega)
  rw [List.getElem_drop]
  simpa only [Nat.add_sub_cancel' hi] using hit

theorem seek_none (h : seek q b s i = none) {k : ℕ} {a : α} (hi : i ≤ k) (ha : (q.items s)[k]? = some a) :
    q.hit b a = false := by
  have hnone := Option.map_eq_none_iff.mp h
  rw [List.findIdx?_eq_none_iff] at hnone
  apply hnone a
  apply List.mem_of_getElem? (i := k - i)
  rw [List.getElem?_drop, Nat.add_sub_cancel' hi, ha]

theorem InOrder.of_le (hle : i ≤ j) (h : InOrder q bs s j) : InOrder q bs s i := by
  induction bs generalizing s i j with
  | nil => trivial
  | cons b bs ih =>
    unfold InOrder at h ⊢
    split_ifs at h ⊢ with hasks
    · obtain ⟨k, a, hk, ha, hit, hrest⟩ := h
      exact ⟨k, a, hle.trans hk, ha, hit, hrest⟩
    · exact ih hle h

theorem inOrder_iff_advance : InOrder q bs s i ↔ (advance q bs s i).isSome = true := by
  induction bs generalizing s i with
  | nil => exact ⟨fun _ => rfl, fun _ => trivial⟩
  | cons b bs ih =>
    unfold InOrder advance
    split_ifs with hasks
    · cases hseek : seek q b s i with
      | none =>
        rw [Option.bind_none]
        refine iff_of_false ?_ Bool.false_ne_true
        rintro ⟨j, a, hj, ha, hit, -⟩
        rw [seek_none hseek hj ha] at hit
        cases hit
      | some k =>
        rw [Option.bind_some, ← ih]
        constructor
        · rintro ⟨j, a, hj, ha, hit, hrest⟩
          exact hrest.of_le (seek_first hseek hj ha hit)
        · intro hrest
          obtain ⟨hk, a, ha, hit⟩ := seek_hits hseek
          exact ⟨k, a, hk, ha, hit, hrest⟩
    · exact ih

theorem advance_append (bs cs : List β) (s : σ) (i : ℕ) :
    advance q (bs ++ cs) s i = (advance q bs s i).bind (fun r => advance q cs r.1 r.2) := by
  induction bs generalizing s i with
  | nil => rfl
  | cons b bs ih =>
    rw [List.cons_append, advance, advance]
    split_ifs with hasks
    · rw [Option.bind_assoc]
      congr 1
      funext j
      exact ih s j
    · exact ih (q.grow s b) i

theorem advance_grown {r : σ × ℕ} (h : advance q bs s i = some r) :
    r.1 = (bs.filter (fun b => !q.asks b)).foldl q.grow s := by
  induction bs generalizing s i with
  | nil =>
    cases h
    rfl
  | cons b bs ih =>
    rw [advance] at h
    split_ifs at h with hasks
    · obtain ⟨j, -, hrest⟩ := Option.bind_eq_some_iff.mp h
      rw [List.filter_cons_of_neg (by simp [hasks])]
      exact ih hrest
    · rw [List.filter_cons_of_pos (by simp [hasks]), List.foldl_cons]
      exact ih h

theorem InOrder.front (h : InOrder q (bs ++ cs) s i) : InOrder q bs s i := by
  rw [inOrder_iff_advance, advance_append] at h
  rw [inOrder_iff_advance]
  obtain ⟨r, hr⟩ := Option.isSome_iff_exists.mp h
  obtain ⟨r', hr', -⟩ := Option.bind_eq_some_iff.mp hr
  rw [hr']
  rfl

end OrderedSearch
