import Mathlib

namespace Interleave

variable {ι α β : Type*} [DecidableEq ι]

/-- The list takes its elements from the senders, from each in its order, until all are used up. -/
inductive Interleaves : (ι → List α) → List α → Prop
  | nil {s : ι → List α} : (∀ i, s i = []) → Interleaves s []
  | cons {s : ι → List α} {i : ι} {a : α} {rest l : List α} : s i = a :: rest →
      Interleaves (Function.update s i rest) l → Interleaves s (a :: l)

theorem nil_iff {s : ι → List α} : Interleaves s [] ↔ ∀ i, s i = [] := by
  constructor
  · rintro ⟨h⟩
    assumption
  · exact .nil

theorem cons_iff {s : ι → List α} {a : α} {l : List α} : Interleaves s (a :: l) ↔
    ∃ i rest, s i = a :: rest ∧ Interleaves (Function.update s i rest) l := by
  constructor
  · intro h
    cases h with
    | cons hi hl => exact ⟨_, _, hi, hl⟩
  · rintro ⟨i, rest, hi, hl⟩
    exact .cons hi hl

theorem update_apply (f : List α → List β) (s : ι → List α) (i : ι) (rest : List α) :
    (fun j => f (Function.update s i rest j)) = Function.update (fun j => f (s j)) i (f rest) := by
  funext j
  by_cases hj : j = i
  · subst hj
    simp
  · simp [Function.update_of_ne hj]

theorem Interleaves.map (f : α → β) {s : ι → List α} {l : List α} (h : Interleaves s l) :
    Interleaves (fun i => (s i).map f) (l.map f) := by
  induction h with
  | nil h => exact .nil (fun i => by rw [h i, List.map_nil])
  | @cons s i a rest l hi hl ih =>
    rw [update_apply (fun l => l.map f)] at ih
    exact .cons (by rw [hi, List.map_cons]) ih

theorem Interleaves.of_map {f : α → β} {s : ι → List α} {k : List β} (h : Interleaves (fun i => (s i).map f) k) :
    ∃ l, Interleaves s l ∧ l.map f = k := by
  induction k generalizing s with
  | nil =>
    refine ⟨[], .nil ?_, rfl⟩
    intro i
    exact List.map_eq_nil_iff.mp (nil_iff.mp h i)
  | cons b k ih =>
    obtain ⟨i, rest, hi, hk⟩ := cons_iff.mp h
    obtain ⟨a, l, hs, rfl, rfl⟩ := List.map_eq_cons_iff.mp hi
    rw [← update_apply (fun l => l.map f)] at hk
    obtain ⟨m, hm, rfl⟩ := ih hk
    exact ⟨a :: m, .cons hs hm, rfl⟩

theorem Interleaves.mem {s : ι → List α} {l : List α} (h : Interleaves s l) : ∀ a ∈ l, ∃ i, a ∈ s i := by
  induction h with
  | nil => simp
  | @cons s i a rest l hi _ ih =>
    refine List.forall_mem_cons.mpr ⟨⟨i, hi ▸ List.mem_cons_self⟩, ?_⟩
    intro b hb
    obtain ⟨j, hj⟩ := ih b hb
    by_cases hij : j = i
    · subst hij
      rw [Function.update_self] at hj
      exact ⟨j, hi ▸ List.mem_cons_of_mem a hj⟩
    · rw [Function.update_of_ne hij] at hj
      exact ⟨j, hj⟩

end Interleave
