import Mathlib

namespace BubbleSort

section

variable {α β : Type*} [LinearOrder β] {key : α → β}

/-- One pass. The larger of two neighbours is taken on to the next one. -/
def pass (key : α → β) : List α → List α
  | [] => []
  | [x] => [x]
  | x :: y :: l => if key y < key x then y :: pass key (x :: l) else x :: pass key (y :: l)

theorem pass_perm (l : List α) : (pass key l).Perm l := by
  fun_induction pass key l with
  | case1 => exact .refl _
  | case2 => exact .refl _
  | case3 x y l _ ih => exact (ih.cons y).trans (.swap x y l)
  | case4 x y l _ ih => exact ih.cons x

theorem pass_filter (k : β) (l : List α) :
    (pass key l).filter (fun x => decide (key x = k)) = l.filter (fun x => decide (key x = k)) := by
  fun_induction pass key l with
  | case1 => rfl
  | case2 => rfl
  | case3 x y l h ih =>
    rw [List.filter_cons, ih]
    by_cases hy : key y = k
    · have hx : key x ≠ k := fun hx => absurd h (by rw [hx, hy]; exact lt_irrefl k)
      simp [hx, hy]
    · simp [List.filter_cons, hy]
  | case4 x y l _ ih => simp only [List.filter_cons, ih]

theorem pass_last (x : α) (l : List α) :
    ∃ init m, pass key (x :: l) = init ++ [m] ∧ ∀ z ∈ x :: l, key z ≤ key m := by
  induction l generalizing x with
  | nil =>
    refine ⟨[], x, by rw [pass, List.nil_append], ?_⟩
    intro z hz
    rw [List.mem_singleton.mp hz]
  | cons y l ih =>
    by_cases h : key y < key x
    · obtain ⟨init, m, hpass, hm⟩ := ih x
      refine ⟨y :: init, m, by rw [pass, if_pos h, hpass, List.cons_append], ?_⟩
      intro z hz
      rcases List.mem_cons.mp hz with rfl | hz
      · exact hm z List.mem_cons_self
      rcases List.mem_cons.mp hz with rfl | hz
      · exact h.le.trans (hm x List.mem_cons_self)
      · exact hm z (List.mem_cons_of_mem x hz)
    · obtain ⟨init, m, hpass, hm⟩ := ih y
      refine ⟨x :: init, m, by rw [pass, if_neg h, hpass, List.cons_append], ?_⟩
      intro z hz
      rcases List.mem_cons.mp hz with rfl | hz
      · exact (not_lt.mp h).trans (hm y List.mem_cons_self)
      · exact hm z hz

theorem pass_concat {m : α} {l : List α} (h : ∀ z ∈ l, key z ≤ key m) : pass key (l ++ [m]) = pass key l ++ [m] := by
  fun_induction pass key l with
  | case1 => rw [List.nil_append, pass]
  | case2 x =>
    have hx : ¬key m < key x := not_lt.mpr (h x List.mem_cons_self)
    rw [List.singleton_append, pass, if_neg hx, pass]
  | case3 x y l hlt ih =>
    have hrest := ih (fun z hz => by
      rcases List.mem_cons.mp hz with rfl | hz
      · exact h z List.mem_cons_self
      · exact h z (List.mem_cons_of_mem x (List.mem_cons_of_mem y hz)))
    rw [List.cons_append, List.cons_append, pass, if_pos hlt, ← List.cons_append, hrest, List.cons_append]
  | case4 x y l hlt ih =>
    have hrest := ih (fun z hz => h z (List.mem_cons_of_mem x hz))
    rw [List.cons_append, List.cons_append, pass, if_neg hlt, ← List.cons_append, hrest, List.cons_append]

theorem passes_perm (n : ℕ) (l : List α) : ((pass key)^[n] l).Perm l := by
  induction n generalizing l with
  | zero => exact .refl l
  | succ n ih => exact (ih (pass key l)).trans (pass_perm l)

theorem passes_filter (n : ℕ) (k : β) (l : List α) :
    ((pass key)^[n] l).filter (fun x => decide (key x = k)) = l.filter (fun x => decide (key x = k)) := by
  induction n generalizing l with
  | zero => rfl
  | succ n ih => exact (ih (pass key l)).trans (pass_filter k l)

theorem passes_concat {m : α} (n : ℕ) {l : List α} (h : ∀ z ∈ l, key z ≤ key m) :
    (pass key)^[n] (l ++ [m]) = (pass key)^[n] l ++ [m] := by
  induction n generalizing l with
  | zero => rfl
  | succ n ih =>
    rw [Function.iterate_succ_apply, pass_concat h, ih, ← Function.iterate_succ_apply]
    exact fun z hz => h z ((pass_perm l).mem_iff.mp hz)

theorem passes_sorted {n : ℕ} {l : List α} (hn : l.length ≤ n + 1) :
    ((pass key)^[n] l).Pairwise (fun x y => key x ≤ key y) := by
  induction n generalizing l with
  | zero =>
    match l, hn with
    | [], _ => exact List.Pairwise.nil
    | [x], _ => exact List.pairwise_singleton _ x
  | succ n ih =>
    cases l with
    | nil =>
      have hnil := (@passes_perm α β _ key (n + 1) []).eq_nil
      rw [hnil]
      exact List.Pairwise.nil
    | cons x l =>
      obtain ⟨init, m, hpass, hm⟩ := @pass_last α β _ key x l
      have hperm : (init ++ [m]).Perm (x :: l) := hpass ▸ pass_perm (x :: l)
      have hinit : ∀ z ∈ init, key z ≤ key m := fun z hz => hm z (hperm.mem_iff.mp (List.mem_append_left _ hz))
      have hlen : init.length ≤ n + 1 := by
        have hl := hperm.length_eq
        rw [List.length_append, List.length_singleton] at hl
        omega
      rw [Function.iterate_succ_apply, hpass, passes_concat n hinit, List.pairwise_append]
      refine ⟨ih hlen, List.pairwise_singleton _ m, ?_⟩
      intro y hy z hz
      rw [List.mem_singleton.mp hz]
      exact hinit y ((passes_perm n init).mem_iff.mp hy)

end

end BubbleSort
