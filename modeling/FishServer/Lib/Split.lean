import Mathlib

namespace Split

variable {α : Type*}

/-- The split of a list at the leftmost places of `d` that do not overlap. -/
inductive Leftmost (d : List α) : List α → List (List α) → Prop
  | last {s : List α} : (∀ j ≤ s.length, ¬d <+: s.drop j) → Leftmost d s [s]
  | piece {p s : List α} {ps : List (List α)} : (∀ j < p.length, ¬d <+: (p ++ (d ++ s)).drop j) →
      Leftmost d s ps → Leftmost d (p ++ (d ++ s)) (p :: ps)

theorem append_unique {d p q s t : List α} (he : p ++ (d ++ s) = q ++ (d ++ t))
    (hp : ∀ j < p.length, ¬d <+: (p ++ (d ++ s)).drop j) (hq : ∀ j < q.length, ¬d <+: (q ++ (d ++ t)).drop j) :
    p = q ∧ s = t := by
  have hlen : p.length = q.length := by
    rcases Nat.lt_trichotomy p.length q.length with h | h | h
    · exact absurd (by rw [← he, List.drop_left]; exact List.prefix_append d s) (hq p.length h)
    · exact h
    · exact absurd (by rw [he, List.drop_left]; exact List.prefix_append d t) (hp q.length h)
  obtain ⟨rfl, hrest⟩ := List.append_inj he hlen
  exact ⟨rfl, List.append_cancel_left hrest⟩

theorem Leftmost.unique {d s : List α} {ps qs : List (List α)} (h : Leftmost d s ps) (h' : Leftmost d s qs) :
    ps = qs := by
  induction h generalizing qs with
  | last hno =>
    cases h' with
    | last _ => rfl
    | @piece p t ps _ _ =>
      have hj := hno p.length (by simp)
      rw [List.drop_left] at hj
      exact absurd (List.prefix_append d t) hj
  | @piece p s ps hp _ ih =>
    generalize hs : p ++ (d ++ s) = s' at h'
    cases h' with
    | last hno =>
      subst hs
      have hj := hno p.length (by simp)
      rw [List.drop_left] at hj
      exact absurd (List.prefix_append d s) hj
    | @piece q t qs hq hqs =>
      obtain ⟨rfl, rfl⟩ := append_unique hs hp hq
      rw [ih hqs]

section

variable [DecidableEq α]

/-- The pieces of `s`, the first of which begins with `piece`. `skip` elements belong to the `d` that was found. -/
def splitFrom (d : List α) : ℕ → List α → List α → List (List α)
  | _, piece, [] => [piece]
  | k + 1, piece, _ :: s => splitFrom d k piece s
  | 0, piece, a :: s =>
    if d.isPrefixOf (a :: s) then piece :: splitFrom d (d.length - 1) [] s else splitFrom d 0 (piece ++ [a]) s

theorem splitFrom_skip (d x s piece : List α) : splitFrom d x.length piece (x ++ s) = splitFrom d 0 piece s := by
  induction x with
  | nil => rfl
  | cons a x ih => exact ih

theorem splitFrom_found {d : List α} (hd : d ≠ []) (piece s : List α) :
    splitFrom d 0 piece (d ++ s) = piece :: splitFrom d 0 [] s := by
  obtain ⟨a, d, rfl⟩ := List.exists_cons_of_ne_nil hd
  have hprefix : (a :: d).isPrefixOf (a :: (d ++ s)) = true :=
    List.isPrefixOf_iff_prefix.mpr (List.prefix_append (a :: d) s)
  rw [List.cons_append, splitFrom, if_pos hprefix, List.length_cons, Nat.add_sub_cancel, splitFrom_skip]

theorem splitFrom_passed {d x s : List α} (piece : List α)
    (h : ∀ j < x.length, ¬d <+: (x ++ s).drop j) : splitFrom d 0 piece (x ++ s) = splitFrom d 0 (piece ++ x) s := by
  induction x generalizing piece with
  | nil => rw [List.nil_append, List.append_nil]
  | cons a x ih =>
    have hnot : ¬d.isPrefixOf (a :: (x ++ s)) = true := by
      rw [List.isPrefixOf_iff_prefix]
      exact h 0 (Nat.zero_lt_succ _)
    rw [List.cons_append, splitFrom, if_neg hnot, ih, List.append_assoc, List.singleton_append]
    intro j hj
    exact h (j + 1) (Nat.succ_lt_succ hj)

theorem splitFrom_early {d : List α} (hd : d ≠ []) {s piece : List α} {j : ℕ} (h : d <+: s.drop j) :
    ∃ k ≤ j, ∃ ps, splitFrom d 0 piece s = (piece ++ s.take k) :: ps := by
  induction s generalizing piece j with
  | nil =>
    rw [List.drop_nil] at h
    exact absurd (List.prefix_nil.mp h) hd
  | cons a s ih =>
    by_cases hprefix : d <+: a :: s
    · obtain ⟨rest, hrest⟩ := hprefix
      refine ⟨0, Nat.zero_le j, splitFrom d 0 [] rest, ?_⟩
      rw [← hrest, splitFrom_found hd, List.take_zero, List.append_nil]
    · cases j with
      | zero => exact absurd h hprefix
      | succ j =>
        obtain ⟨k, hk, ps, hps⟩ := @ih (piece ++ [a]) j h
        refine ⟨k + 1, Nat.succ_le_succ hk, ps, ?_⟩
        have hnot : ¬d.isPrefixOf (a :: s) = true := by
          rw [List.isPrefixOf_iff_prefix]
          exact hprefix
        rw [splitFrom, if_neg hnot, hps, List.append_assoc, List.singleton_append, List.take_succ_cons]

theorem splitFrom_leftmost {d : List α} (hd : d ≠ []) {n : ℕ} {piece s : List α} (hn : s.length ≤ n)
    (h : ∀ j < piece.length, ¬d <+: (piece ++ s).drop j) :
    Leftmost d (piece ++ s) (splitFrom d 0 piece s) := by
  induction n generalizing piece s with
  | zero =>
    obtain rfl := List.length_eq_zero_iff.mp (Nat.le_zero.mp hn)
    rw [List.append_nil] at h ⊢
    refine .last ?_
    intro j hj hprefix
    rcases Nat.lt_or_eq_of_le hj with hlt | rfl
    · exact h j hlt hprefix
    · rw [List.drop_length] at hprefix
      exact hd (List.prefix_nil.mp hprefix)
  | succ n ih =>
    by_cases hprefix : d <+: s
    · obtain ⟨rest, rfl⟩ := hprefix
      rw [splitFrom_found hd]
      rw [List.length_append] at hn
      have hpos := List.length_pos_iff.mpr hd
      exact .piece h (@ih [] rest (by omega) (fun j hj => absurd hj (Nat.not_lt_zero j)))
    · cases s with
      | nil => exact ih (Nat.zero_le n) h
      | cons a s =>
        rw [← List.singleton_append, splitFrom_passed piece (x := [a]), ← List.append_assoc]
        · apply ih (Nat.le_of_succ_le_succ hn)
          intro j hj
          rw [List.append_assoc, List.singleton_append]
          rw [List.length_append, List.length_singleton] at hj
          rcases Nat.lt_or_eq_of_le (Nat.le_of_lt_succ hj) with hlt | rfl
          · exact h j hlt
          · rw [List.drop_left]
            exact hprefix
        · intro j hj
          obtain rfl := Nat.lt_one_iff.mp hj
          exact hprefix

def split (d s : List α) : List (List α) := splitFrom d 0 [] s

theorem split_leftmost {d : List α} (hd : d ≠ []) (s : List α) : Leftmost d s (split d s) :=
  @splitFrom_leftmost α _ d hd s.length [] s (le_refl s.length) (fun j hj => absurd hj (Nat.not_lt_zero j))

end

end Split
