import Mathlib

namespace ListLoop

variable {σ α : Type*}

structure Loop (σ α : Type*) where
  rest : List α
  state : σ

/-- One turn of the loop. An item that is skipped stays in front, so the next turn meets it again. -/
def turn (skips : α → Bool) (visit : σ → α → σ) (l : Loop σ α) : Loop σ α :=
  match l.rest with
  | [] => l
  | a :: rest => if skips a then l else ⟨rest, visit l.state a⟩

def reached (skips : α → Bool) (n : ℕ) (l : List α) : List α := (l.takeWhile (fun a => !skips a)).take n

variable {skips : α → Bool} {visit : σ → α → σ}

theorem turn_iterate (n : ℕ) (l : List α) (s : σ) : (turn skips visit)^[n] ⟨l, s⟩ =
    ⟨l.drop (reached skips n l).length, (reached skips n l).foldl visit s⟩ := by
  induction n generalizing l s with
  | zero => simp [reached]
  | succ n ih =>
    rw [Function.iterate_succ_apply]
    cases l with
    | nil =>
      rw [show turn skips visit ⟨[], s⟩ = ⟨[], s⟩ from rfl, ih]
      simp [reached]
    | cons a l =>
      by_cases ha : skips a = true
      · have hstay : turn skips visit ⟨a :: l, s⟩ = ⟨a :: l, s⟩ := if_pos ha
        rw [hstay, ih]
        simp [reached, ha]
      · have hgo : turn skips visit ⟨a :: l, s⟩ = ⟨l, visit s a⟩ := if_neg ha
        rw [hgo, ih]
        simp [reached, ha]

theorem reached_all {l : List α} (h : ∀ a ∈ l, skips a = false) {n : ℕ} (hn : l.length ≤ n) :
    reached skips n l = l := by
  have ht : l.takeWhile (fun a => !skips a) = l := by
    apply List.takeWhile_eq_self_iff.mpr
    intro a ha
    rw [h a ha]
    rfl
  rw [reached, ht, List.take_of_length_le hn]

theorem halts_iff (l : List α) (s : σ) :
    (∃ n, ((turn skips visit)^[n] ⟨l, s⟩).rest = []) ↔ ∀ a ∈ l, skips a = false := by
  constructor
  · rintro ⟨n, hn⟩ a ha
    rw [turn_iterate, List.drop_eq_nil_iff] at hn
    have hle : (reached skips n l).length ≤ (l.takeWhile (fun a => !skips a)).length := List.length_take_le' _ _
    have htake : l.takeWhile (fun a => !skips a) = l :=
      (List.takeWhile_prefix _).eq_of_length_le (hn.trans hle)
    rw [← htake] at ha
    simpa using List.mem_takeWhile_imp ha
  · intro h
    refine ⟨l.length, ?_⟩
    rw [turn_iterate, reached_all h le_rfl, List.drop_length]

end ListLoop
