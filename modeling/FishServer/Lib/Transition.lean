import Mathlib

namespace Transition

variable {σ α : Type*}

/-- The states reached from `s₀` by steps whose state and label satisfy `ok`. -/
inductive Reach (step : σ → α → Option σ) (ok : σ → α → Prop) (s₀ : σ) : σ → Prop
  | start : Reach step ok s₀ s₀
  | step {s t : σ} {a : α} : Reach step ok s₀ s → ok s a → step s a = some t → Reach step ok s₀ t

variable {step : σ → α → Option σ} {ok ok' : σ → α → Prop} {s₀ s t : σ}

theorem Reach.invariant {P : σ → Prop} (h : Reach step ok s₀ s) (hstart : P s₀)
    (hstep : ∀ s a t, P s → ok s a → step s a = some t → P t) : P s := by
  induction h with
  | start => exact hstart
  | step _ hok ht ih => exact hstep _ _ _ ih hok ht

theorem Reach.mono (h : Reach step ok s₀ s) (hok : ∀ s a, ok s a → ok' s a) :
    Reach step ok' s₀ s := by
  induction h with
  | start => exact .start
  | step _ ha ht ih => exact .step ih (hok _ _ ha) ht

theorem Reach.trans (h : Reach step ok s₀ s) (h' : Reach step ok s t) : Reach step ok s₀ t := by
  induction h' with
  | start => exact h
  | step _ ha ht ih => exact .step ih ha ht

theorem Reach.map {τ β : Type*} {step' : τ → β → Option τ} {okt : τ → β → Prop} (f : σ → τ)
    (g : σ → α → β)
    (hstep : ∀ s a t, ok s a → step s a = some t → okt (f s) (g s a) ∧ step' (f s) (g s a) = some (f t))
    (h : Reach step ok s₀ s) : Reach step' okt (f s₀) (f s) := by
  induction h with
  | start => exact .start
  | step _ ha ht ih =>
    obtain ⟨hok, hs⟩ := hstep _ _ _ ha ht
    exact .step ih hok hs

def runIf (step : σ → α → Option σ) (test : σ → α → Bool) (s : σ) : List α → Option σ
  | [] => some s
  | a :: l => if test s a then (step s a).bind (fun t => runIf step test t l) else none

theorem runIf_mono {test test' : σ → α → Bool} (ht : ∀ s a, test s a = true → test' s a = true) {l : List α}
    (h : runIf step test s₀ l = some s) : runIf step test' s₀ l = some s := by
  induction l generalizing s₀ with
  | nil => exact h
  | cons a l ih =>
    rw [runIf] at h ⊢
    split_ifs at h with ha
    obtain ⟨t, hs, hl⟩ := Option.bind_eq_some_iff.mp h
    rw [if_pos (ht s₀ a ha), hs, Option.bind_some]
    exact ih hl

theorem Reach.of_runIf {test : σ → α → Bool} {l : List α} (h : runIf step test s₀ l = some s) :
    Reach step (fun s a => test s a = true) s₀ s := by
  induction l generalizing s₀ with
  | nil =>
    cases h
    exact .start
  | cons a l ih =>
    rw [runIf] at h
    split_ifs at h with ha
    obtain ⟨t, ht, hl⟩ := Option.bind_eq_some_iff.mp h
    exact Reach.trans (.step .start ha ht) (ih hl)

end Transition
