import FishServer.ObjectRuns

namespace FishServer

open LinkedList Transition

/-! The counter of `getID`. -/

def idValues (wraps taken : ℤ → Bool) : ℕ → ℤ → List ℤ
  | 0, _ => []
  | n + 1, id =>
    let id := if wraps id then 1 else id
    id :: if taken id then (id + 1) :: idValues wraps taken n (id + 1) else []

theorem idLoop_last {wraps taken : ℤ → Bool} {n : ℕ} {id id' : ℤ} (h : idLoop wraps taken n id = some id') :
    (idValues wraps taken n id).getLast? = some id' := by
  induction n generalizing id with
  | zero => cases h
  | succ n ih =>
    rw [idLoop] at h
    rw [idValues]
    generalize (if wraps id = true then 1 else id) = x at h ⊢
    by_cases ht : taken x = true
    · rw [if_pos ht] at h ⊢
      have hlast := ih h
      have hne : idValues wraps taken n (x + 1) ≠ [] := by
        intro hnil
        rw [hnil] at hlast
        cases hlast
      rw [List.getLast?_cons_cons, List.getLast?_cons_of_ne_nil hne, hlast]
    · rw [if_neg ht] at h ⊢
      rw [Option.some.inj h]
      rfl

theorem idValues_counts {wraps taken : ℤ → Bool} (hw : RingWraps wraps) {n : ℕ} {id : ℤ} (h1 : 1 ≤ id)
    (hm : id ≤ maxInt) : ∀ x ∈ idValues wraps taken n id, 1 ≤ x ∧ x ≤ maxInt := by
  induction n generalizing id with
  | zero => exact fun x hx => absurd hx List.not_mem_nil
  | succ n ih =>
    rw [idValues, hw.turn h1 hm]
    have hlo : 1 ≤ 1 + (id - 1) % (maxInt - 1) := by
      unfold maxInt
      omega
    have hhi : 1 + (id - 1) % (maxInt - 1) ≤ maxInt - 1 := by
      unfold maxInt
      omega
    generalize 1 + (id - 1) % (maxInt - 1) = y at hlo hhi ⊢
    intro x hx
    rcases List.mem_cons.mp hx with rfl | hx
    · omega
    split_ifs at hx
    · rcases List.mem_cons.mp hx with rfl | hx
      · omega
      · exact ih (by omega) (by omega) x hx
    · cases hx

section

variable {α : Type} {ident : α → ℤ} {wraps : ℤ → Bool} {o : Objects α} {l : List ℕ}

structure Objects.FreshID (ident : α → ℤ) (wraps : ℤ → Bool) (o : Objects α) (id : ℤ) : Prop where
  found : o.getID ident wraps = some id
  last : (idValues wraps (o.taken ident) (o.list.len.toNat + 1) o.id).getLast? = some id
  range : 1 ≤ id ∧ id ≤ maxInt - 1
  fresh : ∀ p v, o.list.value p = some v → ident v ≠ id
  values : ∀ n, ∀ x ∈ idValues wraps (o.taken ident) n o.id, 1 ≤ x ∧ x ≤ maxInt

theorem Objects.freshID (h : o.list.Holds l) (hw : RingWraps wraps) (hc : o.Counts)
    (hl : (l.length : ℤ) < maxInt - 1) : ∃ id, o.FreshID ident wraps id := by
  obtain ⟨id, hid, h1, hm, htaken⟩ := Objects.getID_found h hw hc hl
  refine ⟨id, hid, idLoop_last hid, ⟨h1, hm⟩, ?_, ?_⟩
  · rintro p v hv rfl
    have hnone : o.list.find (fun w => decide (ident w = ident v)) = none := by
      simpa [Objects.taken] using htaken
    exact absurd (h.find_none hnone hv) (by simp)
  · intro n x hx
    exact idValues_counts hw hc.1 hc.2 x hx

end

theorem fresh_ids :
    (∀ s, Reach fishCall (fun s a => a.ok s) Recorded.init s → ∀ (o : Fishs) l, o.list.Holds l →
        o.id = s.objects.id → l.length < 2 ^ 31 - 2 → ∃ id, o.FreshID Fish.id Fishs.wraps id) ∧
      ∀ s, Reach bulletCall (fun s a => a.ok s) Recorded.init s → ∀ (o : Bullets) l, o.list.Holds l →
        o.id = s.objects.id → l.length < 2 ^ 31 - 2 → ∃ id, o.FreshID Bullet.id Bullets.wraps id := by
  constructor
  · intro s hr o l h hid hl
    have hc := hr.invariant init_counts (fun s a t h _ hc => fishCall_counts h hc)
    unfold Objects.Counts at hc
    rw [← hid] at hc
    exact Objects.freshID h Fishs.ringWraps hc (by unfold maxInt; omega)
  · intro s hr o l h hid hl
    have hc := hr.invariant init_counts (fun s a t h _ hc => bulletCall_counts h hc)
    unfold Objects.Counts at hc
    rw [← hid] at hc
    exact Objects.freshID h Bullets.ringWraps hc (by unfold maxInt; omega)

theorem next_ids : ∃ (s : Recorded Fish) (t : Recorded Bullet), s.live = [0] ∧ t.live = [0] ∧
    (∃ id, s.objects.FreshID Fish.id Fishs.wraps id) ∧ ∃ id, t.objects.FreshID Bullet.id Bullets.wraps id := by
  have hf : Reach fishCall (fun s a => a.ok s) Recorded.init _ :=
    .step (a := .create 1 [⟨1, 1, 5⟩] (fun _ => 0) 0) .start trivial rfl
  have hb : Reach bulletCall (fun s a => a.ok s) Recorded.init _ :=
    .step (a := .create 7 0 0 [] 1) .start trivial rfl
  have hfish := hf.invariant Objects.sound_init (fun s a t h ha hc => fishCall_sound h ha hc)
  have hbullet := hb.invariant Objects.sound_init (fun s a t h ha hc => bulletCall_sound h ha hc)
  have hid := fresh_ids.1 _ hf _ _ hfish.holds rfl (by decide)
  have hid' := fresh_ids.2 _ hb _ _ hbullet.holds rfl (by decide)
  exact ⟨_, _, rfl, rfl, hid, hid'⟩

end FishServer
