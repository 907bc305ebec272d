import FishServer.GameObjects

namespace FishServer

open LinkedList

/-! A whole pass of the two sweeping threads over the list of a room. -/

/-- The inner loop from a node on, with the round that `visit` takes at each: the list after it, the nodes
visited and the nodes destroyed. `n` bounds the rounds, and none also is a read of a node that is not there. -/
def sweepFrom {α : Type} (visit : Objects α → ℕ → Option (Objects α × Option ℕ)) :
    ℕ → Objects α → Option ℕ → Option (Objects α × List ℕ × List ℕ)
  | _, o, none => some (o, [], [])
  | 0, _, some _ => none
  | n + 1, o, some p => do
    let (o', next) ← visit o p
    let (o'', visited, destroyed) ← sweepFrom visit n o' next
    some (o'', p :: visited, if (o'.list.node p).isNone then p :: destroyed else destroyed)

-- `now` is the time that is read at a node
def Thread.bulletPass (now : ℕ → ℚ) (o : Bullets) : Option (Bullets × List ℕ × List ℕ) :=
  sweepFrom (fun o p => Thread.bulletVisit o (now p) p) o.list.fresh o o.list.head

def Thread.fishPass (o : Fishs) : Option (Fishs × List ℕ × List ℕ) :=
  sweepFrom Thread.fishVisit o.list.fresh o o.list.head

def Bullet.stays (now : ℚ) (b : Bullet) : Bool :=
  b.lock || !(b.isdel || decide (10 < now - b.createTime))

def Fish.stays (f : Fish) : Bool := f.lock || !f.isdel

section

variable {α : Type} {o : Objects α} {l : List ℕ}

structure Objects.Idle (o : Objects α) (l : List ℕ) : Prop where
  holds : o.list.Holds l
  lock : o.lock = false
  clearing : o.clearing = false

structure Objects.Filtered (o o' : Objects α) (l : List ℕ) (test : ℕ → α → Bool) : Prop where
  idle : o'.Idle (l.filter (fun p => (o.list.value p).any (test p)))
  value : ∀ p ∈ l.filter (fun p => (o.list.value p).any (test p)), o'.list.value p = o.list.value p
  id : o'.id = o.id

theorem Objects.Idle.visit_stay {locked dead : α → Bool} {p : ℕ} {l₁ l₂ : List ℕ} {v : α}
    (h : o.Idle (l₁ ++ p :: l₂)) (hv : o.list.value p = some v) (hs : (locked v || !dead v) = true) :
    o.visit locked dead p = some (o, l₂.head?) := by
  obtain ⟨-, ⟨w, hw⟩, -⟩ := h.holds.middle
  obtain rfl : w = v := by
    unfold DList.value at hv
    rw [hw] at hv
    exact Option.some.inj hv
  unfold Objects.visit
  rw [if_neg (by rw [h.clearing]; decide), hw]
  cases hl : locked w with
  | true => simp [hl]
  | false =>
    have hd : dead w = false := by simpa [hl] using hs
    simp [hl, hd]

theorem Objects.Idle.visit_destroy {locked dead : α → Bool} {p : ℕ} {l₁ l₂ : List ℕ} {v : α}
    (h : o.Idle (l₁ ++ p :: l₂)) (hv : o.list.value p = some v) (hs : (locked v || !dead v) = false) :
    o.visit locked dead p = some ({ o with list := o.list.remove p }, l₂.head?) := by
  obtain ⟨-, ⟨w, hw⟩, -⟩ := h.holds.middle
  obtain rfl : w = v := by
    unfold DList.value at hv
    rw [hw] at hv
    exact Option.some.inj hv
  rw [Bool.or_eq_false_iff, Bool.not_eq_false'] at hs
  unfold Objects.visit Objects.destroy
  rw [if_neg (by rw [h.clearing]; decide), hw]
  simp [hs.1, hs.2, h.lock, h.clearing]

theorem Objects.Idle.remove {p : ℕ} {l₁ l₂ : List ℕ} (h : o.Idle (l₁ ++ p :: l₂)) :
    Objects.Idle { o with list := o.list.remove p } (l₁ ++ l₂) where
  holds := by
    have hr := h.holds.remove (p := p) (by simp)
    rwa [List.erase_append_right _ (nodup_middle h.holds.nodup).2.2.1, List.erase_cons_head] at hr
  lock := h.lock
  clearing := h.clearing

theorem sweepFrom_filter {locked : α → Bool} {dead : ℕ → α → Bool} (val : ℕ → Option α) (rest : List ℕ) (n : ℕ)
    (o : Objects α) (done : List ℕ) (h : o.Idle (done ++ rest))
    (hval : ∀ p ∈ done ++ rest, o.list.value p = val p) (hn : rest.length ≤ n) :
    ∃ o', sweepFrom (fun o p => o.visit locked (dead p) p) n o rest.head? =
        some (o', rest, rest.filter (fun p => !(val p).any (fun v => locked v || !dead p v))) ∧
      o'.Idle (done ++ rest.filter (fun p => (val p).any (fun v => locked v || !dead p v))) ∧
      (∀ p ∈ done ++ rest.filter (fun p => (val p).any (fun v => locked v || !dead p v)),
        o'.list.value p = val p) ∧ o'.id = o.id := by
  induction rest generalizing n o done with
  | nil =>
    refine ⟨o, ?_, h, hval, rfl⟩
    cases n <;> rfl
  | cons p rest ih =>
    cases n with
    | zero => simp at hn
    | succ n =>
      obtain ⟨v, hv⟩ := h.holds.value_of_mem (p := p) (by simp)
      have hp : val p = some v := (hval p (by simp)).symm.trans hv
      have hnode : ∀ w, o.list.value p = some w → (o.list.node p).isNone = false := by
        intro w hw
        unfold DList.value at hw
        cases hq : o.list.node p with
        | none => simp [hq] at hw
        | some m => rfl
      cases hs : (locked v || !dead p v) with
      | true =>
        rw [List.append_cons] at h hval
        obtain ⟨o', hsw, hi, hvals, hid⟩ := ih n o (done ++ [p]) h hval (by simpa using hn)
        rw [← List.append_cons] at h hi hvals
        have hvisit := h.visit_stay hv hs
        refine ⟨o', ?_, ?_, ?_, hid⟩
        · simp only [List.head?_cons, sweepFrom, hvisit, Option.bind_eq_bind, Option.bind_some, hsw,
            hnode v hv, List.filter_cons, hp, Option.any_some, hs]
          rfl
        · simpa only [List.filter_cons, hp, Option.any_some, hs, if_true] using hi
        · simpa only [List.filter_cons, hp, Option.any_some, hs, if_true] using hvals
      | false =>
        have hd := nodup_middle h.holds.nodup
        have hval' : ∀ q ∈ done ++ rest, (o.list.remove p).value q = val q := by
          intro q hq
          have hne : q ≠ p := by
            rintro rfl
            rcases List.mem_append.mp hq with hq | hq
            · exact hd.2.2.1 hq
            · exact hd.2.2.2.1 hq
          rw [DList.value_remove_of_ne _ hne]
          apply hval
          rcases List.mem_append.mp hq with hq | hq
          · exact List.mem_append_left _ hq
          · exact List.mem_append_right _ (List.mem_cons_of_mem _ hq)
        obtain ⟨o', hsw, hi, hvals, hid⟩ := ih n _ done h.remove hval' (by simpa using hn)
        have hgone : ((o.list.remove p).node p).isNone = true := by
          have hr := o.list.value_remove_self p
          unfold DList.value at hr
          simpa using hr
        have hvisit := h.visit_destroy hv hs
        refine ⟨o', ?_, ?_, ?_, hid⟩
        · simp only [List.head?_cons, sweepFrom, hvisit, Option.bind_eq_bind, Option.bind_some, hsw,
            hgone, List.filter_cons, hp, Option.any_some, hs]
          rfl
        · simpa only [List.filter_cons, hp, Option.any_some, hs, Bool.false_eq_true, if_false] using hi
        · simpa only [List.filter_cons, hp, Option.any_some, hs, Bool.false_eq_true, if_false] using hvals

theorem Objects.Idle.sweep (h : o.Idle l) (locked : α → Bool) (dead : ℕ → α → Bool) :
    ∃ o', sweepFrom (fun o p => o.visit locked (dead p) p) o.list.fresh o o.list.head =
        some (o', l, l.filter (fun p => !(o.list.value p).any (fun v => locked v || !dead p v))) ∧
      o.Filtered o' l (fun p v => locked v || !dead p v) := by
  obtain ⟨o', hsw, hi, hvals, hid⟩ := @sweepFrom_filter α locked dead o.list.value l
    o.list.fresh o [] h (fun p _ => rfl) h.holds.length_le
  rw [h.holds.head]
  exact ⟨o', hsw, hi, hvals, hid⟩

end

theorem sweeps_remove_the_dead :
    (∀ (o : Bullets) (l : List ℕ) (now : ℕ → ℚ), o.Idle l → l.Nodup ∧ ∃ o',
      Thread.bulletPass now o =
          some (o', l, l.filter (fun p => !(o.list.value p).any (Bullet.stays (now p)))) ∧
        o.Filtered o' l (fun p => Bullet.stays (now p))) ∧
      ∀ (o : Fishs) (l : List ℕ), o.Idle l → l.Nodup ∧ ∃ o',
        Thread.fishPass o = some (o', l, l.filter (fun p => !(o.list.value p).any Fish.stays)) ∧
          o.Filtered o' l (fun _ => Fish.stays) := by
  constructor
  · intro o l now h
    refine ⟨h.holds.nodup, ?_⟩
    exact h.sweep Bullet.lock (fun p b => b.isdel || decide (10 < now p - b.createTime))
  · intro o l h
    refine ⟨h.holds.nodup, ?_⟩
    exact h.sweep Fish.lock (fun _ => Fish.isdel)

def agedBullets : Bullets :=
  { list := ((DList.empty.append ⟨1, 7, 0, 0, [], 0, false, false⟩).append
      ⟨2, 7, 0, 0, [], 0, true, true⟩).append ⟨3, 7, 0, 0, [], 8, false, false⟩
    id := 3
    lock := false
    clearing := false }

theorem agedBullets_idle : agedBullets.Idle [0, 1, 2] where
  holds := ((DList.holds_empty.append _).append _).append _
  lock := rfl
  clearing := rfl

def deletedFishs : Fishs :=
  { list := DList.empty.append { Fish.make (fun _ => 0) ⟨1, 1, 5⟩ 0 1 with isdel := true }
    id := 1
    lock := false
    clearing := false }

theorem deletedFishs_idle : deletedFishs.Idle [0] where
  holds := DList.holds_empty.append _
  lock := rfl
  clearing := rfl

-- eleven seconds later the first bullet is too old, the second one is locked
theorem sweeps_aged_and_deleted :
    (∃ o', Thread.bulletPass (fun _ => 11) agedBullets = some (o', [0, 1, 2], [0])) ∧
      ∃ o', Thread.fishPass deletedFishs = some (o', [0], [0]) := by
  obtain ⟨-, o₁, h₁, -⟩ := sweeps_remove_the_dead.1 agedBullets [0, 1, 2] (fun _ => 11) agedBullets_idle
  obtain ⟨-, o₂, h₂, -⟩ := sweeps_remove_the_dead.2 deletedFishs [0] deletedFishs_idle
  have hb : [0, 1, 2].filter (fun p => !(agedBullets.list.value p).any (Bullet.stays 11)) = [0] := by
    decide +kernel
  have hf : [0].filter (fun p => !(deletedFishs.list.value p).any Fish.stays) = [0] := by
    decide +kernel
  rw [hb] at h₁
  rw [hf] at h₂
  exact ⟨⟨o₁, h₁⟩, o₂, h₂⟩

end FishServer
