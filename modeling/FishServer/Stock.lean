import FishServer.Play

namespace FishServer

open LinkedList

/-!
Bullets and fishs are paid for at most once: what has been paid for is marked, and a marked object is
never found again.
-/

structure Objects.Stock {α : Type} (ident : α → ℤ) (locked spent : α → Bool) (o : Objects α)
    (paid : ℕ → Prop) : Prop where
  sound : ∃ l, o.Sound ident l
  unlocked : ∀ p v, o.list.value p = some v → locked v = false
  paid_lt : ∀ p, paid p → p < o.list.fresh
  spent : ∀ p v, paid p → o.list.value p = some v → spent v = true

section

variable {α : Type} {ident : α → ℤ} {locked spent : α → Bool} {o o' : Objects α} {paid paid' : ℕ → Prop}

theorem Objects.stock_init : (Objects.init : Objects α).Stock ident locked spent (fun _ => False) where
  sound := ⟨[], Objects.sound_init⟩
  unlocked := fun _ _ hv => nomatch hv
  paid_lt := fun _ hp => hp.elim
  spent := fun _ _ hp => hp.elim

theorem Objects.Stock.mono (h : o.Stock ident locked spent paid) (hp : ∀ p, paid' p → paid p) :
    o.Stock ident locked spent paid' :=
  ⟨h.sound, h.unlocked, fun p hq => h.paid_lt p (hp p hq), fun p v hq => h.spent p v (hp p hq)⟩

-- the number that the next object starts its search for an id at does not matter
theorem Objects.Stock.congr (h : o.Stock ident locked spent paid) (hl : o'.list = o.list)
    (hlock : o'.lock = o.lock) (hc : o'.clearing = o.clearing) : o'.Stock ident locked spent paid where
  sound := by
    obtain ⟨l, hs⟩ := h.sound
    refine ⟨l, ?_, hlock.trans hs.lock, hc.trans hs.clearing, ?_⟩
    · rw [hl]
      exact hs.holds
    · rw [hl]
      exact hs.ids
  unlocked := by
    rw [hl]
    exact h.unlocked
  paid_lt := by
    rw [hl]
    exact h.paid_lt
  spent := by
    rw [hl]
    exact h.spent

theorem Objects.Stock.create (h : o.Stock ident locked spent paid) {wraps : ℤ → Bool} {v : ℤ → α}
    (hv : ∀ id, ident (v id) = id) (hlock : ∀ id, locked (v id) = false) {p : ℕ}
    (hc : o.create ident wraps v = some (o', p)) : o'.Stock ident locked spent paid := by
  obtain ⟨l, hs⟩ := h.sound
  obtain ⟨hs', _, id, hl⟩ := hs.create hv hc
  have hval : ∀ q w, o'.list.value q = some w → (q = o.list.fresh ∧ w = v id) ∨
      (q ≠ o.list.fresh ∧ o.list.value q = some w) := by
    intro q w hw
    rw [hl] at hw
    by_cases hq : q = o.list.fresh
    · rw [hq, DList.value_append_self] at hw
      exact .inl ⟨hq, (Option.some.inj hw).symm⟩
    · rw [DList.value_append_of_ne _ _ hq] at hw
      exact .inr ⟨hq, hw⟩
  refine ⟨⟨_, hs'⟩, ?_, ?_, ?_⟩
  · intro q w hw
    rcases hval q w hw with ⟨_, rfl⟩ | ⟨_, hw⟩
    · exact hlock id
    · exact h.unlocked q w hw
  · intro q hq
    rw [hl, DList.fresh_append]
    exact Nat.lt_succ_of_lt (h.paid_lt q hq)
  · intro q w hq hw
    rcases hval q w hw with ⟨hf, _⟩ | ⟨_, hw⟩
    · exact absurd (h.paid_lt q hq) (hf ▸ lt_irrefl _)
    · exact h.spent q w hq hw

theorem Objects.Stock.remove (h : o.Stock ident locked spent paid) {p : ℕ} {v : α}
    (hp : o.list.value p = some v) :
    Objects.Stock ident locked spent { o with list := o.list.remove p } paid := by
  obtain ⟨l, hs⟩ := h.sound
  have hval : ∀ q w, (o.list.remove p).value q = some w → o.list.value q = some w := by
    intro q w hw
    by_cases hq : q = p
    · rw [hq, DList.value_remove_self] at hw
      cases hw
    · rwa [DList.value_remove_of_ne _ hq] at hw
  refine ⟨⟨_, hs.remove (hs.holds.mem_of_value hp)⟩, ?_, ?_, ?_⟩
  · exact fun q w hw => h.unlocked q w (hval q w hw)
  · intro q hq
    change q < (o.list.remove p).fresh
    rw [DList.fresh_remove]
    exact h.paid_lt q hq
  · exact fun q w hq hw => h.spent q w hq (hval q w hw)

theorem Objects.Stock.visit (h : o.Stock ident locked spent paid) {dead : α → Bool} {p : ℕ} {next : Option ℕ}
    (hv : o.visit locked dead p = some (o', next)) : o'.Stock ident locked spent paid := by
  obtain ⟨l, hs⟩ := h.sound
  rcases hs.visit hv with rfl | ⟨_, rfl, v, hp, _⟩
  · exact h
  · exact h.remove hp

theorem Objects.Stock.mark (h : o.Stock ident locked spent paid) {f : α → α} {p : ℕ} {v : α}
    (hp : o.list.value p = some v) (hid : ∀ w, ident (f w) = ident w) (hlock : ∀ w, locked (f w) = false)
    (hspent : ∀ w, spent (f w) = true) (hpaid : ∀ q, paid' q → q = p ∨ paid q) :
    Objects.Stock ident locked spent { o with list := o.list.modify f p } paid' := by
  obtain ⟨l, hs⟩ := h.sound
  have hval : ∀ q w, (o.list.modify f p).value q = some w → (q = p ∧ ∃ w', w = f w') ∨
      (q ≠ p ∧ o.list.value q = some w) := by
    intro q w hw
    by_cases hq : q = p
    · rw [hq, DList.value_modify_self] at hw
      obtain ⟨w', _, rfl⟩ := Option.map_eq_some_iff.mp hw
      exact .inl ⟨hq, w', rfl⟩
    · rw [DList.value_modify_of_ne _ _ hq] at hw
      exact .inr ⟨hq, hw⟩
  refine ⟨⟨l, hs.modify f hid p⟩, ?_, ?_, ?_⟩
  · intro q w hw
    rcases hval q w hw with ⟨_, w', rfl⟩ | ⟨_, hw⟩
    · exact hlock w'
    · exact h.unlocked q w hw
  · intro q hq
    rcases hpaid q hq with rfl | hq
    · exact hs.holds.fresh _ (hs.holds.mem_of_value hp)
    · exact h.paid_lt q hq
  · intro q w hq hw
    rcases hval q w hw with ⟨_, w', rfl⟩ | ⟨hne, hw⟩
    · exact hspent w'
    · rcases hpaid q hq with rfl | hq
      · exact absurd rfl hne
      · exact h.spent q w hq hw

theorem Objects.Stock.not_paid (h : o.Stock ident locked spent paid) {p : ℕ} {v : α}
    (hp : o.list.value p = some v) (hv : spent v = false) : ¬ paid p := by
  intro hpaid
  rw [h.spent p v hpaid hp] at hv
  cases hv

end

abbrev Bullets.Stock (o : Bullets) (paid : ℕ → Prop) : Prop :=
  Objects.Stock Bullet.id Bullet.lock Bullet.isdel o paid

abbrev Fishs.Stock (o : Fishs) (paid : ℕ → Prop) : Prop :=
  Objects.Stock Fish.id Fish.lock Fish.isdel o paid

variable {paid paid' : ℕ → Prop}

theorem getBullet_found {o : Bullets} {l : List ℕ} (hs : Objects.Sound Bullet.id o l) {id uid : ℤ} {b : ℕ}
    (h : o.getBullet id uid = some (some b)) :
    ∃ v, o.list.value b = some v ∧ v.id = id ∧ v.uid = uid ∧ v.lock = false ∧ v.isdel = false := by
  unfold Bullets.getBullet at h
  split_ifs at h
  obtain ⟨v, hv, ht⟩ := hs.holds.find_some (Option.some.inj h)
  refine ⟨v, hv, ?_⟩
  simpa [Bullets.answers, and_assoc] using ht

def Fish.hold (f : Fish) : Fish := { f with lock := true }

theorem getFish_found {o o' : Fishs} {l : List ℕ} (hs : Objects.Sound Fish.id o l) {id : ℤ} {f : ℕ}
    (h : o.getFish id = some (o', some f)) :
    ∃ v, o.list.value f = some v ∧ v.id = id ∧ v.lock = false ∧ v.isdel = false ∧
      o' = { o with list := o.list.modify Fish.hold f } := by
  unfold Fishs.getFish at h
  split_ifs at h
  split at h
  · cases h
  · next p hp =>
    obtain ⟨v, hv, hid⟩ := hs.holds.find_some hp
    split_ifs at h with ht
    · obtain ⟨ho, hf⟩ := Prod.mk.inj (Option.some.inj h)
      cases hf
      rw [hv, Option.any_some, Bool.and_eq_true] at ht
      refine ⟨v, hv, of_decide_eq_true hid, ?_, ?_, ho.symm⟩
      · simpa using ht.1
      · simpa using ht.2
    · cases h

theorem Bullets.Stock.create {o o' : Bullets} (h : o.Stock paid) {uid x y : ℤ} {angle : List Char} {time : ℚ}
    {p : ℕ} (hc : Bullets.create o uid x y angle time = some (o', p)) : o'.Stock paid :=
  Objects.Stock.create h (fun _ => rfl) (fun _ => rfl) hc

theorem Fishs.Stock.create {o o' : Fishs} (h : o.Stock paid) {setting : List SettingFish} {rand : ℕ → ℕ}
    {time : ℚ} {f : Option ℕ} (hc : Fishs.create o setting rand time = some (o', f)) : o'.Stock paid := by
  unfold Fishs.create at hc
  by_cases hset : setting = []
  · rw [if_pos hset] at hc
    cases hc
  rw [if_neg hset] at hc
  split at hc
  · split_ifs at hc
    obtain ⟨id, _, hp⟩ := Option.map_eq_some_iff.mp hc
    cases hp
    exact h.congr rfl rfl rfl
  · obtain ⟨⟨o'', p⟩, hp, he⟩ := Option.map_eq_some_iff.mp hc
    cases he
    exact Objects.Stock.create h (fun _ => rfl) (fun _ => rfl) hp

theorem Bullets.Stock.free {o : Bullets} (h : o.Stock paid) {b : ℕ} {v : Bullet} (hb : o.list.value b = some v)
    (hpaid : ∀ q, paid' q → q = b ∨ paid q) :
    Bullets.Stock { o with list := o.list.modify Bullet.free b } paid' :=
  Objects.Stock.mark h hb (fun _ => rfl) (fun _ => rfl) (fun _ => rfl) hpaid

theorem Fishs.Stock.pay {o : Fishs} (h : o.Stock paid) {f : ℕ} {v : Fish} (hf : o.list.value f = some v)
    (hpaid : ∀ q, paid' q → q = f ∨ paid q) :
    Fishs.Stock { o with list := ((o.list.modify Fish.hold f).modify Fish.hit f).modify Fish.free f } paid' := by
  rw [DList.modify_modify, DList.modify_modify]
  exact Objects.Stock.mark h hf (fun _ => rfl) (fun _ => rfl) (fun _ => rfl) hpaid

end FishServer
