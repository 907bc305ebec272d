import FishServer.GameObjects
import FishServer.Lib.Transition

namespace FishServer

open LinkedList Transition

/-! The calls on a list of objects, one after the other. -/

def Objects.clear {α : Type} (o : Objects α) : Option (Objects α) :=
  if o.lock then none else o.list.clear.map (fun list => { o with list, clearing := false })

/-- `create` when the settings can be loaded anew between its two reads: `qty` is what `getFishQty`
answers, `setting` is what `getFish` looks into. -/
def Fishs.createFrom (o : Fishs) (qty : ℕ) (setting : List SettingFish) (rand : ℕ → ℕ) (time : ℚ) :
    Option (Fishs × Option ℕ) :=
  if qty = 0 then none
  else
    match setting[(myRandom (rand 11) 0 (qty - 1)).toNat]? with
    | none => if o.lock then none else (o.getID).map (fun id => ({ o with id }, none))
    | some fish =>
      (Objects.create Fish.id Fishs.wraps o (Fish.make rand fish time)).map (fun r => (r.1, some r.2))

theorem Fishs.create_eq (o : Fishs) (setting : List SettingFish) (rand : ℕ → ℕ) (time : ℚ) :
    Fishs.create o setting rand time = o.createFrom setting.length setting rand time := by
  unfold Fishs.create Fishs.createFrom
  by_cases hs : setting = []
  · exact (if_pos hs).trans (if_pos (List.length_eq_zero_iff.mpr hs)).symm
  · exact (if_neg hs).trans (if_neg (fun h => hs (List.length_eq_zero_iff.mp h))).symm

/-- A list of objects and its nodes in the order of their creation, without those that were destroyed or
cleared since. No call reads the record. -/
structure Recorded (α : Type) where
  objects : Objects α
  live : List ℕ

def Recorded.init {α : Type} : Recorded α := ⟨Objects.init, []⟩

inductive FishCall
  | create (qty : ℕ) (setting : List SettingFish) (rand : ℕ → ℕ) (time : ℚ)
  | destroy (p : ℕ)
  | getFish (id : ℤ)
  | clear

inductive BulletCall
  | create (uid x y : ℤ) (angle : List Char) (time : ℚ)
  | destroy (p : ℕ)
  | getBullet (id uid : ℤ)
  | clear

def fishCall (s : Recorded Fish) : FishCall → Option (Recorded Fish)
  | .create qty setting rand time =>
    (Fishs.createFrom s.objects qty setting rand time).map (fun r => ⟨r.1, s.live ++ r.2.toList⟩)
  | .destroy p => (s.objects.destroy p).map (fun r => ⟨r.1, s.live.erase p⟩)
  | .getFish id => (Fishs.getFish s.objects id).map (fun r => ⟨r.1, s.live⟩)
  | .clear => s.objects.clear.map (fun o => ⟨o, []⟩)

def bulletCall (s : Recorded Bullet) : BulletCall → Option (Recorded Bullet)
  | .create uid x y angle time =>
    (Bullets.create s.objects uid x y angle time).map (fun r => ⟨r.1, s.live ++ [r.2]⟩)
  | .destroy p => (s.objects.destroy p).map (fun r => ⟨r.1, s.live.erase p⟩)
  | .getBullet id uid => (Bullets.getBullet s.objects id uid).map (fun _ => s)
  | .clear => s.objects.clear.map (fun o => ⟨o, []⟩)

-- what is destroyed is a node in the list
def FishCall.ok (s : Recorded Fish) : FishCall → Prop
  | .destroy p => p ∈ s.live
  | _ => True

def BulletCall.ok (s : Recorded Bullet) : BulletCall → Prop
  | .destroy p => p ∈ s.live
  | _ => True

/-- The list is made of the nodes `l`, in this order, and no other node is allocated. -/
structure Objects.WellFormed {α : Type} (ident : α → ℤ) (o : Objects α) (l : List ℕ) : Prop where
  path : o.list.Path o.list.head l
  all : ∀ p, (o.list.node p).isSome ↔ p ∈ l
  inverse : ∀ p q m n, o.list.node p = some m → o.list.node q = some n →
    (m.next = some q ↔ n.prev = some p)
  first : ∀ p n, o.list.node p = some n → (o.list.head = some p ↔ n.prev = none)
  curr : l ≠ [] → o.list.curr = l.getLast?
  len : o.list.len = l.length
  ids : (l.map (fun p => (o.list.value p).map ident)).Nodup

section

variable {α : Type} {ident : α → ℤ} {wraps : ℤ → Bool} {o : Objects α} {l : List ℕ}

theorem Objects.Sound.wellFormed (h : o.Sound ident l) : o.WellFormed ident l where
  path := h.holds.path
  all := by
    intro p
    constructor
    · exact h.holds.live p
    · intro hp
      obtain ⟨v, hv⟩ := h.holds.value_of_mem hp
      unfold DList.value at hv
      rw [← Option.isSome_map (f := Node.val), hv]
      rfl
  inverse := fun p q m n hp hq => h.holds.next_iff_prev hp hq
  first := fun p n hp => h.holds.head_iff_prev hp
  curr := h.holds.curr
  len := h.holds.len
  ids := by
    apply List.Nodup.map_on _ h.holds.nodup
    intro p hp q hq he
    obtain ⟨v, hv⟩ := h.holds.value_of_mem hp
    obtain ⟨w, hw⟩ := h.holds.value_of_mem hq
    rw [hv, hw, Option.map_some, Option.map_some, Option.some.injEq] at he
    exact h.ids p q v w hv hw he

theorem Objects.Sound.congr (h : o.Sound ident l) {o' : Objects α} (hl : o'.list = o.list)
    (hk : o'.lock = o.lock) (hc : o'.clearing = o.clearing) : o'.Sound ident l where
  holds := by rw [hl]; exact h.holds
  lock := hk.trans h.lock
  clearing := hc.trans h.clearing
  ids := by rw [hl]; exact h.ids

theorem Objects.Sound.destroy (h : o.Sound ident l) {p : ℕ} (hp : p ∈ l) :
    ∃ next, o.destroy p = some ({ o with list := o.list.remove p }, next) := by
  obtain ⟨l₁, l₂, rfl⟩ := List.append_of_mem hp
  obtain ⟨-, ⟨v, hv⟩, -⟩ := h.holds.middle
  unfold Objects.destroy
  rw [if_neg (by rw [h.lock]; decide), if_neg (by rw [h.clearing]; decide), hv]
  exact ⟨_, rfl⟩

theorem Objects.Sound.clear (h : o.Sound ident l) : ∃ o', o.clear = some o' ∧ o'.Sound ident [] := by
  obtain ⟨list, hc, hh, -⟩ := h.holds.clear
  unfold Objects.clear
  rw [if_neg (by rw [h.lock]; decide), hc]
  refine ⟨_, rfl, hh, h.lock, rfl, ?_⟩
  intro p q v w hv
  cases hh.mem_of_value hv

end

theorem Fishs.getFish_sound {o : Fishs} {l : List ℕ} (h : Objects.Sound Fish.id o l) (id : ℤ) :
    ∃ o' p, Fishs.getFish o id = some (o', p) ∧ Objects.Sound Fish.id o' l := by
  unfold Fishs.getFish
  rw [if_neg (by rw [h.lock]; decide)]
  cases o.list.find (fun f => decide (f.id = id)) with
  | none => exact ⟨o, none, rfl, h⟩
  | some p =>
    simp only
    split_ifs
    · exact ⟨_, some p, rfl, h.modify (fun f => { f with lock := true }) (fun _ => rfl) p⟩
    · exact ⟨o, none, rfl, h⟩

theorem Fishs.createFrom_sound {o o' : Fishs} {l : List ℕ} (h : Objects.Sound Fish.id o l) {qty : ℕ}
    {setting : List SettingFish} {rand : ℕ → ℕ} {time : ℚ} {p : Option ℕ}
    (hc : o.createFrom qty setting rand time = some (o', p)) :
    Objects.Sound Fish.id o' (l ++ p.toList) := by
  unfold Fishs.createFrom at hc
  by_cases hq : qty = 0
  · rw [if_pos hq] at hc
    cases hc
  rw [if_neg hq] at hc
  cases hf : setting[(myRandom (rand 11) 0 (qty - 1)).toNat]? with
  | none =>
    rw [hf] at hc
    simp only [h.lock, Bool.false_eq_true, if_false] at hc
    obtain ⟨id, -, he⟩ := Option.map_eq_some_iff.mp hc
    cases he
    rw [Option.toList_none, List.append_nil]
    exact h.congr rfl h.lock.symm rfl
  | some fish =>
    rw [hf] at hc
    obtain ⟨⟨o₁, q⟩, hq, he⟩ := Option.map_eq_some_iff.mp hc
    cases he
    exact (h.create (fun _ => rfl) hq).1

theorem fishCall_sound {s t : Recorded Fish} {a : FishCall} (h : Objects.Sound Fish.id s.objects s.live)
    (ha : a.ok s) (hc : fishCall s a = some t) : Objects.Sound Fish.id t.objects t.live := by
  cases a with
  | create qty setting rand time =>
    obtain ⟨⟨o, p⟩, hp, rfl⟩ := Option.map_eq_some_iff.mp hc
    exact Fishs.createFrom_sound h hp
  | destroy p =>
    obtain ⟨⟨o, next⟩, hp, rfl⟩ := Option.map_eq_some_iff.mp hc
    obtain ⟨next', hd⟩ := h.destroy ha
    rw [hd] at hp
    cases hp
    exact h.remove ha
  | getFish id =>
    obtain ⟨⟨o, p⟩, hp, rfl⟩ := Option.map_eq_some_iff.mp hc
    obtain ⟨o', p', hg, ho⟩ := Fishs.getFish_sound h id
    rw [hg] at hp
    cases hp
    exact ho
  | clear =>
    obtain ⟨o, hp, rfl⟩ := Option.map_eq_some_iff.mp hc
    obtain ⟨o', hg, ho⟩ := h.clear
    rw [hg] at hp
    cases hp
    exact ho

theorem bulletCall_sound {s t : Recorded Bullet} {a : BulletCall}
    (h : Objects.Sound Bullet.id s.objects s.live) (ha : a.ok s) (hc : bulletCall s a = some t) :
    Objects.Sound Bullet.id t.objects t.live := by
  cases a with
  | create uid x y angle time =>
    obtain ⟨⟨o, p⟩, hp, rfl⟩ := Option.map_eq_some_iff.mp hc
    exact (h.create (fun _ => rfl) hp).1
  | destroy p =>
    obtain ⟨⟨o, next⟩, hp, rfl⟩ := Option.map_eq_some_iff.mp hc
    obtain ⟨next', hd⟩ := h.destroy ha
    rw [hd] at hp
    cases hp
    exact h.remove ha
  | getBullet id uid =>
    obtain ⟨p, -, rfl⟩ := Option.map_eq_some_iff.mp hc
    exact h
  | clear =>
    obtain ⟨o, hp, rfl⟩ := Option.map_eq_some_iff.mp hc
    obtain ⟨o', hg, ho⟩ := h.clear
    rw [hg] at hp
    cases hp
    exact ho

/-! The ids are searched round the ring of the `maxInt - 1` values that are handed out, so the search ends
as long as one of them is free. -/

def RingWraps (wraps : ℤ → Bool) : Prop := ∀ id, 1 ≤ id → id ≤ maxInt → (wraps id = true ↔ id = maxInt)

def Objects.Counts {α : Type} (o : Objects α) : Prop := 1 ≤ o.id ∧ o.id ≤ maxInt

theorem Fishs.ringWraps : RingWraps Fishs.wraps := by
  intro id h1 hm
  simp only [Fishs.wraps, decide_eq_true_eq]
  omega

theorem Bullets.ringWraps : RingWraps Bullets.wraps := by
  intro id h1 hm
  simp only [Bullets.wraps, Bool.and_eq_true, decide_eq_true_eq]
  unfold maxInt at *
  omega

theorem RingWraps.turn {wraps : ℤ → Bool} (hw : RingWraps wraps) {id : ℤ} (h1 : 1 ≤ id) (hm : id ≤ maxInt) :
    (if wraps id then 1 else id) = 1 + (id - 1) % (maxInt - 1) := by
  have hi := hw id h1 hm
  unfold maxInt at *
  split_ifs with h
  · have := hi.mp h
    omega
  · have : id ≠ 2147483647 := fun he => h (hi.mpr he)
    omega

theorem idLoop_taken {wraps taken : ℤ → Bool} (hw : RingWraps wraps) {n : ℕ} {id : ℤ} (h1 : 1 ≤ id)
    (hm : id ≤ maxInt) (hn : idLoop wraps taken n id = none) :
    ∀ k < n, taken (1 + (id - 1 + k) % (maxInt - 1)) = true := by
  induction n generalizing id with
  | zero =>
    intro k hk
    exact absurd hk (Nat.not_lt_zero k)
  | succ n ih =>
    rw [idLoop, hw.turn h1 hm] at hn
    have ht : taken (1 + (id - 1) % (maxInt - 1)) = true := by
      by_contra hf
      rw [if_neg hf] at hn
      cases hn
    rw [if_pos ht] at hn
    have hnext := @ih (1 + (id - 1) % (maxInt - 1) + 1) (by unfold maxInt; omega)
      (by unfold maxInt; omega) hn
    intro k hk
    cases k with
    | zero => simpa using ht
    | succ k =>
      have hk' := hnext k (by omega)
      have he : (1 + (id - 1) % (maxInt - 1) + 1 - 1 + (k : ℤ)) % (maxInt - 1) =
          (id - 1 + ((k + 1 : ℕ) : ℤ)) % (maxInt - 1) := by
        unfold maxInt
        omega
      rwa [he] at hk'

theorem idLoop_found {wraps taken : ℤ → Bool} (hw : RingWraps wraps) {n : ℕ} {id id' : ℤ} (h1 : 1 ≤ id)
    (hm : id ≤ maxInt) (h : idLoop wraps taken n id = some id') : 1 ≤ id' ∧ id' ≤ maxInt - 1 ∧ taken id' = false := by
  induction n generalizing id with
  | zero => cases h
  | succ n ih =>
    rw [idLoop, hw.turn h1 hm] at h
    split_ifs at h with ht
    · exact ih (by unfold maxInt; omega) (by unfold maxInt; omega) h
    · obtain rfl := Option.some.inj h
      refine ⟨?_, ?_, by simpa using ht⟩
      · unfold maxInt
        omega
      · unfold maxInt
        omega

section

variable {α : Type} {ident : α → ℤ} {wraps : ℤ → Bool} {o : Objects α} {l : List ℕ}

theorem Objects.getID_counts (hw : RingWraps wraps) (hc : o.Counts) {id : ℤ} (h : o.getID ident wraps = some id) :
    1 ≤ id ∧ id ≤ maxInt := by
  obtain ⟨h1, hm, -⟩ := idLoop_found hw hc.1 hc.2 h
  exact ⟨h1, by omega⟩

/-- There are more ids than nodes, so a free one is among the first that the loop comes to. -/
theorem Objects.getID_found (h : o.list.Holds l) (hw : RingWraps wraps) (hc : o.Counts)
    (hl : (l.length : ℤ) < maxInt - 1) :
    ∃ id, o.getID ident wraps = some id ∧ 1 ≤ id ∧ id ≤ maxInt - 1 ∧ o.taken ident id = false := by
  cases hid : o.getID ident wraps with
  | some id => exact ⟨id, rfl, idLoop_found hw hc.1 hc.2 hid⟩
  | none =>
    exfalso
    have hall := idLoop_taken hw hc.1 hc.2 hid
    rw [h.len, Int.toNat_natCast] at hall
    have hp : ∀ k < l.length + 1, ∃ p ∈ l, ∃ v, o.list.value p = some v ∧
        ident v = 1 + (o.id - 1 + k) % (maxInt - 1) := by
      intro k hk
      obtain ⟨p, hf⟩ := Option.isSome_iff_exists.mp (hall k hk)
      obtain ⟨v, hv, ht⟩ := h.find_some hf
      exact ⟨p, h.mem_of_value hv, v, hv, by simpa using ht⟩
    choose! f hf using hp
    have hcard : (Finset.range (l.length + 1)).card ≤ l.toFinset.card := by
      apply Finset.card_le_card_of_injOn f
      · intro k hk
        simpa using (hf k (Finset.mem_range.mp hk)).1
      · intro j hj k hk he
        obtain ⟨-, v, hv, hi⟩ := hf j (Finset.mem_range.mp hj)
        obtain ⟨-, w, hw, hi'⟩ := hf k (Finset.mem_range.mp hk)
        have hvw : v = w := by
          rw [he] at hv
          exact Option.some.inj (hv.symm.trans hw)
        have hjk := hi.symm.trans (hvw ▸ hi')
        have hj := Finset.mem_range.mp hj
        have hk := Finset.mem_range.mp hk
        unfold maxInt at hl hjk
        omega
    have := l.toFinset_card_le
    rw [Finset.card_range] at hcard
    omega

theorem Objects.Sound.getID (h : o.Sound ident l) (hw : RingWraps wraps) (hc : o.Counts)
    (hl : (l.length : ℤ) < maxInt - 1) : ∃ id, o.getID ident wraps = some id := by
  obtain ⟨id, hid, -⟩ := Objects.getID_found h.holds hw hc hl
  exact ⟨id, hid⟩

theorem Objects.Sound.create_some (h : o.Sound ident l) (hw : RingWraps wraps) (hc : o.Counts)
    (hl : (l.length : ℤ) < maxInt - 1) (v : ℤ → α) : ∃ r, o.create ident wraps v = some r := by
  obtain ⟨id, hid⟩ := h.getID hw hc hl
  unfold Objects.create
  rw [if_neg (by rw [h.lock]; decide), hid]
  exact ⟨_, rfl⟩

theorem Objects.create_counts (hw : RingWraps wraps) (hc : o.Counts) {v : ℤ → α} {o' : Objects α} {p : ℕ}
    (h : o.create ident wraps v = some (o', p)) : o'.Counts := by
  unfold Objects.create at h
  split_ifs at h
  obtain ⟨id, hid, he⟩ := Option.map_eq_some_iff.mp h
  cases he
  exact Objects.getID_counts hw hc hid

theorem Objects.destroy_id {o' : Objects α} {p : ℕ} {next : Option ℕ} (h : o.destroy p = some (o', next)) :
    o'.id = o.id := by
  unfold Objects.destroy at h
  split_ifs at h
  · cases h
    rfl
  · obtain ⟨n, -, he⟩ := Option.map_eq_some_iff.mp h
    cases he
    rfl

theorem Objects.clear_id {o' : Objects α} (h : o.clear = some o') : o'.id = o.id := by
  unfold Objects.clear at h
  split_ifs at h
  obtain ⟨d, -, rfl⟩ := Option.map_eq_some_iff.mp h
  rfl

end

theorem Fishs.getFish_id {o o' : Fishs} {id : ℤ} {p : Option ℕ} (h : Fishs.getFish o id = some (o', p)) :
    o'.id = o.id := by
  unfold Fishs.getFish at h
  split_ifs at h
  cases hf : o.list.find (fun f => decide (f.id = id)) with
  | none =>
    rw [hf] at h
    cases h
    rfl
  | some p =>
    simp only [hf] at h
    split_ifs at h
    · cases h
      rfl
    · cases h
      rfl

theorem Fishs.createFrom_counts {o o' : Fishs} (hc : o.Counts) {qty : ℕ} {setting : List SettingFish}
    {rand : ℕ → ℕ} {time : ℚ} {p : Option ℕ} (h : o.createFrom qty setting rand time = some (o', p)) :
    o'.Counts := by
  unfold Fishs.createFrom at h
  by_cases hq : qty = 0
  · rw [if_pos hq] at h
    cases h
  rw [if_neg hq] at h
  cases hf : setting[(myRandom (rand 11) 0 (qty - 1)).toNat]? with
  | none =>
    simp only [hf] at h
    split_ifs at h
    obtain ⟨id, hid, he⟩ := Option.map_eq_some_iff.mp h
    cases he
    exact Objects.getID_counts Fishs.ringWraps hc hid
  | some fish =>
    simp only [hf] at h
    obtain ⟨⟨o₁, q⟩, hq, he⟩ := Option.map_eq_some_iff.mp h
    cases he
    exact Objects.create_counts Fishs.ringWraps hc hq

theorem fishCall_counts {s t : Recorded Fish} {a : FishCall} (h : s.objects.Counts)
    (hc : fishCall s a = some t) : t.objects.Counts := by
  cases a with
  | create qty setting rand time =>
    obtain ⟨⟨o, p⟩, hp, rfl⟩ := Option.map_eq_some_iff.mp hc
    exact Fishs.createFrom_counts h hp
  | destroy p =>
    obtain ⟨⟨o, next⟩, hp, rfl⟩ := Option.map_eq_some_iff.mp hc
    simpa only [Objects.Counts, Objects.destroy_id hp] using h
  | getFish id =>
    obtain ⟨⟨o, p⟩, hp, rfl⟩ := Option.map_eq_some_iff.mp hc
    simpa only [Objects.Counts, Fishs.getFish_id hp] using h
  | clear =>
    obtain ⟨o, hp, rfl⟩ := Option.map_eq_some_iff.mp hc
    simpa only [Objects.Counts, Objects.clear_id hp] using h

theorem bulletCall_counts {s t : Recorded Bullet} {a : BulletCall} (h : s.objects.Counts)
    (hc : bulletCall s a = some t) : t.objects.Counts := by
  cases a with
  | create uid x y angle time =>
    obtain ⟨⟨o, p⟩, hp, rfl⟩ := Option.map_eq_some_iff.mp hc
    exact Objects.create_counts Bullets.ringWraps h hp
  | destroy p =>
    obtain ⟨⟨o, next⟩, hp, rfl⟩ := Option.map_eq_some_iff.mp hc
    simpa only [Objects.Counts, Objects.destroy_id hp] using h
  | getBullet id uid =>
    obtain ⟨p, -, rfl⟩ := Option.map_eq_some_iff.mp hc
    exact h
  | clear =>
    obtain ⟨o, hp, rfl⟩ := Option.map_eq_some_iff.mp hc
    simpa only [Objects.Counts, Objects.clear_id hp] using h

theorem init_counts {α : Type} : (Objects.init : Objects α).Counts := by
  constructor
  · exact le_refl 1
  · exact (by decide : (1 : ℤ) ≤ maxInt)

theorem object_calls_return :
    (∀ s a, Reach fishCall (fun s a => a.ok s) Recorded.init s → a.ok s →
        (s.live.length : ℤ) < maxInt - 1 → (∀ qty setting rand time, a = .create qty setting rand time → qty ≠ 0) →
        (fishCall s a).isSome) ∧
      ∀ s a, Reach bulletCall (fun s a => a.ok s) Recorded.init s → a.ok s →
        (s.live.length : ℤ) < maxInt - 1 → (bulletCall s a).isSome := by
  constructor
  · intro s a hr ha hl hq
    have h := hr.invariant Objects.sound_init (fun s a t h ha hc => fishCall_sound h ha hc)
    have hc := hr.invariant init_counts (fun s a t h _ hc => fishCall_counts h hc)
    cases a with
    | create qty setting rand time =>
      simp only [fishCall, Option.isSome_map, Fishs.createFrom, if_neg (hq qty setting rand time rfl)]
      cases setting[(myRandom (rand 11) 0 (qty - 1)).toNat]? with
      | none =>
        obtain ⟨id, hid⟩ := h.getID Fishs.ringWraps hc hl
        simp [h.lock, Fishs.getID, hid]
      | some fish =>
        obtain ⟨r, hcr⟩ := h.create_some Fishs.ringWraps hc hl (Fish.make rand fish time)
        simp [hcr]
    | destroy p =>
      obtain ⟨next, hd⟩ := h.destroy ha
      simp [fishCall, hd]
    | getFish id =>
      obtain ⟨o', p, hg, -⟩ := Fishs.getFish_sound h id
      simp [fishCall, hg]
    | clear =>
      obtain ⟨o', hg, -⟩ := h.clear
      simp [fishCall, hg]
  · intro s a hr ha hl
    have h := hr.invariant Objects.sound_init (fun s a t h ha hc => bulletCall_sound h ha hc)
    have hc := hr.invariant init_counts (fun s a t h _ hc => bulletCall_counts h hc)
    cases a with
    | create uid x y angle time =>
      obtain ⟨r, hcr⟩ := h.create_some Bullets.ringWraps hc hl
        (fun id => ⟨id, uid, x, y, angle, time, false, false⟩)
      simp [bulletCall, Bullets.create, hcr]
    | destroy p =>
      obtain ⟨next, hd⟩ := h.destroy ha
      simp [bulletCall, hd]
    | getBullet id uid =>
      simp [bulletCall, Bullets.getBullet, h.lock]
    | clear =>
      obtain ⟨o', hg, -⟩ := h.clear
      simp [bulletCall, hg]

theorem object_lists_wellFormed :
    (∀ s, Reach fishCall (fun s a => a.ok s) Recorded.init s → s.objects.WellFormed Fish.id s.live) ∧
      ∀ s, Reach bulletCall (fun s a => a.ok s) Recorded.init s →
        s.objects.WellFormed Bullet.id s.live := by
  constructor
  · intro s hr
    apply Objects.Sound.wellFormed
    exact hr.invariant Objects.sound_init (fun s a t h ha hc => fishCall_sound h ha hc)
  · intro s hr
    apply Objects.Sound.wellFormed
    exact hr.invariant Objects.sound_init (fun s a t h ha hc => bulletCall_sound h ha hc)

theorem object_lists_fail_and_clear :
    ∃ (s : Recorded Fish) (t : Recorded Bullet), s.live = [1] ∧ t.live = [1] ∧ s.objects.WellFormed Fish.id s.live ∧
      t.objects.WellFormed Bullet.id t.live := by
  let setting : List SettingFish := [⟨1, 1, 5⟩]
  have hf : Reach fishCall (fun s a => a.ok s) Recorded.init _ :=
    .step (a := .destroy 0) (.step (a := .create 1 setting (fun _ => 0) 0)
      (.step (a := .create 1 [] (fun _ => 0) 0)
        (.step (a := .create 1 setting (fun _ => 0) 0) .start trivial rfl) trivial rfl) trivial rfl)
      (List.Mem.head _) rfl
  have hb : Reach bulletCall (fun s a => a.ok s) Recorded.init _ :=
    .step (a := .create 7 0 0 [] 2) (.step (a := .clear)
      (.step (a := .create 7 0 0 [] 1) .start trivial rfl) trivial rfl) trivial rfl
  exact ⟨_, _, rfl, rfl, object_lists_wellFormed.1 _ hf, object_lists_wellFormed.2 _ hb⟩

end FishServer
