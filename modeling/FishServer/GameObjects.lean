import FishServer.Basic
import FishServer.Lib.LinkedList

namespace FishServer

open LinkedList

def maxInt : ℤ := 2147483647

/-! `Fishs` and `Bullets` differ in their nodes and in one test of `getID`. -/

structure Objects (α : Type) where
  list : DList α
  id : ℤ
  lock : Bool
  clearing : Bool

def Objects.init {α : Type} : Objects α := ⟨DList.empty, 1, false, false⟩

-- the loop of `getID`; none is for a bound that is too small
def idLoop (wraps taken : ℤ → Bool) : ℕ → ℤ → Option ℤ
  | 0, _ => none
  | n + 1, id =>
    let id := if wraps id then 1 else id
    if taken id then idLoop wraps taken n (id + 1) else some id

section

variable {α : Type} (ident : α → ℤ) (wraps : ℤ → Bool) (o : Objects α)

def Objects.taken (id : ℤ) : Bool := (o.list.find (fun v => decide (ident v = id))).isSome

def Objects.getID : Option ℤ := idLoop wraps (o.taken ident) (o.list.len.toNat + 1) o.id

-- none when the list is locked: the caller spins
def Objects.create (v : ℤ → α) : Option (Objects α × ℕ) :=
  if o.lock then none
  else (o.getID ident wraps).map (fun id => ({ o with list := o.list.append (v id), id }, o.list.fresh))

def Objects.destroy (p : ℕ) : Option (Objects α × Option ℕ) :=
  if o.lock then none
  else if o.clearing then some (o, none)
  else (o.list.node p).map (fun n => ({ o with list := o.list.remove p }, n.next))

def Objects.visit (locked dead : α → Bool) (p : ℕ) : Option (Objects α × Option ℕ) :=
  if o.clearing then some (o, none)
  else
    match o.list.node p with
    | none => none
    | some n =>
      if locked n.val then some (o, n.next)
      else if dead n.val then o.destroy p
      else some (o, n.next)

end

structure Bullet where
  id : ℤ
  uid : ℤ
  x : ℤ
  y : ℤ
  angle : List Char
  createTime : ℚ
  lock : Bool
  isdel : Bool
deriving DecidableEq

abbrev Bullets := Objects Bullet

def Bullets.wraps (id : ℤ) : Bool := decide (100 < id) && decide (maxInt ≤ id)

def Bullets.getID (o : Bullets) : Option ℤ := Objects.getID Bullet.id Bullets.wraps o

def Bullets.create (o : Bullets) (uid x y : ℤ) (angle : List Char) (time : ℚ) : Option (Bullets × ℕ) :=
  Objects.create Bullet.id Bullets.wraps o (fun id => ⟨id, uid, x, y, angle, time, false, false⟩)

def Bullets.answers (id uid : ℤ) (b : Bullet) : Bool :=
  decide (b.id = id) && decide (b.uid = uid) && !b.lock && !b.isdel

def Bullets.getBullet (o : Bullets) (id uid : ℤ) : Option (Option ℕ) :=
  if o.lock then none else some (o.list.find (Bullets.answers id uid))

structure SettingFish where
  id : ℤ
  no : ℤ
  coin : ℤ
deriving DecidableEq

structure Point where
  x : ℤ
  y : ℤ
deriving DecidableEq

structure Fish where
  id : ℤ
  factor : ℤ
  pointStart : Point
  pointCtr1 : Point
  pointCtr2 : Point
  pointEnd : Point
  fish : SettingFish
  type : ℤ
  hitCoin : ℤ
  lock : Bool
  isdel : Bool
  createTime : ℚ
deriving DecidableEq

abbrev Fishs := Objects Fish

def Fishs.wraps (id : ℤ) : Bool := decide (maxInt ≤ id)

def Fishs.getID (o : Fishs) : Option ℤ := Objects.getID Fish.id Fishs.wraps o

def myRandom (r : ℕ) (min max : ℤ) : ℤ := min + (r : ℤ) % (max - min + 1)

def Fish.make (rand : ℕ → ℕ) (fish : SettingFish) (time : ℚ) (id : ℤ) : Fish :=
  let x := -myRandom (rand 1) 200 500
  let x' := myRandom (rand 2) 1200 1500
  let swap := decide (myRandom (rand 3) 0 1 ≠ 0)
  { id
    factor := myRandom (rand 0) 1 100
    pointStart := ⟨if swap then x' else x, myRandom (rand 4) 0 600⟩
    pointEnd := ⟨if swap then x else x', myRandom (rand 5) 0 600⟩
    pointCtr1 := ⟨myRandom (rand 6) 0 600, myRandom (rand 7) 0 600⟩
    pointCtr2 := ⟨myRandom (rand 8) 200 1000, myRandom (rand 9) 0 600⟩
    fish
    type := myRandom (rand 12) 0 22
    hitCoin := 0
    lock := false
    isdel := false
    createTime := time }

/-- `rand` lists what the calls of `rand` return, in the order of the calls. Without a fish setting the
remainder by zero ends the program; none inside is for the NULL of a failed `create`. -/
def Fishs.create (o : Fishs) (setting : List SettingFish) (rand : ℕ → ℕ) (time : ℚ) :
    Option (Fishs × Option ℕ) :=
  if setting = [] then none
  else
    match setting[(myRandom (rand 11) 0 (setting.length - 1)).toNat]? with
    | none => if o.lock then none else (o.getID).map (fun id => ({ o with id }, none))
    | some fish =>
      (Objects.create Fish.id Fishs.wraps o (Fish.make rand fish time)).map (fun r => (r.1, some r.2))

-- the first fish with the id is locked for the caller, none inside is for NULL
def Fishs.getFish (o : Fishs) (id : ℤ) : Option (Fishs × Option ℕ) :=
  if o.lock then none
  else
    match o.list.find (fun f => decide (f.id = id)) with
    | none => some (o, none)
    | some p =>
      if (o.list.value p).any (fun f => !f.lock && !f.isdel) then
        some ({ o with list := o.list.modify (fun f => { f with lock := true }) p }, some p)
      else some (o, none)

def Thread.bulletVisit (o : Bullets) (now : ℚ) (p : ℕ) : Option (Bullets × Option ℕ) :=
  o.visit Bullet.lock (fun b => b.isdel || decide (10 < now - b.createTime)) p

def Thread.fishVisit (o : Fishs) (p : ℕ) : Option (Fishs × Option ℕ) :=
  o.visit Fish.lock Fish.isdel p

structure Objects.Sound {α : Type} (ident : α → ℤ) (o : Objects α) (l : List ℕ) : Prop where
  holds : o.list.Holds l
  lock : o.lock = false
  clearing : o.clearing = false
  ids : ∀ p q v w, o.list.value p = some v → o.list.value q = some w → ident v = ident w → p = q

section

variable {α : Type} {ident : α → ℤ} {wraps : ℤ → Bool} {o : Objects α} {l : List ℕ}

theorem Objects.sound_init : (Objects.init : Objects α).Sound ident [] where
  holds := DList.holds_empty
  lock := rfl
  clearing := rfl
  ids := by
    intro p q v w hv
    cases hv

theorem idLoop_free {taken : ℤ → Bool} {n : ℕ} {id id' : ℤ} (h : idLoop wraps taken n id = some id') :
    taken id' = false := by
  induction n generalizing id with
  | zero => cases h
  | succ n ih =>
    rw [idLoop] at h
    cases ht : taken (if wraps id then 1 else id) with
    | true =>
      simp only [ht, if_true] at h
      exact ih h
    | false =>
      simp only [ht, Bool.false_eq_true, if_false, Option.some.injEq] at h
      rw [← h]
      exact ht

theorem Objects.Sound.taken_iff (h : o.Sound ident l) (id : ℤ) :
    o.taken ident id = false ↔ ∀ p v, o.list.value p = some v → ident v ≠ id := by
  unfold Objects.taken
  constructor
  · intro hn p v hv he
    have ht := h.holds.find_none (Option.isNone_iff_eq_none.mp (Option.isSome_eq_false_iff.mp hn)) hv
    simp [he] at ht
  · intro hall
    cases hf : o.list.find (fun v => decide (ident v = id)) with
    | none => rfl
    | some p =>
      obtain ⟨v, hv, ht⟩ := h.holds.find_some hf
      exact absurd (by simpa using ht) (hall p v hv)

theorem Objects.Sound.create (h : o.Sound ident l) {v : ℤ → α} (hv : ∀ id, ident (v id) = id)
    {o' : Objects α} {p : ℕ} (hc : o.create ident wraps v = some (o', p)) :
    o'.Sound ident (l ++ [p]) ∧ p = o.list.fresh ∧ ∃ id, o'.list = o.list.append (v id) := by
  unfold Objects.create at hc
  rw [if_neg (by rw [h.lock]; decide)] at hc
  obtain ⟨id, hid, hp⟩ := Option.map_eq_some_iff.mp hc
  cases hp
  have hfree := (h.taken_iff id).mp (idLoop_free hid)
  refine ⟨⟨h.holds.append (v id), h.lock, h.clearing, ?_⟩, rfl, id, rfl⟩
  intro p q x y hx hy he
  by_cases hp : p = o.list.fresh
  · by_cases hq : q = o.list.fresh
    · rw [hp, hq]
    · simp only [hp, DList.value_append_self, Option.some.injEq] at hx
      simp only [DList.value_append_of_ne _ _ hq] at hy
      rw [← hx, hv] at he
      exact absurd he.symm (hfree q y hy)
  · simp only [DList.value_append_of_ne _ _ hp] at hx
    by_cases hq : q = o.list.fresh
    · simp only [hq, DList.value_append_self, Option.some.injEq] at hy
      rw [← hy, hv] at he
      exact absurd he (hfree p x hx)
    · simp only [DList.value_append_of_ne _ _ hq] at hy
      exact h.ids p q x y hx hy he

theorem Objects.Sound.modify (h : o.Sound ident l) (f : α → α) (hf : ∀ v, ident (f v) = ident v) (p : ℕ) :
    Objects.Sound ident { o with list := o.list.modify f p } l where
  holds := h.holds.modify f p
  lock := h.lock
  clearing := h.clearing
  ids := by
    have hval : ∀ q w, (o.list.modify f p).value q = some w →
        ∃ w', o.list.value q = some w' ∧ ident w' = ident w := by
      intro q w hw
      by_cases hq : q = p
      · rw [hq, DList.value_modify_self] at hw
        obtain ⟨w', hw', rfl⟩ := Option.map_eq_some_iff.mp hw
        exact ⟨w', by rw [hq, hw'], (hf w').symm⟩
      · rw [DList.value_modify_of_ne _ _ hq] at hw
        exact ⟨w, hw, rfl⟩
    intro q r v w hv hw he
    obtain ⟨v', hv', hv⟩ := hval q v hv
    obtain ⟨w', hw', hw⟩ := hval r w hw
    exact h.ids q r v' w' hv' hw' (hv.trans (he.trans hw.symm))

theorem Objects.Sound.remove (h : o.Sound ident l) {p : ℕ} (hp : p ∈ l) :
    Objects.Sound ident { o with list := o.list.remove p } (l.erase p) where
  holds := h.holds.remove hp
  lock := h.lock
  clearing := h.clearing
  ids := by
    have hval : ∀ q w, (o.list.remove p).value q = some w → o.list.value q = some w := by
      intro q w hw
      by_cases hq : q = p
      · rw [hq, DList.value_remove_self] at hw
        cases hw
      · rwa [DList.value_remove_of_ne _ hq] at hw
    intro q r v w hv hw he
    exact h.ids q r v w (hval q v hv) (hval r w hw) he

theorem Objects.Sound.visit (h : o.Sound ident l) {locked dead : α → Bool} {p : ℕ} {o' : Objects α}
    {next : Option ℕ} (hv : o.visit locked dead p = some (o', next)) :
    o' = o ∨ (p ∈ l ∧ o' = { o with list := o.list.remove p } ∧
      ∃ v, o.list.value p = some v ∧ locked v = false ∧ dead v = true) := by
  unfold Objects.visit at hv
  rw [if_neg (by rw [h.clearing]; decide)] at hv
  cases hn : o.list.node p with
  | none => simp [hn] at hv
  | some n =>
    simp only [hn] at hv
    have hval : o.list.value p = some n.val := by
      unfold DList.value
      rw [hn]
      rfl
    split_ifs at hv with hl hd
    · cases hv
      exact .inl rfl
    · unfold Objects.destroy at hv
      rw [if_neg (by rw [h.lock]; decide), if_neg (by rw [h.clearing]; decide), hn] at hv
      cases hv
      exact .inr ⟨h.holds.mem_of_value hval, rfl, n.val, hval, by simpa using hl, hd⟩
    · cases hv
      exact .inl rfl

end

end FishServer
