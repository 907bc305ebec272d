import FishServer.Lib.Heap
import FishServer.ObjectRuns
import FishServer.Entry

namespace FishServer

open BlockHeap Transition

/-! One room with its two lists as blocks of memory. -/

inductive ListBlock
  | fishs (o : Fishs)
  | bullets (o : Bullets)

structure HeapRoom where
  heap : Heap ListBlock
  fishs : Option ℕ
  bullets : Option ℕ
  players : ℕ → Option Slot

def HeapRoom.isEmpty (r : HeapRoom) : Bool := (List.range 4).all (fun j => (r.players j).isNone)

def HeapRoom.setPlayer (r : HeapRoom) (j : ℕ) (p : Option Slot) : HeapRoom :=
  { r with players := Function.update r.players j p }

/-- What `inRoom` does for a room without lists. The message shows the new fish, so the program ends when
there is none. -/
def HeapRoom.openLists (r : HeapRoom) (qty : ℕ) (setting : List SettingFish) (rand : ℕ → ℕ) (time : ℚ) :
    Option HeapRoom :=
  let f := r.heap.fresh
  let h := r.heap.malloc (.fishs Objects.init)
  let b := h.fresh
  let h := h.malloc (.bullets Objects.init)
  match Fishs.createFrom Objects.init qty setting rand time with
  | some (o, some _) =>
    some { r with heap := h.modify (fun _ => .fishs o) f, fishs := some f, bullets := some b }
  | _ => none

def HeapRoom.seat (r : HeapRoom) (j : ℕ) (i : Slot) (qty : ℕ) (setting : List SettingFish) (rand : ℕ → ℕ)
    (time : ℚ) : Option HeapRoom :=
  if r.fishs = none then (r.setPlayer j (some i)).openLists qty setting rand time
  else some (r.setPlayer j (some i))

def clearFree (h : Heap ListBlock) (p : ℕ) : Option (Heap ListBlock) :=
  match h.block p with
  | some (.fishs o) => o.clear.bind (fun o => (h.modify (fun _ => .fishs o) p).free p)
  | some (.bullets o) => o.clear.bind (fun o => (h.modify (fun _ => .bullets o) p).free p)
  | none => none

def HeapRoom.freeFishs (r : HeapRoom) : Option HeapRoom :=
  r.fishs.elim (some r) (fun p => (clearFree r.heap p).map (fun h => { r with heap := h, fishs := none }))

def HeapRoom.freeBullets (r : HeapRoom) : Option HeapRoom :=
  r.bullets.elim (some r) (fun p => (clearFree r.heap p).map (fun h => { r with heap := h, bullets := none }))

def HeapRoom.leave (r : HeapRoom) (j : ℕ) : Option HeapRoom :=
  let r := r.setPlayer j none
  if r.isEmpty then r.freeFishs.bind HeapRoom.freeBullets else some r

/-- The calls of the players. `play` is what the game makes of the two lists in between. -/
inductive RoomOp
  | seat (j : ℕ) (i : Slot) (qty : ℕ) (setting : List SettingFish) (rand : ℕ → ℕ) (time : ℚ)
  | leave (j : ℕ)
  | play (fishs : Fishs) (bullets : Bullets)

def HeapRoom.play (r : HeapRoom) (fishs : Fishs) (bullets : Bullets) : Option HeapRoom :=
  match r.fishs, r.bullets with
  | some f, some b =>
    some { r with heap := (r.heap.modify (fun _ => .fishs fishs) f).modify (fun _ => .bullets bullets) b }
  | _, _ => none

def roomStep (r : HeapRoom) : RoomOp → Option HeapRoom
  | .seat j i qty setting rand time => r.seat j i qty setting rand time
  | .leave j => r.leave j
  | .play fishs bullets => r.play fishs bullets

def RoomOp.ok (r : HeapRoom) : RoomOp → Prop
  | .seat j .. => j < 4 ∧ r.players j = none
  | .leave j => j < 4 ∧ r.players j ≠ none
  | .play fishs bullets => (∃ l, fishs.Sound Fish.id l) ∧ ∃ l, bullets.Sound Bullet.id l

def HeapRoom.new (h : Heap ListBlock) : HeapRoom := ⟨h, none, none, fun _ => none⟩

inductive Lists (h : Heap ListBlock) : Option ℕ → Option ℕ → Prop
  | absent : Lists h none none
  | present {f b : ℕ} {o : Fishs} {o' : Bullets} {l l' : List ℕ} : f ≠ b → h.block f = some (.fishs o) →
    h.block b = some (.bullets o') → o.Sound Fish.id l → o'.Sound Bullet.id l' → Lists h (some f) (some b)

structure HeapRoom.Sound (h₀ : Heap ListBlock) (r : HeapRoom) : Prop where
  lists : Lists r.heap r.fishs r.bullets
  occupied : r.fishs.isSome = !r.isEmpty
  fresh : h₀.fresh ≤ r.heap.fresh
  freed : ∃ bs, r.heap.freed = h₀.freed ++ bs ∧
    (bs ++ (r.fishs.toList ++ r.bullets.toList)).Perm (h₀.since r.heap)

section

variable {h₀ h : Heap ListBlock} {r r' : HeapRoom}

theorem Lists.bullets_none {f b : Option ℕ} (hl : Lists h f b) (hf : f = none) : b = none := by
  cases hl with
  | absent => rfl
  | present => cases hf

theorem clearFree_fishs {p : ℕ} {o : Fishs} {l : List ℕ} (hp : h.block p = some (.fishs o))
    (ho : o.Sound Fish.id l) : ∃ h', clearFree h p = some h' ∧ Released [p] h h' := by
  obtain ⟨o', hc, -⟩ := ho.clear
  obtain ⟨h', hf, hr⟩ := released_modify h hp (.fishs o')
  refine ⟨h', ?_, hr⟩
  simp only [clearFree, hp, hc, Option.bind_some, hf]

theorem clearFree_bullets {p : ℕ} {o : Bullets} {l : List ℕ} (hp : h.block p = some (.bullets o))
    (ho : o.Sound Bullet.id l) : ∃ h', clearFree h p = some h' ∧ Released [p] h h' := by
  obtain ⟨o', hc, -⟩ := ho.clear
  obtain ⟨h', hf, hr⟩ := released_modify h hp (.bullets o')
  refine ⟨h', ?_, hr⟩
  simp only [clearFree, hp, hc, Option.bind_some, hf]

theorem free_both (hl : Lists r.heap r.fishs r.bullets) : ∃ h',
    r.freeFishs.bind HeapRoom.freeBullets = some { r with heap := h', fishs := none, bullets := none } ∧
      Released (r.fishs.toList ++ r.bullets.toList) r.heap h' := by
  obtain ⟨h, fishs, bullets, players⟩ := r
  cases hl with
  | absent => exact ⟨h, rfl, Released.refl h⟩
  | @present f b o o' l l' hne hf hb ho ho' =>
    obtain ⟨h₁, hc₁, hr₁⟩ := clearFree_fishs hf ho
    have hb₁ : h₁.block b = some (.bullets o') :=
      (hr₁.kept b (fun hm => hne (List.mem_singleton.mp hm).symm)).trans hb
    obtain ⟨h₂, hc₂, hr₂⟩ := clearFree_bullets hb₁ ho'
    refine ⟨h₂, ?_, hr₁.trans hr₂⟩
    simp only [HeapRoom.freeFishs, HeapRoom.freeBullets, Option.elim_some, hc₁, Option.map_some,
      Option.bind_some, hc₂]

theorem isEmpty_iff : r.isEmpty = true ↔ ∀ j < 4, r.players j = none := by
  simp [HeapRoom.isEmpty, List.all_eq_true]

theorem seat_not_empty (r : HeapRoom) {j : ℕ} (hj : j < 4) (i : Slot) :
    (r.setPlayer j (some i)).isEmpty = false := by
  rw [← Bool.not_eq_true, isEmpty_iff]
  intro h
  have hj' := h j hj
  simp [HeapRoom.setPlayer] at hj'

theorem openLists_some {qty : ℕ} {setting : List SettingFish} {rand : ℕ → ℕ} {time : ℚ}
    (ho : r.openLists qty setting rand time = some r') :
    ∃ o p, Fishs.createFrom Objects.init qty setting rand time = some (o, some p) ∧
      r' = { r with
        heap := ((r.heap.malloc (.fishs Objects.init)).malloc (.bullets Objects.init)).modify
          (fun _ => .fishs o) r.heap.fresh
        fishs := some r.heap.fresh
        bullets := some (r.heap.fresh + 1) } := by
  unfold HeapRoom.openLists at ho
  cases hc : Fishs.createFrom Objects.init qty setting rand time with
  | none => simp [hc] at ho
  | some q =>
    obtain ⟨o, p⟩ := q
    cases p with
    | none => simp [hc] at ho
    | some p =>
      rw [hc] at ho
      cases ho
      exact ⟨o, p, rfl, rfl⟩

theorem myRandom_lt (n : ℕ) {qty : ℕ} (hq : 0 < qty) : (myRandom n 0 (qty - 1)).toNat < qty := by
  have hlt := Int.emod_lt_of_pos (n : ℤ) (Int.natCast_pos.mpr hq)
  have hr : myRandom n 0 (qty - 1) = (n : ℤ) % qty := by
    unfold myRandom
    rw [sub_zero, sub_add_cancel, zero_add]
  omega

theorem seat_returns (r : HeapRoom) (j : ℕ) (i : Slot) {qty : ℕ} {setting : List SettingFish} (hq : 0 < qty)
    (hl : qty ≤ setting.length) (rand : ℕ → ℕ) (time : ℚ) : (r.seat j i qty setting rand time).isSome := by
  unfold HeapRoom.seat
  split_ifs with hf
  · have hidx := lt_of_lt_of_le (myRandom_lt (rand 11) hq) hl
    obtain ⟨p, hp⟩ := (@Objects.sound_init Fish Fish.id).create_some Fishs.ringWraps init_counts (by decide)
      (Fish.make rand (setting[(myRandom (rand 11) 0 (qty - 1)).toNat]) time)
    have hc : Fishs.createFrom Objects.init qty setting rand time = some (p.1, some p.2) := by
      unfold Fishs.createFrom
      rw [if_neg (Nat.pos_iff_ne_zero.mp hq), List.getElem?_eq_getElem hidx]
      exact congrArg (Option.map (fun r => (r.1, some r.2))) hp
    simp [HeapRoom.openLists, hc]
  · rfl

theorem opened_fishs (h : Heap ListBlock) (o : Fishs) :
    (((h.malloc (.fishs Objects.init)).malloc (.bullets Objects.init)).modify
      (fun _ => .fishs o) h.fresh).block h.fresh = some (.fishs o) := by
  rw [modify_self, malloc_block _ _ (by simp), malloc_new]
  rfl

theorem opened_bullets (h : Heap ListBlock) (o : Fishs) :
    (((h.malloc (.fishs Objects.init)).malloc (.bullets Objects.init)).modify
      (fun _ => .fishs o) h.fresh).block (h.fresh + 1) = some (.bullets Objects.init) := by
  rw [modify_block _ _ (by omega)]
  exact malloc_new (h.malloc (.fishs Objects.init)) _

theorem HeapRoom.Sound.openLists (hs : r.Sound h₀) (hf : r.fishs = none) {j : ℕ} (hj : j < 4) {i : Slot}
    {qty : ℕ} {setting : List SettingFish} {rand : ℕ → ℕ} {time : ℚ}
    (ho : (r.setPlayer j (some i)).openLists qty setting rand time = some r') : r'.Sound h₀ := by
  obtain ⟨o, p, hc, rfl⟩ := openLists_some ho
  obtain ⟨bs, hfreed, hperm⟩ := hs.freed
  have hb : r.bullets = none := hs.lists.bullets_none hf
  have hsound := Fishs.createFrom_sound (@Objects.sound_init Fish Fish.id) hc
  rw [hf, hb] at hperm
  constructor
  · exact .present (by simp [HeapRoom.setPlayer]) (opened_fishs r.heap o) (opened_bullets r.heap o) hsound
      Objects.sound_init
  · rw [Option.isSome_some]
    exact (Bool.not_eq_eq_eq_not.mpr (seat_not_empty r hj i)).symm
  · exact le_trans hs.fresh (by simp [HeapRoom.setPlayer]; omega)
  · refine ⟨bs, hfreed, ?_⟩
    have htwo : r.heap.since (((r.heap.malloc (.fishs Objects.init)).malloc (.bullets Objects.init)).modify
        (fun _ => .fishs o) r.heap.fresh) = [r.heap.fresh, r.heap.fresh + 1] := by
      rw [Heap.since, modify_fresh, malloc_fresh, malloc_fresh, Nat.add_assoc, Nat.add_sub_cancel_left]
      rfl
    have hsince := since_append hs.fresh (by simp only [modify_fresh, malloc_fresh]; omega :
      r.heap.fresh ≤ (((r.heap.malloc (.fishs Objects.init)).malloc (.bullets Objects.init)).modify
        (fun _ => .fishs o) r.heap.fresh).fresh)
    rw [htwo] at hsince
    have hp := (hperm.append_right [r.heap.fresh, r.heap.fresh + 1])
    rw [hsince] at hp
    simpa [HeapRoom.setPlayer] using hp

theorem HeapRoom.Sound.seat (hs : r.Sound h₀) {j : ℕ} (hj : j < 4) {i : Slot} {qty : ℕ}
    {setting : List SettingFish} {rand : ℕ → ℕ} {time : ℚ}
    (ho : r.seat j i qty setting rand time = some r') : r'.Sound h₀ := by
  unfold HeapRoom.seat at ho
  split_ifs at ho with hf
  · exact hs.openLists hf hj ho
  · cases ho
    refine ⟨hs.lists, ?_, hs.fresh, hs.freed⟩
    rw [seat_not_empty r hj i]
    exact Option.isSome_iff_ne_none.mpr hf

theorem HeapRoom.Sound.leave (hs : r.Sound h₀) {j : ℕ} (hj : r.players j ≠ none) (hj4 : j < 4) :
    ∃ r', r.leave j = some r' ∧ r'.Sound h₀ := by
  obtain ⟨bs, hfreed, hperm⟩ := hs.freed
  unfold HeapRoom.leave
  by_cases he : (r.setPlayer j none).isEmpty = true
  · rw [if_pos he]
    obtain ⟨h', hfree, hr⟩ := free_both (r := r.setPlayer j none) hs.lists
    refine ⟨_, hfree, .absent, ?_, ?_, ?_⟩
    · rw [Option.isSome_none]
      exact (Bool.not_eq_eq_eq_not.mpr he).symm
    · rw [hr.fresh]
      exact hs.fresh
    · refine ⟨bs ++ (r.fishs.toList ++ r.bullets.toList), ?_, ?_⟩
      · rw [← List.append_assoc, ← hfreed]
        exact hr.freed
      · rw [Option.toList_none, List.append_nil, List.append_nil]
        have hsince : h₀.since h' = h₀.since r.heap := by
          unfold Heap.since
          rw [hr.fresh]
          rfl
        rw [hsince]
        exact hperm
  · rw [if_neg he]
    refine ⟨_, rfl, hs.lists, ?_, hs.fresh, bs, hfreed, hperm⟩
    have hne : r.isEmpty = false := by
      rw [← Bool.not_eq_true, isEmpty_iff]
      exact fun hall => hj (hall j hj4)
    rw [Bool.not_eq_true] at he
    rw [he]
    exact hs.occupied.trans (by rw [hne])

theorem HeapRoom.Sound.play (hs : r.Sound h₀) {fishs : Fishs} {bullets : Bullets}
    (hf : ∃ l, fishs.Sound Fish.id l) (hb : ∃ l, bullets.Sound Bullet.id l)
    (ho : r.play fishs bullets = some r') : r'.Sound h₀ := by
  obtain ⟨h, rf, rb, players⟩ := r
  obtain ⟨l, hl⟩ := hf
  obtain ⟨l', hl'⟩ := hb
  have hlists := hs.lists
  cases hlists with
  | absent => cases ho
  | present hne hf hb =>
    cases ho
    refine ⟨?_, hs.occupied, hs.fresh, hs.freed⟩
    refine .present hne ?_ ?_ hl hl'
    · rw [modify_block _ _ hne, modify_self, hf]
      rfl
    · rw [modify_self, modify_block _ _ hne.symm, hb]
      rfl

theorem roomStep_sound {a : RoomOp} (hs : r.Sound h₀) (ha : a.ok r) (hr : roomStep r a = some r') :
    r'.Sound h₀ := by
  cases a with
  | seat j i qty setting rand time => exact hs.seat ha.1 hr
  | leave j =>
    obtain ⟨r'', hl, hs'⟩ := hs.leave ha.2 ha.1
    obtain rfl := Option.some.inj (hl.symm.trans hr)
    exact hs'
  | play fishs bullets => exact hs.play ha.1 ha.2 hr

theorem new_sound (h : Heap ListBlock) : (HeapRoom.new h).Sound h where
  lists := .absent
  occupied := rfl
  fresh := le_refl _
  freed := ⟨[], (List.append_nil _).symm, List.Perm.of_eq (since_self h).symm⟩

end

/-! The room of the server is this one without the places of its lists. -/

def fishsAt (h : Heap ListBlock) (p : Option ℕ) : Option Fishs :=
  match p.bind h.block with
  | some (.fishs o) => some o
  | _ => none

def bulletsAt (h : Heap ListBlock) (p : Option ℕ) : Option Bullets :=
  match p.bind h.block with
  | some (.bullets o) => some o
  | _ => none

def HeapRoom.toRoom (r : HeapRoom) : Room := ⟨fishsAt r.heap r.fishs, bulletsAt r.heap r.bullets, r.players⟩

section

variable {h₀ : Heap ListBlock} {r r' : HeapRoom}

theorem fishsAt_eq {h : Heap ListBlock} {p : ℕ} {o : Fishs} (hp : h.block p = some (.fishs o)) :
    fishsAt h (some p) = some o := by
  unfold fishsAt
  rw [Option.bind_some, hp]

theorem bulletsAt_eq {h : Heap ListBlock} {p : ℕ} {o : Bullets} (hp : h.block p = some (.bullets o)) :
    bulletsAt h (some p) = some o := by
  unfold bulletsAt
  rw [Option.bind_some, hp]

theorem toRoom_leave (hs : r.Sound h₀) {j : ℕ} (hl : r.leave j = some r') :
    r'.toRoom = (r.toRoom.setPlayer j none).close := by
  unfold HeapRoom.leave at hl
  unfold Room.close
  have hempty : (r.toRoom.setPlayer j none).isEmpty = (r.setPlayer j none).isEmpty := rfl
  rw [hempty]
  by_cases he : (r.setPlayer j none).isEmpty = true
  · rw [if_pos he] at hl ⊢
    obtain ⟨h', hfree, -⟩ := free_both (r := r.setPlayer j none) hs.lists
    obtain rfl := Option.some.inj (hfree.symm.trans hl)
    rfl
  · rw [if_neg he] at hl ⊢
    obtain rfl := Option.some.inj hl
    rfl

theorem toRoom_seated {j : ℕ} {i : Slot} {qty : ℕ} {setting : List SettingFish} {rand : ℕ → ℕ} {time : ℚ}
    (hf : r.fishs ≠ none) (ho : r.seat j i qty setting rand time = some r') :
    r'.toRoom = r.toRoom.setPlayer j (some i) := by
  unfold HeapRoom.seat at ho
  rw [if_neg hf] at ho
  obtain rfl := Option.some.inj ho
  rfl

theorem toRoom_opened {j : ℕ} {i : Slot} {rand : ℕ → ℕ} {time : ℚ} {t : Server} {p : Player} {k : ℕ}
    (hf : r.fishs = none) (ho : r.seat j i t.fish.length t.fish rand time = some r')
    (ht : t.rooms.room k = r.toRoom.setPlayer j (some i)) :
    ∃ t', Entry.openRoom t p k time rand = some t' ∧ t'.rooms.room k = r'.toRoom := by
  unfold HeapRoom.seat at ho
  rw [if_pos hf] at ho
  obtain ⟨o, f, hc, rfl⟩ := openLists_some ho
  have hsound := Fishs.createFrom_sound (@Objects.sound_init Fish Fish.id) hc
  obtain ⟨fish, hv⟩ := hsound.holds.value_of_mem (p := f) (by simp)
  rw [← Fishs.create_eq] at hc
  unfold Entry.openRoom
  rw [hc]
  simp only [hv, Option.map_some]
  refine ⟨_, rfl, ?_⟩
  change (Rooms.setRoom _ k _).room k = _
  simp only [Rooms.setRoom, Function.update_self, ht]
  unfold HeapRoom.toRoom
  rw [fishsAt_eq (opened_fishs _ o), bulletsAt_eq (opened_bullets _ o)]
  rfl

end

/-- The lists of a room are there exactly while a seat is taken, each is freed once, and a room that fills
again has lists of its own. -/
structure HeapRoom.FollowsOccupancy (h₀ : Heap ListBlock) (r : HeapRoom) : Prop where
  fishs : r.fishs.isSome ↔ ∃ j < 4, r.players j ≠ none
  bullets : r.bullets.isSome ↔ ∃ j < 4, r.players j ≠ none
  freedOnce : ∃ bs, r.heap.freed = h₀.freed ++ bs ∧ bs.Nodup ∧
    ∀ p, p ∈ bs ↔ p ∈ h₀.since r.heap ∧ r.fishs ≠ some p ∧ r.bullets ≠ some p
  leaves : ∀ j, (RoomOp.leave j).ok r → ∃ r', r.leave j = some r' ∧
    (r'.isEmpty = true → ∃ f b, r.fishs = some f ∧ r.bullets = some b ∧
      r'.heap.freed = r.heap.freed ++ [f, b])
  seats : ∀ j i qty setting rand time, (RoomOp.seat j i qty setting rand time).ok r → 0 < qty →
    qty ≤ setting.length → (r.seat j i qty setting rand time).isSome
  opens : ∀ j i qty setting rand time r', (RoomOp.seat j i qty setting rand time).ok r →
    r.seat j i qty setting rand time = some r' → r.isEmpty = true →
    ∃ f b o p, r'.fishs = some f ∧ r'.bullets = some b ∧ r.heap.fresh ≤ f ∧ r.heap.fresh ≤ b ∧
      r'.heap.block f = some (.fishs o) ∧ o.list.Holds [p] ∧ r'.heap.block b = some (.bullets Objects.init)

section

variable {h₀ : Heap ListBlock} {r r' : HeapRoom}

theorem not_isEmpty_iff : (!r.isEmpty) = true ↔ ∃ j < 4, r.players j ≠ none := by
  rw [Bool.not_eq_true', ← Bool.not_eq_true, isEmpty_iff]
  push Not
  rfl

theorem HeapRoom.Sound.freedOnce (hs : r.Sound h₀) : ∃ bs, r.heap.freed = h₀.freed ++ bs ∧ bs.Nodup ∧
    ∀ p, p ∈ bs ↔ p ∈ h₀.since r.heap ∧ r.fishs ≠ some p ∧ r.bullets ≠ some p := by
  obtain ⟨bs, hfreed, hperm⟩ := hs.freed
  have hnodup := hperm.nodup_iff.mpr (since_nodup h₀ r.heap)
  rw [List.nodup_append] at hnodup
  refine ⟨bs, hfreed, hnodup.1, ?_⟩
  intro p
  have hmem := hperm.mem_iff (a := p)
  simp only [List.mem_append, Option.mem_toList] at hmem
  constructor
  · intro hp
    refine ⟨hmem.mp (.inl hp), ?_, ?_⟩
    · intro hf
      exact hnodup.2.2 p hp p (by simp [hf]) rfl
    · intro hb
      exact hnodup.2.2 p hp p (by simp [hb]) rfl
  · rintro ⟨hp, hf, hb⟩
    rcases hmem.mpr hp with hm | hm | hm
    · exact hm
    · exact absurd hm hf
    · exact absurd hm hb

theorem HeapRoom.Sound.leaves (hs : r.Sound h₀) {j : ℕ} (hok : (RoomOp.leave j).ok r) :
    ∃ r', r.leave j = some r' ∧ (r'.isEmpty = true → ∃ f b, r.fishs = some f ∧ r.bullets = some b ∧
      r'.heap.freed = r.heap.freed ++ [f, b]) := by
  obtain ⟨hj4, hj⟩ := hok
  obtain ⟨r', hl, -⟩ := hs.leave hj hj4
  refine ⟨r', hl, ?_⟩
  intro hempty
  unfold HeapRoom.leave at hl
  have he : (r.setPlayer j none).isEmpty = true := by
    by_contra he
    rw [if_neg he] at hl
    obtain rfl := Option.some.inj hl
    exact he hempty
  rw [if_pos he] at hl
  obtain ⟨h', hfree, hr⟩ := free_both (r := r.setPlayer j none) hs.lists
  obtain rfl := Option.some.inj (hfree.symm.trans hl)
  have hocc : r.fishs.isSome = true := by
    rw [hs.occupied, not_isEmpty_iff]
    exact ⟨j, hj4, hj⟩
  obtain ⟨f, hf⟩ := Option.isSome_iff_exists.mp hocc
  have hlists := hs.lists
  rw [hf] at hlists
  obtain ⟨b, hb⟩ : ∃ b, r.bullets = some b := by
    generalize r.bullets = b at hlists
    cases hlists
    exact ⟨_, rfl⟩
  refine ⟨f, b, hf, hb, ?_⟩
  have hfreed := hr.freed
  simp only [HeapRoom.setPlayer, hf, hb, Option.toList_some] at hfreed
  exact hfreed

theorem HeapRoom.Sound.opens (hs : r.Sound h₀) {j : ℕ} {i : Slot} {qty : ℕ} {setting : List SettingFish}
    {rand : ℕ → ℕ} {time : ℚ} (ho : r.seat j i qty setting rand time = some r') (he : r.isEmpty = true) :
    ∃ f b o p, r'.fishs = some f ∧ r'.bullets = some b ∧ r.heap.fresh ≤ f ∧ r.heap.fresh ≤ b ∧
      r'.heap.block f = some (.fishs o) ∧ o.list.Holds [p] ∧
      r'.heap.block b = some (.bullets Objects.init) := by
  have hf : r.fishs = none := by
    have hocc := hs.occupied
    rw [he] at hocc
    simpa using hocc
  unfold HeapRoom.seat at ho
  rw [if_pos hf] at ho
  obtain ⟨o, p, hc, rfl⟩ := openLists_some ho
  have hsound := Fishs.createFrom_sound (@Objects.sound_init Fish Fish.id) hc
  exact ⟨r.heap.fresh, r.heap.fresh + 1, o, p, rfl, rfl, le_refl _, Nat.le_succ _, opened_fishs r.heap o,
    hsound.holds, opened_bullets r.heap o⟩

end

theorem room_lists_follow_occupancy (h₀ : Heap ListBlock) (r : HeapRoom)
    (hr : Reach roomStep (fun r a => a.ok r) (HeapRoom.new h₀) r) : r.FollowsOccupancy h₀ := by
  have hs := hr.invariant (new_sound h₀) (fun r a r' hs ha hstep => roomStep_sound hs ha hstep)
  constructor
  · rw [hs.occupied, not_isEmpty_iff]
  · rw [← not_isEmpty_iff, ← hs.occupied]
    have hlists := hs.lists
    generalize r.fishs = f, r.bullets = b at hlists
    cases hlists <;> simp
  · exact hs.freedOnce
  · exact fun j hok => hs.leaves hok
  · exact fun j i qty setting rand time _ hq hl => seat_returns r j i hq hl rand time
  · exact fun j i qty setting rand time r' _ ho he => hs.opens ho he

theorem room_refilled : ∃ r : HeapRoom, r.FollowsOccupancy Heap.empty ∧ r.heap.freed = [0, 1] ∧ r.fishs = some 2 := by
  have hr : Reach roomStep (fun r a => a.ok r) (HeapRoom.new Heap.empty) _ :=
    .step (a := .seat 0 0 1 [⟨1, 1, 5⟩] (fun _ => 0) 0)
      (.step (a := .leave 3) (.step (a := .leave 0)
        (.step (a := .seat 3 1 1 [⟨1, 1, 5⟩] (fun _ => 0) 0)
          (.step (a := .seat 0 0 1 [⟨1, 1, 5⟩] (fun _ => 0) 0) .start
            ⟨by decide, rfl⟩ rfl) ⟨by decide, rfl⟩ rfl) ⟨by decide, Option.some_ne_none _⟩ rfl)
        ⟨by decide, Option.some_ne_none _⟩ rfl) ⟨by decide, rfl⟩ rfl
  exact ⟨_, room_lists_follow_occupancy Heap.empty _ hr, rfl, rfl⟩

end FishServer
