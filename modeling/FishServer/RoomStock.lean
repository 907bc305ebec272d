import FishServer.SessionRefine
import FishServer.Stock

namespace FishServer

/-! The lists of the rooms are sound, and in them no object is locked or can be paid for twice. -/

def PaidBullet (awards : List Award) (r b : ℕ) : Prop := ∃ w ∈ awards, w.room = r ∧ w.bullet = b

def PaidFish (awards : List Award) (r f : ℕ) : Prop := ∃ w ∈ awards, w.room = r ∧ w.fish = f

structure Rooms.Stocked (rs : Rooms) (awards : List Award) : Prop where
  bullets : ∀ r o, r < rs.maxRoom → (rs.room r).bullets = some o → Bullets.Stock o (PaidBullet awards r)
  fishs : ∀ r o, r < rs.maxRoom → (rs.room r).fishs = some o → Fishs.Stock o (PaidFish awards r)

structure Rooms.Thins (rs rs' : Rooms) : Prop where
  maxRoom : rs'.maxRoom = rs.maxRoom
  bullets : ∀ r o, (rs'.room r).bullets = some o → (rs.room r).bullets = some o
  fishs : ∀ r o, (rs'.room r).fishs = some o → (rs.room r).fishs = some o

section

variable {rs rs' rs'' : Rooms} {awards awards' : List Award} {s t : Server}

theorem Rooms.Thins.refl (rs : Rooms) : rs.Thins rs := ⟨rfl, fun _ _ h => h, fun _ _ h => h⟩

theorem Rooms.Thins.trans (h : rs.Thins rs') (h' : rs'.Thins rs'') : rs.Thins rs'' :=
  ⟨h'.maxRoom.trans h.maxRoom, fun r o ho => h.bullets r o (h'.bullets r o ho),
    fun r o ho => h.fishs r o (h'.fishs r o ho)⟩

theorem Rooms.Stocked.thins (h : rs.Stocked awards) (ht : rs.Thins rs') : rs'.Stocked awards where
  bullets := fun r o hr ho => h.bullets r o (ht.maxRoom ▸ hr) (ht.bullets r o ho)
  fishs := fun r o hr ho => h.fishs r o (ht.maxRoom ▸ hr) (ht.fishs r o ho)

theorem Rooms.Stocked.mono (h : rs.Stocked awards) (hl : awards' ⊆ awards) : rs.Stocked awards' where
  bullets := by
    intro r o hr ho
    apply (h.bullets r o hr ho).mono
    rintro p ⟨w, hw, hp⟩
    exact ⟨w, hl hw, hp⟩
  fishs := by
    intro r o hr ho
    apply (h.fishs r o hr ho).mono
    rintro p ⟨w, hw, hp⟩
    exact ⟨w, hl hw, hp⟩

theorem setRoom_thins (rs : Rooms) (r : ℕ) (room : Room)
    (hb : ∀ o, room.bullets = some o → (rs.room r).bullets = some o)
    (hf : ∀ o, room.fishs = some o → (rs.room r).fishs = some o) : rs.Thins (rs.setRoom r room) := by
  have hroom : ∀ q, q ≠ r → (rs.setRoom r room).room q = rs.room q := fun q hq => Function.update_of_ne hq _ _
  have hself : (rs.setRoom r room).room r = room := Function.update_self ..
  refine ⟨rfl, ?_, ?_⟩
  · intro q o ho
    by_cases hq : q = r
    · subst hq
      rw [hself] at ho
      exact hb o ho
    · rwa [hroom q hq] at ho
  · intro q o ho
    by_cases hq : q = r
    · subst hq
      rw [hself] at ho
      exact hf o ho
    · rwa [hroom q hq] at ho

theorem leave_thins (rs : Rooms) (p : Player) : rs.Thins (rs.leave p).1 := by
  unfold Rooms.leave
  split_ifs
  · exact .refl rs
  · apply setRoom_thins
    · intro o ho
      unfold Room.close at ho
      split_ifs at ho
      exact ho
    · intro o ho
      unfold Room.close at ho
      split_ifs at ho
      exact ho

theorem remove_rooms (s : Server) (p : Player) : (Players.remove s p).1.rooms = s.rooms := by
  unfold Players.remove
  split_ifs <;> rfl

theorem drop_thins (s : Server) (i : Slot) : s.rooms.Thins (s.drop i).rooms := by
  have h : (s.drop i).rooms = (s.rooms.leave (s.slot i)).1 := remove_rooms (s.leaveRoom i) _
  rw [h]
  apply leave_thins

theorem dropCopy_thins (s : Server) (k : Slot) : s.rooms.Thins (s.dropCopy k).rooms := by
  have h : (s.dropCopy k).rooms = (s.rooms.leave (s.slot k)).1 :=
    remove_rooms { s with rooms := (s.rooms.leave (s.slot k)).1 } _
  rw [h]
  apply leave_thins

theorem exitLoop_thins (s : Server) (i : Slot) (num : ℕ) (ks : List Slot) :
    s.rooms.Thins (Entry.exitLoop s i num ks).1.rooms := by
  induction ks generalizing s num with
  | nil => exact .refl s.rooms
  | cons k ks ih =>
    rw [Entry.exitLoop]
    split_ifs
    · exact ih s num
    · exact (dropCopy_thins (s.send (s.slot i) (.exiting (s.slot k).socket (num + 1) 0)) k).trans (ih _ _)

theorem kickUser_thins (s : Server) (i : Slot) (json : JsonValue) :
    s.rooms.Thins (Entry.kickUser s i json).rooms := by
  unfold Entry.kickUser
  simp only
  split_ifs
  · exact .refl s.rooms
  · exact .refl s.rooms
  · split
    · exact .refl s.rooms
    · apply dropCopy_thins

theorem exit_thins (s : Server) (i : Slot) : s.rooms.Thins (Entry.exit s i).rooms := by
  unfold Entry.exit
  generalize List.finRange 1024 = ks
  exact exitLoop_thins { s with closeing := true } i 0 ks

theorem verify_thins (signKey : CStr → ℤ) (s : Server) (i : Slot) (key : CStr) (loaded : User) :
    s.rooms.Thins (Thread.verifyAccount signKey s i key loaded).rooms := by
  unfold Thread.verifyAccount
  rcases verifyScan_cases signKey s i key with ⟨p, r, hscan⟩ | ⟨_, _, _, hfound⟩
  · rw [hscan]
    exact .refl s.rooms
  · rcases hfound with ⟨_, hscan⟩ | ⟨k, _, _, p, r, hscan⟩
    · rw [hscan]
      exact .refl s.rooms
    · rw [hscan]
      exact drop_thins (s.send p r) k

theorem Rooms.Stocked.change (h : rs.Stocked awards) (r : ℕ) (hmax : rs'.maxRoom = rs.maxRoom)
    (hother : ∀ q, q ≠ r → rs'.room q = rs.room q) (hpaid : ∀ w ∈ awards', w ∈ awards ∨ w.room = r)
    (hb : ∀ o, r < rs.maxRoom → (rs'.room r).bullets = some o → Bullets.Stock o (PaidBullet awards' r))
    (hf : ∀ o, r < rs.maxRoom → (rs'.room r).fishs = some o → Fishs.Stock o (PaidFish awards' r)) :
    rs'.Stocked awards' := by
  have hold : ∀ q w, q ≠ r → w ∈ awards' → w.room = q → w ∈ awards := by
    intro q w hq hw hwq
    rcases hpaid w hw with hw | hr
    · exact hw
    · exact absurd (hwq.symm.trans hr) hq
  constructor
  · intro q o hq ho
    rw [hmax] at hq
    by_cases he : q = r
    · subst he
      exact hb o hq ho
    · rw [hother q he] at ho
      apply (h.bullets q o hq ho).mono
      rintro p ⟨w, hw, hwq, hp⟩
      exact ⟨w, hold q w he hw hwq, hwq, hp⟩
  · intro q o hq ho
    rw [hmax] at hq
    by_cases he : q = r
    · subst he
      exact hf o hq ho
    · rw [hother q he] at ho
      apply (h.fishs q o hq ho).mono
      rintro p ⟨w, hw, hwq, hp⟩
      exact ⟨w, hold q w he hw hwq, hwq, hp⟩

theorem Rooms.Stocked.setBullets (h : s.rooms.Stocked awards) {r : ℕ} {o : Bullets}
    (ho : r < s.rooms.maxRoom → Bullets.Stock o (PaidBullet awards r)) :
    (s.setBullets r o).rooms.Stocked awards := by
  have hself : (s.setBullets r o).rooms.room r = { s.rooms.room r with bullets := some o } :=
    Function.update_self ..
  apply h.change r
  · rfl
  · exact fun q hq => Function.update_of_ne hq _ _
  · exact fun w hw => .inl hw
  · rw [hself]
    rintro o' hr ⟨⟩
    exact ho hr
  · rw [hself]
    exact fun o' hr ho' => h.fishs r o' hr ho'

theorem Rooms.Stocked.setFishs (h : s.rooms.Stocked awards) {r : ℕ} {o : Fishs}
    (ho : r < s.rooms.maxRoom → Fishs.Stock o (PaidFish awards r)) :
    (s.setFishs r o).rooms.Stocked awards := by
  have hself : (s.setFishs r o).rooms.room r = { s.rooms.room r with fishs := some o } :=
    Function.update_self ..
  apply h.change r
  · rfl
  · exact fun q hq => Function.update_of_ne hq _ _
  · exact fun w hw => .inl hw
  · rw [hself]
    exact fun o' hr ho' => h.bullets r o' hr ho'
  · rw [hself]
    rintro o' hr ⟨⟩
    exact ho hr

theorem Rooms.Stocked.award (h : s.rooms.Stocked awards) {i : Slot} {a b f : ℕ} {bullets : Bullets}
    {fishs fishs' : Fishs} {id id' : ℤ} {fish : Fish}
    (hb : (s.rooms.room ((s.slot i).room - 1)).bullets = some bullets)
    (hfound : bullets.getBullet id (s.slot i).uid = some (some b))
    (hf : (s.rooms.room ((s.slot i).room - 1)).fishs = some fishs)
    (hget : fishs.getFish id' = some (fishs', some f)) (hfish : fishs'.list.value f = some fish) :
    ((s.pay i a b fishs' f fish.fish).freeBullet ((s.slot i).room - 1) b bullets).rooms.Stocked
      (⟨a, (s.slot i).uid, (s.slot i).room - 1, b, f, fish.fish.coin, fish.fish.no⟩ :: awards) := by
  have hself : ((s.pay i a b fishs' f fish.fish).freeBullet ((s.slot i).room - 1) b bullets).rooms.room
      ((s.slot i).room - 1) = { s.rooms.room ((s.slot i).room - 1) with
        fishs := some { fishs' with list := (fishs'.list.modify Fish.hit f).modify Fish.free f }
        bullets := some { bullets with list := bullets.list.modify Bullet.free b } } := by
    simp only [Server.freeBullet, Server.setBullets, Server.pay, Server.setFishs, Server.setUser,
      Rooms.setRoom, Function.update_self]
  apply h.change ((s.slot i).room - 1)
  · rfl
  · intro q hq
    simp only [Server.freeBullet, Server.setBullets, Server.pay, Server.setFishs, Server.setUser,
      Rooms.setRoom, Function.update_of_ne hq]
  · rintro w hw
    rcases List.mem_cons.mp hw with rfl | hw
    · exact .inr rfl
    · exact .inl hw
  · rw [hself]
    rintro o hlt ⟨⟩
    have hs := h.bullets _ _ hlt hb
    obtain ⟨l, hl⟩ := hs.sound
    obtain ⟨v, hv, _⟩ := getBullet_found hl hfound
    apply hs.free hv
    rintro q ⟨w, hw, hwr, rfl⟩
    rcases List.mem_cons.mp hw with rfl | hw
    · exact .inl rfl
    · exact .inr ⟨w, hw, hwr, rfl⟩
  · rw [hself]
    rintro o hlt ⟨⟩
    have hs := h.fishs _ _ hlt hf
    obtain ⟨l, hl⟩ := hs.sound
    obtain ⟨v, hv, _, _, _, rfl⟩ := getFish_found hl hget
    apply hs.pay hv
    rintro q ⟨w, hw, hwr, rfl⟩
    rcases List.mem_cons.mp hw with rfl | hw
    · exact .inl rfl
    · exact .inr ⟨w, hw, hwr, rfl⟩

theorem Rooms.Stocked.play (h : s.rooms.Stocked awards) (hp : Play s t) :
    ∃ new, t.trace.awards = new ++ s.trace.awards ∧ t.rooms.Stocked (new ++ awards) := by
  cases hp with
  | idle => exact ⟨[], rfl, h⟩
  | @shot i a b bullets bullets' x y angle time now hr hu hc hb hnew =>
    refine ⟨[], rfl, ?_⟩
    apply (h.setBullets _ : (s.setBullets ((s.slot i).room - 1) bullets').rooms.Stocked awards)
    intro hlt
    exact (h.bullets _ _ hlt hb).create hnew
  | @missed i b bullets id hr hb hfound =>
    refine ⟨[], rfl, h.setBullets ?_⟩
    intro hlt
    have hs := h.bullets _ _ hlt hb
    obtain ⟨l, hl⟩ := hs.sound
    obtain ⟨v, hv, _⟩ := getBullet_found hl hfound
    exact hs.free hv (fun q hq => .inr hq)
  | @award i a b f bullets fishs fishs' id id' fish hr hu hb hfound hf hget hfish =>
    exact ⟨[⟨a, (s.slot i).uid, (s.slot i).room - 1, b, f, fish.fish.coin, fish.fish.no⟩], rfl,
      h.award hb hfound hf hget hfish⟩
  | newFish hr hf hnew =>
    refine ⟨[], rfl, h.setFishs ?_⟩
    intro hlt
    exact (h.fishs _ _ hlt hf).create hnew
  | bulletVisit hr hb hv =>
    refine ⟨[], rfl, h.setBullets ?_⟩
    intro hlt
    exact (h.bullets _ _ hlt hb).visit hv
  | fishVisit hr hf hv =>
    refine ⟨[], rfl, h.setFishs ?_⟩
    intro hlt
    exact (h.fishs _ _ hlt hf).visit hv

theorem Rooms.Stocked.played (h : s.rooms.Stocked awards) (hp : Played s t) :
    ∃ new, t.trace.awards = new ++ s.trace.awards ∧ t.rooms.Stocked (new ++ awards) := by
  obtain ⟨u, hu, sent, rfl⟩ := hp
  obtain ⟨new, hn, hs⟩ := h.play hu
  exact ⟨new, hn, hs⟩

theorem Rooms.Stocked.played_nil (h : s.rooms.Stocked []) (hp : Played s t) : t.rooms.Stocked [] := by
  obtain ⟨new, _, hs⟩ := h.played hp
  exact hs.mono (List.nil_subset _)

theorem Rooms.Stocked.openRoom (h : s.rooms.Stocked []) {p : Player} {r : ℕ} {time : ℚ} {rand : ℕ → ℕ}
    (ho : Entry.openRoom s p r time rand = some t) : t.rooms.Stocked [] := by
  unfold Entry.openRoom at ho
  split at ho
  · next fishs f hnew =>
    obtain ⟨fish, _, rfl⟩ := Option.map_eq_some_iff.mp ho
    have hself : (s.rooms.setRoom r { s.rooms.room r with
        fishs := some fishs, bullets := some Objects.init }).room r =
          { s.rooms.room r with fishs := some fishs, bullets := some Objects.init } := Function.update_self ..
    apply h.change r
    · rfl
    · exact fun q hq => Function.update_of_ne hq _ _
    · exact fun w hw => .inl hw
    · change ∀ o, _ → ((s.rooms.setRoom r _).room r).bullets = some o → _
      rw [hself]
      rintro o _ ⟨⟩
      exact Objects.stock_init.mono (fun q ⟨w, hw, _⟩ => nomatch hw)
    · change ∀ o, _ → ((s.rooms.setRoom r _).room r).fishs = some o → _
      rw [hself]
      rintro o _ ⟨⟩
      have hinit : Fishs.Stock Objects.init (PaidFish [] r) :=
        Objects.stock_init.mono (fun q ⟨w, hw, _⟩ => nomatch hw)
      exact hinit.create hnew
  · cases ho

theorem findRoom_thins (rs : Rooms) : rs.Thins rs.findRoom.1 := by
  obtain ⟨hroom, hmax⟩ := findRoom_rooms rs
  refine ⟨hmax, ?_, ?_⟩
  · rw [hroom]
    exact fun _ _ h => h
  · rw [hroom]
    exact fun _ _ h => h

theorem takeSeat_thins (s : Server) (i : Slot) (room seat : ℕ) (now : ℤ) :
    s.rooms.Thins (s.takeSeat i s.rooms.findRoom.1 room seat now).rooms := by
  apply (findRoom_thins s.rooms).trans
  apply setRoom_thins
  · exact fun _ h => h
  · exact fun _ h => h

variable {i : Slot} {json : JsonValue} {now : ℤ} {time : ℚ} {rand : ℕ → ℕ}

theorem inRoom_stocked (h : s.rooms.Stocked []) (ht : Entry.inRoom s i now time rand = some t) :
    t.rooms.Stocked [] := by
  unfold Entry.inRoom at ht
  split at ht
  · cases ht
    exact h
  split_ifs at ht
  · cases ht
    exact h
  simp only at ht
  split_ifs at ht
  · cases ht
    exact h.thins (findRoom_thins s.rooms)
  · have hseat := h.thins (takeSeat_thins s i s.rooms.findRoom.2.1 s.rooms.findRoom.2.2 now)
    split at ht
    · cases ht
      exact hseat
    · refine Rooms.Stocked.openRoom ?_ ht
      exact hseat

theorem handled_stocked {e : Event} (h : s.rooms.Stocked []) (ht : Handled s i json now time rand e t) :
    t.rooms.Stocked [] := by
  cases ht with
  | verify =>
    unfold Entry.verifyAccount
    split
    · exact h
    · exact h
  | inRoom _ hr => exact inRoom_stocked h hr
  | leaveRoom => exact h.thins (leave_thins s.rooms (s.slot i))
  | played hp => exact h.played_nil hp
  | kickUser => exact h.thins (kickUser_thins s i json)
  | exit => exact h.thins (exit_thins s i)

theorem add_rooms (s : Server) (socket ip : ℕ) (now : ℤ) : (Players.add s socket ip now).rooms = s.rooms := by
  unfold Players.add
  split_ifs
  · rfl
  · split <;> rfl

theorem serverStep_rooms {signKey : CStr → ℤ} {op : Op} (ht : serverStep signKey s op = some t) :
    t.rooms = s.rooms ∨ (∃ i json now time rand e, Handled s i json now time rand e t) ∨
      (∃ i, t.rooms = (s.drop i).rooms) ∨
      (∃ i key loaded, t.rooms = (Thread.verifyAccount signKey s i key loaded).rooms) ∨ Played s t := by
  have hstep := ht
  unfold serverStep at ht
  split_ifs at ht
  cases op with
  | connect socket ip now =>
    simp only at ht
    split_ifs at ht
    cases ht
    exact .inl (add_rooms s socket ip now)
  | handshake i =>
    simp only at ht
    split_ifs at ht
    cases ht
    exact .inl rfl
  | message i json now time rand =>
    simp only at ht
    split_ifs at ht
    exact .inr (.inl ⟨i, json, now, time, rand, _, dispatch_handled ht⟩)
  | close i =>
    simp only at ht
    split_ifs at ht
    cases ht
    exact .inr (.inr (.inl ⟨i, rfl⟩))
  | verify i key loaded =>
    simp only at ht
    split_ifs at ht
    cases ht
    exact .inr (.inr (.inr (.inl ⟨i, key, loaded, rfl⟩)))
  | saved a =>
    simp only at ht
    split_ifs at ht
    cases ht
    exact .inl rfl
  | fish r time rand => exact .inr (.inr (.inr (.inr (played_of_step (.fish r time rand) rfl hstep))))
  | bulletVisit r b now => exact .inr (.inr (.inr (.inr (played_of_step (.bulletVisit r b now) rfl hstep))))
  | fishVisit r f => exact .inr (.inr (.inr (.inr (played_of_step (.fishVisit r f) rfl hstep))))

theorem serverStep_stocked {signKey : CStr → ℤ} {op : Op} (h : s.rooms.Stocked [])
    (ht : serverStep signKey s op = some t) : t.rooms.Stocked [] := by
  rcases serverStep_rooms ht with he | ⟨i, json, now, time, rand, e, hh⟩ | ⟨i, he⟩ | ⟨i, key, loaded, he⟩ | hp
  · rw [he]
    exact h
  · exact handled_stocked h hh
  · rw [he]
    exact h.thins (drop_thins s i)
  · rw [he]
    exact h.thins (verify_thins signKey s i key loaded)
  · exact h.played_nil hp

theorem stocked_reachable {signKey : CStr → ℤ} {ok : Server → Op → Prop} {maxRoom : ℕ} {outside : ℕ → Room}
    {fish : List SettingFish} {users : ℕ → User}
    (h : Transition.Reach (serverStep signKey) ok (Server.start maxRoom outside fish users) s) :
    s.rooms.Stocked [] := by
  apply h.invariant (P := fun s => s.rooms.Stocked [])
  · constructor
    · intro r o hr ho
      rw [show ((Server.start maxRoom outside fish users).rooms.room r) = Room.zero from if_pos hr] at ho
      cases ho
    · intro r o hr ho
      rw [show ((Server.start maxRoom outside fish users).rooms.room r) = Room.zero from if_pos hr] at ho
      cases ho
  · exact fun s op t hs _ ht => serverStep_stocked hs ht

end

end FishServer
