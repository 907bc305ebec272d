import FishServer.Isolation
import FishServer.RoomStock

namespace FishServer

/-! All that one step of the server does to the lists of a room. -/

inductive FishStep (setting : List SettingFish) : Option Fishs → Option Fishs → Prop
  | same (x : Option Fishs) : FishStep setting x x
  | freed (x : Option Fishs) : FishStep setting x none
  | opened (x : Option Fishs) {o : Fishs} {f : Option ℕ} {rand : ℕ → ℕ} {time : ℚ} :
      Fishs.create Objects.init setting rand time = some (o, f) → FishStep setting x (some o)
  | created {o o' : Fishs} {f : Option ℕ} {rand : ℕ → ℕ} {time : ℚ} : o.list.len < 10 →
      Fishs.create o setting rand time = some (o', f) → FishStep setting (some o) (some o')
  | paid {o o' : Fishs} {id : ℤ} {f : ℕ} : o.getFish id = some (o', some f) →
      FishStep setting (some o) (some { o' with list := (o'.list.modify Fish.hit f).modify Fish.free f })
  | visited {o o' : Fishs} {p : ℕ} {next : Option ℕ} : Thread.fishVisit o p = some (o', next) →
      FishStep setting (some o) (some o')

inductive BulletStep : Option Bullets → Option Bullets → Prop
  | same (x : Option Bullets) : BulletStep x x
  | freed (x : Option Bullets) : BulletStep x none
  | opened (x : Option Bullets) : BulletStep x (some Objects.init)
  | created {o o' : Bullets} {b : ℕ} {uid x y : ℤ} {angle : CStr} {time : ℚ} :
      Bullets.create o uid x y angle time = some (o', b) → BulletStep (some o) (some o')
  | spent {o : Bullets} {id uid : ℤ} {b : ℕ} : o.getBullet id uid = some (some b) →
      BulletStep (some o) (some { o with list := o.list.modify Bullet.free b })
  | visited {o o' : Bullets} {now : ℚ} {p : ℕ} {next : Option ℕ} : Thread.bulletVisit o now p = some (o', next) →
      BulletStep (some o) (some o')

structure RoomSteps (s t : Server) : Prop where
  maxRoom : t.rooms.maxRoom = s.rooms.maxRoom
  setting : t.fish = s.fish
  fishs : ∀ r, FishStep s.fish (s.rooms.room r).fishs (t.rooms.room r).fishs
  bullets : ∀ r, BulletStep (s.rooms.room r).bullets (t.rooms.room r).bullets

section

variable {s t : Server} {i : Slot} {json : JsonValue} {now : ℤ} {time : ℚ} {rand : ℕ → ℕ}

theorem RoomSteps.thins (h : s.rooms.Thins t.rooms) (hfish : t.fish = s.fish) : RoomSteps s t where
  maxRoom := h.maxRoom
  setting := hfish
  fishs := by
    intro r
    cases hr : (t.rooms.room r).fishs with
    | none => exact .freed _
    | some o =>
      rw [h.fishs r o hr]
      exact .same _
  bullets := by
    intro r
    cases hr : (t.rooms.room r).bullets with
    | none => exact .freed _
    | some o =>
      rw [h.bullets r o hr]
      exact .same _

theorem RoomSteps.change {u : Server} (h : RoomSteps s u) (r : ℕ) (room : Room)
    (hrooms : t.rooms = u.rooms.setRoom r room) (hfish : t.fish = u.fish)
    (hf : FishStep s.fish (s.rooms.room r).fishs room.fishs) (hb : BulletStep (s.rooms.room r).bullets room.bullets) :
    RoomSteps s t where
  maxRoom := by
    rw [hrooms]
    exact h.maxRoom
  setting := hfish.trans h.setting
  fishs := by
    intro q
    rw [hrooms]
    by_cases hq : q = r
    · rw [hq, setRoom_self]
      exact hf
    · rw [setRoom_of_ne _ _ hq]
      exact h.fishs q
  bullets := by
    intro q
    rw [hrooms]
    by_cases hq : q = r
    · rw [hq, setRoom_self]
      exact hb
    · rw [setRoom_of_ne _ _ hq]
      exact h.bullets q

theorem RoomSteps.congr {u : Server} (h : RoomSteps s u) (hrooms : t.rooms = u.rooms) (hfish : t.fish = u.fish) :
    RoomSteps s t where
  maxRoom := hrooms ▸ h.maxRoom
  setting := hfish.trans h.setting
  fishs := hrooms ▸ h.fishs
  bullets := hrooms ▸ h.bullets

theorem RoomSteps.refl (s : Server) : RoomSteps s s := .thins (.refl s.rooms) rfl

theorem add_setting (s : Server) (socket ip : ℕ) (now : ℤ) : (Players.add s socket ip now).fish = s.fish := by
  unfold Players.add
  split_ifs
  · rfl
  · split <;> rfl

theorem remove_setting (s : Server) (p : Player) : (Players.remove s p).1.fish = s.fish := by
  unfold Players.remove
  split_ifs <;> rfl

theorem drop_setting (s : Server) (i : Slot) : (s.drop i).fish = s.fish := remove_setting (s.leaveRoom i) _

theorem dropCopy_setting (s : Server) (k : Slot) : (s.dropCopy k).fish = s.fish :=
  remove_setting { s with rooms := (s.rooms.leave (s.slot k)).1 } _

theorem exitLoop_setting (s : Server) (i : Slot) (num : ℕ) (ks : List Slot) :
    (Entry.exitLoop s i num ks).1.fish = s.fish := by
  induction ks generalizing s num with
  | nil => rfl
  | cons k ks ih =>
    rw [Entry.exitLoop]
    split_ifs
    · exact ih s num
    · exact (ih _ _).trans (dropCopy_setting (s.send (s.slot i) (.exiting (s.slot k).socket (num + 1) 0)) k)

theorem exit_setting (s : Server) (i : Slot) : (Entry.exit s i).fish = s.fish := by
  unfold Entry.exit
  generalize List.finRange 1024 = ks
  exact exitLoop_setting { s with closeing := true } i 0 ks

theorem kickUser_setting (s : Server) (i : Slot) (json : JsonValue) : (Entry.kickUser s i json).fish = s.fish := by
  unfold Entry.kickUser
  simp only
  split_ifs
  · rfl
  · rfl
  · split
    · rfl
    · next k _ => exact dropCopy_setting s k

theorem verify_setting (signKey : CStr → ℤ) (s : Server) (i : Slot) (key : CStr) (loaded : User) :
    (Thread.verifyAccount signKey s i key loaded).fish = s.fish := by
  unfold Thread.verifyAccount
  rcases verifyScan_cases signKey s i key with ⟨p, r, hscan⟩ | ⟨_, _, _, ⟨_, hscan⟩ | ⟨k, _, _, p, r, hscan⟩⟩
  · rw [hscan]
    rfl
  · rw [hscan]
    rfl
  · rw [hscan]
    exact drop_setting (s.send p r) k

theorem PlayOf.rooms (h : PlayOf s i t) : RoomSteps s t := by
  cases h with
  | idle => exact .thins (.refl s.rooms) rfl
  | @shot a b bullets bullets' x y angle time now hr hu hc hb hnew =>
    exact (RoomSteps.refl s).change ((s.slot i).room - 1)
      { s.rooms.room ((s.slot i).room - 1) with bullets := some bullets' } rfl rfl (.same _) (hb ▸ .created hnew)
  | @missed b bullets id hr hb hfound =>
    exact (RoomSteps.refl s).change ((s.slot i).room - 1) { s.rooms.room ((s.slot i).room - 1) with
      bullets := some { bullets with list := bullets.list.modify Bullet.free b } } rfl rfl (.same _)
      (hb ▸ .spent hfound)
  | @award a b f bullets fishs fishs' id id' fish hr hu hb hfound hf hget hfish =>
    refine (RoomSteps.refl s).change ((s.slot i).room - 1) { s.rooms.room ((s.slot i).room - 1) with
      fishs := some { fishs' with list := (fishs'.list.modify Fish.hit f).modify Fish.free f }
      bullets := some { bullets with list := bullets.list.modify Bullet.free b } } ?_ rfl (hf ▸ .paid hget)
      (hb ▸ .spent hfound)
    simp only [Server.freeBullet, Server.setBullets, Server.pay, Server.setFishs, Server.setUser, Rooms.setRoom,
      Function.update_self, Function.update_idem]

theorem PlayedBy.rooms (h : PlayedBy s i t) : RoomSteps s t := by
  obtain ⟨u, hu, sent, rfl⟩ := h
  exact hu.rooms.congr rfl rfl

theorem openRoom_rooms {u : Server} (h : RoomSteps s u) {p : Player} {r : ℕ}
    (ht : Entry.openRoom u p r time rand = some t) : RoomSteps s t := by
  unfold Entry.openRoom at ht
  split at ht
  · next fishs f hnew =>
    obtain ⟨fish, _, rfl⟩ := Option.map_eq_some_iff.mp ht
    rw [h.setting] at hnew
    exact h.change r { u.rooms.room r with fishs := some fishs, bullets := some Objects.init } rfl rfl
      (.opened _ hnew) (.opened _)
  · cases ht

theorem inRoom_rooms (ht : Entry.inRoom s i now time rand = some t) : RoomSteps s t := by
  unfold Entry.inRoom at ht
  split at ht
  · cases ht
    exact .refl s
  split_ifs at ht
  · cases ht
    exact .refl s
  simp only at ht
  split_ifs at ht
  · cases ht
    exact .thins (findRoom_thins s.rooms) rfl
  · have hseat := takeSeat_thins s i s.rooms.findRoom.2.1 s.rooms.findRoom.2.2 now
    split at ht
    · cases ht
      exact .thins hseat rfl
    · refine openRoom_rooms ?_ ht
      exact .thins hseat rfl

theorem dispatch_rooms (ht : Entry.dispatch s i json now time rand = some t) : RoomSteps s t := by
  have hd := dispatched ht
  generalize Entry.event s i json = e at hd
  cases hd with
  | idle => exact .refl s
  | sent p r => exact .thins (.refl s.rooms) rfl
  | verify _ =>
    unfold Entry.verifyAccount
    split
    · exact .thins (.refl s.rooms) rfl
    · exact .thins (.refl s.rooms) rfl
  | inRoom _ hr => exact inRoom_rooms hr
  | leaveRoom _ _ => exact .thins (leave_thins s.rooms (s.slot i)) rfl
  | toShot _ hr hs => exact (toShot_playedBy hr hs).rooms
  | hitFish hr hs => exact (hitFish_playedBy hr hs).rooms
  | kickUser _ => exact .thins (kickUser_thins s i json) (kickUser_setting s i json)
  | exit _ => exact .thins (exit_thins s i) (exit_setting s i)

theorem fish_rooms {r : ℕ} (ht : Thread.fish s r time rand = some t) : RoomSteps s t := by
  unfold Thread.fish at ht
  obtain ⟨fishs, hf, ht⟩ := Option.bind_eq_some_iff.mp ht
  split_ifs at ht with hlen
  obtain ⟨⟨fishs', f⟩, hnew, ht⟩ := Option.bind_eq_some_iff.mp ht
  have hstep : RoomSteps s (s.setFishs r fishs') :=
    (RoomSteps.refl s).change r { s.rooms.room r with fishs := some fishs' } rfl rfl (hf ▸ .created hlen hnew) (.same _)
  dsimp only at ht
  split at ht
  · cases ht
    exact hstep.congr rfl rfl
  · cases ht
    exact hstep

theorem serverStep_roomSteps {signKey : CStr → ℤ} {op : Op} (ht : serverStep signKey s op = some t) :
    RoomSteps s t := by
  unfold serverStep at ht
  split_ifs at ht
  cases op with
  | connect socket ip now =>
    simp only at ht
    split_ifs at ht
    cases ht
    refine .thins ?_ ?_
    · rw [show ({ Players.add s socket ip now with sockets := socket :: s.sockets } : Server).rooms = s.rooms from
        add_rooms s socket ip now]
      exact .refl s.rooms
    · exact add_setting s socket ip now
  | handshake i =>
    simp only at ht
    split_ifs at ht
    cases ht
    exact .thins (.refl s.rooms) rfl
  | message i json now time rand =>
    simp only at ht
    split_ifs at ht
    exact dispatch_rooms ht
  | close i =>
    simp only at ht
    split_ifs at ht
    cases ht
    exact .thins (drop_thins s i) (drop_setting s i)
  | verify i key loaded =>
    simp only at ht
    split_ifs at ht
    cases ht
    exact .thins (verify_thins signKey s i key loaded) (verify_setting signKey s i key loaded)
  | saved a =>
    simp only at ht
    split_ifs at ht
    cases ht
    exact .thins (.refl s.rooms) rfl
  | fish r time rand =>
    simp only at ht
    split_ifs at ht
    exact fish_rooms ht
  | bulletVisit r b now =>
    simp only at ht
    split_ifs at ht
    obtain ⟨bullets, hb, ht⟩ := Option.bind_eq_some_iff.mp ht
    obtain ⟨⟨bullets', next⟩, hv, ht⟩ := Option.bind_eq_some_iff.mp ht
    cases ht
    exact (RoomSteps.refl s).change r { s.rooms.room r with bullets := some bullets' } rfl rfl (.same _)
      (hb ▸ .visited hv)
  | fishVisit r f =>
    simp only at ht
    split_ifs at ht
    obtain ⟨fishs, hf, ht⟩ := Option.bind_eq_some_iff.mp ht
    obtain ⟨⟨fishs', next⟩, hv, ht⟩ := Option.bind_eq_some_iff.mp ht
    cases ht
    exact (RoomSteps.refl s).change r { s.rooms.room r with fishs := some fishs' } rfl rfl (hf ▸ .visited hv) (.same _)

end

end FishServer
