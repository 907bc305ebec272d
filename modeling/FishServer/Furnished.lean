import FishServer.Authority
import FishServer.FishPopulation
import FishServer.NullArguments
import FishServer.Seats

namespace FishServer

open LinkedList Transition

/-! A room with a player has its lists, so no handler misses one. -/

def Room.Occupied (r : Room) : Prop := ∃ j < 4, r.players j ≠ none

def Rooms.Furnished (rs : Rooms) : Prop := ∀ r < rs.maxRoom, (rs.room r).Occupied → (rs.room r).fishs.isSome = true

-- nobody has come to a room, and where somebody is left the list of fish is there as before
structure Rooms.Settles (rs rs' : Rooms) : Prop where
  maxRoom : rs'.maxRoom = rs.maxRoom
  occupied : ∀ r, (rs'.room r).Occupied → (rs.room r).Occupied
  fishs : ∀ r, (rs'.room r).Occupied → (rs.room r).fishs.isSome = true → (rs'.room r).fishs.isSome = true

section

variable {rs rs' rs'' : Rooms} {s t : Server}

theorem Rooms.Settles.refl (rs : Rooms) : rs.Settles rs := ⟨rfl, fun _ h => h, fun _ _ h => h⟩

theorem Rooms.Settles.trans (h : rs.Settles rs') (h' : rs'.Settles rs'') : rs.Settles rs'' :=
  ⟨h'.maxRoom.trans h.maxRoom, fun r hr => h.occupied r (h'.occupied r hr),
    fun r hr hf => h'.fishs r hr (h.fishs r (h'.occupied r hr) hf)⟩

theorem Rooms.Furnished.settles (h : rs.Furnished) (ht : rs.Settles rs') : rs'.Furnished :=
  fun r hr ho => ht.fishs r ho (h r (ht.maxRoom ▸ hr) (ht.occupied r ho))

theorem setRoom_settles (rs : Rooms) (r : ℕ) (room : Room) (ho : room.Occupied → (rs.room r).Occupied)
    (hf : room.Occupied → (rs.room r).fishs.isSome = true → room.fishs.isSome = true) :
    rs.Settles (rs.setRoom r room) := by
  refine ⟨rfl, ?_, ?_⟩
  · intro q hq
    by_cases hqr : q = r
    · rw [hqr, setRoom_self] at hq
      rw [hqr]
      exact ho hq
    · rwa [setRoom_of_ne _ _ hqr] at hq
  · intro q hq hfish
    by_cases hqr : q = r
    · rw [hqr, setRoom_self] at hq ⊢
      rw [hqr] at hfish
      exact hf hq hfish
    · rwa [setRoom_of_ne _ _ hqr]

theorem not_isEmpty_of_occupied {r : Room} (h : r.Occupied) : r.isEmpty = false := by
  obtain ⟨j, hj, hp⟩ := h
  rw [Room.isEmpty, List.all_eq_false]
  exact ⟨j, List.mem_range.mpr hj, by simpa using hp⟩

theorem close_settles (r : Room) (h : r.close.Occupied) : r.close.fishs = r.fishs := by
  have ho : r.Occupied := by
    obtain ⟨j, hj, hp⟩ := h
    rw [close_players] at hp
    exact ⟨j, hj, hp⟩
  unfold Room.close
  rw [if_neg (by rw [not_isEmpty_of_occupied ho]; decide)]

theorem leave_settles (rs : Rooms) (p : Player) : rs.Settles (rs.leave p).1 := by
  unfold Rooms.leave
  split_ifs
  · exact .refl rs
  · apply setRoom_settles
    · rintro ⟨j, hj, hp⟩
      rw [close_players] at hp
      refine ⟨j, hj, ?_⟩
      intro hnone
      apply hp
      change Function.update (rs.room (p.room - 1)).players (p.seat - 1) none j = none
      by_cases hjs : j = p.seat - 1
      · rw [hjs, Function.update_self]
      · rw [Function.update_of_ne hjs, hnone]
    · intro ho hf
      rw [close_settles _ ho]
      exact hf

theorem drop_settles (s : Server) (i : Slot) : s.rooms.Settles (s.drop i).rooms := by
  have h : (s.drop i).rooms = (s.rooms.leave (s.slot i)).1 := remove_rooms (s.leaveRoom i) _
  rw [h]
  apply leave_settles

theorem dropCopy_settles (s : Server) (k : Slot) : s.rooms.Settles (s.dropCopy k).rooms := by
  have h : (s.dropCopy k).rooms = (s.rooms.leave (s.slot k)).1 :=
    remove_rooms { s with rooms := (s.rooms.leave (s.slot k)).1 } _
  rw [h]
  apply leave_settles

theorem exitLoop_settles (s : Server) (i : Slot) (num : ℕ) (ks : List Slot) :
    s.rooms.Settles (Entry.exitLoop s i num ks).1.rooms := by
  induction ks generalizing s num with
  | nil => exact .refl s.rooms
  | cons k ks ih =>
    rw [Entry.exitLoop]
    split_ifs
    · exact ih s num
    · exact (dropCopy_settles (s.send (s.slot i) (.exiting (s.slot k).socket (num + 1) 0)) k).trans (ih _ _)

theorem exit_settles (s : Server) (i : Slot) : s.rooms.Settles (Entry.exit s i).rooms := by
  unfold Entry.exit
  generalize List.finRange 1024 = ks
  exact exitLoop_settles { s with closeing := true } i 0 ks

theorem kickUser_settles (s : Server) (i : Slot) (json : JsonValue) :
    s.rooms.Settles (Entry.kickUser s i json).rooms := by
  unfold Entry.kickUser
  simp only
  split_ifs
  · exact .refl s.rooms
  · exact .refl s.rooms
  · split
    · exact .refl s.rooms
    · apply dropCopy_settles

theorem verify_settles (signKey : CStr → ℤ) (s : Server) (i : Slot) (key : CStr) (loaded : User) :
    s.rooms.Settles (Thread.verifyAccount signKey s i key loaded).rooms := by
  unfold Thread.verifyAccount
  rcases verifyScan_cases signKey s i key with ⟨p, r, hscan⟩ | ⟨_, _, _, ⟨_, hscan⟩ | ⟨k, _, _, p, r, hscan⟩⟩
  · rw [hscan]
    exact .refl s.rooms
  · rw [hscan]
    exact .refl s.rooms
  · rw [hscan]
    exact drop_settles (s.send p r) k

theorem setBullets_settles (s : Server) (r : ℕ) (b : Bullets) : s.rooms.Settles (s.setBullets r b).rooms :=
  setRoom_settles s.rooms r { s.rooms.room r with bullets := some b } (fun h => h) (fun _ h => h)

theorem setFishs_settles (s : Server) (r : ℕ) (f : Fishs) : s.rooms.Settles (s.setFishs r f).rooms :=
  setRoom_settles s.rooms r { s.rooms.room r with fishs := some f } (fun h => h) (fun _ _ => rfl)

theorem play_settles (h : Play s t) : s.rooms.Settles t.rooms := by
  cases h with
  | idle => exact .refl s.rooms
  | @shot i a b bullets bullets' x y angle time now hr hu hc hb hnew =>
    exact setBullets_settles s ((s.slot i).room - 1) bullets'
  | missed hr hb hfound => exact setBullets_settles s _ _
  | @award i a b f bullets fishs fishs' id id' fish hr hu hb hfound hf hget hfish =>
    have hfirst := setFishs_settles s ((s.slot i).room - 1)
      { fishs' with list := (fishs'.list.modify Fish.hit f).modify Fish.free f }
    exact hfirst.trans (setBullets_settles (s.pay i a b fishs' f fish.fish) _ _)
  | newFish hr hf hnew => exact setFishs_settles s _ _
  | bulletVisit hr hb hv => exact setBullets_settles s _ _
  | fishVisit hr hf hv => exact setFishs_settles s _ _

theorem played_settles (h : Played s t) : s.rooms.Settles t.rooms := by
  obtain ⟨u, hu, sent, rfl⟩ := h
  have hs := play_settles hu
  exact hs

theorem Rooms.Furnished.of_room (h : rs.Furnished) (hmax : rs'.maxRoom = rs.maxRoom) (r : ℕ)
    (hother : ∀ q, q ≠ r → rs'.room q = rs.room q) (hf : (rs'.room r).fishs.isSome = true) : rs'.Furnished := by
  intro q hq ho
  by_cases hqr : q = r
  · rw [hqr]
    exact hf
  · rw [hother q hqr] at ho ⊢
    exact h q (hmax ▸ hq) ho

variable {i : Slot} {json : JsonValue} {now : ℤ} {time : ℚ} {rand : ℕ → ℕ}

theorem takeSeat_other (s : Server) (i : Slot) (room seat : ℕ) (now : ℤ) {q : ℕ} (hq : q ≠ room - 1) :
    ((s.takeSeat i s.rooms.findRoom.1 room seat now).rooms.room q) = s.rooms.room q := by
  rw [← (findRoom_rooms s.rooms).1]
  exact setRoom_of_ne _ _ hq

theorem openRoom_opens {p : Player} {r : ℕ} (ht : Entry.openRoom s p r time rand = some t) :
    t.rooms.maxRoom = s.rooms.maxRoom ∧ (t.rooms.room r).fishs.isSome = true ∧
      ∀ q, q ≠ r → t.rooms.room q = s.rooms.room q := by
  unfold Entry.openRoom at ht
  split at ht
  · next fishs f _ =>
    obtain ⟨fish, _, rfl⟩ := Option.map_eq_some_iff.mp ht
    refine ⟨rfl, ?_, fun q hq => setRoom_of_ne _ _ hq⟩
    exact congrArg (fun room : Room => room.fishs.isSome)
      (setRoom_self s.rooms r { s.rooms.room r with fishs := some fishs, bullets := some Objects.init })
  · cases ht

theorem Rooms.Furnished.inRoom (h : s.rooms.Furnished) (ht : Entry.inRoom s i now time rand = some t) :
    t.rooms.Furnished := by
  obtain ⟨hroom, hmax⟩ := findRoom_rooms s.rooms
  unfold Entry.inRoom at ht
  split at ht
  · cases ht
    exact h
  split_ifs at ht
  · cases ht
    exact h
  simp only at ht
  split_ifs at ht
  · cases ht
    have hfound : s.rooms.findRoom.1.Furnished := by
      unfold Rooms.Furnished
      rw [hroom, hmax]
      exact h
    exact hfound
  · have hother := fun q => @takeSeat_other s i s.rooms.findRoom.2.1 s.rooms.findRoom.2.2 now q
    split at ht
    · next fishs hfishs =>
      cases ht
      refine h.of_room hmax (s.rooms.findRoom.2.1 - 1) hother ?_
      exact Option.isSome_iff_exists.mpr ⟨fishs, hfishs⟩
    · obtain ⟨hsame, hopened, hrest⟩ := openRoom_opens ht
      exact h.of_room (hsame.trans hmax) (s.rooms.findRoom.2.1 - 1)
        (fun q hq => (hrest q hq).trans (hother q hq)) hopened

theorem Rooms.Furnished.handled {e : Event} (h : s.rooms.Furnished) (ht : Handled s i json now time rand e t) :
    t.rooms.Furnished := by
  cases ht with
  | verify =>
    unfold Entry.verifyAccount
    split
    · exact h
    · exact h
  | inRoom _ hr => exact h.inRoom hr
  | leaveRoom => exact h.settles (leave_settles s.rooms (s.slot i))
  | played hp => exact h.settles (played_settles hp)
  | kickUser => exact h.settles (kickUser_settles s i json)
  | exit => exact h.settles (exit_settles s i)

theorem Rooms.Furnished.step {signKey : CStr → ℤ} {op : Op} (h : s.rooms.Furnished)
    (ht : serverStep signKey s op = some t) : t.rooms.Furnished := by
  rcases serverStep_rooms ht with he | ⟨i, json, now, time, rand, e, hh⟩ | ⟨i, he⟩ | ⟨i, key, loaded, he⟩ | hp
  · rw [he]
    exact h
  · exact h.handled hh
  · rw [he]
    exact h.settles (drop_settles s i)
  · rw [he]
    exact h.settles (verify_settles signKey s i key loaded)
  · exact h.settles (played_settles hp)

end

theorem BulletStep.counts {x : Option Bullets} {o : Bullets} (hstep : BulletStep x (some o))
    (hx : ∀ o, x = some o → o.Counts) (hs : ∀ o, x = some o → ∃ l, Objects.Sound Bullet.id o l) : o.Counts := by
  cases hstep with
  | same => exact hx o rfl
  | opened => exact init_counts
  | created hnew => exact Objects.create_counts Bullets.ringWraps (hx _ rfl) hnew
  | @spent o' id uid b _ =>
    have hold := hx o' rfl
    exact hold
  | @visited o' o now p next hv =>
    obtain ⟨l, hl⟩ := hs o' rfl
    rcases hl.visit hv with rfl | ⟨-, rfl, -⟩
    · exact hx _ rfl
    · exact hx o' rfl

section

variable {setting : List SettingFish} {s : Server} {i : Slot} {json : JsonValue} {now : ℤ} {time : ℚ} {rand : ℕ → ℕ}

/-- The fields that the handler of a message reads without a look at what they are. -/
structure JsonValue.Complete (json : JsonValue) : Prop where
  angle : json.value "op".toList = some "to shot".toList → (json.value "angle".toList).isSome = true
  fag : json.value "op".toList = some "hit fish".toList → (json.value "fag".toList).isSome = true
  settings : json.value "op".toList = some "set setting".toList →
    ∀ e ∈ (json.childOf "data".toList).entries, Setting.checkKey e.1 = true → e.2.isSome = true

end

end FishServer
