import FishServer.RoomStock
import FishServer.SessionRun

namespace FishServer

open Transition LinkedList

/-! What holds of every state that the server reaches: users belong to the account of their slot, and a room
has both lists or none. -/

namespace Session

variable {signKey : CStr → ℤ} {s t : Session}

def Owned (s : Session) : Prop :=
  ∀ k a, (s.slot k).user = some a → a < s.nextUser ∧ s.owner a = (s.slot k).uid ∧ (s.slot k).uid ≠ 0

theorem Owned.frame (h : s.Owned) (ht : s.Frame t) : t.Owned := by
  intro k
  rw [ht.slot, ht.owner, ht.nextUser]
  exact h k

theorem Owned.setSlot (h : s.Owned) (i : Slot) (g : Guest)
    (hg : ∀ a, g.user = some a → a < s.nextUser ∧ s.owner a = g.uid ∧ g.uid ≠ 0) : (s.setSlot i g).Owned := by
  intro k
  by_cases hk : k = i
  · rw [hk, setSlot_slot, Function.update_self]
    exact hg
  · rw [setSlot_slot, Function.update_of_ne hk]
    exact h k

theorem Owned.unseat (h : s.Owned) (i : Slot) : (s.unseat i).Owned := by
  unfold Session.unseat
  split_ifs
  · exact h
  · obtain ⟨_, ho, hn, _⟩ := s.vacate_frame (s.slot i)
    apply (h.frame (s.vacate_frame (s.slot i))).setSlot
    rw [ho, hn]
    exact h i

theorem Owned.drop (h : s.Owned) (i : Slot) : (s.drop i).Owned := by
  unfold Session.drop Session.remove
  split_ifs
  · exact h.unseat i
  · have hh : ((s.unseat i).hand ((s.unseat i).slot i)).Owned := h.unseat i
    exact hh.setSlot i .none (fun _ ha => nomatch ha)

theorem Owned.assign (h : s.Owned) (i : Slot) {uid : ℤ} (hu : uid ≠ 0) : (s.assign i uid).Owned := by
  intro k
  by_cases hk : k = i
  · subst hk
    simp only [Session.assign, setSlot_slot, Function.update_self]
    rintro a ⟨⟩
    exact ⟨Nat.lt_succ_self _, Function.update_self .., hu⟩
  · simp only [Session.assign, setSlot_slot, Function.update_of_ne hk]
    intro a ha
    obtain ⟨hn, ho⟩ := h k a ha
    rw [Function.update_of_ne hn.ne]
    exact ⟨Nat.lt_succ_of_lt hn, ho⟩

theorem Owned.step (h : s.Owned) (e : Event) (he : s.Enabled signKey e) : (s.step e).Owned := by
  cases e with
  | idle => exact h
  | connect i socket => exact h.setSlot i { s.slot i with socket } (h i)
  | key i key kick => exact h.setSlot i { s.slot i with kick, tmp := some key } (h i)
  | seat i room seat =>
    have hs : (s.setSeat (room - 1) (seat - 1) (some i)).Owned := h
    exact hs.setSlot i { s.slot i with room, seat } (h i)
  | leave i => exact h.unseat i
  | drop i => exact h.drop i
  | kick k => exact h.frame (s.kick_frame k)
  | login i key uid out =>
    obtain ⟨_, _, hpos, _⟩ := he
    cases out with
    | none => exact h.assign i hpos.ne'
    | some k => exact (h.drop k).assign i hpos.ne'
  | saved a => exact h
  | exit => exact h.frame s.exit_frame

end Session

def Rooms.Paired (rs : Rooms) : Prop :=
  ∀ r, r < rs.maxRoom → (rs.room r).fishs.isSome = (rs.room r).bullets.isSome

section

variable {rs : Rooms} {s t : Server}

theorem Rooms.Paired.setRoom (h : rs.Paired) (r : ℕ) (room : Room)
    (hp : r < rs.maxRoom → room.fishs.isSome = room.bullets.isSome) : (rs.setRoom r room).Paired := by
  intro q hq
  by_cases hqr : q = r
  · subst hqr
    rw [show (rs.setRoom q room).room q = room from Function.update_self ..]
    exact hp hq
  · rw [show (rs.setRoom r room).room q = rs.room q from Function.update_of_ne hqr ..]
    exact h q hq

theorem Rooms.Paired.leave (h : rs.Paired) (p : Player) : (rs.leave p).1.Paired := by
  unfold Rooms.leave
  split_ifs
  · exact h
  · apply h.setRoom
    intro hr
    unfold Room.close
    split_ifs
    · rfl
    · exact h _ hr

theorem Rooms.Paired.setBullets (h : s.rooms.Paired) {r : ℕ} {o : Bullets} (b : Bullets)
    (hb : (s.rooms.room r).bullets = some o) : (s.setBullets r b).rooms.Paired := by
  apply h.setRoom
  intro hr
  have hp := h r hr
  rw [hb] at hp
  exact hp

theorem Rooms.Paired.setFishs (h : s.rooms.Paired) {r : ℕ} {o : Fishs} (f : Fishs)
    (hf : (s.rooms.room r).fishs = some o) : (s.setFishs r f).rooms.Paired := by
  apply h.setRoom
  intro hr
  have hp := h r hr
  rw [hf] at hp
  exact hp

theorem setFishs_bullets (s : Server) (r q : ℕ) (f : Fishs) :
    ((s.setFishs r f).rooms.room q).bullets = (s.rooms.room q).bullets := by
  change (Function.update s.rooms.room r _ q).bullets = (s.rooms.room q).bullets
  by_cases hq : q = r
  · rw [hq, Function.update_self]
  · rw [Function.update_of_ne hq]

theorem Rooms.Paired.played (h : s.rooms.Paired) (hp : Played s t) : t.rooms.Paired := by
  obtain ⟨u, hu, sent, rfl⟩ := hp
  change u.rooms.Paired
  cases hu with
  | idle => exact h
  | shot now _ _ _ hb => exact h.setBullets _ hb
  | missed _ hb => exact h.setBullets _ hb
  | @award i a b f bullets fishs fishs' id id' fish _ _ hb _ hf =>
    have hpay : (s.pay i a b fishs' f fish.fish).rooms.Paired :=
      h.setFishs { fishs' with list := (fishs'.list.modify Fish.hit f).modify Fish.free f } hf
    have hb' : ((s.pay i a b fishs' f fish.fish).rooms.room ((s.slot i).room - 1)).bullets = some bullets :=
      (setFishs_bullets s _ _ _).trans hb
    exact hpay.setBullets _ hb'
  | newFish _ hf => exact h.setFishs _ hf
  | bulletVisit _ hb => exact h.setBullets _ hb
  | fishVisit _ hf => exact h.setFishs _ hf

theorem Rooms.Paired.openRoom (h : s.rooms.Paired) {p : Player} {r : ℕ} {time : ℚ} {rand : ℕ → ℕ}
    (ho : Entry.openRoom s p r time rand = some t) : t.rooms.Paired := by
  unfold Entry.openRoom at ho
  split at ho
  · obtain ⟨fish, _, rfl⟩ := Option.map_eq_some_iff.mp ho
    exact h.setRoom r _ (fun _ => rfl)
  · cases ho

theorem Rooms.Paired.findRoom (h : rs.Paired) : rs.findRoom.1.Paired := by
  obtain ⟨hroom, hmax⟩ := findRoom_rooms rs
  unfold Rooms.Paired
  rw [hroom, hmax]
  exact h

variable {i : Slot} {json : JsonValue} {now : ℤ} {time : ℚ} {rand : ℕ → ℕ}

theorem Rooms.Paired.takeSeat (h : s.rooms.Paired) (i : Slot) (room seat : ℕ) (now : ℤ) :
    (s.takeSeat i s.rooms.findRoom.1 room seat now).rooms.Paired := by
  obtain ⟨hroom, hmax⟩ := findRoom_rooms s.rooms
  apply h.findRoom.setRoom
  rw [hroom, hmax]
  exact h (room - 1)

theorem Rooms.Paired.inRoom (h : s.rooms.Paired) (ht : Entry.inRoom s i now time rand = some t) :
    t.rooms.Paired := by
  unfold Entry.inRoom at ht
  split at ht
  · cases ht
    exact h
  split_ifs at ht
  · cases ht
    exact h
  simp only at ht
  split_ifs at ht
  · cases ht
    exact h.findRoom
  · have hseat := h.takeSeat i s.rooms.findRoom.2.1 s.rooms.findRoom.2.2 now
    split at ht
    · cases ht
      exact hseat
    · refine Rooms.Paired.openRoom ?_ ht
      exact hseat

theorem Rooms.Paired.drop (h : s.rooms.Paired) (i : Slot) : (s.drop i).rooms.Paired := by
  rw [show (s.drop i).rooms = (s.rooms.leave (s.slot i)).1 from remove_rooms (s.leaveRoom i) _]
  exact h.leave (s.slot i)

theorem Rooms.Paired.dropCopy (h : s.rooms.Paired) (k : Slot) : (s.dropCopy k).rooms.Paired := by
  rw [show (s.dropCopy k).rooms = (s.rooms.leave (s.slot k)).1 from
    remove_rooms { s with rooms := (s.rooms.leave (s.slot k)).1 } _]
  exact h.leave (s.slot k)

theorem Rooms.Paired.exitLoop (h : s.rooms.Paired) (i : Slot) (num : ℕ) (ks : List Slot) :
    (Entry.exitLoop s i num ks).1.rooms.Paired := by
  induction ks generalizing s num with
  | nil => exact h
  | cons k ks ih =>
    rw [Entry.exitLoop]
    split_ifs
    · exact ih h num
    · apply ih
      have hs : (s.send (s.slot i) (.exiting (s.slot k).socket (num + 1) 0)).rooms.Paired := h
      exact hs.dropCopy k

theorem Rooms.Paired.exit (h : s.rooms.Paired) (i : Slot) : (Entry.exit s i).rooms.Paired := by
  unfold Entry.exit
  generalize List.finRange 1024 = ks
  have hs : ({ s with closeing := true } : Server).rooms.Paired := h
  exact hs.exitLoop i 0 ks

theorem Rooms.Paired.kickUser (h : s.rooms.Paired) (i : Slot) (json : JsonValue) :
    (Entry.kickUser s i json).rooms.Paired := by
  unfold Entry.kickUser
  simp only
  split_ifs
  · exact h
  · exact h
  · split
    · exact h
    · exact h.dropCopy _

theorem Rooms.Paired.handled {e : Event} (h : s.rooms.Paired) (ht : Handled s i json now time rand e t) :
    t.rooms.Paired := by
  cases ht with
  | verify =>
    unfold Entry.verifyAccount
    split
    · exact h
    · exact h
  | inRoom _ hr => exact h.inRoom hr
  | leaveRoom => exact h.leave (s.slot i)
  | played hp => exact h.played hp
  | kickUser => exact h.kickUser i json
  | exit => exact h.exit i

theorem Rooms.Paired.verify (h : s.rooms.Paired) (signKey : CStr → ℤ) (i : Slot) (key : CStr) (loaded : User) :
    (Thread.verifyAccount signKey s i key loaded).rooms.Paired := by
  unfold Thread.verifyAccount
  rcases verifyScan_cases signKey s i key with ⟨p, r, hscan⟩ | ⟨_, _, _, ⟨_, hscan⟩ | ⟨k, _, _, p, r, hscan⟩⟩
  · rw [hscan]
    exact h
  · rw [hscan]
    exact h
  · rw [hscan]
    have hs : (s.send p r).rooms.Paired := h
    exact hs.drop k

theorem Rooms.Paired.step {signKey : CStr → ℤ} {op : Op} (h : s.rooms.Paired)
    (ht : serverStep signKey s op = some t) : t.rooms.Paired := by
  rcases serverStep_rooms ht with he | ⟨i, json, now, time, rand, e, hh⟩ | ⟨i, he⟩ | ⟨i, key, loaded, he⟩ | hp
  · rw [he]
    exact h
  · exact h.handled hh
  · rw [he]
    exact h.drop i
  · rw [he]
    exact h.verify signKey i key loaded
  · exact h.played hp

end

structure Server.Proper (s : Server) : Prop where
  owned : s.session.Owned
  stocked : s.rooms.Stocked []
  paired : s.rooms.Paired

theorem proper_reachable {signKey : CStr → ℤ} {ok : Server → Op → Prop} {maxRoom : ℕ} {outside : ℕ → Room}
    {fish : List SettingFish} {users : ℕ → User} {s : Server}
    (h : Reach (serverStep signKey) ok (Server.start maxRoom outside fish users) s) : s.Proper := by
  refine ⟨?_, stocked_reachable h, ?_⟩
  · apply session_invariant (P := Session.Owned) (fun _ _ => True) _ _ _ h
    · exact fun _ _ _ => trivial
    · exact fun _ _ ha => nomatch ha
    · exact fun u e hu he _ => hu.step e he
  · apply h.invariant (P := fun s => s.rooms.Paired)
    · intro r hr
      rw [show (Server.start maxRoom outside fish users).rooms.room r = Room.zero from if_pos hr]
      rfl
    · exact fun s op t hs _ ht => hs.step ht

end FishServer
