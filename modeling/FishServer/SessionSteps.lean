import FishServer.Session

namespace FishServer

def Player.guest (p : Player) : Guest :=
  ⟨p.socket, p.uid, p.room, p.seat, p.kick, p.tmp, p.user, p.saveUid, p.closeing⟩

def Server.session (s : Server) : Session where
  slot := fun i => (s.slot i).guest
  seats := fun r => (s.rooms.room r).players
  maxRoom := s.rooms.maxRoom
  owner := fun a => (s.users a).id
  nextUser := s.nextUser
  leaving := s.leaving
  handed := s.trace.handed
  keys := s.trace.keys
  exited := s.exited

/-! The event of a step, read off the state before it. -/

def Entry.kicked (s : Server) (i : Slot) (json : JsonValue) : Option Slot :=
  let socketId := json.valueToInt "socket_id".toList
  if 0 < socketId ∧ socketId ≠ (s.slot i).socket then
    findSlot (fun k => decide (((s.slot k).socket : ℤ) = socketId))
  else none

def Entry.event (s : Server) (i : Slot) (json : JsonValue) : Event :=
  match json.value "op".toList with
  | none => .idle
  | some op =>
    if op = "verify account".toList then
      match json.value "key".toList with
      | none => .idle
      | some key => .key i key (json.valueToInt "kick".toList)
    else if (s.slot i).user = none then .idle
    else if op = "in room".toList then
      if 0 < (s.slot i).room ∨ s.rooms.findRoom.2.1 = 0 then .idle
      else .seat i s.rooms.findRoom.2.1 s.rooms.findRoom.2.2
    else if op = "leave room".toList then if 0 < (s.slot i).room then .leave i else .idle
    else if op = "to shot".toList then .idle
    else if op = "hit fish".toList then .idle
    else if op = "view online".toList ∨ op = "server info".toList ∨ op = "set setting".toList then .idle
    else if op = "kick user".toList then
      if Entry.allowed s i Privilege.kick then (Entry.kicked s i json).elim .idle .kick else .idle
    else if op = "exit".toList then if Entry.allowed s i Privilege.exit then .exit else .idle
    else .idle

def Thread.verifyEvent (signKey : CStr → ℤ) (s : Server) (i : Slot) (key : CStr) : Event :=
  match Thread.verifyScan signKey s i key with
  | .denied _ => .idle
  | .granted _ uid => .login i key uid (findSlot (fun k => decide ((s.slot k).uid = signKey key)))

def Server.event (signKey : CStr → ℤ) (s : Server) : Op → Event
  | .connect socket _ _ =>
    if s.len = 1024 then .idle
    else
      match findSlot (fun i => decide ((s.slot i).socket = 0)) with
      | none => .idle
      | some i => .connect i socket
  | .message i json _ _ _ => Entry.event s i json
  | .close i => .drop i
  | .verify i key _ => Thread.verifyEvent signKey s i key
  | .saved a => .saved a
  | _ => .idle

theorem session_setSlot (s : Server) (i : Slot) (p : Player) :
    (s.setSlot i p).session = s.session.setSlot i p.guest := by
  have h : (fun j => (Function.update s.slot i p j).guest) =
      Function.update (fun j => (s.slot j).guest) i p.guest := by
    funext j
    exact Function.apply_update (fun _ => Player.guest) s.slot i p j
  simp only [Server.session, Server.setSlot, Session.setSlot, h]

theorem session_send (s : Server) (p : Player) (r : Reply) : (s.send p r).session = s.session := rfl

theorem session_setRoom (s : Server) (r : ℕ) (room : Room)
    (h : room.players = (s.rooms.room r).players) :
    ({ s with rooms := s.rooms.setRoom r room } : Server).session = s.session := by
  have hr : (fun k => (Function.update s.rooms.room r room k).players) =
      fun k => (s.rooms.room k).players := by
    funext k
    by_cases hk : k = r
    · rw [hk, Function.update_self, h]
    · rw [Function.update_of_ne hk]
  simp only [Server.session, Rooms.setRoom, hr]

theorem session_setBullets (s : Server) (r : ℕ) (b : Bullets) : (s.setBullets r b).session = s.session :=
  session_setRoom s r _ rfl

theorem session_setFishs (s : Server) (r : ℕ) (f : Fishs) : (s.setFishs r f).session = s.session :=
  session_setRoom s r _ rfl

theorem session_setUser (s : Server) (a : ℕ) (u : User) (h : u.id = (s.users a).id) :
    (s.setUser a u).session = s.session := by
  have hu : (fun b => (Function.update s.users a u b).id) = fun b => (s.users b).id := by
    funext b
    by_cases hb : b = a
    · rw [hb, Function.update_self, h]
    · rw [Function.update_of_ne hb]
  simp only [Server.session, Server.setUser, hu]

theorem close_players (r : Room) : r.close.players = r.players := by
  unfold Room.close
  split_ifs <;> rfl

theorem session_leave (s : Server) (p : Player) :
    ({ s with rooms := (s.rooms.leave p).1 } : Server).session = s.session.vacate p.guest := by
  unfold Rooms.leave Session.vacate
  by_cases h : p.room = 0
  · rw [if_pos h, if_pos (show p.guest.room = 0 from h)]
  · rw [if_neg h, if_neg (show ¬p.guest.room = 0 from h)]
    have hr : (fun k => (Function.update s.rooms.room (p.room - 1)
        (((s.rooms.room (p.room - 1)).setPlayer (p.seat - 1) none).close) k).players) =
          Function.update (fun k => (s.rooms.room k).players) (p.room - 1)
            (Function.update (s.rooms.room (p.room - 1)).players (p.seat - 1) none) := by
      funext k
      by_cases hk : k = p.room - 1
      · rw [hk, Function.update_self, Function.update_self, close_players]
        rfl
      · rw [Function.update_of_ne hk, Function.update_of_ne hk]
    simp only [Server.session, Rooms.setRoom, hr]
    rfl

theorem leave_guest (rs : Rooms) (p : Player) :
    (rs.leave p).2.guest = if p.room = 0 then p.guest else { p.guest with room := 0, seat := 0 } := by
  unfold Rooms.leave
  split_ifs <;> rfl

theorem session_leaveRoom (s : Server) (i : Slot) : (s.leaveRoom i).session = s.session.unseat i := by
  unfold Server.leaveRoom
  rw [session_setSlot, session_leave, leave_guest, Session.unseat]
  by_cases h : (s.slot i).room = 0
  · rw [if_pos h, if_pos (show (s.session.slot i).room = 0 from h), Session.vacate,
      if_pos (show (s.slot i).guest.room = 0 from h)]
    have hu : Function.update s.session.slot i (s.slot i).guest = s.session.slot :=
      Function.update_eq_self i s.session.slot
    simp only [Session.setSlot, hu]
  · rw [if_neg h, if_neg (show ¬(s.session.slot i).room = 0 from h)]
    rfl

theorem session_remove (s : Server) (p : Player) :
    (Players.remove s p).1.session =
      if p.closeing ∨ p.socket = 0 then s.session else s.session.hand p.guest := by
  unfold Players.remove
  split_ifs <;> rfl

theorem remove_guest (s : Server) (p : Player) :
    (Players.remove s p).2.guest = if p.closeing ∨ p.socket = 0 then p.guest else .none := by
  unfold Players.remove
  split_ifs <;> rfl

theorem session_removeSlot (s : Server) (i : Slot) : (s.removeSlot i).session = s.session.remove i := by
  unfold Server.removeSlot
  rw [session_setSlot, session_remove, remove_guest, Session.remove]
  by_cases h : (s.slot i).closeing ∨ (s.slot i).socket = 0
  · rw [if_pos h, if_pos h, if_pos (show (s.session.slot i).closeing ∨ (s.session.slot i).socket = 0 from h)]
    have hu : Function.update s.session.slot i (s.slot i).guest = s.session.slot :=
      Function.update_eq_self i s.session.slot
    simp only [Session.setSlot, hu]
  · rw [if_neg h, if_neg h,
      if_neg (show ¬((s.session.slot i).closeing ∨ (s.session.slot i).socket = 0) from h)]
    rfl

theorem session_drop (s : Server) (i : Slot) : (s.drop i).session = s.session.drop i := by
  unfold Server.drop Session.drop
  rw [session_removeSlot, session_leaveRoom]

theorem session_dropCopy (s : Server) (k : Slot) : (s.dropCopy k).session = s.session.kick k := by
  unfold Server.dropCopy
  rw [session_remove, session_leave, Session.kick]
  have hl : (s.rooms.leave (s.slot k)).2.closeing = (s.slot k).closeing ∧
      (s.rooms.leave (s.slot k)).2.socket = (s.slot k).socket ∧
        (s.rooms.leave (s.slot k)).2.guest.user = (s.slot k).user := by
    unfold Rooms.leave
    split_ifs <;> exact ⟨rfl, rfl, rfl⟩
  obtain ⟨hc, hs, hu⟩ := hl
  rw [hc, hs]
  by_cases h : (s.slot k).closeing ∨ (s.slot k).socket = 0
  · rw [if_pos h, if_pos (show (s.session.slot k).closeing ∨ (s.session.slot k).socket = 0 from h)]
    rfl
  · rw [if_neg h, if_neg (show ¬((s.session.slot k).closeing ∨ (s.session.slot k).socket = 0) from h)]
    simp only [Session.hand, hu]
    rfl

end FishServer
