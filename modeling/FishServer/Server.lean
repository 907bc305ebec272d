import FishServer.GameObjects
import FishServer.JsonParse

namespace FishServer

abbrev Slot := Fin 1024

instance (i : Slot) (slots : List Slot) : Decidable (i ∈ slots) := inferInstance

structure KillFish where
  id : ℤ
  no : ℤ
  value : ℤ
  isChange : Bool
deriving DecidableEq

structure Privilege where
  view : Bool
  kick : Bool
  exit : Bool
deriving DecidableEq

structure User where
  id : ℤ
  coin : ℤ
  name : CStr
  killfish : List KillFish
  privilege : Privilege
deriving DecidableEq

def killFish (no : ℤ) : List KillFish → List KillFish
  | [] => [⟨0, no, 1, true⟩]
  | k :: ks => if k.no = no then { k with value := i32 (k.value + 1), isChange := true } :: ks else k :: killFish no ks

/-- An entry of the player table. `tmp` is the text that the key pointer got, `user` names a `User`. -/
structure Player where
  socket : ℕ
  index : ℕ
  ip : ℕ
  uid : ℤ
  room : ℕ
  seat : ℕ
  hack : Bool
  inTime : ℤ
  gameTime : ℤ
  opTime : ℤ
  kick : ℤ
  tmp : Option CStr
  user : Option ℕ
  saveUid : ℤ
  closeing : Bool
deriving DecidableEq

def Player.zero : Player := ⟨0, 0, 0, 0, 0, 0, false, 0, 0, 0, 0, none, none, 0, false⟩

structure Room where
  fishs : Option Fishs
  bullets : Option Bullets
  players : ℕ → Option Slot

def Room.zero : Room := ⟨none, none, fun _ => none⟩

structure Rooms where
  room : ℕ → Room
  maxRoom : ℕ
  curr : ℕ

def Rooms.setRoom (rs : Rooms) (r : ℕ) (room : Room) : Rooms :=
  { rs with room := Function.update rs.room r room }

inductive Reply
  | text (msg : CStr)
  | verified (uid coin : ℤ) (name : CStr)
  | foundRoom (uid : ℤ) (name : CStr) (room seat : ℕ)
  | newFish (fish : Fish)
  | shot (uid : ℤ) (seat : ℕ) (coin x y : ℤ) (angle : CStr) (id : ℤ)
  | hit (uid coin bulletId bulletX bulletY fishId fishX fishY : ℤ) (fag : CStr) (type : ℤ)
  | exiting (socket : ℤ) (num status : ℕ)
  | error (code : ℕ)

structure Shot where
  user : ℕ
  uid : ℤ
  room : ℕ
  bullet : ℕ
deriving DecidableEq

structure Award where
  user : ℕ
  uid : ℤ
  room : ℕ
  bullet : ℕ
  fish : ℕ
  coin : ℤ
  no : ℤ
deriving DecidableEq

/-- What happened so far: for each slot the keys that its present connection sent, the users handed to
`userLeave`, the accepted shots and the awards. No function reads it. -/
structure Trace where
  keys : Slot → List CStr
  handed : List ℕ
  shots : List Shot
  awards : List Award

/-- `sockets` are the open ones; `verifying` and `leaving` are the threads that have been created for
`verifyAccount` and `userLeave` and have not run yet. -/
structure Server where
  slot : Slot → Player
  len : ℤ
  rooms : Rooms
  users : ℕ → User
  nextUser : ℕ
  sockets : List ℕ
  fish : List SettingFish
  closeing : Bool
  exited : Bool
  verifying : List Slot
  leaving : List ℕ
  sent : List (ℕ × Reply)
  trace : Trace

def Server.setSlot (s : Server) (i : Slot) (p : Player) : Server :=
  { s with slot := Function.update s.slot i p }

def Server.send (s : Server) (p : Player) (r : Reply) : Server :=
  { s with sent := (p.socket, r) :: s.sent }

def findSlot (test : Slot → Bool) : Option Slot := (List.finRange 1024).find? test

/-! The player table. -/

-- with no free slot the new socket is left open and nobody holds it
def Players.add (s : Server) (socket ip : ℕ) (now : ℤ) : Server :=
  if s.len = 1024 then s
  else
    match findSlot (fun i => decide ((s.slot i).socket = 0)) with
    | none => s
    | some i =>
      { s.setSlot i { s.slot i with index := i.val, socket, ip, inTime := now } with
        len := u32 (s.len + 1)
        trace := { s.trace with keys := Function.update s.trace.keys i [] } }

/-- `p` is what the pointer shows; the caller writes the result back to where `p` came from. -/
def Players.remove (s : Server) (p : Player) : Server × Player :=
  if p.closeing ∨ p.socket = 0 then (s, p)
  else
    ({ s with
        sockets := s.sockets.erase p.socket
        leaving := p.user.toList ++ s.leaving
        trace := { s.trace with handed := p.user.toList ++ s.trace.handed }
        len := u32 (s.len - 1) },
      Player.zero)

def Room.free (r : Room) : Option ℕ := (List.range 4).find? (fun j => (r.players j).isNone)

def Room.isEmpty (r : Room) : Bool := (List.range 4).all (fun j => (r.players j).isNone)

-- both loops look at the room `_curr`, whatever the index they count
def Rooms.findRoom (rs : Rooms) : Rooms × ℕ × ℕ :=
  let look (i : ℕ) := (rs.room rs.curr).free.map (fun j => (i + 1, j + 1))
  match (List.range' rs.curr (rs.maxRoom - rs.curr)).findSome? look <|>
      (List.range (rs.curr + 1)).reverse.findSome? look with
  | some (room, seat) => ({ rs with curr := if seat = 4 then rs.curr + 1 else rs.curr }, room, seat)
  | none => (rs, 0, 0)

def Room.setPlayer (r : Room) (j : ℕ) (p : Option Slot) : Room :=
  { r with players := Function.update r.players j p }

-- the last one to leave frees both lists
def Room.close (r : Room) : Room :=
  if r.isEmpty then { r with fishs := none, bullets := none } else r

def Rooms.leave (rs : Rooms) (p : Player) : Rooms × Player :=
  if p.room = 0 then (rs, p)
  else
    (rs.setRoom (p.room - 1) (((rs.room (p.room - 1)).setPlayer (p.seat - 1) none).close),
      { p with room := 0, seat := 0 })

/-! Leaving the room and then the table: through the slot, and through a copy of it. -/

def Server.leaveRoom (s : Server) (i : Slot) : Server :=
  { s with rooms := (s.rooms.leave (s.slot i)).1 }.setSlot i (s.rooms.leave (s.slot i)).2

def Server.removeSlot (s : Server) (i : Slot) : Server :=
  (Players.remove s (s.slot i)).1.setSlot i (Players.remove s (s.slot i)).2

def Server.drop (s : Server) (i : Slot) : Server := (s.leaveRoom i).removeSlot i

def Server.dropCopy (s : Server) (i : Slot) : Server :=
  (Players.remove { s with rooms := (s.rooms.leave (s.slot i)).1 } (s.rooms.leave (s.slot i)).2).1

end FishServer
