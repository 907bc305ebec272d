import FishServer.Server

namespace FishServer

open LinkedList

/-! What a handler reads of a message. -/

def JsonValue.value (key : CStr) : JsonValue → Option CStr
  | .null => none
  | .node k v _ next => if k = key then v else next.value key

def digits (acc : ℤ) : CStr → ℤ
  | [] => acc
  | c :: s => if c.isDigit then digits (acc * 10 + (c.toNat - 48)) s else acc

-- what `isspace` holds of: the blank, and the characters from the tab to the carriage return
def isSpace (c : Char) : Bool := decide (c = ' ') || (decide (9 ≤ c.toNat) && decide (c.toNat ≤ 13))

-- out of range the library answers the nearest int
def atoi (s : CStr) : ℤ :=
  let n := match s.dropWhile isSpace with
    | '-' :: s => -digits 0 s
    | '+' :: s => digits 0 s
    | s => digits 0 s
  max (-2147483648) (min maxInt n)

def JsonValue.valueToInt (json : JsonValue) (key : CStr) : ℤ := ((json.value key).map atoi).getD 0

def Server.user (s : Server) (i : Slot) : Option User := (s.slot i).user.map s.users

def Server.sendRoom (s : Server) (r : ℕ) (reply : Reply) : Server :=
  { s with
    sent := ((List.range 4).filterMap (fun j => ((s.rooms.room r).players j).bind (fun k =>
      if (s.slot k).socket ≠ 0 then some ((s.slot k).socket, reply) else none))).reverse ++ s.sent }

def Server.sendSeated (s : Server) (p : Player) (r : ℕ) : Server :=
  { s with
    sent := ((List.range 4).filterMap (fun j => ((s.rooms.room r).players j).bind (fun k =>
      if (s.slot k).socket ≠ 0 ∧ (s.slot k).uid ≠ p.uid then
        (s.user k).map (fun u => (p.socket, Reply.foundRoom (s.slot k).uid u.name (r + 1) (s.slot k).seat))
      else none))).reverse ++ s.sent }

/-! The handlers. None is for a null pointer that is read. -/

def Entry.verifyAccount (s : Server) (i : Slot) (json : JsonValue) : Server :=
  match json.value "key".toList with
  | none => s.send (s.slot i) (.text "\x7b'op':'verify account', 'uid':0, 'status':0\x7d".toList)
  | some key =>
    { s.setSlot i { s.slot i with kick := json.valueToInt "kick".toList, tmp := some key } with
      verifying := i :: s.verifying
      trace := { s.trace with keys := Function.update s.trace.keys i (key :: s.trace.keys i) } }

def Entry.openRoom (s : Server) (p : Player) (r : ℕ) (time : ℚ) (rand : ℕ → ℕ) : Option Server :=
  match Fishs.create Objects.init s.fish rand time with
  | some (fishs, some f) =>
    (fishs.list.value f).map (fun fish =>
      { s with rooms := s.rooms.setRoom r { s.rooms.room r with
          fishs := some fishs
          bullets := some Objects.init } }.send p (.newFish fish))
  | _ => none

def Server.takeSeat (s : Server) (i : Slot) (rs : Rooms) (room seat : ℕ) (now : ℤ) : Server :=
  { s with rooms := rs.setRoom (room - 1) ((rs.room (room - 1)).setPlayer (seat - 1) (some i)) }.setSlot i
    { s.slot i with room, seat, gameTime := now }

def Entry.inRoom (s : Server) (i : Slot) (now : ℤ) (time : ℚ) (rand : ℕ → ℕ) : Option Server :=
  match s.user i with
  | none => some s
  | some u =>
    if 0 < (s.slot i).room then some s
    else
      match s.rooms.findRoom with
      | (rs, room, seat) =>
        if room = 0 then
          some ({ s with rooms := rs }.send (s.slot i) (.text "\x7bop: 'find room', room:0\x7d".toList))
        else
          let t := ((s.takeSeat i rs room seat now).sendRoom (room - 1)
            (.foundRoom (s.slot i).uid u.name room seat)).sendSeated (s.slot i) (room - 1)
          match (t.rooms.room (room - 1)).fishs with
          | some _ => some t
          | none => Entry.openRoom t (s.slot i) (room - 1) time rand

def Entry.leaveRoom (s : Server) (i : Slot) : Server :=
  (s.leaveRoom i).send (s.slot i) (.text "\x7b'op':'leave room', 'status':1\x7d".toList)

def Server.setUser (s : Server) (a : ℕ) (u : User) : Server := { s with users := Function.update s.users a u }

def Server.setBullets (s : Server) (r : ℕ) (b : Bullets) : Server :=
  { s with rooms := s.rooms.setRoom r { s.rooms.room r with bullets := some b } }

def Server.setFishs (s : Server) (r : ℕ) (f : Fishs) : Server :=
  { s with rooms := s.rooms.setRoom r { s.rooms.room r with fishs := some f } }

def Server.fire (s : Server) (i : Slot) (a : ℕ) (bullets : Bullets) (b : ℕ) (now : ℤ) : Server :=
  let p := s.slot i
  let u := s.users a
  let t := ((s.setSlot i { p with opTime := now }).setUser a { u with coin := i32 (u.coin - 1) }).setBullets
    (p.room - 1) bullets
  { t with trace := { t.trace with shots := ⟨a, p.uid, p.room - 1, b⟩ :: t.trace.shots } }

def Entry.shoot (s : Server) (i : Slot) (a : ℕ) (json : JsonValue) (now : ℤ) (time : ℚ) : Option Server := do
  let p := s.slot i
  let x := json.valueToInt "x".toList
  let y := json.valueToInt "y".toList
  let angle ← json.value "angle".toList
  let bullets ← (s.rooms.room (p.room - 1)).bullets
  let (bullets, b) ← Bullets.create bullets p.uid x y angle time
  let bullet ← bullets.list.value b
  let t := s.fire i a bullets b now
  some (t.sendRoom (p.room - 1) (.shot p.uid p.seat (t.users a).coin x y angle bullet.id))

def Entry.toShot (s : Server) (i : Slot) (json : JsonValue) (now : ℤ) (time : ℚ) : Option Server :=
  match (s.slot i).user with
  | none => some (s.send (s.slot i) (.text "\x7b'op':'to shot', 'status':0\x7d".toList))
  | some a =>
    if (s.users a).coin ≤ 0 then
      some (s.send (s.slot i) (.text "\x7b'op':'to shot', 'status':0\x7d".toList))
    else Entry.shoot s i a json now time

def Fish.hit (f : Fish) : Fish := { f with hitCoin := f.hitCoin + 1 }

def Fish.free (f : Fish) : Fish := { f with isdel := true, lock := false }

def Bullet.free (b : Bullet) : Bullet := { b with isdel := true, lock := false }

def Server.pay (s : Server) (i : Slot) (a b : ℕ) (fishs : Fishs) (f : ℕ) (fish : SettingFish) : Server :=
  let p := s.slot i
  let u := s.users a
  let t := (s.setUser a
    { u with coin := i32 (u.coin + fish.coin), killfish := killFish fish.no u.killfish }).setFishs
      (p.room - 1) { fishs with list := (fishs.list.modify Fish.hit f).modify Fish.free f }
  { t with
    trace := { t.trace with
      awards := ⟨a, p.uid, p.room - 1, b, f, fish.coin, fish.no⟩ :: t.trace.awards } }

def Entry.award (s : Server) (i : Slot) (a : ℕ) (json : JsonValue) (bid : ℤ) (b : ℕ) (fishs : Fishs)
    (f : ℕ) : Option Server := do
  let p := s.slot i
  let fish ← fishs.list.value f
  let fag ← json.value "fag".toList
  let t := s.pay i a b fishs f fish.fish
  some (t.send p (.hit p.uid (t.users a).coin bid (json.valueToInt "bx".toList)
    (json.valueToInt "by".toList) fish.id (json.valueToInt "fx".toList) (json.valueToInt "fy".toList) fag
    fish.type))

def Server.freeBullet (s : Server) (r b : ℕ) (bullets : Bullets) : Server :=
  s.setBullets r { bullets with list := bullets.list.modify Bullet.free b }

def Entry.hitFish (s : Server) (i : Slot) (json : JsonValue) : Option Server := do
  let p := s.slot i
  let bid := json.valueToInt "bullet_id".toList
  let bullets ← (s.rooms.room (p.room - 1)).bullets
  let b ← Bullets.getBullet bullets bid p.uid
  match p.user, b with
  | some a, some b =>
    let fishs ← (s.rooms.room (p.room - 1)).fishs
    let (fishs, f) ← Fishs.getFish fishs (json.valueToInt "fish_id".toList)
    match f with
    | none => some ((s.setFishs (p.room - 1) fishs).freeBullet (p.room - 1) b bullets)
    | some f =>
      (Entry.award s i a json bid b fishs f).map (fun t => t.freeBullet (p.room - 1) b bullets)
  | _, _ => some (s.send p (.text "\x7bop:'hit fish', status:0, msg:'no valid!'\x7d".toList))

def Entry.kickUser (s : Server) (i : Slot) (json : JsonValue) : Server :=
  let socketId := json.valueToInt "socket_id".toList
  if socketId ≤ 0 then
    s.send (s.slot i) (.text "\x7b'op':'kick user', 'status':0, 'msg':'error socket!'\x7d".toList)
  else if socketId = (s.slot i).socket then
    s.send (s.slot i) (.text "\x7b'op':'kick user', 'status':0, 'msg':'not kick self!'\x7d".toList)
  else
    match findSlot (fun k => decide (((s.slot k).socket : ℤ) = socketId)) with
    | none => s
    | some k =>
      (s.dropCopy k).send (s.slot i) (.text "\x7b'op':'kick user', 'status':1, 'msg':'ok!'\x7d".toList)

def Entry.exitLoop (s : Server) (i : Slot) (num : ℕ) : List Slot → Server × ℕ
  | [] => (s, num)
  | k :: ks =>
    if (s.slot k).socket = 0 then Entry.exitLoop s i num ks
    else
      Entry.exitLoop ((s.send (s.slot i) (.exiting (s.slot k).socket (num + 1) 0)).dropCopy k) i (num + 1) ks

def Entry.exit (s : Server) (i : Slot) : Server :=
  let (t, num) := Entry.exitLoop { s with closeing := true } i 0 (List.finRange 1024)
  { t.send (t.slot i) (.exiting (-1) num 1) with exited := true }

def Entry.other (s : Server) (i : Slot) (json : JsonValue) : Server :=
  s.send (s.slot i) (.text ((json.value "msg".toList).getD "null".toList))

def Entry.allowed (s : Server) (i : Slot) (right : Privilege → Bool) : Bool :=
  (s.user i).any (fun u => right u.privilege)

/-- The constructor of `Entry`. The table of players, the memory figures and the settings that the other
privileged messages show or change are not part of the state. -/
def Entry.dispatch (s : Server) (i : Slot) (json : JsonValue) (now : ℤ) (time : ℚ) (rand : ℕ → ℕ) :
    Option Server :=
  match json.value "op".toList with
  | none => some (s.send (s.slot i) (.error 1))
  | some op =>
    if op = "verify account".toList then some (Entry.verifyAccount s i json)
    else if (s.slot i).user = none then some s
    else if op = "in room".toList then Entry.inRoom s i now time rand
    else if op = "leave room".toList then
      some (if 0 < (s.slot i).room then Entry.leaveRoom s i else s)
    else if op = "to shot".toList then
      if 0 < (s.slot i).room then Entry.toShot s i json now time else some s
    else if op = "hit fish".toList then
      if 0 < (s.slot i).room then Entry.hitFish s i json else some s
    else if op = "view online".toList ∨ op = "server info".toList ∨ op = "set setting".toList then
      some (if Entry.allowed s i (if op = "view online".toList then Privilege.view else Privilege.exit) then s
        else s.send (s.slot i) (.error 2))
    else if op = "kick user".toList then
      some (if Entry.allowed s i Privilege.kick then Entry.kickUser s i json
        else s.send (s.slot i) (.error 2))
    else if op = "exit".toList then
      some (if Entry.allowed s i Privilege.exit then Entry.exit s i else s.send (s.slot i) (.error 2))
    else some (Entry.other s i json)

end FishServer
