import FishServer.Entry
import FishServer.Lib.Transition

namespace FishServer

/-! The threads. `signKey` answers the user id that a sign key belongs to, and 0 for other texts. -/

def plainKey (key : CStr) : Bool := key.all (fun c => !isQuote c)

inductive Scan
  | denied (s : Server)
  | granted (s : Server) (uid : ℤ)

def Scan.deny (s : Server) (i : Slot) (msg : CStr) : Scan := .denied (s.send (s.slot i) (.text msg))

/-- `verifyAccount` up to the load of the user. `key` is what `tmp` points to by now. -/
def Thread.verifyScan (signKey : CStr → ℤ) (s : Server) (i : Slot) (key : CStr) : Scan :=
  if plainKey key = false then
    .deny s i "\x7b'op':'verify account', 'uid':0, 'status':0\x7d".toList
  else if signKey key ≤ 0 then
    .deny s i "\x7b'op':'verify account', 'uid':0, 'status':0\x7d".toList
  else if (findSlot (fun k => decide ((s.slot k).saveUid = signKey key))).isSome then
    .deny s i "\x7b'op':'verify account', 'status':-1\x7d".toList
  else
    match findSlot (fun k => decide ((s.slot k).uid = signKey key)) with
    | none => .granted s (signKey key)
    | some k =>
      if (s.slot k).kick ≠ 0 then
        .granted ((s.send (s.slot k) (.text "\x7b'op':'offline', 'status':1\x7d".toList)).drop k) (signKey key)
      else .deny s i "\x7b'op':'verify account', 'status':-2\x7d".toList

-- the new `User` gets the id of the account and what `load` reads of the rest
def Thread.verifyAssign (s : Server) (i : Slot) (uid : ℤ) (loaded : User) : Server :=
  { (s.setSlot i { s.slot i with uid, user := some s.nextUser }).setUser s.nextUser
      { loaded with id := uid } with nextUser := s.nextUser + 1 }

def Thread.verifyAccount (signKey : CStr → ℤ) (s : Server) (i : Slot) (key : CStr) (loaded : User) :
    Server :=
  match Thread.verifyScan signKey s i key with
  | .denied t => t
  | .granted t uid =>
    let t := Thread.verifyAssign t i uid loaded
    t.send (t.slot i) (.verified uid loaded.coin loaded.name)

def Thread.fish (s : Server) (r : ℕ) (time : ℚ) (rand : ℕ → ℕ) : Option Server := do
  let fishs ← (s.rooms.room r).fishs
  if fishs.list.len < 10 then
    let (fishs, f) ← Fishs.create fishs s.fish rand time
    let t := s.setFishs r fishs
    match f.bind fishs.list.value with
    | some fish => some (t.sendRoom r (.newFish fish))
    | none => some t
  else none

inductive Op
  | connect (socket ip : ℕ) (now : ℤ)
  | handshake (i : Slot)
  | message (i : Slot) (json : JsonValue) (now : ℤ) (time : ℚ) (rand : ℕ → ℕ)
  | close (i : Slot)
  | verify (i : Slot) (key : CStr) (loaded : User)
  | saved (user : ℕ)
  | fish (room : ℕ) (time : ℚ) (rand : ℕ → ℕ)
  | bulletVisit (room bullet : ℕ) (now : ℚ)
  | fishVisit (room fish : ℕ)

def Server.connected (s : Server) (i : Slot) : Bool :=
  decide ((s.slot i).socket ≠ 0) && decide ((s.slot i).socket ∈ s.sockets)

/-- None is for a step that cannot be taken, or that ends the program. -/
def serverStep (signKey : CStr → ℤ) (s : Server) (op : Op) : Option Server :=
  if s.exited then none
  else
    match op with
    | .connect socket ip now =>
      if socket ≠ 0 ∧ socket ∉ s.sockets then
        some { Players.add s socket ip now with sockets := socket :: s.sockets }
      else none
    | .handshake i =>
      if s.connected i then some (s.setSlot i { s.slot i with hack := true }) else none
    | .message i json now time rand =>
      if s.connected i ∧ (s.slot i).hack ∧ s.closeing = false then Entry.dispatch s i json now time rand
      else none
    | .close i => if (s.slot i).socket ≠ 0 then some (s.drop i) else none
    | .verify i key loaded =>
      if i ∈ s.verifying ∧ (s.slot i).tmp.isSome then
        some { Thread.verifyAccount signKey s i key loaded with verifying := s.verifying.erase i }
      else none
    | .saved a => if a ∈ s.leaving then some { s with leaving := s.leaving.erase a } else none
    | .fish r time rand => if r < s.rooms.maxRoom then Thread.fish s r time rand else none
    | .bulletVisit r b now =>
      if r < s.rooms.maxRoom then do
        let bullets ← (s.rooms.room r).bullets
        let (bullets, _) ← Thread.bulletVisit bullets now b
        some (s.setBullets r bullets)
      else none
    | .fishVisit r f =>
      if r < s.rooms.maxRoom then do
        let fishs ← (s.rooms.room r).fishs
        let (fishs, _) ← Thread.fishVisit fishs f
        some (s.setFishs r fishs)
      else none

def Server.start (maxRoom : ℕ) (outside : ℕ → Room) (fish : List SettingFish) (users : ℕ → User) : Server where
  slot := fun _ => Player.zero
  len := 0
  rooms := ⟨fun r => if r < maxRoom then Room.zero else outside r, maxRoom, 0⟩
  users := users
  nextUser := 0
  sockets := []
  fish := fish
  closeing := false
  exited := false
  verifying := []
  leaving := []
  sent := []
  trace := ⟨fun _ => [], [], [], []⟩

end FishServer
