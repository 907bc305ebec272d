import FishServer.ServerRun

namespace FishServer

/-!
Who is at which place of the player table: the part of the server that connections, logins and seats are
about. One event is what one step of the server does to it.
-/

structure Guest where
  socket : ℕ
  uid : ℤ
  room : ℕ
  seat : ℕ
  kick : ℤ
  tmp : Option CStr
  user : Option ℕ
  saveUid : ℤ
  closeing : Bool

def Guest.none : Guest := ⟨0, 0, 0, 0, 0, Option.none, Option.none, 0, false⟩

structure Session where
  slot : Slot → Guest
  seats : ℕ → ℕ → Option Slot
  maxRoom : ℕ
  owner : ℕ → ℤ
  nextUser : ℕ
  leaving : List ℕ
  handed : List ℕ
  keys : Slot → List CStr
  exited : Bool

inductive Event
  | idle
  | connect (i : Slot) (socket : ℕ)
  | key (i : Slot) (key : CStr) (kick : ℤ)
  | seat (i : Slot) (room seat : ℕ)
  | leave (i : Slot)
  | drop (i : Slot)
  | kick (k : Slot)
  | login (i : Slot) (key : CStr) (uid : ℤ) (out : Option Slot)
  | saved (user : ℕ)
  | exit

namespace Session

@[simps]
def setSlot (s : Session) (i : Slot) (g : Guest) : Session := { s with slot := Function.update s.slot i g }

@[simps]
def setSeat (s : Session) (r j : ℕ) (x : Option Slot) : Session :=
  { s with seats := Function.update s.seats r (Function.update (s.seats r) j x) }

@[simps]
def hand (s : Session) (g : Guest) : Session :=
  { s with leaving := g.user.toList ++ s.leaving, handed := g.user.toList ++ s.handed }

def vacate (s : Session) (g : Guest) : Session :=
  if g.room = 0 then s else s.setSeat (g.room - 1) (g.seat - 1) none

def unseat (s : Session) (i : Slot) : Session :=
  if (s.slot i).room = 0 then s
  else (s.vacate (s.slot i)).setSlot i { s.slot i with room := 0, seat := 0 }

def remove (s : Session) (i : Slot) : Session :=
  if (s.slot i).closeing ∨ (s.slot i).socket = 0 then s else (s.hand (s.slot i)).setSlot i .none

def drop (s : Session) (i : Slot) : Session := (s.unseat i).remove i

-- the same through a copy of the slot
def kick (s : Session) (k : Slot) : Session :=
  if (s.slot k).closeing ∨ (s.slot k).socket = 0 then s.vacate (s.slot k)
  else (s.vacate (s.slot k)).hand (s.slot k)

def assign (s : Session) (i : Slot) (uid : ℤ) : Session :=
  { s.setSlot i { s.slot i with uid, user := some s.nextUser } with
    owner := Function.update s.owner s.nextUser uid
    nextUser := s.nextUser + 1 }

def kickAll (s : Session) : List Slot → Session
  | [] => s
  | k :: ks => if (s.slot k).socket = 0 then s.kickAll ks else (s.kick k).kickAll ks

def step (s : Session) : Event → Session
  | .idle => s
  | .connect i socket =>
    { s.setSlot i { s.slot i with socket } with keys := Function.update s.keys i [] }
  | .key i key kick =>
    { s.setSlot i { s.slot i with kick, tmp := some key } with
      keys := Function.update s.keys i (key :: s.keys i) }
  | .seat i room seat =>
    (s.setSeat (room - 1) (seat - 1) (some i)).setSlot i { s.slot i with room, seat }
  | .leave i => s.unseat i
  | .drop i => s.drop i
  | .kick k => s.kick k
  | .login i _ uid out => (out.elim s s.drop).assign i uid
  | .saved a => { s with leaving := s.leaving.erase a }
  | .exit => { s.kickAll (List.finRange 1024) with exited := true }

/-- What the program has checked, or the environment promises, when the event happens. -/
def Enabled (signKey : CStr → ℤ) (s : Session) : Event → Prop
  | .idle => True
  | .connect i socket => (s.slot i).socket = 0 ∧ socket ≠ 0
  | .key i _ _ => (s.slot i).socket ≠ 0
  | .seat i room seat => (s.slot i).socket ≠ 0 ∧ (s.slot i).room = 0 ∧ 0 < room ∧ 0 < seat ∧ seat ≤ 4 ∧
      s.seats (room - 1) (seat - 1) = none
  | .leave i => (s.slot i).socket ≠ 0
  | .drop i => (s.slot i).socket ≠ 0
  | .kick k => (s.slot k).socket ≠ 0
  | .login i key uid out => (s.slot i).tmp.isSome ∧ signKey key = uid ∧ 0 < uid ∧
      (∀ k, out = some k → (s.slot k).uid = uid ∧ (s.slot k).kick ≠ 0) ∧
      (out = none → ∀ k, (s.slot k).uid ≠ uid)
  | .saved a => a ∈ s.leaving
  | .exit => True

variable (s : Session) (g : Guest)

@[simp] theorem vacate_slot : (s.vacate g).slot = s.slot := by
  unfold vacate
  split_ifs <;> rfl

@[simp] theorem vacate_nextUser : (s.vacate g).nextUser = s.nextUser := by
  unfold vacate
  split_ifs <;> rfl

@[simp] theorem vacate_owner : (s.vacate g).owner = s.owner := by
  unfold vacate
  split_ifs <;> rfl

@[simp] theorem vacate_handed : (s.vacate g).handed = s.handed := by
  unfold vacate
  split_ifs <;> rfl

@[simp] theorem vacate_leaving : (s.vacate g).leaving = s.leaving := by
  unfold vacate
  split_ifs <;> rfl

@[simp] theorem vacate_exited : (s.vacate g).exited = s.exited := by
  unfold vacate
  split_ifs <;> rfl

@[simp] theorem vacate_keys : (s.vacate g).keys = s.keys := by
  unfold vacate
  split_ifs <;> rfl

theorem setSlot_user (i : Slot) (h : g.user = (s.slot i).user) (j : Slot) :
    ((s.setSlot i g).slot j).user = (s.slot j).user := by
  by_cases hj : j = i
  · rw [hj, setSlot_slot, Function.update_self, h]
  · rw [setSlot_slot, Function.update_of_ne hj]

theorem unseat_user (i j : Slot) : ((s.unseat i).slot j).user = (s.slot j).user := by
  unfold unseat
  split_ifs
  · rfl
  · rw [setSlot_user]
    · rw [vacate_slot]
    · rw [vacate_slot]

theorem unseat_handed (i : Slot) : (s.unseat i).handed = s.handed := by
  unfold unseat
  split_ifs <;> simp

theorem unseat_leaving (i : Slot) : (s.unseat i).leaving = s.leaving := by
  unfold unseat
  split_ifs <;> simp

theorem unseat_exited (i : Slot) : (s.unseat i).exited = s.exited := by
  unfold unseat
  split_ifs <;> simp

theorem drop_exited (i : Slot) : (s.drop i).exited = s.exited := by
  unfold drop remove
  split_ifs
  · exact s.unseat_exited i
  · exact s.unseat_exited i

theorem kick_exited (k : Slot) : (s.kick k).exited = s.exited := by
  unfold kick
  split_ifs <;> simp

theorem unseat_nextUser (i : Slot) : (s.unseat i).nextUser = s.nextUser := by
  unfold unseat
  split_ifs <;> simp

structure Frame (s t : Session) : Prop where
  slot : t.slot = s.slot
  owner : t.owner = s.owner
  nextUser : t.nextUser = s.nextUser
  keys : t.keys = s.keys

theorem Frame.trans {s t u : Session} (h : s.Frame t) (h' : t.Frame u) : s.Frame u :=
  ⟨h'.slot.trans h.slot, h'.owner.trans h.owner, h'.nextUser.trans h.nextUser, h'.keys.trans h.keys⟩

theorem vacate_frame : s.Frame (s.vacate g) :=
  ⟨s.vacate_slot g, s.vacate_owner g, s.vacate_nextUser g, s.vacate_keys g⟩

theorem kick_frame (k : Slot) : s.Frame (s.kick k) := by
  unfold kick
  split_ifs
  · exact s.vacate_frame _
  · exact (s.vacate_frame _).trans ⟨rfl, rfl, rfl, rfl⟩

theorem kickAll_frame (ks : List Slot) : s.Frame (s.kickAll ks) := by
  induction ks generalizing s with
  | nil => exact ⟨rfl, rfl, rfl, rfl⟩
  | cons k ks ih =>
    rw [kickAll]
    split_ifs
    · exact ih s
    · exact (s.kick_frame k).trans (ih (s.kick k))

theorem exit_frame : s.Frame (s.step .exit) := by
  unfold step
  generalize List.finRange 1024 = ks
  obtain ⟨hs, ho, hn, hk⟩ := s.kickAll_frame ks
  exact ⟨hs, ho, hn, hk⟩

theorem unseat_keys (i : Slot) : (s.unseat i).keys = s.keys := by
  unfold unseat
  split_ifs
  · rfl
  · exact s.vacate_keys _

theorem drop_keys (i : Slot) : (s.drop i).keys = s.keys := by
  unfold drop remove
  split_ifs
  · exact s.unseat_keys i
  · exact s.unseat_keys i

end Session

end FishServer
