import FishServer.SessionRefine

namespace FishServer

open Transition

/-! Seats over runs of joins and leaves: which rooms `findRoom` reads, and what it answers. -/

section

variable {rs : Rooms} {j : ℕ}

def Rooms.look (rs : Rooms) (i : ℕ) : Option (ℕ × ℕ) := (rs.room rs.curr).free.map (fun j => (i + 1, j + 1))

def Rooms.upward (rs : Rooms) : List ℕ := List.range' rs.curr (rs.maxRoom - rs.curr)

def Rooms.downward (rs : Rooms) : List ℕ := (List.range (rs.curr + 1)).reverse

/-- The index that each round of a loop of `findRoom` reads, up to the round that returns. -/
def Rooms.reads (rs : Rooms) : List ℕ → List ℕ
  | [] => []
  | i :: is => rs.curr :: if (rs.look i).isSome then [] else rs.reads is

def Rooms.inspected (rs : Rooms) : List ℕ :=
  rs.reads rs.upward ++ if (rs.upward.findSome? rs.look).isSome then [] else rs.reads rs.downward

structure Rooms.Allocates (rs : Rooms) : Prop where
  inside : ∀ r ∈ rs.inspected, r < rs.maxRoom
  offers : (∃ r < rs.maxRoom, ∃ j < 4, (rs.room r).players j = none) →
    1 ≤ rs.findRoom.2.1 ∧ rs.findRoom.2.1 ≤ rs.maxRoom ∧ 1 ≤ rs.findRoom.2.2 ∧ rs.findRoom.2.2 ≤ 4 ∧
      (rs.room (rs.findRoom.2.1 - 1)).players (rs.findRoom.2.2 - 1) = none
  full : rs.findRoom.2.1 = 0 ↔ ∀ r < rs.maxRoom, ∀ j < 4, (rs.room r).players j ≠ none

def Rooms.start (maxRoom : ℕ) (outside : ℕ → Room) : Rooms :=
  ⟨fun r => if r < maxRoom then Room.zero else outside r, maxRoom, 0⟩

inductive SeatOp
  | join (i : Slot)
  | leave (p : Player)

def Rooms.join (rs : Rooms) (i : Slot) : Rooms :=
  match rs.findRoom with
  | (rs, room, seat) =>
    if room = 0 then rs else rs.setRoom (room - 1) ((rs.room (room - 1)).setPlayer (seat - 1) (some i))

def seatStep (rs : Rooms) : SeatOp → Option Rooms
  | .join i => some (rs.join i)
  | .leave p => some (rs.leave p).1

theorem downward_cons (rs : Rooms) : rs.downward = rs.curr :: (List.range rs.curr).reverse := by
  unfold Rooms.downward
  rw [List.range_succ, List.reverse_append]
  rfl

theorem findRoom_of_free (h : (rs.room rs.curr).free = some j) :
    rs.findRoom = ({ rs with curr := if j + 1 = 4 then rs.curr + 1 else rs.curr }, rs.curr + 1, j + 1) := by
  have hlook : ∀ i, rs.look i = some (i + 1, j + 1) := by
    intro i
    unfold Rooms.look
    rw [h, Option.map_some]
  have hdown : rs.downward.findSome? rs.look = some (rs.curr + 1, j + 1) := by
    rw [downward_cons, List.findSome?_cons_of_isSome, hlook]
    rw [hlook]
    rfl
  have hup : (rs.upward.findSome? rs.look <|> rs.downward.findSome? rs.look) = some (rs.curr + 1, j + 1) := by
    unfold Rooms.upward
    cases rs.maxRoom - rs.curr with
    | zero => exact hdown
    | succ n =>
      rw [List.range'_succ, List.findSome?_cons_of_isSome, hlook]
      · rfl
      · rw [hlook]
        rfl
  unfold Rooms.upward Rooms.downward Rooms.look at hup
  unfold Rooms.findRoom
  simp only [hup]

theorem curr_inspected (rs : Rooms) : rs.curr ∈ rs.inspected := by
  unfold Rooms.inspected Rooms.upward
  cases rs.maxRoom - rs.curr with
  | zero =>
    rw [downward_cons]
    exact List.mem_cons_self
  | succ n =>
    apply List.mem_append_left
    rw [List.range'_succ]
    exact List.mem_cons_self

theorem reads_curr {l : List ℕ} {r : ℕ} (h : r ∈ rs.reads l) : r = rs.curr := by
  induction l with
  | nil => cases h
  | cons i is ih =>
    rw [Rooms.reads] at h
    rcases List.mem_cons.mp h with h | h
    · exact h
    · split_ifs at h
      · cases h
      · exact ih h

theorem inspected_curr {r : ℕ} (h : r ∈ rs.inspected) : r = rs.curr := by
  unfold Rooms.inspected at h
  rcases List.mem_append.mp h with h | h
  · exact reads_curr h
  · split_ifs at h
    · cases h
    · exact reads_curr h

theorem free_of_empty (hj : j < 4) (h : (rs.room rs.curr).players j = none) :
    ∃ k, (rs.room rs.curr).free = some k := by
  apply Option.isSome_iff_exists.mp
  apply List.find?_isSome.mpr
  exact ⟨j, List.mem_range.mpr hj, by rw [h]; rfl⟩

/-- Neither the room at the cursor nor one behind it has given out its fourth seat. -/
def Rooms.Ahead (rs : Rooms) : Prop := ∀ r, rs.curr ≤ r → r < rs.maxRoom → (rs.room r).players 3 = none

theorem ahead_start (maxRoom : ℕ) (outside : ℕ → Room) : (Rooms.start maxRoom outside).Ahead := by
  intro r _ hr
  unfold Rooms.start at hr ⊢
  simp only at hr ⊢
  rw [if_pos hr]
  rfl

theorem setPlayer_three (room : Room) (hj : j ≠ 3) (i : Option Slot) :
    (room.setPlayer j i).players 3 = room.players 3 := by
  apply Function.update_of_ne
  exact hj.symm

theorem join_of_free (h : (rs.room rs.curr).free = some j) (i : Slot) :
    rs.join i = { rs with
      room := Function.update rs.room rs.curr ((rs.room rs.curr).setPlayer j (some i))
      curr := if j + 1 = 4 then rs.curr + 1 else rs.curr } := by
  unfold Rooms.join
  rw [findRoom_of_free h]
  rfl

theorem findRoom_curr_le (rs : Rooms) : rs.curr ≤ rs.findRoom.1.curr := by
  unfold Rooms.findRoom
  simp only
  split
  · simp only
    split_ifs <;> omega
  · exact le_refl rs.curr

theorem join_frame (rs : Rooms) (i : Slot) : (rs.join i).maxRoom = rs.maxRoom ∧ rs.curr ≤ (rs.join i).curr := by
  have hmax := (findRoom_rooms rs).2
  have hcurr := findRoom_curr_le rs
  unfold Rooms.join
  simp only
  split_ifs
  · exact ⟨hmax, hcurr⟩
  · exact ⟨hmax, hcurr⟩

theorem leave_frame (rs : Rooms) (p : Player) :
    (rs.leave p).1.maxRoom = rs.maxRoom ∧ (rs.leave p).1.curr = rs.curr := by
  unfold Rooms.leave
  split_ifs
  · exact ⟨rfl, rfl⟩
  · exact ⟨rfl, rfl⟩

theorem leave_players (rs : Rooms) (p : Player) (r : ℕ) (h : (rs.room r).players j = none) :
    ((rs.leave p).1.room r).players j = none := by
  unfold Rooms.leave
  split_ifs
  · exact h
  · by_cases hr : r = p.room - 1
    · subst hr
      simp only [Rooms.setRoom, Function.update_self, close_players, Room.setPlayer]
      by_cases hj : j = p.seat - 1
      · rw [hj, Function.update_self]
      · rwa [Function.update_of_ne hj]
    · simp only [Rooms.setRoom]
      rwa [Function.update_of_ne hr]

theorem Rooms.Ahead.join (h : rs.Ahead) (i : Slot) : (rs.join i).Ahead := by
  by_cases hc : rs.curr < rs.maxRoom
  · obtain ⟨j, hj⟩ := free_of_empty (by decide) (h rs.curr (le_refl _) hc)
    rw [join_of_free hj]
    intro r hle hr
    simp only at hle hr ⊢
    by_cases hrc : r = rs.curr
    · subst hrc
      rw [Function.update_self]
      have hj3 : j ≠ 3 := by
        rintro rfl
        rw [if_pos rfl] at hle
        omega
      rw [setPlayer_three _ hj3]
      exact h rs.curr (le_refl _) hc
    · rw [Function.update_of_ne hrc]
      apply h r _ hr
      split_ifs at hle <;> omega
  · obtain ⟨hmax, hcurr⟩ := join_frame rs i
    intro r hle hr
    omega

theorem Rooms.Ahead.leave (h : rs.Ahead) (p : Player) : (rs.leave p).1.Ahead := by
  obtain ⟨hmax, hcurr⟩ := leave_frame rs p
  intro r hle hr
  apply leave_players
  apply h r
  · rwa [hcurr] at hle
  · rwa [hmax] at hr

theorem Rooms.Ahead.allocates (h : rs.Ahead) (hc : rs.curr < rs.maxRoom) : rs.Allocates := by
  have hempty := h rs.curr (le_refl _) hc
  obtain ⟨j, hj⟩ := free_of_empty (by decide) hempty
  obtain ⟨hlt, hfree⟩ := free_some hj
  have hfind := findRoom_of_free hj
  constructor
  · intro r hr
    rwa [inspected_curr hr]
  · intro _
    rw [hfind]
    refine ⟨Nat.succ_pos _, hc, Nat.succ_pos _, hlt, hfree⟩
  · rw [hfind]
    constructor
    · intro hzero
      exact absurd hzero (Nat.succ_ne_zero _)
    · intro hall
      exact absurd hempty (hall rs.curr hc 3 (by decide))

theorem allocates_iff (maxRoom : ℕ) (outside : ℕ → Room)
    (hrun : Reach seatStep (fun _ _ => True) (Rooms.start maxRoom outside) rs) :
    rs.Allocates ↔ rs.curr < rs.maxRoom := by
  have hahead : rs.Ahead := by
    apply hrun.invariant
    · exact ahead_start maxRoom outside
    · intro s op t hs _ ht
      cases op with
      | join i =>
        cases ht
        exact hs.join i
      | leave p =>
        cases ht
        exact hs.leave p
  constructor
  · intro hall
    exact hall.inside rs.curr (curr_inspected rs)
  · exact hahead.allocates

theorem two_players_allocates : ∃ rs,
    runIf seatStep (fun _ _ => true) (Rooms.start 1 fun _ => Room.zero) [.join 0, .join 1] = some rs ∧
      rs.Allocates := by
  obtain ⟨rs, hrs, hcurr, hmax⟩ : ∃ rs,
      runIf seatStep (fun _ _ => true) (Rooms.start 1 fun _ => Room.zero) [.join 0, .join 1] = some rs ∧
        rs.curr = 0 ∧ rs.maxRoom = 1 := ⟨_, rfl, by decide, by decide⟩
  have hrun : Reach seatStep (fun _ _ => True) (Rooms.start 1 fun _ => Room.zero) rs :=
    (Reach.of_runIf hrs).mono (fun _ _ _ => trivial)
  refine ⟨rs, hrs, (allocates_iff 1 (fun _ => Room.zero) hrun).mpr ?_⟩
  omega

/-- Four players fill the only room; `findRoom` then reads one behind it, also when a seat gets free. -/
theorem full_room_read_past : ¬ ∀ (maxRoom : ℕ) (outside : ℕ → Room) (rs : Rooms), 1 ≤ maxRoom →
    Reach seatStep (fun _ _ => True) (Rooms.start maxRoom outside) rs → rs.Allocates := by
  intro h
  obtain ⟨rs, hrs, hcurr, hmax⟩ : ∃ rs,
      runIf seatStep (fun _ _ => true) (Rooms.start 1 fun _ => Room.zero)
        [.join 0, .join 1, .join 2, .join 3, .leave { Player.zero with room := 1, seat := 2 }] = some rs ∧
        rs.curr = 1 ∧ rs.maxRoom = 1 := ⟨_, rfl, by decide, by decide⟩
  have hrun : Reach seatStep (fun _ _ => True) (Rooms.start 1 fun _ => Room.zero) rs :=
    (Reach.of_runIf hrs).mono (fun _ _ _ => trivial)
  have hlt := (h 1 (fun _ => Room.zero) rs (le_refl 1) hrun).inside rs.curr (curr_inspected rs)
  omega

end

structure Rooms.SameSeats (rs rs' : Rooms) : Prop where
  maxRoom : rs'.maxRoom = rs.maxRoom
  curr : rs'.curr = rs.curr
  players : ∀ r, (rs'.room r).players = (rs.room r).players

theorem openRoom_seats {s t : Server} {p : Player} {r : ℕ} {time : ℚ} {rand : ℕ → ℕ}
    (h : Entry.openRoom s p r time rand = some t) : s.rooms.SameSeats t.rooms := by
  unfold Entry.openRoom at h
  split at h
  · obtain ⟨fish, _, rfl⟩ := Option.map_eq_some_iff.mp h
    refine ⟨rfl, rfl, ?_⟩
    intro q
    by_cases hq : q = r
    · subst hq
      simp only [Server.send, Rooms.setRoom, Function.update_self]
    · simp only [Server.send, Rooms.setRoom, Function.update_of_ne hq]
  · cases h

theorem inRoom_seats {s t : Server} {i : Slot} {now : ℤ} {time : ℚ} {rand : ℕ → ℕ}
    (hu : (s.slot i).user ≠ none) (hr : (s.slot i).room = 0) (h : Entry.inRoom s i now time rand = some t) :
    (s.rooms.join i).SameSeats t.rooms := by
  obtain ⟨a, ha⟩ := Option.ne_none_iff_exists'.mp hu
  unfold Entry.inRoom Server.user at h
  unfold Rooms.join
  simp only [ha, Option.map_some, hr, lt_self_iff_false, if_false] at h ⊢
  split_ifs at h ⊢
  · cases h
    exact ⟨rfl, rfl, fun _ => rfl⟩
  · split at h
    · cases h
      exact ⟨rfl, rfl, fun _ => rfl⟩
    · exact openRoom_seats h

theorem leaveRoom_seats (s : Server) (i : Slot) : (Entry.leaveRoom s i).rooms = (s.rooms.leave (s.slot i)).1 := rfl

end FishServer
