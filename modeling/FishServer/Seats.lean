import FishServer.SessionRun

namespace FishServer

open Transition

/-! Slots and rooms agree on who sits where. -/

namespace Session

structure Sits (s : Session) (i : Slot) : Prop where
  room : (s.slot i).room ≤ s.maxRoom
  seat_pos : 0 < (s.slot i).seat
  seat_le : (s.slot i).seat ≤ 4
  held : s.seats ((s.slot i).room - 1) ((s.slot i).seat - 1) = some i
  connected : (s.slot i).socket ≠ 0

structure Seated (s : Session) : Prop where
  sits : ∀ i, (s.slot i).room ≠ 0 → s.Sits i
  slot : ∀ r j i, r < s.maxRoom → j < 4 → s.seats r j = some i →
    (s.slot i).room = r + 1 ∧ (s.slot i).seat = j + 1

variable {s t : Session}

theorem Seated.congr (h : s.Seated) (hr : ∀ i, (t.slot i).room = (s.slot i).room)
    (hc : ∀ i, (t.slot i).seat = (s.slot i).seat)
    (hs : ∀ i, (s.slot i).socket ≠ 0 → (t.slot i).socket ≠ 0) (hseats : t.seats = s.seats)
    (hm : t.maxRoom = s.maxRoom) : t.Seated where
  sits := by
    intro i hi
    have hsit := h.sits i (hr i ▸ hi)
    refine ⟨?_, ?_, ?_, ?_, hs i hsit.connected⟩
    · rw [hr, hm]
      exact hsit.room
    · rw [hc]
      exact hsit.seat_pos
    · rw [hc]
      exact hsit.seat_le
    · rw [hr, hc, hseats]
      exact hsit.held
  slot := by
    intro r j i hrm hj hi
    rw [hr, hc]
    exact h.slot r j i (hm ▸ hrm) hj (hseats ▸ hi)

theorem Seated.setSlot (h : s.Seated) (i : Slot) (g : Guest) (hr : g.room = (s.slot i).room)
    (hc : g.seat = (s.slot i).seat) (hs : (s.slot i).socket ≠ 0 → g.socket ≠ 0) :
    (s.setSlot i g).Seated := by
  apply h.congr
  · intro j
    by_cases hj : j = i
    · rw [hj, setSlot_slot, Function.update_self, hr]
    · rw [setSlot_slot, Function.update_of_ne hj]
  · intro j
    by_cases hj : j = i
    · rw [hj, setSlot_slot, Function.update_self, hc]
    · rw [setSlot_slot, Function.update_of_ne hj]
  · intro j hj
    by_cases he : j = i
    · rw [he, setSlot_slot, Function.update_self]
      exact hs (he ▸ hj)
    · rwa [setSlot_slot, Function.update_of_ne he]
  · rfl
  · rfl

theorem Seated.out (h : s.Seated) (i : Slot) (hk : ∀ k, k ≠ i → t.slot k = s.slot k)
    (hi : (t.slot i).room = 0) (hm : t.maxRoom = s.maxRoom)
    (hseats : ∀ r j, t.seats r j = s.seats r j ∨ t.seats r j = none ∧ s.seats r j = some i)
    (hfree : ∀ r j, r < s.maxRoom → j < 4 → t.seats r j ≠ some i) : t.Seated where
  sits := by
    intro k hkr
    have hne : k ≠ i := by
      rintro rfl
      exact hkr hi
    rw [hk k hne] at hkr
    have hsit := h.sits k hkr
    refine ⟨?_, ?_, ?_, ?_, ?_⟩
    · rw [hk k hne, hm]
      exact hsit.room
    · rw [hk k hne]
      exact hsit.seat_pos
    · rw [hk k hne]
      exact hsit.seat_le
    · rw [hk k hne]
      rcases hseats ((s.slot k).room - 1) ((s.slot k).seat - 1) with he | ⟨_, he⟩
      · rw [he]
        exact hsit.held
      · rw [hsit.held] at he
        cases he
        exact absurd rfl hne
    · rw [hk k hne]
      exact hsit.connected
  slot := by
    intro r j k hr hj hkj
    rw [hm] at hr
    have hne : k ≠ i := by
      rintro rfl
      exact hfree r j hr hj hkj
    rw [hk k hne]
    rcases hseats r j with he | ⟨he, _⟩
    · exact h.slot r j k hr hj (he ▸ hkj)
    · rw [he] at hkj
      cases hkj

theorem setSeat_of_ne (s : Session) {r j r' j' : ℕ} (x : Option Slot) (h : ¬(r' = r ∧ j' = j)) :
    (s.setSeat r j x).seats r' j' = s.seats r' j' := by
  rw [setSeat_seats]
  by_cases hr : r' = r
  · rw [hr, Function.update_self, Function.update_of_ne (fun hj => h ⟨hr, hj⟩)]
  · rw [Function.update_of_ne hr]

theorem setSeat_self (s : Session) (r j : ℕ) (x : Option Slot) : (s.setSeat r j x).seats r j = x := by
  rw [setSeat_seats, Function.update_self, Function.update_self]

theorem Seated.unseat (h : s.Seated) (i : Slot) : (s.unseat i).Seated := by
  unfold Session.unseat Session.vacate
  by_cases hi : (s.slot i).room = 0
  · rw [if_pos hi]
    exact h
  rw [if_neg hi, if_neg hi]
  have hsit := h.sits i hi
  apply h.out i
  · intro k hk
    rw [setSlot_slot, Function.update_of_ne hk]
    rfl
  · rw [setSlot_slot, Function.update_self]
  · rfl
  · intro r j
    by_cases hat : r = (s.slot i).room - 1 ∧ j = (s.slot i).seat - 1
    · rw [hat.1, hat.2]
      exact .inr ⟨setSeat_self _ _ _ _, hsit.held⟩
    · exact .inl (setSeat_of_ne _ _ hat)
  · intro r j hr hj hij
    by_cases hat : r = (s.slot i).room - 1 ∧ j = (s.slot i).seat - 1
    · rw [setSlot_seats, hat.1, hat.2, setSeat_self] at hij
      cases hij
    · rw [setSlot_seats, setSeat_of_ne _ _ hat] at hij
      obtain ⟨hir, hij⟩ := h.slot r j i hr hj hij
      exact hat ⟨by omega, by omega⟩

theorem unseat_room (s : Session) (i : Slot) : ((s.unseat i).slot i).room = 0 := by
  unfold Session.unseat
  split_ifs with h
  · exact h
  · rw [setSlot_slot, Function.update_self]

theorem Seated.remove (h : s.Seated) (i : Slot) (hi : (s.slot i).room = 0) : (s.remove i).Seated := by
  unfold Session.remove
  split_ifs
  · exact h
  apply h.out i
  · intro k hk
    rw [setSlot_slot, Function.update_of_ne hk]
    rfl
  · rw [setSlot_slot, Function.update_self]
    rfl
  · rfl
  · exact fun r j => .inl rfl
  · intro r j hr hj hij
    have hir := (h.slot r j i hr hj hij).1
    omega

theorem Seated.drop (h : s.Seated) (i : Slot) : (s.drop i).Seated :=
  (h.unseat i).remove i (s.unseat_room i)

theorem Seated.kick (h : s.Seated) (k : Slot) (hk : (s.slot k).room = 0) : (s.kick k).Seated := by
  have hv : s.vacate (s.slot k) = s := if_pos hk
  unfold Session.kick
  rw [hv]
  split_ifs
  · exact h
  · exact h.congr (fun _ => rfl) (fun _ => rfl) (fun _ hs => hs) rfl rfl

theorem Seated.assign (h : s.Seated) (i : Slot) (uid : ℤ) : (s.assign i uid).Seated := by
  have hs := h.setSlot i { s.slot i with uid, user := some s.nextUser } rfl rfl (fun hc => hc)
  exact hs.congr (fun _ => rfl) (fun _ => rfl) (fun _ hc => hc) rfl rfl

theorem Seated.take (h : s.Seated) (i : Slot) (r j : ℕ) (hc : (s.slot i).socket ≠ 0)
    (hi : (s.slot i).room = 0) (hr : 0 < r) (hrm : r ≤ s.maxRoom) (hj : 0 < j) (hj4 : j ≤ 4)
    (hfree : s.seats (r - 1) (j - 1) = none) : (s.step (.seat i r j)).Seated := by
  have hslot : ∀ k, k ≠ i → (s.step (.seat i r j)).slot k = s.slot k := by
    intro k hk
    exact Function.update_of_ne hk _ _
  have hself : (s.step (.seat i r j)).slot i = { s.slot i with room := r, seat := j } :=
    Function.update_self ..
  have hseats : ∀ r' j', ¬(r' = r - 1 ∧ j' = j - 1) →
      (s.step (.seat i r j)).seats r' j' = s.seats r' j' := fun r' j' hat => setSeat_of_ne s _ hat
  have hat : (s.step (.seat i r j)).seats (r - 1) (j - 1) = some i := setSeat_self ..
  constructor
  · intro k hk
    by_cases he : k = i
    · subst he
      exact ⟨by rw [hself]; exact hrm, by rw [hself]; exact hj, by rw [hself]; exact hj4,
        by rw [hself]; exact hat, by rw [hself]; exact hc⟩
    · rw [hslot k he] at hk
      have hsit := h.sits k hk
      refine ⟨by rw [hslot k he]; exact hsit.room, by rw [hslot k he]; exact hsit.seat_pos,
        by rw [hslot k he]; exact hsit.seat_le, ?_, by rw [hslot k he]; exact hsit.connected⟩
      rw [hslot k he, hseats]
      · exact hsit.held
      · rintro ⟨hr', hj'⟩
        have hheld := hsit.held
        rw [hr', hj', hfree] at hheld
        cases hheld
  · intro r' j' k hr' hj' hk
    by_cases hthis : r' = r - 1 ∧ j' = j - 1
    · rw [hthis.1, hthis.2, hat] at hk
      cases hk
      rw [hself, hthis.1, hthis.2]
      exact ⟨by simp only; omega, by simp only; omega⟩
    · rw [hseats r' j' hthis] at hk
      have hk' := h.slot r' j' k hr' hj' hk
      have hne : k ≠ i := by
        rintro rfl
        rw [hi] at hk'
        omega
      rw [hslot k hne]
      exact hk'

def sparesSeats (s : Session) : Event → Bool
  | .kick k => decide ((s.slot k).room = 0)
  | .seat _ room _ => decide (room ≤ s.maxRoom)
  | .exit => false
  | _ => true

theorem Seated.step {signKey : CStr → ℤ} (h : s.Seated) (e : Event) (he : s.Enabled signKey e)
    (hc : s.sparesSeats e = true) : (s.step e).Seated := by
  cases e with
  | idle => exact h
  | connect i socket =>
    have hs := h.setSlot i { s.slot i with socket } rfl rfl (fun _ => he.2)
    exact hs.congr (fun _ => rfl) (fun _ => rfl) (fun _ hc => hc) rfl rfl
  | key i key kick =>
    have hs := h.setSlot i { s.slot i with kick, tmp := some key } rfl rfl (fun hc => hc)
    exact hs.congr (fun _ => rfl) (fun _ => rfl) (fun _ hc => hc) rfl rfl
  | seat i room seat =>
    obtain ⟨hsock, hz, hr, hj, hj4, hfree⟩ := he
    exact h.take i room seat hsock hz hr (of_decide_eq_true hc) hj hj4 hfree
  | leave i => exact h.unseat i
  | drop i => exact h.drop i
  | kick k => exact h.kick k (of_decide_eq_true hc)
  | login i key uid out =>
    cases out with
    | none => exact h.assign i uid
    | some k => exact (h.drop k).assign i uid
  | saved a => exact h.congr (fun _ => rfl) (fun _ => rfl) (fun _ hc => hc) rfl rfl
  | exit => cases hc

theorem Seated.iff (h : s.Seated) (i : Slot) (r j : ℕ) (hr : 0 < r) (hj : 0 < j) :
    ((s.slot i).room = r ∧ (s.slot i).seat = j ↔
      r ≤ s.maxRoom ∧ j ≤ 4 ∧ s.seats (r - 1) (j - 1) = some i) := by
  constructor
  · rintro ⟨rfl, rfl⟩
    have hsit := h.sits i (by omega)
    exact ⟨hsit.room, hsit.seat_le, hsit.held⟩
  · rintro ⟨hrm, hj4, hheld⟩
    obtain ⟨hir, hij⟩ := h.slot (r - 1) (j - 1) i (by omega) (by omega) hheld
    exact ⟨by omega, by omega⟩

end Session

theorem seated_start (maxRoom : ℕ) (outside : ℕ → Room) (fish : List SettingFish) (users : ℕ → User) :
    (Server.start maxRoom outside fish users).session.Seated where
  sits := fun _ hi => absurd rfl hi
  slot := by
    intro r j i hr _ hi
    have hz : (Server.start maxRoom outside fish users).session.seats r j = none := by
      simp only [Server.session, Server.start, if_pos (show r < maxRoom from hr)]
      rfl
    rw [hz] at hi
    cases hi

theorem seats_agree (signKey : CStr → ℤ) (maxRoom : ℕ) (outside : ℕ → Room) (fish : List SettingFish)
    (users : ℕ → User) (s : Server)
    (h : Reach (serverStep signKey) (fun s op => s.session.sparesSeats (s.event signKey op) = true)
      (Server.start maxRoom outside fish users) s) (i : Slot) :
    (∀ r j, 0 < r → 0 < j → ((s.slot i).room = r ∧ (s.slot i).seat = j ↔
      r ≤ s.rooms.maxRoom ∧ j ≤ 4 ∧ (s.rooms.room (r - 1)).players (j - 1) = some i)) ∧
      (∀ r j, r < s.rooms.maxRoom → j < 4 → (s.rooms.room r).players j = some i →
        (s.slot i).socket ≠ 0) := by
  have hr : s.session.Seated := by
    apply session_invariant (fun u e => u.sparesSeats e = true) _ _ _ h
    · exact fun s op hk => hk
    · exact seated_start maxRoom outside fish users
    · exact fun u e hu he hc => hu.step e he hc
  refine ⟨fun r j hr' hj => hr.iff i r j hr' hj, ?_⟩
  intro r j hrm hj hi
  have hroom := (hr.slot r j i hrm hj hi).1
  exact (hr.sits i (by omega)).connected

theorem seats_agree_after_close : ∃ s : Server, ((s.slot 0).room, (s.slot 1).room, (s.slot 1).seat) = (0, 1, 2) ∧
    (∀ r j, 0 < r → 0 < j → ((s.slot 1).room = r ∧ (s.slot 1).seat = j ↔
      r ≤ s.rooms.maxRoom ∧ j ≤ 4 ∧ (s.rooms.room (r - 1)).players (j - 1) = some 1)) ∧
      (∀ r j, r < s.rooms.maxRoom → j < 4 → (s.rooms.room r).players j = some 1 →
        (s.slot 1).socket ≠ 0) := by
  have hrun : ((runIf (serverStep sampleKey) (fun s op => s.session.sparesSeats (s.event sampleKey op))
      sampleServer (enter 0 5 ['a'] ++ enter 1 6 ['b'] ++ [inRoom 0, inRoom 1, .close 0])).map
        (fun s => ((s.slot 0).room, (s.slot 1).room, (s.slot 1).seat))) = some (0, 1, 2) := by
    decide +kernel
  obtain ⟨s, hs, hh⟩ := Option.map_eq_some_iff.mp hrun
  exact ⟨s, hh, seats_agree sampleKey 1 _ _ _ s (Reach.of_runIf hs) 1⟩

-- the kicked slot keeps its room and seat while the room has given the seat up
theorem kicked_seat_disagrees : ∃ s : Server, runIf (serverStep sampleKey) (fun _ _ => true) sampleServer
      (enter 0 5 ['a'] ++ enter 1 6 ['b'] ++ [inRoom 1, kickSocket 0 ['6']]) = some s ∧
    ¬ ∀ i r j, 0 < r → 0 < j → ((s.slot i).room = r ∧ (s.slot i).seat = j ↔
      r ≤ s.rooms.maxRoom ∧ j ≤ 4 ∧ (s.rooms.room (r - 1)).players (j - 1) = some i) := by
  have hrun : ((runIf (serverStep sampleKey) (fun _ _ => true) sampleServer
      (enter 0 5 ['a'] ++ enter 1 6 ['b'] ++ [inRoom 1, kickSocket 0 ['6']])).map
        (fun s => ((s.slot 1).room, (s.slot 1).seat, (s.rooms.room 0).players 0))) = some (1, 1, none) := by
    decide +kernel
  obtain ⟨s, hs, hh⟩ := Option.map_eq_some_iff.mp hrun
  simp only [Prod.mk.injEq] at hh
  refine ⟨s, hs, ?_⟩
  intro h
  have hi := (h 1 1 1 (by omega) (by omega)).mp ⟨hh.1, hh.2.1⟩
  rw [hh.2.2] at hi
  cases hi.2.2

end FishServer
