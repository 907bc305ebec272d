import FishServer.Play
import FishServer.SessionSteps

namespace FishServer

open LinkedList

theorem findSlot_some {test : Slot → Bool} {i : Slot} (h : findSlot test = some i) : test i = true :=
  List.find?_some h

theorem findSlot_none {test : Slot → Bool} (h : findSlot test = none) (i : Slot) : test i = false := by
  have hn := List.find?_eq_none.mp h i (List.mem_finRange i)
  simpa using hn

/-! `findRoom` answers a free seat of the room `_curr`. -/

theorem free_some {r : Room} {j : ℕ} (h : r.free = some j) : j < 4 ∧ r.players j = none := by
  have hm := List.mem_of_find?_eq_some h
  have ht := List.find?_some h
  exact ⟨List.mem_range.mp hm, by simpa using ht⟩

theorem findSome?_look {l : List ℕ} {o : Option ℕ} {room seat : ℕ}
    (h : l.findSome? (fun i => o.map (fun j => (i + 1, j + 1))) = some (room, seat)) :
    (∃ j, o = some j ∧ seat = j + 1) ∧ ∃ i, l.head? = some i ∧ room = i + 1 := by
  cases o with
  | none =>
    rw [List.findSome?_eq_some_iff] at h
    obtain ⟨_, _, _, _, hf, _⟩ := h
    cases hf
  | some j =>
    cases l with
    | nil => cases h
    | cons i l =>
      simp only [List.findSome?_cons, Option.map_some, Option.some.injEq, Prod.mk.injEq] at h
      exact ⟨⟨j, rfl, h.2.symm⟩, i, rfl, h.1.symm⟩

theorem findRoom_rooms (rs : Rooms) :
    rs.findRoom.1.room = rs.room ∧ rs.findRoom.1.maxRoom = rs.maxRoom := by
  unfold Rooms.findRoom
  simp only
  split <;> exact ⟨rfl, rfl⟩

theorem findRoom_seat (rs : Rooms) (h : rs.findRoom.2.1 ≠ 0) :
    rs.findRoom.2.1 = rs.curr + 1 ∧ 0 < rs.findRoom.2.2 ∧ rs.findRoom.2.2 ≤ 4 ∧
      (rs.room rs.curr).players (rs.findRoom.2.2 - 1) = none := by
  revert h
  unfold Rooms.findRoom
  simp only
  split
  · rename_i room seat heq
    intro _
    have hroom : (∃ j, (rs.room rs.curr).free = some j ∧ seat = j + 1) ∧ room = rs.curr + 1 := by
      rw [Option.orElse_eq_orElse, Option.orElse_eq_or, Option.or_eq_some_iff] at heq
      rcases heq with heq | ⟨_, heq⟩
      · obtain ⟨hj, i, hi, rfl⟩ := findSome?_look heq
        refine ⟨hj, ?_⟩
        rw [List.head?_range'] at hi
        split_ifs at hi
        cases hi
        rfl
      · obtain ⟨hj, i, hi, rfl⟩ := findSome?_look heq
        refine ⟨hj, ?_⟩
        rw [List.range_succ, List.reverse_append, List.reverse_singleton] at hi
        cases hi
        rfl
    obtain ⟨⟨j, hj, rfl⟩, rfl⟩ := hroom
    obtain ⟨hlt, hfree⟩ := free_some hj
    exact ⟨rfl, Nat.succ_pos j, hlt, hfree⟩
  · intro h
    exact absurd rfl h

section

variable {s t : Server} {i : Slot} {json : JsonValue} {now : ℤ} {time : ℚ} {rand : ℕ → ℕ}

theorem openRoom_session {p : Player} {r : ℕ} (h : Entry.openRoom s p r time rand = some t) :
    t.session = s.session := by
  unfold Entry.openRoom at h
  split at h
  · obtain ⟨fish, _, rfl⟩ := Option.map_eq_some_iff.mp h
    exact session_setRoom s r _ rfl
  · cases h

theorem takeSeat_session (s : Server) (i : Slot) (room seat : ℕ) (now : ℤ) :
    (s.takeSeat i s.rooms.findRoom.1 room seat now).session = s.session.step (.seat i room seat) := by
  obtain ⟨hroom, hmax⟩ := findRoom_rooms s.rooms
  have hseats : (fun k => (Function.update s.rooms.room (room - 1)
      ((s.rooms.room (room - 1)).setPlayer (seat - 1) (some i)) k).players) =
        Function.update (fun k => (s.rooms.room k).players) (room - 1)
          (Function.update (s.rooms.room (room - 1)).players (seat - 1) (some i)) := by
    funext k
    by_cases hk : k = room - 1
    · rw [hk, Function.update_self, Function.update_self]
      rfl
    · rw [Function.update_of_ne hk, Function.update_of_ne hk]
  unfold Server.takeSeat
  rw [session_setSlot]
  simp only [Session.step, Server.session, Rooms.setRoom, hroom, hmax, hseats]
  rfl

theorem inRoom_session (h : Entry.inRoom s i now time rand = some t) :
    t.session = s.session.step (if (s.slot i).user = none then .idle
      else if 0 < (s.slot i).room ∨ s.rooms.findRoom.2.1 = 0 then .idle
      else .seat i s.rooms.findRoom.2.1 s.rooms.findRoom.2.2) := by
  unfold Entry.inRoom Server.user at h
  cases hu : (s.slot i).user with
  | none =>
    rw [hu] at h
    cases h
    rfl
  | some a =>
    rw [if_neg (by simp)]
    simp only [hu, Option.map_some] at h
    by_cases hr : 0 < (s.slot i).room
    · rw [if_pos hr] at h
      cases h
      rw [if_pos (.inl hr)]
      rfl
    rw [if_neg hr] at h
    by_cases hz : s.rooms.findRoom.2.1 = 0
    · rw [if_pos hz] at h
      cases h
      rw [if_pos (.inr hz), session_send]
      obtain ⟨hroom, hmax⟩ := findRoom_rooms s.rooms
      simp only [Session.step, Server.session, hroom, hmax]
    · rw [if_neg hz] at h
      rw [if_neg (by tauto), ← takeSeat_session s i _ _ now]
      split at h
      · cases h
        rfl
      · rw [openRoom_session h]
        rfl

theorem play_session (h : Play s t) : t.session = s.session := by
  cases h with
  | idle => rfl
  | @shot i a b bullets bullets' x y angle time now =>
    have hb := session_setBullets ((s.setSlot i { s.slot i with opTime := now }).setUser a
      { s.users a with coin := i32 ((s.users a).coin - 1) }) ((s.slot i).room - 1) bullets'
    have hu := session_setUser (s.setSlot i { s.slot i with opTime := now }) a
      { s.users a with coin := i32 ((s.users a).coin - 1) } rfl
    have hs := session_setSlot s i { s.slot i with opTime := now }
    have hsame : Function.update s.session.slot i (s.slot i).guest = s.session.slot :=
      Function.update_eq_self i s.session.slot
    exact hb.trans (hu.trans (hs.trans (congrArg (fun f => { s.session with slot := f }) hsame)))
  | missed => apply session_setBullets
  | @award i a b f bullets fishs fishs' id id' fish =>
    have hu := session_setUser s a
      { s.users a with
        coin := i32 ((s.users a).coin + fish.fish.coin)
        killfish := killFish fish.fish.no (s.users a).killfish } rfl
    have hf := session_setFishs (s.setUser a
      { s.users a with
        coin := i32 ((s.users a).coin + fish.fish.coin)
        killfish := killFish fish.fish.no (s.users a).killfish }) ((s.slot i).room - 1)
          { fishs' with list := (fishs'.list.modify Fish.hit f).modify Fish.free f }
    exact (session_setBullets _ _ _).trans (hf.trans hu)
  | newFish => apply session_setFishs
  | bulletVisit => apply session_setBullets
  | fishVisit => apply session_setFishs

theorem played_session (h : Played s t) : t.session = s.session := by
  obtain ⟨u, hu, sent, rfl⟩ := h
  have hs := play_session hu
  exact hs

theorem exitLoop_session (s : Server) (i : Slot) (num : ℕ) (ks : List Slot) :
    (Entry.exitLoop s i num ks).1.session = s.session.kickAll ks := by
  induction ks generalizing s num with
  | nil => rfl
  | cons k ks ih =>
    rw [Entry.exitLoop, Session.kickAll]
    by_cases hk : (s.slot k).socket = 0
    · rw [if_pos hk, if_pos (show (s.session.slot k).socket = 0 from hk), ih]
    · rw [if_neg hk, if_neg (show ¬(s.session.slot k).socket = 0 from hk), ih, session_dropCopy,
        session_send]

theorem exit_session (s : Server) (i : Slot) : (Entry.exit s i).session = s.session.step .exit := by
  unfold Entry.exit Session.step
  generalize List.finRange 1024 = ks
  have h := exitLoop_session { s with closeing := true } i 0 ks
  exact congrArg (fun u => { u with exited := true }) h

theorem kickUser_session (s : Server) (i : Slot) (json : JsonValue) :
    (Entry.kickUser s i json).session = s.session.step ((Entry.kicked s i json).elim .idle .kick) := by
  unfold Entry.kickUser Entry.kicked
  simp only
  by_cases hp : json.valueToInt "socket_id".toList ≤ 0
  · rw [if_pos hp, if_neg (by omega)]
    apply session_send
  rw [if_neg hp]
  by_cases hself : json.valueToInt "socket_id".toList = (s.slot i).socket
  · rw [if_pos hself, if_neg (fun h => h.2 hself)]
    apply session_send
  rw [if_neg hself, if_pos ⟨by omega, hself⟩]
  cases findSlot (fun k => decide (((s.slot k).socket : ℤ) = json.valueToInt "socket_id".toList)) with
  | none => rfl
  | some k =>
    simp only
    rw [session_send, session_dropCopy]
    rfl

theorem kicked_connected {k : Slot} (h : Entry.kicked s i json = some k) : (s.slot k).socket ≠ 0 := by
  unfold Entry.kicked at h
  simp only at h
  revert h
  generalize json.valueToInt "socket_id".toList = socketId
  intro h
  split_ifs at h with hid
  have hs : ((s.slot k).socket : ℤ) = socketId := of_decide_eq_true (findSlot_some h)
  intro hz
  rw [hz] at hs
  omega

theorem entryVerify_session (s : Server) (i : Slot) (json : JsonValue) :
    (Entry.verifyAccount s i json).session = s.session.step
      (match json.value "key".toList with
      | none => .idle
      | some key => .key i key (json.valueToInt "kick".toList)) := by
  unfold Entry.verifyAccount
  cases json.value "key".toList with
  | none => apply session_send
  | some key =>
    have h := session_setSlot s i
      { s.slot i with kick := json.valueToInt "kick".toList, tmp := some key }
    exact congrArg (fun u : Session => { u with
      keys := Function.update s.trace.keys i (key :: s.trace.keys i) }) h

inductive Dispatched (s : Server) (i : Slot) (json : JsonValue) (now : ℤ) (time : ℚ) (rand : ℕ → ℕ) :
    Event → Server → Prop
  | idle : Dispatched s i json now time rand .idle s
  | sent (p : Player) (r : Reply) : Dispatched s i json now time rand .idle (s.send p r)
  | verify : json.value "op".toList = some "verify account".toList → Dispatched s i json now time rand
      (match json.value "key".toList with
      | none => .idle
      | some key => .key i key (json.valueToInt "kick".toList)) (Entry.verifyAccount s i json)
  | inRoom {t : Server} : (s.slot i).user ≠ none → Entry.inRoom s i now time rand = some t →
      Dispatched s i json now time rand
        (if 0 < (s.slot i).room ∨ s.rooms.findRoom.2.1 = 0 then .idle
        else .seat i s.rooms.findRoom.2.1 s.rooms.findRoom.2.2) t
  | leaveRoom : json.value "op".toList = some "leave room".toList → 0 < (s.slot i).room →
      Dispatched s i json now time rand (.leave i) (Entry.leaveRoom s i)
  | toShot {t : Server} : json.value "op".toList = some "to shot".toList → 0 < (s.slot i).room →
      Entry.toShot s i json now time = some t → Dispatched s i json now time rand .idle t
  | hitFish {t : Server} : 0 < (s.slot i).room → Entry.hitFish s i json = some t →
      Dispatched s i json now time rand .idle t
  | kickUser : Entry.allowed s i Privilege.kick = true →
      Dispatched s i json now time rand ((Entry.kicked s i json).elim .idle .kick) (Entry.kickUser s i json)
  | exit : Entry.allowed s i Privilege.exit = true →
      Dispatched s i json now time rand .exit (Entry.exit s i)

theorem dispatched (h : Entry.dispatch s i json now time rand = some t) :
    Dispatched s i json now time rand (Entry.event s i json) t := by
  unfold Entry.dispatch at h
  unfold Entry.event
  cases hop : json.value "op".toList with
  | none =>
    rw [hop] at h
    cases h
    apply Dispatched.sent
  | some op =>
    simp only [hop] at h ⊢
    by_cases h1 : op = "verify account".toList
    · rw [if_pos h1] at h ⊢
      cases h
      exact .verify (hop.trans (congrArg some h1))
    rw [if_neg h1] at h ⊢
    by_cases h2 : (s.slot i).user = none
    · rw [if_pos h2] at h ⊢
      cases h
      exact .idle
    rw [if_neg h2] at h ⊢
    by_cases h3 : op = "in room".toList
    · rw [if_pos h3] at h ⊢
      exact .inRoom h2 h
    rw [if_neg h3] at h ⊢
    by_cases h4 : op = "leave room".toList
    · rw [if_pos h4] at h ⊢
      cases h
      by_cases hr : 0 < (s.slot i).room
      · rw [if_pos hr, if_pos hr]
        exact .leaveRoom (hop.trans (congrArg some h4)) hr
      · rw [if_neg hr, if_neg hr]
        exact .idle
    rw [if_neg h4] at h ⊢
    by_cases h5 : op = "to shot".toList
    · rw [if_pos h5] at h ⊢
      split_ifs at h with hr
      · exact .toShot (hop.trans (congrArg some h5)) hr h
      · cases h
        exact .idle
    rw [if_neg h5] at h ⊢
    by_cases h6 : op = "hit fish".toList
    · rw [if_pos h6] at h ⊢
      split_ifs at h with hr
      · exact .hitFish hr h
      · cases h
        exact .idle
    rw [if_neg h6] at h ⊢
    by_cases h7 : op = "view online".toList ∨ op = "server info".toList ∨ op = "set setting".toList
    · rw [if_pos h7] at h ⊢
      cases h
      by_cases ha : Entry.allowed s i
          (if op = "view online".toList then Privilege.view else Privilege.exit) = true
      · rw [if_pos ha]
        exact .idle
      · rw [if_neg ha]
        apply Dispatched.sent
    rw [if_neg h7] at h ⊢
    by_cases h8 : op = "kick user".toList
    · rw [if_pos h8] at h ⊢
      cases h
      by_cases ha : Entry.allowed s i Privilege.kick = true
      · rw [if_pos ha, if_pos ha]
        exact .kickUser ha
      · rw [if_neg ha, if_neg ha]
        apply Dispatched.sent
    rw [if_neg h8] at h ⊢
    by_cases h9 : op = "exit".toList
    · rw [if_pos h9] at h ⊢
      cases h
      by_cases ha : Entry.allowed s i Privilege.exit = true
      · rw [if_pos ha, if_pos ha]
        exact .exit ha
      · rw [if_neg ha, if_neg ha]
        apply Dispatched.sent
    rw [if_neg h9] at h ⊢
    cases h
    apply Dispatched.sent

inductive Handled (s : Server) (i : Slot) (json : JsonValue) (now : ℤ) (time : ℚ) (rand : ℕ → ℕ) :
    Event → Server → Prop
  | verify : Handled s i json now time rand
      (match json.value "key".toList with
      | none => .idle
      | some key => .key i key (json.valueToInt "kick".toList)) (Entry.verifyAccount s i json)
  | inRoom {t : Server} : (s.slot i).user ≠ none → Entry.inRoom s i now time rand = some t →
      Handled s i json now time rand
        (if 0 < (s.slot i).room ∨ s.rooms.findRoom.2.1 = 0 then .idle
        else .seat i s.rooms.findRoom.2.1 s.rooms.findRoom.2.2) t
  | leaveRoom : Handled s i json now time rand (.leave i) (Entry.leaveRoom s i)
  | played {t : Server} : Played s t → Handled s i json now time rand .idle t
  | kickUser : Handled s i json now time rand ((Entry.kicked s i json).elim .idle .kick)
      (Entry.kickUser s i json)
  | exit : Handled s i json now time rand .exit (Entry.exit s i)

theorem dispatch_handled (h : Entry.dispatch s i json now time rand = some t) :
    Handled s i json now time rand (Entry.event s i json) t := by
  have hd := dispatched h
  generalize Entry.event s i json = e at hd ⊢
  cases hd with
  | idle => exact .played Play.idle.played
  | sent p r => exact .played (send_played s p r)
  | verify _ => exact .verify
  | inRoom hu hr => exact .inRoom hu hr
  | leaveRoom _ _ => exact .leaveRoom
  | toShot _ hr ht => exact .played (toShot_played hr ht)
  | hitFish hr ht => exact .played (hitFish_played hr ht)
  | kickUser _ => exact .kickUser
  | exit _ => exact .exit

theorem handled_session {e : Event} (h : Handled s i json now time rand e t) :
    t.session = s.session.step e := by
  cases h with
  | verify => apply entryVerify_session
  | inRoom hu hr =>
    have hs := inRoom_session hr
    rwa [if_neg hu] at hs
  | leaveRoom =>
    rw [Entry.leaveRoom, session_send]
    apply session_leaveRoom
  | played hp => exact played_session hp
  | kickUser => apply kickUser_session
  | exit => apply exit_session

theorem entryEvent_cases (s : Server) (i : Slot) (json : JsonValue) :
    Entry.event s i json = .idle ∨ (∃ key kick, Entry.event s i json = .key i key kick) ∨
      (¬(0 < (s.slot i).room ∨ s.rooms.findRoom.2.1 = 0) ∧
        Entry.event s i json = .seat i s.rooms.findRoom.2.1 s.rooms.findRoom.2.2) ∨
      Entry.event s i json = .leave i ∨
      (∃ k, Entry.kicked s i json = some k ∧ Entry.event s i json = .kick k) ∨
      Entry.event s i json = .exit := by
  unfold Entry.event
  cases json.value "op".toList with
  | none => exact .inl rfl
  | some op =>
    simp only
    by_cases h1 : op = "verify account".toList
    · rw [if_pos h1]
      cases json.value "key".toList with
      | none => exact .inl rfl
      | some key => exact .inr (.inl ⟨_, _, rfl⟩)
    rw [if_neg h1]
    by_cases h2 : (s.slot i).user = none
    · rw [if_pos h2]
      exact .inl rfl
    rw [if_neg h2]
    by_cases h3 : op = "in room".toList
    · rw [if_pos h3]
      by_cases hr : 0 < (s.slot i).room ∨ s.rooms.findRoom.2.1 = 0
      · rw [if_pos hr]
        exact .inl rfl
      · rw [if_neg hr]
        exact .inr (.inr (.inl ⟨hr, rfl⟩))
    rw [if_neg h3]
    by_cases h4 : op = "leave room".toList
    · rw [if_pos h4]
      by_cases hr : 0 < (s.slot i).room
      · rw [if_pos hr]
        exact .inr (.inr (.inr (.inl rfl)))
      · rw [if_neg hr]
        exact .inl rfl
    rw [if_neg h4]
    by_cases h5 : op = "to shot".toList
    · rw [if_pos h5]
      exact .inl rfl
    rw [if_neg h5]
    by_cases h6 : op = "hit fish".toList
    · rw [if_pos h6]
      exact .inl rfl
    rw [if_neg h6]
    by_cases h7 : op = "view online".toList ∨ op = "server info".toList ∨ op = "set setting".toList
    · rw [if_pos h7]
      exact .inl rfl
    rw [if_neg h7]
    by_cases h8 : op = "kick user".toList
    · rw [if_pos h8]
      by_cases ha : Entry.allowed s i Privilege.kick = true
      · rw [if_pos ha]
        cases hk : Entry.kicked s i json with
        | none => exact .inl rfl
        | some k => exact .inr (.inr (.inr (.inr (.inl ⟨k, rfl, rfl⟩))))
      · rw [if_neg ha]
        exact .inl rfl
    rw [if_neg h8]
    by_cases h9 : op = "exit".toList
    · rw [if_pos h9]
      by_cases ha : Entry.allowed s i Privilege.exit = true
      · rw [if_pos ha]
        exact .inr (.inr (.inr (.inr (.inr rfl))))
      · rw [if_neg ha]
        exact .inl rfl
    · rw [if_neg h9]
      exact .inl rfl

theorem entry_enabled (signKey : CStr → ℤ) (hc : (s.slot i).socket ≠ 0) :
    s.session.Enabled signKey (Entry.event s i json) := by
  rcases entryEvent_cases s i json with he | ⟨key, kick, he⟩ | ⟨hr, he⟩ | he | ⟨k, hk, he⟩ | he
  · rw [he]
    trivial
  · rw [he]
    exact hc
  · rw [he]
    rw [not_or] at hr
    obtain ⟨hroom, hpos, hle, hfree⟩ := findRoom_seat s.rooms hr.2
    refine ⟨hc, Nat.eq_zero_of_not_pos hr.1, by omega, hpos, hle, ?_⟩
    rw [hroom]
    exact hfree
  · rw [he]
    exact hc
  · rw [he]
    exact kicked_connected hk
  · rw [he]
    trivial

end

section

variable {signKey : CStr → ℤ} {s t : Server} {i : Slot} {key : CStr}

theorem verifyScan_cases (signKey : CStr → ℤ) (s : Server) (i : Slot) (key : CStr) :
    (∃ p r, Thread.verifyScan signKey s i key = .denied (s.send p r)) ∨
      (plainKey key = true ∧ 0 < signKey key ∧ (∀ k, (s.slot k).saveUid ≠ signKey key) ∧
        ((findSlot (fun k => decide ((s.slot k).uid = signKey key)) = none ∧
            Thread.verifyScan signKey s i key = .granted s (signKey key)) ∨
          ∃ k, findSlot (fun k => decide ((s.slot k).uid = signKey key)) = some k ∧
            (s.slot k).kick ≠ 0 ∧ ∃ p r,
              Thread.verifyScan signKey s i key = .granted ((s.send p r).drop k) (signKey key))) := by
  unfold Thread.verifyScan
  by_cases h1 : plainKey key = false
  · rw [if_pos h1]
    exact .inl ⟨_, _, rfl⟩
  rw [if_neg h1]
  by_cases h2 : signKey key ≤ 0
  · rw [if_pos h2]
    exact .inl ⟨_, _, rfl⟩
  rw [if_neg h2]
  cases h3 : findSlot (fun k => decide ((s.slot k).saveUid = signKey key)) with
  | some k => exact .inl ⟨_, _, rfl⟩
  | none =>
    have hsave : ∀ k, (s.slot k).saveUid ≠ signKey key :=
      fun k => of_decide_eq_false (findSlot_none h3 k)
    rw [if_neg (by simp)]
    cases h4 : findSlot (fun k => decide ((s.slot k).uid = signKey key)) with
    | none => exact .inr ⟨by simpa using h1, by omega, hsave, .inl ⟨rfl, rfl⟩⟩
    | some k =>
      simp only
      by_cases hk : (s.slot k).kick ≠ 0
      · rw [if_pos hk]
        exact .inr ⟨by simpa using h1, by omega, hsave, .inr ⟨k, rfl, hk, _, _, rfl⟩⟩
      · rw [if_neg hk]
        exact .inl ⟨_, _, rfl⟩

theorem verifyAssign_session (s : Server) (i : Slot) (uid : ℤ) (loaded : User) :
    (Thread.verifyAssign s i uid loaded).session = s.session.assign i uid := by
  have hs := session_setSlot s i { s.slot i with uid, user := some s.nextUser }
  have hu : (fun a => (Function.update s.users s.nextUser { loaded with id := uid } a).id) =
      Function.update (fun a => (s.users a).id) s.nextUser uid := by
    funext a
    exact Function.apply_update (fun _ => User.id) s.users s.nextUser { loaded with id := uid } a
  have ha : (Thread.verifyAssign s i uid loaded).session =
      { (s.setSlot i { s.slot i with uid, user := some s.nextUser }).session with
        owner := fun a => (Function.update s.users s.nextUser { loaded with id := uid } a).id
        nextUser := s.nextUser + 1 } := rfl
  rw [ha, hs, hu]
  rfl

theorem verify_session (loaded : User) (ht : (s.slot i).tmp.isSome) :
    s.session.Enabled signKey (Thread.verifyEvent signKey s i key) ∧
      (Thread.verifyAccount signKey s i key loaded).session =
        s.session.step (Thread.verifyEvent signKey s i key) := by
  unfold Thread.verifyEvent Thread.verifyAccount
  rcases verifyScan_cases signKey s i key with ⟨p, r, hscan⟩ | ⟨_, hpos, _, hfound⟩
  · rw [hscan]
    exact ⟨trivial, rfl⟩
  · rcases hfound with ⟨hnone, hscan⟩ | ⟨k, hsome, hkick, p, r, hscan⟩
    · rw [hscan, hnone]
      refine ⟨⟨ht, rfl, hpos, ?_, ?_⟩, ?_⟩
      · intro k hk
        cases hk
      · intro _ k
        exact of_decide_eq_false (findSlot_none hnone k)
      · simp only
        rw [session_send]
        apply verifyAssign_session
    · rw [hscan, hsome]
      refine ⟨⟨ht, rfl, hpos, ?_, ?_⟩, ?_⟩
      · rintro k' ⟨⟩
        exact ⟨of_decide_eq_true (findSlot_some hsome), hkick⟩
      · intro hk
        cases hk
      · simp only
        rw [session_send, verifyAssign_session, session_drop, session_send]
        rfl

theorem add_session (s : Server) (socket ip : ℕ) (now : ℤ) (hs : socket ≠ 0) :
    s.session.Enabled signKey (s.event signKey (.connect socket ip now)) ∧
      (Players.add s socket ip now).session = s.session.step (s.event signKey (.connect socket ip now)) := by
  unfold Players.add Server.event
  simp only
  by_cases hl : s.len = 1024
  · rw [if_pos hl, if_pos hl]
    exact ⟨trivial, rfl⟩
  rw [if_neg hl, if_neg hl]
  cases hf : findSlot (fun i => decide ((s.slot i).socket = 0)) with
  | none => exact ⟨trivial, rfl⟩
  | some i =>
    refine ⟨⟨of_decide_eq_true (findSlot_some hf), hs⟩, ?_⟩
    have h := session_setSlot s i { s.slot i with index := i.val, socket, ip, inTime := now }
    exact congrArg (fun u : Session => { u with keys := Function.update s.trace.keys i [] }) h

theorem serverStep_session {op : Op} (h : serverStep signKey s op = some t) :
    s.session.Enabled signKey (s.event signKey op) ∧ t.session = s.session.step (s.event signKey op) := by
  have hstep := h
  unfold serverStep at h
  split_ifs at h with hexit
  cases op with
  | connect socket ip now =>
    simp only at h
    split_ifs at h with hs
    cases h
    exact add_session s socket ip now hs.1
  | handshake i =>
    simp only at h
    split_ifs at h
    cases h
    refine ⟨trivial, ?_⟩
    rw [session_setSlot]
    have hu : Function.update s.session.slot i (s.slot i).guest = s.session.slot :=
      Function.update_eq_self i s.session.slot
    exact congrArg (fun f => { s.session with slot := f }) hu
  | message i json now time rand =>
    simp only at h
    split_ifs at h with hg
    refine ⟨entry_enabled signKey ?_, handled_session (dispatch_handled h)⟩
    have hc := hg.1
    unfold Server.connected at hc
    rw [Bool.and_eq_true] at hc
    exact of_decide_eq_true hc.1
  | close i =>
    simp only at h
    split_ifs at h with hs
    cases h
    exact ⟨hs, session_drop s i⟩
  | verify i key loaded =>
    simp only at h
    split_ifs at h with hg
    cases h
    exact verify_session loaded hg.2
  | saved a =>
    simp only at h
    split_ifs at h with ha
    cases h
    exact ⟨ha, rfl⟩
  | fish r time rand => exact ⟨trivial, played_session (played_of_step (.fish r time rand) rfl hstep)⟩
  | bulletVisit r b now => exact ⟨trivial, played_session (played_of_step (.bulletVisit r b now) rfl hstep)⟩
  | fishVisit r f => exact ⟨trivial, played_session (played_of_step (.fishVisit r f) rfl hstep)⟩

end

end FishServer
