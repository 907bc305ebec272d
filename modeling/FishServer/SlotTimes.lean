import FishServer.SessionRun

namespace FishServer

/-! What a step leaves of a slot and of its times. -/

def Entry.shoots (s : Server) (i : Slot) (json : JsonValue) : Bool :=
  decide (json.value "op".toList = some "to shot".toList) && decide (0 < (s.slot i).room) &&
    (s.slot i).user.any (fun a => decide (0 < (s.users a).coin))

/-- The connection goes on, with its times as they were, or the slot is free. -/
def Player.Stays (p p' : Player) : Prop :=
  (p'.socket = p.socket ∧ p'.inTime = p.inTime ∧ p'.opTime = p.opTime ∧ (p.uid ≠ 0 → p'.uid ≠ 0)) ∨
    (p'.socket = 0 ∧ p'.opTime = 0)

def Server.Stays (s t : Server) : Prop := ∀ j, (s.slot j).Stays (t.slot j)

theorem Player.Stays.refl (p : Player) : p.Stays p := .inl ⟨rfl, rfl, rfl, id⟩

section

variable {signKey : CStr → ℤ} {s t u : Server} {i : Slot} {json : JsonValue} {now : ℤ} {time : ℚ}
  {rand : ℕ → ℕ} {key : CStr}

theorem Server.Stays.of_slot (h : t.slot = s.slot) : s.Stays t := by
  intro j
  rw [h]
  exact .refl _

theorem Server.Stays.trans (h : s.Stays t) (h' : t.Stays u) : s.Stays u := by
  intro j
  rcases h' j with ⟨hs', hi', ho', hu'⟩ | hgone'
  · rcases h j with ⟨hs, hi, ho, hu⟩ | ⟨hs, ho⟩
    · exact .inl ⟨hs'.trans hs, hi'.trans hi, ho'.trans ho, fun hp => hu' (hu hp)⟩
    · exact .inr ⟨hs'.trans hs, ho'.trans ho⟩
  · exact .inr hgone'

theorem Server.Stays.of_update {p : Player} (i : Slot) (ht : t.slot = Function.update s.slot i p)
    (hp : (s.slot i).Stays p) : s.Stays t := by
  intro j
  rw [ht]
  by_cases hj : j = i
  · rw [hj, Function.update_self]
    exact hp
  · rw [Function.update_of_ne hj]
    exact .refl _

theorem leave_stays (rs : Rooms) (p : Player) : p.Stays (rs.leave p).2 := by
  unfold Rooms.leave
  split_ifs
  · exact .refl p
  · exact .inl ⟨rfl, rfl, rfl, id⟩

theorem leaveRoom_stays (s : Server) (i : Slot) : s.Stays (s.leaveRoom i) := .of_update i rfl (leave_stays _ _)

theorem drop_stays (s : Server) (i : Slot) : s.Stays (s.drop i) := by
  apply (leaveRoom_stays s i).trans
  change (s.leaveRoom i).Stays ((s.leaveRoom i).removeSlot i)
  unfold Server.removeSlot Players.remove
  split_ifs
  · exact .of_update i rfl (.refl _)
  · exact .of_update i rfl (.inr ⟨rfl, rfl⟩)

theorem dropCopy_slot (s : Server) (k : Slot) : (s.dropCopy k).slot = s.slot := by
  unfold Server.dropCopy Players.remove
  split_ifs <;> rfl

theorem exitLoop_slot (s : Server) (i : Slot) (num : ℕ) (ks : List Slot) :
    (Entry.exitLoop s i num ks).1.slot = s.slot := by
  induction ks generalizing s num with
  | nil => rfl
  | cons k ks ih =>
    rw [Entry.exitLoop]
    split_ifs
    · exact ih s num
    · rw [ih, dropCopy_slot]
      rfl

theorem exit_slot (s : Server) (i : Slot) : (Entry.exit s i).slot = s.slot := by
  unfold Entry.exit
  generalize List.finRange 1024 = ks
  exact exitLoop_slot { s with closeing := true } i 0 ks

theorem kickUser_slot (s : Server) (i : Slot) (json : JsonValue) : (Entry.kickUser s i json).slot = s.slot := by
  unfold Entry.kickUser
  simp only
  split_ifs
  · rfl
  · rfl
  · split
    · rfl
    · exact dropCopy_slot _ _

theorem openRoom_slot {p : Player} {r : ℕ} (h : Entry.openRoom s p r time rand = some t) : t.slot = s.slot := by
  unfold Entry.openRoom at h
  split at h
  · obtain ⟨fish, -, rfl⟩ := Option.map_eq_some_iff.mp h
    rfl
  · cases h

theorem inRoom_stays (h : Entry.inRoom s i now time rand = some t) : s.Stays t := by
  unfold Entry.inRoom at h
  split at h
  · cases h
    exact .of_slot rfl
  split_ifs at h
  · cases h
    exact .of_slot rfl
  simp only at h
  split_ifs at h
  · cases h
    exact .of_slot rfl
  · have hseat : (s.slot i).Stays
        { s.slot i with room := s.rooms.findRoom.2.1, seat := s.rooms.findRoom.2.2, gameTime := now } :=
      .inl ⟨rfl, rfl, rfl, id⟩
    split at h
    · cases h
      exact .of_update i rfl hseat
    · exact (Server.Stays.of_update i rfl hseat).trans (.of_slot (openRoom_slot h))

theorem entryVerify_stays (s : Server) (i : Slot) (json : JsonValue) : s.Stays (Entry.verifyAccount s i json) := by
  unfold Entry.verifyAccount
  split
  · exact .of_slot rfl
  · exact .of_update i rfl (.inl ⟨rfl, rfl, rfl, id⟩)

theorem hitFish_slot (h : Entry.hitFish s i json = some t) : t.slot = s.slot := by
  unfold Entry.hitFish at h
  simp only [Option.bind_eq_bind, Option.bind_eq_some_iff] at h
  obtain ⟨bullets, -, found, -, h⟩ := h
  split at h
  · simp only [Option.bind_eq_some_iff] at h
    obtain ⟨fishs, -, ⟨fishs', f⟩, -, h⟩ := h
    cases f with
    | none =>
      cases h
      rfl
    | some f =>
      obtain ⟨u, hu, rfl⟩ := Option.map_eq_some_iff.mp h
      unfold Entry.award at hu
      simp only [Option.bind_eq_bind, Option.bind_eq_some_iff] at hu
      obtain ⟨fish, -, fag, -, hu⟩ := hu
      cases hu
      rfl
  · cases h
    rfl

theorem toShot_slot (h : Entry.toShot s i json now time = some t) :
    if (s.slot i).user.any (fun a => decide (0 < (s.users a).coin)) then
      t.slot = Function.update s.slot i { s.slot i with opTime := now }
    else t.slot = s.slot := by
  unfold Entry.toShot at h
  split at h
  · next hu =>
    cases h
    rw [hu]
    rfl
  · next a hu =>
    rw [hu, Option.any_some]
    by_cases hc : (s.users a).coin ≤ 0
    · rw [if_pos hc] at h
      cases h
      rw [if_neg (by simpa using hc)]
      rfl
    · rw [if_neg hc] at h
      unfold Entry.shoot at h
      simp only [Option.bind_eq_bind, Option.bind_eq_some_iff] at h
      obtain ⟨angle, -, bullets, -, ⟨bullets', b⟩, -, bullet, -, h⟩ := h
      cases h
      rw [if_pos (by simpa using hc)]
      rfl

theorem dispatch_shot (hs : Entry.shoots s i json = true) (h : Entry.dispatch s i json now time rand = some t) :
    t.slot = Function.update s.slot i { s.slot i with opTime := now } := by
  simp only [Entry.shoots, Bool.and_eq_true, decide_eq_true_eq] at hs
  obtain ⟨⟨hop, hroom⟩, huser⟩ := hs
  unfold Entry.dispatch at h
  simp only [hop] at h
  have hsome : (s.slot i).user ≠ none := by
    intro hnone
    rw [hnone] at huser
    cases huser
  rw [if_neg (by decide), if_neg hsome, if_neg (by decide), if_neg (by decide), if_pos trivial, if_pos hroom] at h
  have hslot := toShot_slot h
  rwa [if_pos huser] at hslot

theorem dispatch_stays (hs : Entry.shoots s i json = false) (h : Entry.dispatch s i json now time rand = some t) :
    s.Stays t := by
  have hd := dispatched h
  generalize Entry.event s i json = e at hd
  cases hd with
  | idle => exact .of_slot rfl
  | sent p r => exact .of_slot rfl
  | verify _ => exact entryVerify_stays s i json
  | inRoom _ h => exact inRoom_stays h
  | leaveRoom _ _ => exact leaveRoom_stays s i
  | toShot hop hr h =>
    have hslot := toShot_slot h
    simp only [Entry.shoots, hop, hr, decide_true, Bool.true_and] at hs
    rw [hs] at hslot
    exact .of_slot hslot
  | hitFish _ h => exact .of_slot (hitFish_slot h)
  | kickUser _ => exact .of_slot (kickUser_slot s i json)
  | exit _ => exact .of_slot (exit_slot s i)

theorem verifyAssign_stays {uid : ℤ} (huid : uid ≠ 0) (loaded : User) :
    s.Stays (Thread.verifyAssign s i uid loaded) :=
  .of_update i rfl (.inl ⟨rfl, rfl, rfl, fun _ => huid⟩)

theorem verify_stays (signKey : CStr → ℤ) (s : Server) (i : Slot) (key : CStr) (loaded : User) :
    s.Stays (Thread.verifyAccount signKey s i key loaded) ∧
      (Thread.verifyEvent signKey s i key = .idle ∨
        ((Thread.verifyAccount signKey s i key loaded).slot i).uid ≠ 0) := by
  unfold Thread.verifyAccount Thread.verifyEvent
  rcases verifyScan_cases signKey s i key with ⟨p, r, hscan⟩ | ⟨-, hpos, -, ⟨-, hscan⟩ | ⟨k, -, -, p, r, hscan⟩⟩
  · rw [hscan]
    exact ⟨.of_slot rfl, .inl rfl⟩
  · rw [hscan]
    refine ⟨verifyAssign_stays hpos.ne' loaded, .inr ?_⟩
    change (Function.update s.slot i _ i).uid ≠ 0
    rw [Function.update_self]
    exact hpos.ne'
  · rw [hscan]
    refine ⟨(drop_stays (s.send p r) k).trans (verifyAssign_stays hpos.ne' loaded), .inr ?_⟩
    change (Function.update ((s.send p r).drop k).slot i _ i).uid ≠ 0
    rw [Function.update_self]
    exact hpos.ne'

theorem visit_slot (op : Op) (hop : ∀ i json now time rand, op ≠ .message i json now time rand)
    (hplay : op.isPlay = true) (h : serverStep signKey s op = some t) : t.slot = s.slot := by
  unfold serverStep at h
  split_ifs at h
  cases op with
  | message i json now time rand => exact absurd rfl (hop i json now time rand)
  | connect | handshake | close | verify | saved => cases hplay
  | fish r time rand =>
    simp only at h
    split_ifs at h
    unfold Thread.fish at h
    simp only [Option.bind_eq_bind, Option.bind_eq_some_iff] at h
    obtain ⟨fishs, -, h⟩ := h
    split_ifs at h
    simp only [Option.bind_eq_some_iff] at h
    obtain ⟨⟨fishs', f⟩, -, h⟩ := h
    split at h
    · cases h
      rfl
    · cases h
      rfl
  | bulletVisit r b now =>
    simp only [Option.bind_eq_bind] at h
    split_ifs at h
    simp only [Option.bind_eq_some_iff] at h
    obtain ⟨bullets, -, ⟨bullets', next⟩, -, h⟩ := h
    cases h
    rfl
  | fishVisit r f =>
    simp only [Option.bind_eq_bind] at h
    split_ifs at h
    simp only [Option.bind_eq_some_iff] at h
    obtain ⟨fishs, -, ⟨fishs', next⟩, -, h⟩ := h
    cases h
    rfl

end

end FishServer
