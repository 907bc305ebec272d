import FishServer.PendingSave
import FishServer.SessionRun

namespace FishServer

/-! A login that meets the account at another slot. -/

/-- The message of the slot and the thread that it starts, one right after the other. -/
def Server.login (signKey : CStr → ℤ) (s : Server) (p : Slot) (json : JsonValue) (key : CStr)
    (loaded : User) : Server :=
  Thread.verifyAccount signKey (Entry.verifyAccount s p json) p key loaded

structure Server.LoggedIn (s : Server) (q : Slot) (uid : ℤ) : Prop where
  uid : (s.slot q).uid = uid
  socket : (s.slot q).socket ≠ 0
  closeing : (s.slot q).closeing = false

structure Server.FollowsChoice (s t : Server) (p q : Slot) (uid kick : ℤ) : Prop where
  forced : kick ≠ 0 → t.slot q = Player.zero ∧ ∀ i, (t.slot i).uid = uid ↔ i = p
  refused : kick = 0 →
    t.sent = ((s.slot p).socket, .text "\x7b'op':'verify account', 'status':-2\x7d".toList) :: s.sent ∧
      (t.slot p).uid ≠ uid ∧ t.slot q = s.slot q

def Server.holder (s : Server) (uid : ℤ) : Option Slot := findSlot (fun i => decide ((s.slot i).uid = uid))

structure Server.FlagsAgree (s : Server) (p q : Slot) (uid kick : ℤ) : Prop where
  forced : kick ≠ 0 →
    s.holder uid = some q ∧ (s.slot q).kick ≠ 0 ∧ ∀ i, (s.slot i).uid = uid → i = q ∨ i = p
  refused : kick = 0 → (s.slot p).uid ≠ uid ∧ ∀ k, s.holder uid = some k → (s.slot k).kick = 0

section

variable {s : Server}

theorem Server.setSlot_other (s : Server) {i k : Slot} (h : k ≠ i) (p : Player) :
    (s.setSlot i p).slot k = s.slot k :=
  Function.update_of_ne h ..

theorem Players.remove_slot (s : Server) (p : Player) : (Players.remove s p).1.slot = s.slot := by
  unfold Players.remove
  split_ifs <;> rfl

theorem Server.drop_other (s : Server) {i k : Slot} (h : k ≠ i) : (s.drop i).slot k = s.slot k := by
  unfold Server.drop Server.removeSlot
  rw [Server.setSlot_other _ h, Players.remove_slot]
  exact Server.setSlot_other _ h _

theorem Server.drop_self {i : Slot} (hc : (s.slot i).closeing = false) (hs : (s.slot i).socket ≠ 0) :
    (s.drop i).slot i = Player.zero := by
  have hl : (s.rooms.leave (s.slot i)).2.closeing = (s.slot i).closeing ∧
      (s.rooms.leave (s.slot i)).2.socket = (s.slot i).socket := by
    unfold Rooms.leave
    split_ifs <;> exact ⟨rfl, rfl⟩
  unfold Server.drop Server.removeSlot Server.leaveRoom Players.remove
  simp only [Server.setSlot, Function.update_self]
  rw [if_neg (by simp [hl, hc, hs])]

theorem Server.holder_uid {uid : ℤ} {k : Slot} (h : s.holder uid = some k) : (s.slot k).uid = uid := by
  have ht := List.find?_some h
  simpa using ht

theorem Server.holder_exists {uid : ℤ} {q : Slot} (h : (s.slot q).uid = uid) : ∃ k, s.holder uid = some k := by
  cases hf : s.holder uid with
  | some k => exact ⟨k, rfl⟩
  | none =>
    have hn := List.find?_eq_none.mp hf q (List.mem_finRange q)
    simp [h] at hn

end

section

variable {signKey : CStr → ℤ} {s : Server} {p q k : Slot} {json : JsonValue} {key : CStr}

theorem verifyMessage_self (hkey : json.value "key".toList = some key) :
    (Entry.verifyAccount s p json).slot p =
      { s.slot p with kick := json.valueToInt "kick".toList, tmp := some key } := by
  unfold Entry.verifyAccount
  rw [hkey]
  exact Function.update_self ..

theorem verifyMessage_other (hkey : json.value "key".toList = some key) (hk : k ≠ p) :
    (Entry.verifyAccount s p json).slot k = s.slot k := by
  unfold Entry.verifyAccount
  rw [hkey]
  exact Function.update_of_ne hk ..

theorem verifyMessage_uid (hkey : json.value "key".toList = some key) (k : Slot) :
    ((Entry.verifyAccount s p json).slot k).uid = (s.slot k).uid := by
  by_cases hk : k = p
  · subst hk
    rw [verifyMessage_self hkey]
  · rw [verifyMessage_other hkey hk]

theorem verifyMessage_sent (hkey : json.value "key".toList = some key) :
    (Entry.verifyAccount s p json).sent = s.sent := by
  unfold Entry.verifyAccount
  rw [hkey]
  rfl

theorem verifyMessage_saveUid (hkey : json.value "key".toList = some key) (k : Slot) :
    ((Entry.verifyAccount s p json).slot k).saveUid = (s.slot k).saveUid := by
  by_cases hk : k = p
  · subst hk
    rw [verifyMessage_self hkey]
  · rw [verifyMessage_other hkey hk]

theorem verifyMessage_holder (hkey : json.value "key".toList = some key) (uid : ℤ) :
    (Entry.verifyAccount s p json).holder uid = s.holder uid := by
  unfold Server.holder
  simp only [verifyMessage_uid hkey]

theorem login_refused (hs : ∀ i, (s.slot i).saveUid = 0) (hkey : json.value "key".toList = some key)
    (hplain : plainKey key = true) (hpos : 0 < signKey key) (hk : s.holder (signKey key) = some k)
    (hkick : ((Entry.verifyAccount s p json).slot k).kick = 0) (loaded : User) :
    s.login signKey p json key loaded = (Entry.verifyAccount s p json).send
      ((Entry.verifyAccount s p json).slot p) (.text "\x7b'op':'verify account', 'status':-2\x7d".toList) := by
  unfold Server.login Thread.verifyAccount
  rw [← verifyMessage_holder hkey] at hk
  rw [verifyScan_held (fun i => (verifyMessage_saveUid hkey i).trans (hs i)) hplain hpos hk,
    if_neg (not_not_intro hkick)]
  rfl

theorem login_granted (hs : ∀ i, (s.slot i).saveUid = 0) (hkey : json.value "key".toList = some key)
    (hplain : plainKey key = true) (hpos : 0 < signKey key) (hk : s.holder (signKey key) = some k)
    (hkick : ((Entry.verifyAccount s p json).slot k).kick ≠ 0) (loaded : User) :
    ((s.login signKey p json key loaded).slot p).uid = signKey key ∧
      (∀ i, i ≠ p → i ≠ k → (s.login signKey p json key loaded).slot i = s.slot i) ∧
      (k ≠ p → (s.slot k).closeing = false → (s.slot k).socket ≠ 0 →
        (s.login signKey p json key loaded).slot k = Player.zero) := by
  unfold Server.login Thread.verifyAccount
  rw [← verifyMessage_holder hkey] at hk
  rw [verifyScan_held (fun i => (verifyMessage_saveUid hkey i).trans (hs i)) hplain hpos hk, if_pos hkick]
  refine ⟨?_, ?_, ?_⟩
  · simp only [Thread.verifyAssign, Server.send, Server.setUser, Server.setSlot, Function.update_self]
  · intro i hp hi
    simp only [Thread.verifyAssign, Server.send, Server.setUser, Server.setSlot, Function.update_of_ne hp]
    rw [Server.drop_other _ hi]
    exact verifyMessage_other hkey hp
  · intro hp hc hsock
    simp only [Thread.verifyAssign, Server.send, Server.setUser, Server.setSlot, Function.update_of_ne hp]
    have ho := verifyMessage_other (s := s) (p := p) hkey hp
    apply Server.drop_self
    · exact (congrArg Player.closeing ho).trans hc
    · exact fun h0 => hsock ((congrArg Player.socket ho).symm.trans h0)

end

section

variable {signKey : CStr → ℤ} {s : Server} {p q : Slot} {json : JsonValue} {key : CStr} {loaded : User}

theorem Server.LoggedIn.slot_ne {uid : ℤ} (hq : s.LoggedIn q uid) (hpos : 0 < uid) : s.slot q ≠ Player.zero := by
  intro h0
  have hu := hq.uid
  rw [h0] at hu
  exact hpos.ne hu

section

variable (hpq : p ≠ q) (hs : ∀ i, (s.slot i).saveUid = 0)
  (hkey : json.value "key".toList = some key) (hplain : plainKey key = true) (hpos : 0 < signKey key)
  (hq : s.LoggedIn q (signKey key))

include hpq hs hkey hplain hpos hq

theorem followsChoice_refused {k : Slot} (hk : s.holder (signKey key) = some k)
    (hkick : ((Entry.verifyAccount s p json).slot k).kick = 0) :
    s.FollowsChoice (s.login signKey p json key loaded) p q (signKey key) (json.valueToInt "kick".toList) ↔
      s.FlagsAgree p q (signKey key) (json.valueToInt "kick".toList) := by
  have huid := Server.holder_uid hk
  have hself := verifyMessage_self (s := s) (p := p) hkey
  have hzero := hq.slot_ne hpos
  have hl := login_refused hs hkey hplain hpos hk hkick loaded
  have hslot : ∀ i, i ≠ p → (s.login signKey p json key loaded).slot i = s.slot i := by
    intro i hi
    rw [hl]
    exact verifyMessage_other hkey hi
  have hp : ((s.login signKey p json key loaded).slot p).uid = (s.slot p).uid := by
    rw [hl]
    exact verifyMessage_uid hkey p
  constructor
  · intro h
    constructor
    · intro hne
      have := (h.forced hne).1
      rw [hslot q hpq.symm] at this
      exact absurd this hzero
    · intro h0
      have hpu : (s.slot p).uid ≠ signKey key := by
        rw [← hp]
        exact (h.refused h0).2.1
      refine ⟨hpu, ?_⟩
      intro k' hk'
      obtain rfl : k = k' := Option.some.inj (hk.symm.trans hk')
      have hkp : k ≠ p := by
        rintro rfl
        exact hpu huid
      rw [verifyMessage_other hkey hkp] at hkick
      exact hkick
  · intro h
    constructor
    · intro hne
      obtain ⟨hf, hfk, -⟩ := h.forced hne
      obtain rfl : k = q := Option.some.inj (hk.symm.trans hf)
      rw [verifyMessage_other hkey hpq.symm] at hkick
      exact absurd hkick hfk
    · intro h0
      refine ⟨?_, ?_, hslot q hpq.symm⟩
      · rw [hl]
        simp only [Server.send, hself, verifyMessage_sent hkey]
      · rw [hp]
        exact (h.refused h0).1

theorem followsChoice_granted {k : Slot} (hk : s.holder (signKey key) = some k)
    (hkick : ((Entry.verifyAccount s p json).slot k).kick ≠ 0) :
    s.FollowsChoice (s.login signKey p json key loaded) p q (signKey key) (json.valueToInt "kick".toList) ↔
      s.FlagsAgree p q (signKey key) (json.valueToInt "kick".toList) := by
  have huid := Server.holder_uid hk
  have hzero := hq.slot_ne hpos
  obtain ⟨hp, hother, hoff⟩ := login_granted hs hkey hplain hpos hk hkick loaded
  constructor
  · intro h
    constructor
    · intro hne
      obtain ⟨hz, honly⟩ := h.forced hne
      have hkq : k = q := by
        by_contra hn
        rw [hother q hpq.symm (Ne.symm hn)] at hz
        exact hzero hz
      subst hkq
      rw [verifyMessage_other hkey hpq.symm] at hkick
      refine ⟨hk, hkick, ?_⟩
      intro i hi
      by_contra hn
      rw [not_or] at hn
      exact hn.2 ((honly i).mp ((congrArg Player.uid (hother i hn.2 hn.1)).trans hi))
    · intro h0
      exact absurd hp (h.refused h0).2.1
  · intro h
    constructor
    · intro hne
      obtain ⟨hf, hfk, honly⟩ := h.forced hne
      obtain rfl : k = q := Option.some.inj (hk.symm.trans hf)
      have hz := hoff hpq.symm hq.closeing hq.socket
      refine ⟨hz, ?_⟩
      intro i
      constructor
      · intro hi
        by_contra hip
        by_cases hik : i = k
        · rw [hik, hz] at hi
          exact hpos.ne hi
        · rw [hother i hip hik] at hi
          rcases honly i hi with he | he
          · exact hik he
          · exact hip he
      · rintro rfl
        exact hp
    · intro h0
      obtain ⟨hpu, hkick0⟩ := h.refused h0
      have hkp : k ≠ p := by
        rintro rfl
        exact hpu huid
      rw [verifyMessage_other hkey hkp] at hkick
      exact absurd (hkick0 k hk) hkick

theorem followsChoice_iff :
    s.FollowsChoice (s.login signKey p json key loaded) p q (signKey key) (json.valueToInt "kick".toList) ↔
      s.FlagsAgree p q (signKey key) (json.valueToInt "kick".toList) := by
  obtain ⟨k, hk⟩ := Server.holder_exists hq.uid
  by_cases hkick : ((Entry.verifyAccount s p json).slot k).kick = 0
  · exact followsChoice_refused hpq hs hkey hplain hpos hq hk hkick
  · exact followsChoice_granted hpq hs hkey hplain hpos hq hk hkick

end

theorem flagsAgree_iff (hpq : p ≠ q) {uid kick : ℤ} (hq : (s.slot q).uid = uid)
    (hone : ∀ i, (s.slot i).uid = uid → i = q) :
    s.FlagsAgree p q uid kick ↔ ((s.slot q).kick ≠ 0 ↔ kick ≠ 0) := by
  have hh : s.holder uid = some q := by
    obtain ⟨k, hk⟩ := Server.holder_exists hq
    rw [hk, hone k (Server.holder_uid hk)]
  constructor
  · intro h
    constructor
    · intro hk h0
      exact hk ((h.refused h0).2 q hh)
    · intro hne
      exact (h.forced hne).2.1
  · intro h
    constructor
    · intro hne
      exact ⟨hh, h.mpr hne, fun i hi => .inl (hone i hi)⟩
    · intro h0
      refine ⟨fun hp => hpq (hone p hp), ?_⟩
      intro k hk
      obtain rfl : q = k := Option.some.inj (hh.symm.trans hk)
      by_contra hne
      exact h.mp hne h0

end

theorem forced_login_iff (signKey : CStr → ℤ) (s : Server) (p q : Slot) (json : JsonValue) (key : CStr)
    (loaded : User) (hpq : p ≠ q) (hs : ∀ i, (s.slot i).saveUid = 0)
    (hkey : json.value "key".toList = some key) (hplain : plainKey key = true) (hpos : 0 < signKey key)
    (hq : s.LoggedIn q (signKey key)) :
    (s.FollowsChoice (s.login signKey p json key loaded) p q (signKey key) (json.valueToInt "kick".toList) ↔
      s.FlagsAgree p q (signKey key) (json.valueToInt "kick".toList)) ∧
    ((∀ i, (s.slot i).uid = signKey key → i = q) →
      (s.FollowsChoice (s.login signKey p json key loaded) p q (signKey key) (json.valueToInt "kick".toList) ↔
        ((s.slot q).kick ≠ 0 ↔ json.valueToInt "kick".toList ≠ 0))) := by
  have h := @followsChoice_iff signKey s p q json key loaded hpq hs hkey hplain hpos hq
  refine ⟨h, ?_⟩
  intro hone
  rw [h]
  exact flagsAgree_iff hpq hq.uid hone

/-- Socket 1 at the slot `q` is logged in to account 7, with the flag it sent; socket 2 is at `p`. -/
def heldServer (p q : Slot) (kick : ℤ) : Server :=
  (sampleServer.setSlot q { Player.zero with socket := 1, uid := 7, kick, user := some 0 }).setSlot p
    { Player.zero with socket := 2 }

def loginMessage (kick : CStr) : JsonValue :=
  message [("key".toList, ['a']), ("kick".toList, kick)]

theorem heldServer_loggedIn (kick : ℤ) : (heldServer 1 0 kick).LoggedIn 0 (sampleKey ['a']) where
  uid := rfl
  socket := Nat.one_ne_zero
  closeing := rfl

theorem heldServer_saveUid (kick : ℤ) (i : Slot) : ((heldServer 1 0 kick).slot i).saveUid = 0 := by
  unfold heldServer Server.setSlot
  simp only [Function.update_apply]
  split_ifs <;> rfl

theorem forced_login_agreed :
    (heldServer 1 0 1).FollowsChoice
      ((heldServer 1 0 1).login sampleKey 1 (loginMessage ['1']) ['a'] sampleUser) 1 0 7 1 := by
  apply (forced_login_iff sampleKey (heldServer 1 0 1) 1 0 (loginMessage ['1']) ['a'] sampleUser (by decide)
    (heldServer_saveUid 1) rfl rfl (by decide) (heldServer_loggedIn 1)).1.mpr
  constructor
  · intro _
    refine ⟨by decide +kernel, by decide, ?_⟩
    intro i hi
    by_contra hn
    rw [not_or] at hn
    simp [heldServer, Server.setSlot, hn.1, hn.2, sampleServer, Server.start, Player.zero, sampleKey] at hi
  · intro h0
    revert h0
    decide

-- `p` did not ask for it, the one at `q` did when it logged in, and is forced out
theorem forced_login_unasked :
    ¬ ∀ (signKey : CStr → ℤ) (s : Server) (p q : Slot) (json : JsonValue) (key : CStr) (loaded : User),
      p ≠ q → (∀ i, (s.slot i).saveUid = 0) → json.value "key".toList = some key → plainKey key = true →
      0 < signKey key → s.LoggedIn q (signKey key) →
      s.FollowsChoice (s.login signKey p json key loaded) p q (signKey key)
        (json.valueToInt "kick".toList) := by
  intro h
  have hf := h sampleKey (heldServer 1 0 1) 1 0 (loginMessage ['0']) ['a'] sampleUser (by decide)
    (heldServer_saveUid 1) rfl rfl (by decide) (heldServer_loggedIn 1)
  have hr := (hf.refused (by decide)).2.2
  have hz : ((heldServer 1 0 1).login sampleKey 1 (loginMessage ['0']) ['a'] sampleUser).slot 0 ≠
      (heldServer 1 0 1).slot 0 := by
    decide +kernel
  exact hz hr

end FishServer
