import FishServer.SessionRun

namespace FishServer

open Transition

/-! The guard of a login against the save of the same account that is still to come. -/

namespace Session

variable {s t : Session}

def Unmarked (s : Session) : Prop := ∀ i, (s.slot i).saveUid = 0

theorem Unmarked.setSlot (h : s.Unmarked) (i : Slot) (g : Guest) (hg : g.saveUid = 0) :
    (s.setSlot i g).Unmarked := by
  intro j
  by_cases hj : j = i
  · rw [hj, setSlot_slot, Function.update_self]
    exact hg
  · rw [setSlot_slot, Function.update_of_ne hj]
    exact h j

theorem Unmarked.congr (h : s.Unmarked) (ht : t.slot = s.slot) : t.Unmarked := by
  intro j
  rw [ht]
  exact h j

theorem Unmarked.unseat (h : s.Unmarked) (i : Slot) : (s.unseat i).Unmarked := by
  unfold Session.unseat
  split_ifs
  · exact h
  · apply (h.congr (s.vacate_slot (s.slot i))).setSlot
    exact h i

theorem Unmarked.drop (h : s.Unmarked) (i : Slot) : (s.drop i).Unmarked := by
  unfold Session.drop Session.remove
  split_ifs
  · exact h.unseat i
  · have hh : ((s.unseat i).hand ((s.unseat i).slot i)).Unmarked := h.unseat i
    exact hh.setSlot i .none rfl

theorem Unmarked.assign (h : s.Unmarked) (i : Slot) (uid : ℤ) : (s.assign i uid).Unmarked :=
  h.setSlot i { s.slot i with uid, user := some s.nextUser } (h i)

theorem Unmarked.step (h : s.Unmarked) (e : Event) : (s.step e).Unmarked := by
  cases e with
  | idle => exact h
  | connect i socket => exact h.setSlot i { s.slot i with socket } (h i)
  | key i key kick => exact h.setSlot i { s.slot i with kick, tmp := some key } (h i)
  | seat i room seat =>
    have hs : (s.setSeat (room - 1) (seat - 1) (some i)).Unmarked := h
    exact hs.setSlot i { s.slot i with room, seat } (h i)
  | leave i => exact h.unseat i
  | drop i => exact h.drop i
  | kick k => exact h.congr (s.kick_frame k).slot
  | login i key uid out =>
    cases out with
    | none => exact h.assign i uid
    | some k => exact (h.drop k).assign i uid
  | saved a => exact h
  | exit => exact h.congr s.exit_frame.slot

end Session

theorem unmarked_reachable {signKey : CStr → ℤ} {maxRoom : ℕ} {outside : ℕ → Room} {fish : List SettingFish}
    {users : ℕ → User} {s : Server}
    (h : Reach (serverStep signKey) (fun _ _ => True) (Server.start maxRoom outside fish users) s) (i : Slot) :
    (s.slot i).saveUid = 0 := by
  have hs : s.session.Unmarked := by
    apply session_invariant (P := Session.Unmarked) (fun _ _ => True) _ _ _ h
    · exact fun _ _ _ => trivial
    · exact fun _ => rfl
    · exact fun u e hu _ _ => hu.step e
  exact hs i

def Server.saving (s : Server) (uid : ℤ) : Bool := s.leaving.any (fun a => decide ((s.users a).id = uid))

def Server.occupied (s : Server) (uid : ℤ) : Bool :=
  (findSlot (fun k => decide ((s.slot k).uid = uid))).any (fun k => decide ((s.slot k).kick = 0))

def Scan.loads : Scan → Bool
  | .denied _ => false
  | .granted _ _ => true

section

variable {signKey : CStr → ℤ} {s : Server} {i : Slot} {key : CStr}

theorem findSlot_saveUid (hs : ∀ k, (s.slot k).saveUid = 0) (hk : 0 < signKey key) :
    findSlot (fun k => decide ((s.slot k).saveUid = signKey key)) = none := by
  apply List.find?_eq_none.mpr
  intro k _
  rw [hs k]
  simpa using hk.ne

theorem verifyScan_free (hs : ∀ k, (s.slot k).saveUid = 0) (hp : plainKey key = true) (hk : 0 < signKey key)
    (hf : findSlot (fun k => decide ((s.slot k).uid = signKey key)) = none) :
    Thread.verifyScan signKey s i key = .granted s (signKey key) := by
  unfold Thread.verifyScan
  rw [findSlot_saveUid hs hk, hf, hp, if_neg (by decide), if_neg (by omega), if_neg (by decide)]

theorem verifyScan_held {k : Slot} (hs : ∀ k, (s.slot k).saveUid = 0) (hp : plainKey key = true)
    (hk : 0 < signKey key) (hf : findSlot (fun k => decide ((s.slot k).uid = signKey key)) = some k) :
    Thread.verifyScan signKey s i key =
      if (s.slot k).kick ≠ 0 then
        .granted ((s.send (s.slot k) (.text "\x7b'op':'offline', 'status':1\x7d".toList)).drop k) (signKey key)
      else .deny s i "\x7b'op':'verify account', 'status':-2\x7d".toList := by
  unfold Thread.verifyScan
  rw [findSlot_saveUid hs hk, hf, hp, if_neg (by decide), if_neg (by omega), if_neg (by decide)]

theorem not_loads_iff_occupied (hs : ∀ k, (s.slot k).saveUid = 0) (hp : plainKey key = true)
    (hk : 0 < signKey key) :
    (Thread.verifyScan signKey s i key).loads = false ↔ s.occupied (signKey key) = true := by
  unfold Server.occupied
  cases hf : findSlot (fun k => decide ((s.slot k).uid = signKey key)) with
  | none =>
    rw [verifyScan_free hs hp hk hf]
    simp [Scan.loads]
  | some k =>
    rw [verifyScan_held hs hp hk hf]
    by_cases hkick : (s.slot k).kick = 0
    · simp [hkick, Scan.loads, Scan.deny]
    · simp [hkick, Scan.loads]

theorem send_inj {p : Player} {r r' : Reply} (h : s.send p r = s.send p r') : r = r' := by
  have hs := congrArg Server.sent h
  simp only [Server.send, List.cons.injEq, Prod.mk.injEq] at hs
  exact hs.1.2

theorem never_answers_saving (hs : ∀ k, (s.slot k).saveUid = 0) (hp : plainKey key = true)
    (hk : 0 < signKey key) :
    Thread.verifyScan signKey s i key ≠ .deny s i "\x7b'op':'verify account', 'status':-1\x7d".toList := by
  intro h
  cases hf : findSlot (fun k => decide ((s.slot k).uid = signKey key)) with
  | none =>
    rw [verifyScan_free hs hp hk hf] at h
    cases h
  | some k =>
    rw [verifyScan_held hs hp hk hf] at h
    split_ifs at h
    · cases h
    · unfold Scan.deny at h
      injection h with h
      injection send_inj h with h
      revert h
      decide

end

def Server.holdsBack (signKey : CStr → ℤ) (s : Server) (i : Slot) (key : CStr) : Prop :=
  s.saving (signKey key) = true → (Thread.verifyScan signKey s i key).loads = false

def Server.answersSaving (signKey : CStr → ℤ) (s : Server) (i : Slot) (key : CStr) : Prop :=
  s.saving (signKey key) = true →
    Thread.verifyScan signKey s i key = .deny s i "\x7b'op':'verify account', 'status':-1\x7d".toList

theorem pending_save_holds_back (signKey : CStr → ℤ) (maxRoom : ℕ) (outside : ℕ → Room)
    (fish : List SettingFish) (users : ℕ → User) (s : Server)
    (h : Reach (serverStep signKey) (fun _ _ => True) (Server.start maxRoom outside fish users) s) (i : Slot)
    (key : CStr) (hp : plainKey key = true) (hk : 0 < signKey key) :
    (s.holdsBack signKey i key ↔ (s.saving (signKey key) = true → s.occupied (signKey key) = true)) ∧
      (s.answersSaving signKey i key ↔ s.saving (signKey key) = false) := by
  have hs := unmarked_reachable h
  constructor
  · unfold Server.holdsBack
    rw [not_loads_iff_occupied hs hp hk]
  · unfold Server.answersSaving
    constructor
    · intro ha
      by_contra hn
      exact never_answers_saving hs hp hk (ha (by simpa using hn))
    · intro hn hy
      rw [hn] at hy
      cases hy

theorem kept_seat_holds_back : ∃ s : Server, s.saving 7 = true ∧ s.holdsBack sampleKey 0 ['a'] := by
  have hrun : ((runIf (serverStep sampleKey) (fun _ _ => true) sampleServer
      (enter 0 5 ['a'] ++ enter 1 6 ['b'] ++ [verifyMessage 0 ['a'] ['0'], kickSocket 1 ['5']])).map
        (fun s => (s.saving 7, s.occupied 7))) = some (true, true) := by decide +kernel
  obtain ⟨s, hs, hh⟩ := Option.map_eq_some_iff.mp hrun
  simp only [Prod.mk.injEq] at hh
  exact ⟨s, hh.1, (pending_save_holds_back sampleKey 1 _ _ _ s ((Reach.of_runIf hs).mono fun _ _ _ => trivial) 0
    ['a'] (by decide) (by decide)).1.mpr (fun _ => hh.2)⟩

-- the player leaves, and comes back before the save of the first visit has run
theorem login_during_save : ∃ s : Server, runIf (serverStep sampleKey) (fun _ _ => true) sampleServer
      (enter 0 5 ['a'] ++ [.close 0, .connect 6 0 0, .handshake 0, verifyMessage 0 ['a'] ['1']]) = some s ∧
    ¬ (s.holdsBack sampleKey 0 ['a'] ∧ s.answersSaving sampleKey 0 ['a']) := by
  have hrun : ((runIf (serverStep sampleKey) (fun _ _ => true) sampleServer
      (enter 0 5 ['a'] ++ [.close 0, .connect 6 0 0, .handshake 0, verifyMessage 0 ['a'] ['1']])).map
        (fun s => (s.saving 7, (Thread.verifyScan sampleKey s 0 ['a']).loads))) = some (true, true) := by decide +kernel
  obtain ⟨s, hs, hh⟩ := Option.map_eq_some_iff.mp hrun
  simp only [Prod.mk.injEq] at hh
  refine ⟨s, hs, ?_⟩
  rintro ⟨hb, _⟩
  have hn := hb hh.1
  rw [hh.2] at hn
  cases hn

end FishServer
