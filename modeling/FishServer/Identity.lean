import FishServer.Winnings

namespace FishServer

open Transition

/-! A connection is what the keys that it sent make it. -/

structure Guest.Known (signKey : CStr → ℤ) (owner : ℕ → ℤ) (nextUser : ℕ) (keys : List CStr) (g : Guest) :
    Prop where
  tmp : ∀ key, g.tmp = some key → key ∈ keys
  uid : g.uid ≠ 0 → ∃ key ∈ keys, signKey key = g.uid
  user : ∀ a, g.user = some a → a < nextUser ∧ ∃ key ∈ keys, signKey key = owner a
  free : g.socket = 0 → g.uid = 0 ∧ g.user = Option.none

section

variable {signKey : CStr → ℤ} {owner : ℕ → ℤ} {nextUser : ℕ} {keys : List CStr} {g : Guest}

theorem Guest.known_none : Guest.none.Known signKey owner nextUser keys where
  tmp := fun _ h => nomatch h
  uid := fun h => absurd rfl h
  user := fun _ h => nomatch h
  free := fun _ => ⟨rfl, rfl⟩

theorem Guest.Known.keys_mono (h : g.Known signKey owner nextUser keys) (key : CStr) :
    g.Known signKey owner nextUser (key :: keys) where
  tmp := fun k hk => List.mem_cons_of_mem _ (h.tmp k hk)
  uid := by
    intro hu
    obtain ⟨k, hk, he⟩ := h.uid hu
    exact ⟨k, List.mem_cons_of_mem _ hk, he⟩
  user := by
    intro a ha
    obtain ⟨hn, k, hk, he⟩ := h.user a ha
    exact ⟨hn, k, List.mem_cons_of_mem _ hk, he⟩
  free := h.free

theorem Guest.Known.newUser (h : g.Known signKey owner nextUser keys) (uid : ℤ) :
    g.Known signKey (Function.update owner nextUser uid) (nextUser + 1) keys where
  tmp := h.tmp
  uid := h.uid
  user := by
    intro a ha
    obtain ⟨hn, hk⟩ := h.user a ha
    refine ⟨Nat.lt_succ_of_lt hn, ?_⟩
    rw [Function.update_of_ne hn.ne]
    exact hk
  free := h.free

end

namespace Session

variable {signKey : CStr → ℤ} {s t : Session}

def Identified (signKey : CStr → ℤ) (s : Session) : Prop :=
  ∀ i, (s.slot i).Known signKey s.owner s.nextUser (s.keys i)

theorem Identified.frame (h : s.Identified signKey) (ht : s.Frame t) : t.Identified signKey := by
  intro j
  rw [ht.slot, ht.owner, ht.nextUser, ht.keys]
  exact h j

theorem Identified.setSlot (h : s.Identified signKey) (i : Slot) (g : Guest)
    (hg : g.Known signKey s.owner s.nextUser (s.keys i)) : (s.setSlot i g).Identified signKey := by
  intro j
  by_cases hj : j = i
  · subst hj
    rw [setSlot_slot, Function.update_self]
    exact hg
  · rw [setSlot_slot, Function.update_of_ne hj]
    exact h j

theorem Identified.unseat (h : s.Identified signKey) (i : Slot) : (s.unseat i).Identified signKey := by
  unfold Session.unseat
  split_ifs
  · exact h
  · obtain ⟨_, ho, hn, hk⟩ := s.vacate_frame (s.slot i)
    apply (h.frame (s.vacate_frame (s.slot i))).setSlot
    rw [ho, hn, hk]
    exact ⟨(h i).tmp, (h i).uid, (h i).user, (h i).free⟩

theorem Identified.remove (h : s.Identified signKey) (i : Slot) : (s.remove i).Identified signKey := by
  unfold Session.remove
  split_ifs
  · exact h
  · have hh : (s.hand (s.slot i)).Identified signKey := h
    exact hh.setSlot i .none Guest.known_none

theorem Identified.drop (h : s.Identified signKey) (i : Slot) : (s.drop i).Identified signKey :=
  (h.unseat i).remove i

theorem Identified.assign (h : s.Identified signKey) (i : Slot) (uid : ℤ) (hs : (s.slot i).socket ≠ 0)
    (hk : ∃ key ∈ s.keys i, signKey key = uid) : (s.assign i uid).Identified signKey := by
  intro j
  by_cases hj : j = i
  · subst hj
    simp only [Session.assign, setSlot_slot, setSlot_keys, Function.update_self]
    refine ⟨(h j).tmp, fun _ => hk, ?_, fun hz => absurd hz hs⟩
    rintro a ⟨⟩
    rw [Function.update_self]
    exact ⟨Nat.lt_succ_self _, hk⟩
  · simp only [Session.assign, setSlot_slot, setSlot_keys, Function.update_of_ne hj]
    exact (h j).newUser uid

theorem drop_slot_of_ne (s : Session) {i k : Slot} (hk : i ≠ k) : (s.drop k).slot i = s.slot i := by
  have hu : (s.unseat k).slot i = s.slot i := by
    unfold Session.unseat
    split_ifs
    · rfl
    · rw [setSlot_slot, Function.update_of_ne hk, vacate_slot]
  unfold Session.drop Session.remove
  split_ifs
  · exact hu
  · rw [setSlot_slot, Function.update_of_ne hk]
    exact hu

-- the text checked is the one stored, and the slot is not the one that is forced out
def checksOwnKey (s : Session) : Event → Bool
  | .login i key _ out => decide ((s.slot i).tmp = some key ∧ out ≠ some i)
  | _ => true

theorem Identified.step (h : s.Identified signKey) (ht : s.Tidy) (e : Event) (he : s.Enabled signKey e)
    (hc : s.checksOwnKey e = true) : (s.step e).Identified signKey := by
  cases e with
  | idle => exact h
  | connect i socket =>
    intro j
    by_cases hj : j = i
    · subst hj
      obtain ⟨hu, ha⟩ := (h j).free he.1
      simp only [Session.step, setSlot_slot, Function.update_self]
      refine ⟨?_, fun hn => absurd hu hn, ?_, fun _ => ⟨hu, ha⟩⟩
      · intro key hk
        rw [ht.tmp j he.1] at hk
        cases hk
      · intro a hk
        rw [ha] at hk
        cases hk
    · simp only [Session.step, setSlot_slot, Function.update_of_ne hj]
      exact h j
  | key i key kick =>
    intro j
    by_cases hj : j = i
    · subst hj
      simp only [Session.step, setSlot_slot, Function.update_self]
      have hk := (h j).keys_mono key
      refine ⟨?_, hk.uid, hk.user, hk.free⟩
      rintro k ⟨⟩
      exact List.mem_cons_self
    · simp only [Session.step, setSlot_slot, Function.update_of_ne hj]
      exact h j
  | seat i room seat =>
    have hr : (s.setSeat (room - 1) (seat - 1) (some i)).Identified signKey := h
    exact hr.setSlot i _ ⟨(h i).tmp, (h i).uid, (h i).user, (h i).free⟩
  | leave i => exact h.unseat i
  | drop i => exact h.drop i
  | kick k => exact h.frame (s.kick_frame k)
  | login i key uid out =>
    obtain ⟨hkey, hout⟩ := of_decide_eq_true hc
    obtain ⟨_, huid, _, _, _⟩ := he
    have hs : (s.slot i).socket ≠ 0 := by
      intro hz
      rw [ht.tmp i hz] at hkey
      cases hkey
    have hk : ∃ k ∈ s.keys i, signKey k = uid := ⟨key, (h i).tmp key hkey, huid⟩
    cases out with
    | none => exact h.assign i uid hs hk
    | some k =>
      have hne : i ≠ k := fun hi => hout (congrArg some hi.symm)
      apply (h.drop k).assign i uid
      · rw [s.drop_slot_of_ne hne]
        exact hs
      · rw [drop_keys]
        exact hk
  | saved a => exact h
  | exit => exact h.frame s.exit_frame

end Session

theorem identified_start (signKey : CStr → ℤ) (maxRoom : ℕ) (outside : ℕ → Room) (fish : List SettingFish)
    (users : ℕ → User) : (Server.start maxRoom outside fish users).session.Identified signKey :=
  fun _ => Guest.known_none

theorem slots_have_sent_keys (signKey : CStr → ℤ) (maxRoom : ℕ) (outside : ℕ → Room)
    (fish : List SettingFish) (users : ℕ → User) (s : Server)
    (h : Reach (serverStep signKey) (fun s op => s.session.checksOwnKey (s.event signKey op) = true)
      (Server.start maxRoom outside fish users) s) (i : Slot) :
    ((s.slot i).uid ≠ 0 → ∃ key ∈ s.trace.keys i, signKey key = (s.slot i).uid) ∧
      ∀ a, (s.slot i).user = some a → ∃ key ∈ s.trace.keys i, signKey key = (s.users a).id := by
  have hs : s.session.Identified signKey ∧ s.session.Tidy := by
    apply session_invariant (P := fun u => u.Identified signKey ∧ u.Tidy)
      (fun u e => u.checksOwnKey e = true) _ _ _ h
    · exact fun s op hk => hk
    · exact ⟨identified_start signKey maxRoom outside fish users, tidy_start maxRoom outside fish users⟩
    · rintro u e ⟨hu, ht⟩ he hc
      exact ⟨hu.step ht e he hc, ht.step e he⟩
  exact ⟨(hs.1 i).uid, fun a ha => ((hs.1 i).user a ha).2⟩

theorem takeOver_has_sent_key : ∃ s : Server, ((s.slot 1).socket, (s.slot 1).uid) = (6, 7) ∧
    ((s.slot 1).uid ≠ 0 → ∃ key ∈ s.trace.keys 1, sampleKey key = (s.slot 1).uid) ∧
      ∀ a, (s.slot 1).user = some a → ∃ key ∈ s.trace.keys 1, sampleKey key = (s.users a).id := by
  have hrun : ((runIf (serverStep sampleKey) (fun s op => s.session.checksOwnKey (s.event sampleKey op))
      sampleServer (enter 0 5 ['a'] ++ enter 1 6 ['a'])).map
        (fun s => ((s.slot 1).socket, (s.slot 1).uid))) = some (6, 7) := by decide +kernel
  obtain ⟨s, hs, hh⟩ := Option.map_eq_some_iff.mp hrun
  exact ⟨s, hh, slots_have_sent_keys sampleKey 1 _ _ _ s (Reach.of_runIf hs) 1⟩

-- a second login forces the own slot out, and the next connection gets it with its account
theorem slot_without_key : ∃ s : Server, runIf (serverStep sampleKey) (fun _ _ => true) sampleServer
      (enter 0 5 ['a'] ++ [verifyMessage 0 ['a'] ['1'], .verify 0 ['a'] sampleUser, .connect 6 0 0]) = some s ∧
    ¬ ∀ i, (s.slot i).socket ≠ 0 →
      ((s.slot i).uid ≠ 0 → ∃ key ∈ s.trace.keys i, sampleKey key = (s.slot i).uid) ∧
        ∀ a, (s.slot i).user = some a → ∃ key ∈ s.trace.keys i, sampleKey key = (s.users a).id := by
  have hrun : ((runIf (serverStep sampleKey) (fun _ _ => true) sampleServer
      (enter 0 5 ['a'] ++ [verifyMessage 0 ['a'] ['1'], .verify 0 ['a'] sampleUser, .connect 6 0 0])).map
        (fun s => ((s.slot 0).socket, (s.slot 0).uid, s.trace.keys 0))) = some (6, 7, []) := by decide +kernel
  obtain ⟨s, hs, hh⟩ := Option.map_eq_some_iff.mp hrun
  simp only [Prod.mk.injEq] at hh
  refine ⟨s, hs, ?_⟩
  intro h
  obtain ⟨key, hk, _⟩ := (h 0 (by rw [hh.1]; decide)).1 (by rw [hh.2.1]; decide)
  rw [hh.2.2] at hk
  cases hk

end FishServer
