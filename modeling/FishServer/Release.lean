import FishServer.SessionRun

namespace FishServer

open Transition

/-! A user is handed to `userLeave` at most once. -/

namespace Session

structure Released (s : Session) : Prop where
  nodup : s.handed.Nodup
  known : ∀ a ∈ s.handed, a < s.nextUser
  held : ∀ i a, (s.slot i).user = some a → a < s.nextUser ∧ a ∉ s.handed
  once : ∀ i j a, (s.slot i).user = some a → (s.slot j).user = some a → i = j

variable {s t : Session}

theorem Released.congr (h : s.Released) (hu : ∀ i, (t.slot i).user = (s.slot i).user)
    (hh : t.handed = s.handed) (hn : t.nextUser = s.nextUser) : t.Released where
  nodup := hh ▸ h.nodup
  known := by
    rw [hh, hn]
    exact h.known
  held := by
    intro i a ha
    rw [hh, hn]
    exact h.held i a (hu i ▸ ha)
  once := fun i j a hi hj => h.once i j a (hu i ▸ hi) (hu j ▸ hj)

theorem Released.unseat (h : s.Released) (i : Slot) : (s.unseat i).Released :=
  h.congr (s.unseat_user i) (s.unseat_handed i) (s.unseat_nextUser i)

theorem Released.remove (h : s.Released) (i : Slot) : (s.remove i).Released := by
  unfold Session.remove
  split_ifs
  · exact h
  have hslot : ∀ j a, (((s.hand (s.slot i)).setSlot i .none).slot j).user = some a →
      j ≠ i ∧ (s.slot j).user = some a := by
    intro j a hj
    by_cases he : j = i
    · rw [he, setSlot_slot, Function.update_self] at hj
      cases hj
    · rw [setSlot_slot, Function.update_of_ne he] at hj
      exact ⟨he, hj⟩
  cases hu : (s.slot i).user with
  | none =>
    refine ⟨?_, ?_, ?_, ?_⟩
    · simpa [hu] using h.nodup
    · simpa [hu] using h.known
    · intro j a hj
      simpa [hu] using h.held j a (hslot j a hj).2
    · intro j k a hj hk
      exact h.once j k a (hslot j a hj).2 (hslot k a hk).2
  | some b =>
    obtain ⟨hb, hbh⟩ := h.held i b hu
    refine ⟨?_, ?_, ?_, ?_⟩
    · simp only [setSlot_handed, hand_handed, hu, Option.toList_some, List.singleton_append]
      exact List.nodup_cons.mpr ⟨hbh, h.nodup⟩
    · intro a ha
      simp only [setSlot_handed, hand_handed, hu, Option.toList_some, List.singleton_append,
        List.mem_cons] at ha
      rcases ha with rfl | ha
      · exact hb
      · exact h.known a ha
    · intro j a hj
      obtain ⟨hne, hj⟩ := hslot j a hj
      obtain ⟨ha, hah⟩ := h.held j a hj
      refine ⟨ha, ?_⟩
      simp only [setSlot_handed, hand_handed, hu, Option.toList_some, List.singleton_append,
        List.mem_cons, not_or]
      refine ⟨?_, hah⟩
      rintro rfl
      exact hne (h.once j i a hj hu)
    · intro j k a hj hk
      exact h.once j k a (hslot j a hj).2 (hslot k a hk).2

theorem Released.drop (h : s.Released) (i : Slot) : (s.drop i).Released := (h.unseat i).remove i

theorem Released.kick (h : s.Released) (k : Slot) (hk : (s.slot k).user = none) : (s.kick k).Released := by
  unfold Session.kick
  split_ifs
  · apply h.congr <;> simp
  · apply h.congr <;> simp [hk]

theorem Released.assign (h : s.Released) (i : Slot) (uid : ℤ) : (s.assign i uid).Released := by
  have hslot : ∀ j a, ((s.assign i uid).slot j).user = some a →
      (j = i ∧ a = s.nextUser) ∨ (j ≠ i ∧ (s.slot j).user = some a) := by
    intro j a hj
    by_cases he : j = i
    · rw [he] at hj
      simp only [Session.assign, setSlot_slot, Function.update_self, Option.some.injEq] at hj
      exact .inl ⟨he, hj.symm⟩
    · simp only [Session.assign, setSlot_slot, Function.update_of_ne he] at hj
      exact .inr ⟨he, hj⟩
  have hnew : s.nextUser ∉ s.handed := fun hm => absurd (h.known _ hm) (lt_irrefl _)
  refine ⟨h.nodup, fun a ha => Nat.lt_succ_of_lt (h.known a ha), ?_, ?_⟩
  · intro j a hj
    rcases hslot j a hj with ⟨_, rfl⟩ | ⟨_, hj⟩
    · exact ⟨Nat.lt_succ_self _, hnew⟩
    · obtain ⟨ha, hah⟩ := h.held j a hj
      exact ⟨Nat.lt_succ_of_lt ha, hah⟩
  · intro j k a hj hk
    rcases hslot j a hj with ⟨hji, ha⟩ | ⟨_, hj'⟩ <;> rcases hslot k a hk with ⟨hki, hb⟩ | ⟨_, hk'⟩
    · exact hji.trans hki.symm
    · rw [ha] at hk'
      exact absurd (h.held k _ hk').1 (lt_irrefl _)
    · rw [hb] at hj'
      exact absurd (h.held j _ hj').1 (lt_irrefl _)
    · exact h.once j k a hj' hk'

def sparesUsers (s : Session) : Event → Bool
  | .kick k => (s.slot k).user.isNone
  | .exit => false
  | _ => true

theorem Released.step (h : s.Released) (e : Event) (hc : s.sparesUsers e = true) : (s.step e).Released := by
  cases e with
  | idle => exact h
  | connect i socket => exact h.congr (s.setSlot_user _ i rfl) rfl rfl
  | key i key kick => exact h.congr (s.setSlot_user _ i rfl) rfl rfl
  | seat i room seat => exact h.congr (setSlot_user _ _ i rfl) rfl rfl
  | leave i => exact h.unseat i
  | drop i => exact h.drop i
  | kick k => exact h.kick k (Option.isNone_iff_eq_none.mp hc)
  | login i key uid out =>
    cases out with
    | none => exact h.assign i uid
    | some k => exact (h.drop k).assign i uid
  | saved a => exact h.congr (fun _ => rfl) rfl rfl
  | exit => cases hc

end Session

theorem released_start (maxRoom : ℕ) (outside : ℕ → Room) (fish : List SettingFish) (users : ℕ → User) :
    (Server.start maxRoom outside fish users).session.Released where
  nodup := List.nodup_nil
  known := fun _ ha => nomatch ha
  held := fun _ _ ha => nomatch ha
  once := fun _ _ _ ha => nomatch ha

theorem users_released_once (signKey : CStr → ℤ) (maxRoom : ℕ) (outside : ℕ → Room)
    (fish : List SettingFish) (users : ℕ → User) (s : Server)
    (h : Reach (serverStep signKey) (fun s op => s.session.sparesUsers (s.event signKey op) = true)
      (Server.start maxRoom outside fish users) s) :
    s.trace.handed.Nodup ∧ ∀ i a, (s.slot i).user = some a → a ∉ s.trace.handed := by
  have hr : s.session.Released := by
    apply session_invariant (fun u e => u.sparesUsers e = true) _ _ _ h
    · exact fun s op hk => hk
    · exact released_start maxRoom outside fish users
    · intro u e hu _ hc
      exact hu.step e hc
  exact ⟨hr.nodup, fun i a ha => (hr.held i a ha).2⟩

def takeOver : List Op :=
  enter 0 5 ['a'] ++ [.connect 6 0 0, .handshake 1, verifyMessage 1 ['a'] ['1'], .verify 1 ['a'] sampleUser,
    .close 1]

theorem takeOver_released : ∃ s : Server, s.trace.handed = [1, 0] ∧
    s.trace.handed.Nodup ∧ ∀ i a, (s.slot i).user = some a → a ∉ s.trace.handed := by
  have hrun : ((runIf (serverStep sampleKey) (fun s op => s.session.sparesUsers (s.event sampleKey op))
      sampleServer takeOver).map (fun s => s.trace.handed)) = some [1, 0] := by decide +kernel
  obtain ⟨s, hs, hh⟩ := Option.map_eq_some_iff.mp hrun
  exact ⟨s, hh, users_released_once sampleKey 1 _ _ _ s (Reach.of_runIf hs)⟩

-- the kicked slot keeps its user, and hands it over again when it is closed
theorem kicked_user_released_twice : ∃ s : Server,
    runIf (serverStep sampleKey) (fun _ _ => true) sampleServer
      (enter 0 5 ['a'] ++ enter 1 6 ['b'] ++ [kickSocket 0 ['6'], .close 1]) = some s ∧
    ¬ (s.trace.handed.Nodup ∧ ∀ i a, (s.slot i).user = some a → a ∉ s.trace.handed) := by
  have hrun : ((runIf (serverStep sampleKey) (fun _ _ => true) sampleServer
      (enter 0 5 ['a'] ++ enter 1 6 ['b'] ++ [kickSocket 0 ['6'], .close 1])).map
        (fun s => s.trace.handed)) = some [1, 1] := by decide +kernel
  obtain ⟨s, hs, hh⟩ := Option.map_eq_some_iff.mp hrun
  refine ⟨s, hs, ?_⟩
  rw [hh]
  rintro ⟨hn, _⟩
  exact absurd hn (by decide)

end FishServer
