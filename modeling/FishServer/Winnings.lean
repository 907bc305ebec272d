import FishServer.SessionRun

namespace FishServer

open Transition

/-! A user leaves its slot only into the hands of `userLeave`. -/

namespace Session

variable {s t u : Session}

-- no slot is in the middle of being closed, and a free one has no key to check
structure Tidy (s : Session) : Prop where
  closeing : ∀ i, (s.slot i).closeing = false
  tmp : ∀ i, (s.slot i).socket = 0 → (s.slot i).tmp = none

theorem Tidy.congr (h : s.Tidy) (hs : t.slot = s.slot) : t.Tidy := by
  constructor
  · rw [hs]
    exact h.closeing
  · rw [hs]
    exact h.tmp

theorem Tidy.setSlot (h : s.Tidy) (i : Slot) (g : Guest) (hc : g.closeing = false)
    (hg : g.socket = 0 → g.tmp = none) : (s.setSlot i g).Tidy := by
  constructor
  · intro j
    by_cases hj : j = i
    · rw [hj, setSlot_slot, Function.update_self]
      exact hc
    · rw [setSlot_slot, Function.update_of_ne hj]
      exact h.closeing j
  · intro j hs
    by_cases hj : j = i
    · rw [hj, setSlot_slot, Function.update_self] at hs ⊢
      exact hg hs
    · rw [setSlot_slot, Function.update_of_ne hj] at hs ⊢
      exact h.tmp j hs

theorem Tidy.unseat (h : s.Tidy) (i : Slot) : (s.unseat i).Tidy := by
  unfold Session.unseat
  split_ifs
  · exact h
  · exact (h.congr (vacate_slot s _)).setSlot i _ (h.closeing i) (h.tmp i)

theorem Tidy.remove (h : s.Tidy) (i : Slot) : (s.remove i).Tidy := by
  unfold Session.remove
  split_ifs
  · exact h
  · exact (h.congr rfl : (s.hand (s.slot i)).Tidy).setSlot i .none rfl (fun _ => rfl)

theorem Tidy.drop (h : s.Tidy) (i : Slot) : (s.drop i).Tidy := (h.unseat i).remove i

theorem Tidy.assign (h : s.Tidy) (i : Slot) (uid : ℤ) : (s.assign i uid).Tidy := by
  have hs := h.setSlot i { s.slot i with uid, user := some s.nextUser } (h.closeing i) (h.tmp i)
  exact hs.congr rfl

theorem Tidy.step {signKey : CStr → ℤ} (h : s.Tidy) (e : Event) (he : s.Enabled signKey e) :
    (s.step e).Tidy := by
  cases e with
  | idle => exact h
  | connect i socket =>
    exact (h.setSlot i { s.slot i with socket } (h.closeing i) (fun hs => absurd hs he.2)).congr rfl
  | key i key kick =>
    exact (h.setSlot i { s.slot i with kick, tmp := some key } (h.closeing i)
      (fun hs => absurd hs he)).congr rfl
  | seat i room seat =>
    have hr : (s.setSeat (room - 1) (seat - 1) (some i)).Tidy := h.congr rfl
    exact hr.setSlot i { s.slot i with room, seat } (h.closeing i) (h.tmp i)
  | leave i => exact h.unseat i
  | drop i => exact h.drop i
  | kick k => exact h.congr (s.kick_frame k).slot
  | login i key uid out =>
    cases out with
    | none => exact h.assign i uid
    | some k => exact (h.drop k).assign i uid
  | saved a => exact h.congr rfl
  | exit => exact h.congr s.exit_frame.slot

def Keeps (s t : Session) : Prop :=
  ∃ l, t.handed = l ++ s.handed ∧ t.leaving = l ++ s.leaving ∧
    ∀ i a, (s.slot i).user = some a → (t.slot i).user = some a ∨ a ∈ l

theorem Keeps.of_user (hu : ∀ i, (t.slot i).user = (s.slot i).user) (l : List ℕ)
    (hh : t.handed = l ++ s.handed) (hl : t.leaving = l ++ s.leaving) : s.Keeps t :=
  ⟨l, hh, hl, fun i _ ha => .inl ((hu i).trans ha)⟩

theorem Keeps.trans (h : s.Keeps t) (h' : t.Keeps u) : s.Keeps u := by
  obtain ⟨l, hh, hl, hk⟩ := h
  obtain ⟨l', hh', hl', hk'⟩ := h'
  refine ⟨l' ++ l, by rw [hh', hh, List.append_assoc], by rw [hl', hl, List.append_assoc], ?_⟩
  intro i a ha
  rcases hk i a ha with ha | ha
  · rcases hk' i a ha with ha | ha
    · exact .inl ha
    · exact .inr (List.mem_append_left _ ha)
  · exact .inr (List.mem_append_right _ ha)

theorem unseat_keeps (s : Session) (i : Slot) : s.Keeps (s.unseat i) :=
  .of_user (s.unseat_user i) [] (s.unseat_handed i) (s.unseat_leaving i)

theorem remove_keeps (s : Session) (i : Slot) : s.Keeps (s.remove i) := by
  unfold Session.remove
  split_ifs
  · exact .of_user (fun _ => rfl) [] rfl rfl
  · refine ⟨(s.slot i).user.toList, rfl, rfl, ?_⟩
    intro j a ha
    by_cases hj : j = i
    · subst hj
      exact .inr (by rw [ha]; simp)
    · left
      rw [setSlot_slot, Function.update_of_ne hj]
      exact ha

theorem drop_keeps (s : Session) (i : Slot) : s.Keeps (s.drop i) :=
  (s.unseat_keeps i).trans ((s.unseat i).remove_keeps i)

theorem kick_keeps (s : Session) (k : Slot) : s.Keeps (s.kick k) := by
  have hu : ∀ i, ((s.kick k).slot i).user = (s.slot i).user := by
    intro i
    rw [(s.kick_frame k).slot]
  unfold Session.kick at hu ⊢
  split_ifs at hu ⊢
  · exact .of_user hu [] (by simp) (by simp)
  · exact .of_user hu (s.slot k).user.toList (by simp) (by simp)

theorem assign_keeps (s : Session) (i : Slot) (uid : ℤ) (h : (s.slot i).user = none) :
    s.Keeps (s.assign i uid) := by
  refine ⟨[], rfl, rfl, ?_⟩
  intro j a ha
  left
  have hj : j ≠ i := by
    rintro rfl
    rw [h] at ha
    cases ha
  change (Function.update s.slot i _ j).user = some a
  rw [Function.update_of_ne hj]
  exact ha

theorem unseat_open (s : Session) (i j : Slot) :
    ((s.unseat i).slot j).socket = (s.slot j).socket ∧ ((s.unseat i).slot j).closeing = (s.slot j).closeing := by
  unfold Session.unseat
  split_ifs
  · exact ⟨rfl, rfl⟩
  · by_cases hj : j = i
    · rw [hj, setSlot_slot, Function.update_self]
      exact ⟨rfl, rfl⟩
    · rw [setSlot_slot, Function.update_of_ne hj, vacate_slot]
      exact ⟨rfl, rfl⟩

theorem drop_user_of_ne (s : Session) {i j : Slot} (hj : j ≠ i) :
    ((s.drop i).slot j).user = (s.slot j).user := by
  unfold Session.drop Session.remove
  split_ifs
  · exact s.unseat_user i j
  · rw [setSlot_slot, Function.update_of_ne hj]
    exact s.unseat_user i j

theorem Tidy.drop_self (h : s.Tidy) (i : Slot) (hs : (s.slot i).socket ≠ 0) :
    (s.drop i).slot i = .none := by
  obtain ⟨hsock, hclose⟩ := s.unseat_open i i
  unfold Session.drop Session.remove
  rw [if_neg, setSlot_slot, Function.update_self]
  rw [hclose, hsock, h.closeing]
  simp [hs]

def keepsWinnings (s : Session) : Event → Bool
  | .login i _ _ out => (s.slot i).user.isNone || decide (out = some i)
  | .exit => false
  | _ => true

theorem login_keeps (h : s.Tidy) {signKey : CStr → ℤ} (i : Slot) (key : CStr) (uid : ℤ) (out : Option Slot)
    (he : s.Enabled signKey (.login i key uid out))
    (hc : (s.slot i).user = none ∨ out = some i) : s.Keeps (s.step (.login i key uid out)) := by
  have hs : (s.slot i).socket ≠ 0 := by
    intro hz
    have ht := he.1
    rw [h.tmp i hz] at ht
    cases ht
  cases out with
  | none =>
    apply assign_keeps
    rcases hc with hc | hc
    · exact hc
    · cases hc
  | some k =>
    apply (s.drop_keeps k).trans
    apply assign_keeps
    by_cases hk : i = k
    · rw [← hk, h.drop_self i hs]
      rfl
    · rw [s.drop_user_of_ne hk]
      rcases hc with hc | hc
      · exact hc
      · cases hc
        exact absurd rfl hk

theorem Tidy.keeps (h : s.Tidy) {signKey : CStr → ℤ} (e : Event) (he : s.Enabled signKey e)
    (hc : s.keepsWinnings e = true) : ∃ l, (s.step e).handed = l ++ s.handed ∧ l ⊆ (s.step e).leaving ∧
      ∀ i a, (s.slot i).user = some a → ((s.step e).slot i).user = some a ∨ a ∈ l := by
  by_cases hs : ∃ a, e = .saved a
  · obtain ⟨a, rfl⟩ := hs
    exact ⟨[], rfl, List.nil_subset _, fun _ _ ha => .inl ha⟩
  have hk : s.Keeps (s.step e) := by
    cases e with
    | idle => exact .of_user (fun _ => rfl) [] rfl rfl
    | connect i socket => exact .of_user (s.setSlot_user _ i rfl) [] rfl rfl
    | key i key kick => exact .of_user (s.setSlot_user _ i rfl) [] rfl rfl
    | seat i room seat => exact .of_user (setSlot_user _ _ i rfl) [] rfl rfl
    | leave i => exact s.unseat_keeps i
    | drop i => exact s.drop_keeps i
    | kick k => exact s.kick_keeps k
    | login i key uid out =>
      apply login_keeps h i key uid out he
      simpa [keepsWinnings] using hc
    | saved a => exact absurd ⟨a, rfl⟩ hs
    | exit => cases hc
  obtain ⟨l, hh, hl, hk⟩ := hk
  exact ⟨l, hh, hl ▸ List.subset_append_left _ _, hk⟩

theorem keepsWinnings_exited (s : Session) (e : Event) (hc : s.keepsWinnings e = true) :
    (s.step e).exited = s.exited := by
  cases e with
  | leave i => exact s.unseat_exited i
  | drop i => exact s.drop_exited i
  | kick k => exact s.kick_exited k
  | login i key uid out =>
    cases out with
    | none => rfl
    | some k => exact s.drop_exited k
  | exit => cases hc
  | _ => rfl

end Session

theorem tidy_start (maxRoom : ℕ) (outside : ℕ → Room) (fish : List SettingFish) (users : ℕ → User) :
    (Server.start maxRoom outside fish users).session.Tidy where
  closeing := fun _ => rfl
  tmp := fun _ _ => rfl

theorem winnings_kept (signKey : CStr → ℤ) (maxRoom : ℕ) (outside : ℕ → Room) (fish : List SettingFish)
    (users : ℕ → User) (s t : Server) (op : Op)
    (h : Reach (serverStep signKey) (fun s op => s.session.keepsWinnings (s.event signKey op) = true)
      (Server.start maxRoom outside fish users) s)
    (hop : s.session.keepsWinnings (s.event signKey op) = true) (ht : serverStep signKey s op = some t) :
    (∃ l, t.trace.handed = l ++ s.trace.handed ∧ l ⊆ t.leaving ∧
      ∀ i a, (s.slot i).user = some a → (t.slot i).user = some a ∨ a ∈ l) ∧
        (t.exited = true → t.leaving = []) := by
  have hs : s.session.Tidy ∧ s.session.exited = false := by
    apply session_invariant (P := fun u => u.Tidy ∧ u.exited = false)
      (fun u e => u.keepsWinnings e = true) _ _ _ h
    · exact fun s op hk => hk
    · exact ⟨tidy_start maxRoom outside fish users, rfl⟩
    · rintro u e ⟨hu, hx⟩ he hc
      exact ⟨hu.step e he, (u.keepsWinnings_exited e hc).trans hx⟩
  obtain ⟨he, hst⟩ := serverStep_session ht
  obtain ⟨l, hl⟩ := hs.1.keeps _ he hop
  have hx := (s.session.keepsWinnings_exited _ hop).trans hs.2
  rw [← hst] at hl hx
  refine ⟨⟨l, hl⟩, ?_⟩
  intro ht
  rw [show t.session.exited = t.exited from rfl, ht] at hx
  cases hx

theorem winnings_kept_at_close : ∃ s t : Server, ((s.slot 0).user, (t.slot 0).user) = (some 0, none) ∧
    (∃ l, t.trace.handed = l ++ s.trace.handed ∧ l ⊆ t.leaving ∧
      ∀ i a, (s.slot i).user = some a → (t.slot i).user = some a ∨ a ∈ l) ∧
        (t.exited = true → t.leaving = []) := by
  have hrun : ((runIf (serverStep sampleKey) (fun s op => s.session.keepsWinnings (s.event sampleKey op))
      sampleServer (enter 0 5 ['a'])).bind (fun s => (serverStep sampleKey s (.close 0)).map
        (fun t => ((s.slot 0).user, (t.slot 0).user)))) = some (some 0, none) := by
    decide +kernel
  obtain ⟨s, hs, ht⟩ := Option.bind_eq_some_iff.mp hrun
  obtain ⟨t, ht, hh⟩ := Option.map_eq_some_iff.mp ht
  exact ⟨s, t, hh, winnings_kept sampleKey 1 _ _ _ s t (.close 0) (Reach.of_runIf hs) rfl ht⟩

-- a second login of one connection overwrites its user
theorem second_login_drops_user : ∃ s t : Server,
    runIf (serverStep sampleKey) (fun _ _ => true) sampleServer
      (enter 0 5 ['a'] ++ [verifyMessage 0 ['b'] ['1']]) = some s ∧
    serverStep sampleKey s (.verify 0 ['b'] sampleUser) = some t ∧
    ¬ ((∃ l, t.trace.handed = l ++ s.trace.handed ∧ l ⊆ t.leaving ∧
      ∀ i a, (s.slot i).user = some a → (t.slot i).user = some a ∨ a ∈ l) ∧
        (t.exited = true → t.leaving = [])) := by
  have hrun : ((runIf (serverStep sampleKey) (fun _ _ => true) sampleServer
      (enter 0 5 ['a'] ++ [verifyMessage 0 ['b'] ['1']])).bind (fun s =>
        (serverStep sampleKey s (.verify 0 ['b'] sampleUser)).map
          (fun t => ((s.slot 0).user, (t.slot 0).user, t.trace.handed)))) = some (some 0, some 1, []) := by
    decide +kernel
  obtain ⟨s, hs, ht⟩ := Option.bind_eq_some_iff.mp hrun
  obtain ⟨t, ht, hh⟩ := Option.map_eq_some_iff.mp ht
  simp only [Prod.mk.injEq] at hh
  refine ⟨s, t, hs, ht, ?_⟩
  rintro ⟨⟨l, hl, _, hk⟩, _⟩
  rw [hh.2.2] at hl
  have hnil : l = [] := (List.append_eq_nil_iff.mp hl.symm).1
  rcases hk 0 0 hh.1 with hu | hu
  · rw [hh.2.1] at hu
    cases hu
  · rw [hnil] at hu
    cases hu

end FishServer
