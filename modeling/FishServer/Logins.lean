import FishServer.PendingSave
import FishServer.Winnings

namespace FishServer

open Transition

/-! Verifications in two steps: the checks and scans over the table, and the load with what it assigns.
Between them stands an entry of `loading`, and every other thread may run. -/

structure Logins where
  server : Server
  loading : List (Slot × ℤ)

inductive LoginOp
  | other (op : Op)
  | scan (i : Slot) (key : CStr)
  | load (i : Slot) (uid : ℤ) (loaded : User)

def Op.isVerify : Op → Bool
  | .verify .. => true
  | _ => false

def Logins.scanned (l : Logins) (i : Slot) : Scan → Logins
  | .denied t => ⟨{ t with verifying := l.server.verifying.erase i }, l.loading⟩
  | .granted t uid => ⟨{ t with verifying := l.server.verifying.erase i }, (i, uid) :: l.loading⟩

def Thread.verifyLoad (s : Server) (i : Slot) (uid : ℤ) (loaded : User) : Server :=
  let t := Thread.verifyAssign s i uid loaded
  t.send (t.slot i) (.verified uid loaded.coin loaded.name)

def loginStep (signKey : CStr → ℤ) (l : Logins) (op : LoginOp) : Option Logins :=
  if l.server.exited then none
  else
    match op with
    | .other op =>
      if op.isVerify then none else (serverStep signKey l.server op).map (fun s => { l with server := s })
    | .scan i key =>
      if i ∈ l.server.verifying ∧ (l.server.slot i).tmp.isSome then
        some (l.scanned i (Thread.verifyScan signKey l.server i key))
      else none
    | .load i uid loaded =>
      if (i, uid) ∈ l.loading then
        some ⟨Thread.verifyLoad l.server i uid loaded, l.loading.erase (i, uid)⟩
      else none

/-- A scan lets an account through only while no other slot is between its two steps for it. -/
def Logins.alone (signKey : CStr → ℤ) (l : Logins) : LoginOp → Bool
  | .scan i key =>
    !(Thread.verifyScan signKey l.server i key).loads ||
      l.loading.all (fun e => decide (e.2 = signKey key → e.1 = i))
  | _ => true

namespace Session

variable {s t : Session} {loading : List (Slot × ℤ)}

structure Single (s : Session) (loading : List (Slot × ℤ)) : Prop where
  one : ∀ j k, (s.slot j).uid ≠ 0 → (s.slot j).uid = (s.slot k).uid → j = k
  own : ∀ i u, (i, u) ∈ loading → u ≠ 0 ∧ ∀ k, (s.slot k).uid = u → k = i
  alone : ∀ i j u, (i, u) ∈ loading → (j, u) ∈ loading → i = j
  kick : ∀ i, (s.slot i).socket = 0 → (s.slot i).kick = 0

structure Fades (s t : Session) : Prop where
  uid : ∀ i, (t.slot i).uid = (s.slot i).uid ∨ (t.slot i).uid = 0
  kick : ∀ i, (t.slot i).socket = 0 → (t.slot i).kick ≠ 0 → (s.slot i).socket = 0 ∧ (s.slot i).kick ≠ 0

theorem Fades.of_slot (h : t.slot = s.slot) : s.Fades t := by
  constructor
  · intro i
    rw [h]
    exact .inl rfl
  · intro i
    rw [h]
    exact fun hs hk => ⟨hs, hk⟩

theorem Fades.trans {u : Session} (h : s.Fades t) (h' : t.Fades u) : s.Fades u := by
  constructor
  · intro i
    rcases h'.uid i with hu | hu
    · rw [hu]
      exact h.uid i
    · exact .inr hu
  · intro i hs hk
    obtain ⟨hs', hk'⟩ := h'.kick i hs hk
    exact h.kick i hs' hk'

theorem setSlot_fades (s : Session) (i : Slot) (g : Guest) (hu : g.uid = (s.slot i).uid ∨ g.uid = 0)
    (hg : g.socket = 0 → g.kick ≠ 0 → (s.slot i).socket = 0 ∧ (s.slot i).kick ≠ 0) :
    s.Fades (s.setSlot i g) := by
  constructor
  · intro j
    by_cases hj : j = i
    · subst hj
      rw [setSlot_slot, Function.update_self]
      exact hu
    · rw [setSlot_slot, Function.update_of_ne hj]
      exact .inl rfl
  · intro j
    by_cases hj : j = i
    · subst hj
      rw [setSlot_slot, Function.update_self]
      exact hg
    · rw [setSlot_slot, Function.update_of_ne hj]
      exact fun hs hk => ⟨hs, hk⟩

theorem unseat_fades (s : Session) (i : Slot) : s.Fades (s.unseat i) := by
  unfold Session.unseat
  split_ifs
  · exact .of_slot rfl
  · apply Fades.trans (.of_slot (s.vacate_slot (s.slot i)))
    apply setSlot_fades
    · rw [vacate_slot]
      exact .inl rfl
    · rw [vacate_slot]
      exact fun hs hk => ⟨hs, hk⟩

theorem drop_fades (s : Session) (i : Slot) : s.Fades (s.drop i) := by
  unfold Session.drop Session.remove
  split_ifs
  · exact s.unseat_fades i
  · apply (s.unseat_fades i).trans
    have hh : (s.unseat i).Fades ((s.unseat i).hand ((s.unseat i).slot i)) := .of_slot rfl
    exact hh.trans (setSlot_fades _ i .none (.inr rfl) (fun _ hk => absurd rfl hk))

theorem step_fades {signKey : CStr → ℤ} (s : Session) (e : Event) (he : s.Enabled signKey e)
    (hl : ∀ i key uid out, e ≠ .login i key uid out) : s.Fades (s.step e) := by
  cases e with
  | idle => exact .of_slot rfl
  | connect i socket =>
    exact (s.setSlot_fades i { s.slot i with socket } (.inl rfl) (fun hs => absurd hs he.2)).trans (.of_slot rfl)
  | key i key kick =>
    exact (s.setSlot_fades i { s.slot i with kick, tmp := some key } (.inl rfl)
      (fun hs => absurd hs he)).trans (.of_slot rfl)
  | seat i room seat =>
    have hs : s.Fades (s.setSeat (room - 1) (seat - 1) (some i)) := .of_slot rfl
    exact hs.trans (setSlot_fades _ i { s.slot i with room, seat } (.inl rfl) (fun hs hk => ⟨hs, hk⟩))
  | leave i => exact s.unseat_fades i
  | drop i => exact s.drop_fades i
  | kick k => exact .of_slot (s.kick_frame k).slot
  | login i key uid out => exact absurd rfl (hl i key uid out)
  | saved a => exact .of_slot rfl
  | exit => exact .of_slot s.exit_frame.slot

theorem Single.fades (h : s.Single loading) (ht : s.Fades t) : t.Single loading where
  one := by
    intro j k hj he
    rcases ht.uid j with hu | hu
    · rcases ht.uid k with hv | hv
      · rw [hu] at hj
        rw [hu, hv] at he
        exact h.one j k hj he
      · exact absurd (he.trans hv) hj
    · exact absurd hu hj
  own := by
    intro i u hm
    obtain ⟨hu, hk⟩ := h.own i u hm
    refine ⟨hu, ?_⟩
    intro k he
    rcases ht.uid k with hv | hv
    · exact hk k (hv.symm.trans he)
    · exact absurd (he.symm.trans hv) hu
  alone := h.alone
  kick := by
    intro i hs
    by_contra hk
    obtain ⟨hs', hk'⟩ := ht.kick i hs hk
    exact hk' (h.kick i hs')

theorem Single.granted (h : s.Single loading) (i : Slot) (u : ℤ) (hu : u ≠ 0)
    (hfree : ∀ k, (s.slot k).uid ≠ u) (ha : ∀ j, (j, u) ∈ loading → j = i) : s.Single ((i, u) :: loading) where
  one := h.one
  own := by
    intro j v hm
    rcases List.mem_cons.mp hm with he | hm
    · obtain ⟨rfl, rfl⟩ := Prod.mk.inj he
      exact ⟨hu, fun k hk => absurd hk (hfree k)⟩
    · exact h.own j v hm
  alone := by
    intro j k v hj hk
    rcases List.mem_cons.mp hj with hje | hj'
    · obtain ⟨rfl, rfl⟩ := Prod.mk.inj hje
      rcases List.mem_cons.mp hk with hke | hk'
      · exact (Prod.mk.inj hke).1.symm
      · exact (ha k hk').symm
    · rcases List.mem_cons.mp hk with hke | hk'
      · obtain ⟨rfl, rfl⟩ := Prod.mk.inj hke
        exact ha j hj'
      · exact h.alone j k v hj' hk'
  kick := h.kick

theorem assign_slot_self (s : Session) (i : Slot) (uid : ℤ) :
    (s.assign i uid).slot i = { s.slot i with uid, user := some s.nextUser } := by
  simp only [Session.assign, setSlot_slot, Function.update_self]

theorem assign_slot_of_ne (s : Session) {i j : Slot} (h : j ≠ i) (uid : ℤ) :
    (s.assign i uid).slot j = s.slot j := by
  simp only [Session.assign, setSlot_slot, Function.update_of_ne h]

theorem Single.assign (h : s.Single loading) (i : Slot) (u : ℤ) (hm : (i, u) ∈ loading) :
    (s.assign i u).Single (loading.erase (i, u)) := by
  obtain ⟨hu, hown⟩ := h.own i u hm
  constructor
  · intro j k hj he
    by_cases hji : j = i
    · subst hji
      by_cases hki : k = j
      · exact hki.symm
      · rw [assign_slot_self, assign_slot_of_ne s hki] at he
        exact absurd (hown k he.symm) hki
    · rw [assign_slot_of_ne s hji] at hj he
      by_cases hki : k = i
      · subst hki
        rw [assign_slot_self] at he
        exact hown j he
      · rw [assign_slot_of_ne s hki] at he
        exact h.one j k hj he
  · intro j v hj
    have hj' := List.mem_of_mem_erase hj
    obtain ⟨hv, hk⟩ := h.own j v hj'
    refine ⟨hv, ?_⟩
    intro k he
    by_cases hki : k = i
    · subst hki
      rw [assign_slot_self] at he
      cases he
      exact h.alone k j u hm hj'
    · rw [assign_slot_of_ne s hki] at he
      exact hk k he
  · intro j k v hj hk
    exact h.alone j k v (List.mem_of_mem_erase hj) (List.mem_of_mem_erase hk)
  · intro j hs
    by_cases hji : j = i
    · subst hji
      rw [assign_slot_self] at hs ⊢
      exact h.kick j hs
    · rw [assign_slot_of_ne s hji] at hs ⊢
      exact h.kick j hs

theorem Single.drop_self (h : s.Single loading) (ht : s.Tidy) {k : Slot} {u : ℤ} (hu : (s.slot k).uid = u)
    (hk : (s.slot k).kick ≠ 0) (hn : u ≠ 0) (j : Slot) : ((s.drop k).slot j).uid ≠ u := by
  have hs : (s.slot k).socket ≠ 0 := fun hs => hk (h.kick k hs)
  by_cases hj : j = k
  · rw [hj, ht.drop_self k hs]
    exact hn.symm
  · intro hj'
    rcases (s.drop_fades k).uid j with he | he
    · exact hj (h.one j k (by rw [← he, hj']; exact hn) (by rw [← he, hj', hu]))
    · exact hn (hj'.symm.trans he)

end Session

section

variable {signKey : CStr → ℤ} {l m : Logins}

def Logins.Sound (l : Logins) : Prop := l.server.session.Single l.loading ∧ l.server.session.Tidy

theorem entryEvent_login (s : Server) (i j : Slot) (json : JsonValue) (key : CStr) (uid : ℤ)
    (out : Option Slot) : Entry.event s j json ≠ .login i key uid out := by
  rcases entryEvent_cases s j json with he | ⟨_, _, he⟩ | ⟨_, he⟩ | he | ⟨_, _, he⟩ | he
  all_goals
    rw [he]
    exact Event.noConfusion

theorem event_login {s : Server} {op : Op} (hop : op.isVerify = false) (i : Slot) (key : CStr) (uid : ℤ)
    (out : Option Slot) : s.event signKey op ≠ .login i key uid out := by
  cases op with
  | connect socket ip now =>
    unfold Server.event
    simp only
    split_ifs
    · simp
    · split <;> simp
  | message j json now time rand => apply entryEvent_login
  | verify j key loaded => cases hop
  | handshake | close | saved | fish | bulletVisit | fishVisit => simp [Server.event]

theorem Logins.Sound.other (h : l.Sound) {op : Op} (hop : op.isVerify = false) {s : Server}
    (hs : serverStep signKey l.server op = some s) : Logins.Sound { l with server := s } := by
  obtain ⟨he, ht⟩ := serverStep_session hs
  constructor
  · change s.session.Single l.loading
    rw [ht]
    exact h.1.fades (Session.step_fades _ _ he (event_login hop))
  · change s.session.Tidy
    rw [ht]
    exact h.2.step _ he

theorem Logins.Sound.scan (h : l.Sound) (i : Slot) (key : CStr) (hc : l.alone signKey (.scan i key) = true) :
    (l.scanned i (Thread.verifyScan signKey l.server i key)).Sound := by
  rcases verifyScan_cases signKey l.server i key with ⟨p, r, hscan⟩ | ⟨_, hpos, _, hfound⟩
  · rw [hscan]
    exact h
  · have ha : (Thread.verifyScan signKey l.server i key).loads = true →
        ∀ j, (j, signKey key) ∈ l.loading → j = i := by
      intro hl j hj
      simp only [Logins.alone, hl, Bool.not_true, Bool.false_or, List.all_eq_true, decide_eq_true_eq] at hc
      exact hc _ hj rfl
    rcases hfound with ⟨hnone, hscan⟩ | ⟨k, hsome, hkick, p, r, hscan⟩
    · rw [hscan] at ha ⊢
      refine ⟨?_, h.2⟩
      apply h.1.granted i (signKey key) hpos.ne'
      · intro k
        exact of_decide_eq_false (findSlot_none hnone k)
      · exact ha rfl
    · rw [hscan] at ha ⊢
      have hu : (l.server.session.slot k).uid = signKey key := of_decide_eq_true (findSlot_some hsome)
      have hs : ((l.server.send p r).drop k).session = l.server.session.drop k := session_drop _ k
      constructor
      · change ((l.server.send p r).drop k).session.Single _
        rw [hs]
        apply (h.1.fades (Session.drop_fades _ k)).granted i (signKey key) hpos.ne'
        · exact h.1.drop_self h.2 hu hkick hpos.ne'
        · exact ha rfl
      · change ((l.server.send p r).drop k).session.Tidy
        rw [hs]
        exact h.2.drop k

theorem Logins.Sound.load (h : l.Sound) {i : Slot} {uid : ℤ} (loaded : User) (hm : (i, uid) ∈ l.loading) :
    Logins.Sound ⟨Thread.verifyLoad l.server i uid loaded, l.loading.erase (i, uid)⟩ := by
  have hs : (Thread.verifyLoad l.server i uid loaded).session = l.server.session.assign i uid :=
    verifyAssign_session l.server i uid loaded
  constructor
  · change (Thread.verifyLoad l.server i uid loaded).session.Single _
    rw [hs]
    exact h.1.assign i uid hm
  · change (Thread.verifyLoad l.server i uid loaded).session.Tidy
    rw [hs]
    exact h.2.assign i uid

theorem Logins.Sound.step (h : l.Sound) (op : LoginOp) (hc : l.alone signKey op = true)
    (hs : loginStep signKey l op = some m) : m.Sound := by
  unfold loginStep at hs
  split_ifs at hs
  cases op with
  | other op =>
    simp only at hs
    split_ifs at hs with hop
    obtain ⟨s, hstep, rfl⟩ := Option.map_eq_some_iff.mp hs
    exact h.other (by simpa using hop) hstep
  | scan i key =>
    simp only at hs
    split_ifs at hs
    cases hs
    exact h.scan i key hc
  | load i uid loaded =>
    simp only at hs
    split_ifs at hs with hm
    cases hs
    exact h.load loaded hm

theorem granted_exited {i : Slot} {key : CStr} {s t : Server} {uid : ℤ}
    (hg : Thread.verifyScan signKey s i key = .granted t uid) : t.exited = s.exited := by
  rcases verifyScan_cases signKey s i key with ⟨p, r, hscan⟩ | ⟨_, _, _, ⟨_, hscan⟩ | ⟨k, _, _, p, r, hscan⟩⟩
  · rw [hscan] at hg
    cases hg
  · rw [hscan] at hg
    cases hg
    rfl
  · rw [hscan] at hg
    cases hg
    have hs := congrArg Session.exited (session_drop (s.send p r) k)
    exact hs.trans (Session.drop_exited _ k)

theorem scan_load_verify {i : Slot} {key : CStr} {s : Server} {uid : ℤ} (loaded : User)
    (hg : Thread.verifyScan signKey l.server i key = .granted s uid)
    (hv : i ∈ l.server.verifying ∧ (l.server.slot i).tmp.isSome) (hx : l.server.exited = false) :
    (loginStep signKey l (.scan i key)).bind (fun m => loginStep signKey m (.load i uid loaded)) =
      (serverStep signKey l.server (.verify i key loaded)).map (fun t => { l with server := t }) := by
  have hs : loginStep signKey l (.scan i key) = some (l.scanned i (.granted s uid)) := by
    unfold loginStep
    rw [hx, if_neg (by decide)]
    simp only [hg]
    exact if_pos hv
  have hl : loginStep signKey (l.scanned i (.granted s uid)) (.load i uid loaded) =
      some ⟨Thread.verifyLoad { s with verifying := l.server.verifying.erase i } i uid loaded, l.loading⟩ := by
    unfold loginStep
    rw [if_neg]
    · have hm : (i, uid) ∈ (l.scanned i (.granted s uid)).loading := List.mem_cons_self
      have he : (l.scanned i (.granted s uid)).loading.erase (i, uid) = l.loading :=
        List.erase_cons_head (i, uid) l.loading
      simp only
      rw [if_pos hm, he]
      rfl
    · have hxs := granted_exited hg
      rw [hx] at hxs
      simpa [Logins.scanned] using hxs
  have hstep : serverStep signKey l.server (.verify i key loaded) =
      some { Thread.verifyAccount signKey l.server i key loaded with
        verifying := l.server.verifying.erase i } := by
    unfold serverStep
    rw [hx, if_neg (by decide)]
    exact if_pos hv
  rw [hs, hstep, Option.bind_some, hl, Option.map_some]
  unfold Thread.verifyAccount
  rw [hg]
  rfl

theorem granted_uid {i : Slot} {key : CStr} {s t : Server} {uid : ℤ}
    (hg : Thread.verifyScan signKey s i key = .granted t uid) : uid = signKey key ∧ 0 < uid := by
  rcases verifyScan_cases signKey s i key with
    ⟨p, r, hscan⟩ | ⟨_, hpos, _, ⟨_, hscan⟩ | ⟨k, _, _, p, r, hscan⟩⟩
  · rw [hscan] at hg
    cases hg
  · rw [hscan] at hg
    cases hg
    exact ⟨rfl, hpos⟩
  · rw [hscan] at hg
    cases hg
    exact ⟨rfl, hpos⟩

theorem two_loads (signKey : CStr → ℤ) (hx : l.server.exited = false) {i j : Slot} {u : ℤ} (hij : j ≠ i)
    (hi : (i, u) ∈ l.loading) (hj : (j, u) ∈ l.loading) (loaded : User) :
    ∃ m, Reach (loginStep signKey) (fun _ _ => True) l m ∧
      (m.server.slot i).uid = u ∧ (m.server.slot j).uid = u := by
  have hstep {n : Logins} {k : Slot} (hn : n.server.exited = false) (hk : (k, u) ∈ n.loading) :
      loginStep signKey n (.load k u loaded) =
        some ⟨Thread.verifyLoad n.server k u loaded, n.loading.erase (k, u)⟩ := by
    unfold loginStep
    rw [hn, if_neg (by decide)]
    exact if_pos hk
  have hj' : (j, u) ∈ l.loading.erase (i, u) := by
    rw [List.mem_erase_of_ne]
    · exact hj
    · simpa using hij
  refine ⟨_, .step (.step .start trivial (hstep hx hi)) trivial (hstep hx hj'), ?_, ?_⟩
  · change (Function.update (Function.update l.server.slot i _) j _ i).uid = u
    rw [Function.update_of_ne hij.symm, Function.update_self]
  · change (Function.update (_ : Slot → Player) j _ j).uid = u
    rw [Function.update_self]

theorem scan_not_alone {i : Slot} {key : CStr} (h : l.alone signKey (.scan i key) = false) :
    (Thread.verifyScan signKey l.server i key).loads = true ∧ ∃ j, (j, signKey key) ∈ l.loading ∧ j ≠ i := by
  simp only [Logins.alone, Bool.or_eq_false_iff, Bool.not_eq_false', List.all_eq_false, decide_eq_true_eq,
    Classical.not_imp] at h
  obtain ⟨hl, ⟨j, u⟩, hj, rfl, hji⟩ := h
  exact ⟨hl, j, hj, hji⟩

theorem scan_overlaps {i j : Slot} {key : CStr} (hs : loginStep signKey l (.scan i key) = some m)
    (hl : (Thread.verifyScan signKey l.server i key).loads = true) (hj : (j, signKey key) ∈ l.loading)
    (hji : j ≠ i) :
    ∃ n, Reach (loginStep signKey) (fun _ _ => True) m n ∧ (n.server.slot j).uid ≠ 0 ∧
      (n.server.slot j).uid = (n.server.slot i).uid := by
  unfold loginStep at hs
  split_ifs at hs with hx
  simp only at hs
  split_ifs at hs
  cases hs
  cases hg : Thread.verifyScan signKey l.server i key with
  | denied t =>
    rw [hg] at hl
    cases hl
  | granted t uid =>
    obtain ⟨rfl, hpos⟩ := granted_uid hg
    have hxt : t.exited = false := by
      rw [granted_exited hg]
      simpa using hx
    have hi : (i, signKey key) ∈ (l.scanned i (.granted t (signKey key))).loading := List.mem_cons_self
    obtain ⟨n, hr, hi', hj'⟩ := two_loads signKey hxt hji hi (List.mem_cons_of_mem _ hj) (t.users 0)
    refine ⟨n, hr, ?_, ?_⟩
    · rw [hj']
      exact hpos.ne'
    · rw [hj', hi']

end

def Logins.start (s : Server) : Logins := ⟨s, []⟩

theorem logins_start (maxRoom : ℕ) (outside : ℕ → Room) (fish : List SettingFish) (users : ℕ → User) :
    (Logins.start (Server.start maxRoom outside fish users)).Sound := by
  constructor
  · constructor
    · exact fun _ _ h => absurd rfl h
    · exact fun _ _ h => nomatch h
    · exact fun _ _ _ h => nomatch h
    · exact fun _ _ => rfl
  · exact tidy_start maxRoom outside fish users

theorem one_live_session (signKey : CStr → ℤ) (maxRoom : ℕ) (outside : ℕ → Room) (fish : List SettingFish)
    (users : ℕ → User) :
    (∀ l, Reach (loginStep signKey) (fun l op => l.alone signKey op = true)
        (Logins.start (Server.start maxRoom outside fish users)) l →
      ∀ j k, (l.server.slot j).uid ≠ 0 → (l.server.slot j).uid = (l.server.slot k).uid → j = k) ∧
    ∀ l op l', l.alone signKey op = false → loginStep signKey l op = some l' →
      ∃ m, Reach (loginStep signKey) (fun _ _ => True) l' m ∧
        ∃ j k, j ≠ k ∧ (m.server.slot j).uid ≠ 0 ∧ (m.server.slot j).uid = (m.server.slot k).uid := by
  constructor
  · intro l h
    have hl : l.Sound := h.invariant (logins_start maxRoom outside fish users)
      (fun l op m hs hc hm => hs.step op hc hm)
    exact hl.1.one
  · intro l op l' hc hs
    cases op with
    | other | load => cases hc
    | scan i key =>
      obtain ⟨hl, j, hj, hji⟩ := scan_not_alone hc
      exact (scan_overlaps hs hl hj hji).imp fun m hm => ⟨hm.1, j, i, hji, hm.2⟩

def enterLogin (i : Slot) (socket : ℕ) (key : CStr) : List LoginOp :=
  [.other (.connect socket 0 0), .other (.handshake i), .other (verifyMessage i key ['1'])]

theorem one_session_after_takeOver : ∃ l : Logins, ((l.server.slot 0).uid, (l.server.slot 1).uid) = (0, 7) ∧
    ∀ j k, (l.server.slot j).uid ≠ 0 → (l.server.slot j).uid = (l.server.slot k).uid → j = k := by
  have hrun : ((runIf (loginStep sampleKey) (fun l op => l.alone sampleKey op) (Logins.start sampleServer)
      (enterLogin 0 5 ['a'] ++ [.scan 0 ['a'], .load 0 7 sampleUser] ++ enterLogin 1 6 ['a'] ++
        [.scan 1 ['a'], .load 1 7 sampleUser])).map
          (fun l => ((l.server.slot 0).uid, (l.server.slot 1).uid))) = some (0, 7) := by decide +kernel
  obtain ⟨l, hl, hh⟩ := Option.map_eq_some_iff.mp hrun
  exact ⟨l, hh, (one_live_session sampleKey 1 _ _ _).1 l (Reach.of_runIf hl)⟩

-- both scans run before either load
theorem overlapping_scans : ∃ l : Logins, runIf (loginStep sampleKey) (fun _ _ => true)
      (Logins.start sampleServer) (enterLogin 0 5 ['a'] ++ enterLogin 1 6 ['a'] ++
        [.scan 0 ['a'], .scan 1 ['a'], .load 0 7 sampleUser, .load 1 7 sampleUser]) = some l ∧
    ¬ ∀ j k, (l.server.slot j).uid ≠ 0 → (l.server.slot j).uid = (l.server.slot k).uid → j = k := by
  have hrun : ((runIf (loginStep sampleKey) (fun _ _ => true) (Logins.start sampleServer)
      (enterLogin 0 5 ['a'] ++ enterLogin 1 6 ['a'] ++
        [.scan 0 ['a'], .scan 1 ['a'], .load 0 7 sampleUser, .load 1 7 sampleUser])).map
          (fun l => ((l.server.slot 0).uid, (l.server.slot 1).uid))) = some (7, 7) := by decide +kernel
  obtain ⟨l, hl, hh⟩ := Option.map_eq_some_iff.mp hrun
  simp only [Prod.mk.injEq] at hh
  refine ⟨l, hl, ?_⟩
  intro h
  exact absurd (h 0 1 (by rw [hh.1]; decide) (hh.1.trans hh.2.symm)) (by decide)

end FishServer
