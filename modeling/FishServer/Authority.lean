import FishServer.Account
import FishServer.PlayerTable
import FishServer.Proper

namespace FishServer

open Transition

/-! The basic part of `User::load`: the row of the account in `users` and the rights of its group. -/

structure UsersRow where
  id : CStr
  groupId : ℤ
  name : CStr
  nick : CStr

/-- `users` answers the row of an account, `item` whether `user_privileges` has a row of the group with that key. -/
structure Accounts where
  users : ℤ → Option UsersRow
  item : ℤ → CStr → Bool

-- a name of no characters stays NULL, which the replies show as this text
def UsersRow.shown (row : UsersRow) : CStr :=
  if row.nick ≠ [] then row.nick else if row.name ≠ [] then row.name else "(null)".toList

def Accounts.basic (accounts : Accounts) (uid : ℤ) : Option UsersRow :=
  (accounts.users uid).filter (fun row => decide (row.id ≠ []))

def Accounts.privilege (accounts : Accounts) (uid : ℤ) : Privilege :=
  match accounts.basic uid with
  | none => ⟨false, false, false⟩
  | some row =>
    if row.groupId = -1 then ⟨true, true, true⟩
    else if 0 < row.groupId then
      ⟨accounts.item row.groupId "game_view_user".toList, accounts.item row.groupId "game_kick".toList, false⟩
    else ⟨false, false, false⟩

-- without a row it returns before the kills and the coins
def User.load (accounts : Accounts) (db : Db) (uid : ℤ) : User :=
  match accounts.basic uid with
  | none => ⟨uid, 0, "(null)".toList, [], accounts.privilege uid⟩
  | some row => ⟨uid, db.getCoin uid, row.shown, db.loadKills uid, accounts.privilege uid⟩

def Accounts.loads (accounts : Accounts) (signKey : CStr → ℤ) (_ : Server) : Op → Prop
  | .verify _ key loaded => ∃ db, loaded = User.load accounts db (signKey key)
  | _ => True

inductive Server.Closes (accounts : Accounts) (signKey : CStr → ℤ) (s : Server) (x : ℕ) : Op → Prop
  | own {i : Slot} : (s.slot i).socket = x → s.Closes accounts signKey x (.close i)
  | forced {i k : Slot} {key : CStr} {loaded : User} : (s.slot k).socket = x → (s.slot k).uid = signKey key →
      (s.slot k).kick ≠ 0 → s.Closes accounts signKey x (.verify i key loaded)
  | kicked {i k : Slot} {json : JsonValue} {now : ℤ} {time : ℚ} {rand : ℕ → ℕ} : (s.slot k).socket = x →
      json.value "op".toList = some "kick user".toList → json.valueToInt "socket_id".toList = x →
        (accounts.privilege (s.slot i).uid).kick = true →
          s.Closes accounts signKey x (.message i json now time rand)
  | exit {i : Slot} {json : JsonValue} {now : ℤ} {time : ℚ} {rand : ℕ → ℕ} :
      json.value "op".toList = some "exit".toList → (accounts.privilege (s.slot i).uid).exit = true →
        s.Closes accounts signKey x (.message i json now time rand)

theorem privilege_exit {accounts : Accounts} {uid : ℤ} (h : (accounts.privilege uid).exit = true) :
    ∃ row, accounts.users uid = some row ∧ row.groupId = -1 := by
  unfold Accounts.privilege at h
  split at h
  · cases h
  · next row hrow =>
    split_ifs at h with hgroup
    exact ⟨row, (Option.filter_eq_some_iff.mp hrow).1, hgroup⟩

theorem load_privilege (accounts : Accounts) (db : Db) (uid : ℤ) :
    (User.load accounts db uid).privilege = accounts.privilege uid := by
  unfold User.load
  split <;> rfl

section

variable {signKey : CStr → ℤ} {s t : Server} {i : Slot} {json : JsonValue} {now : ℤ} {time : ℚ} {rand : ℕ → ℕ}

def Event.Asked (s : Server) (i : Slot) (json : JsonValue) : Event → Prop
  | .kick k => json.value "op".toList = some "kick user".toList ∧ Entry.allowed s i Privilege.kick = true ∧
      Entry.kicked s i json = some k
  | .exit => json.value "op".toList = some "exit".toList ∧ Entry.allowed s i Privilege.exit = true
  | _ => True

theorem event_asked (s : Server) (i : Slot) (json : JsonValue) : (Entry.event s i json).Asked s i json := by
  unfold Entry.event
  cases hop : json.value "op".toList with
  | none => trivial
  | some op =>
    simp only
    split_ifs
    any_goals trivial
    · cases json.value "key".toList with
      | none => trivial
      | some key => trivial
    · next hkick hallowed =>
      cases hk : Entry.kicked s i json with
      | none => trivial
      | some k => exact ⟨hop.trans (congrArg some hkick), hallowed, hk⟩
    · next hexit hallowed => exact ⟨hop.trans (congrArg some hexit), hallowed⟩

theorem kicked_socket {k : Slot} (h : Entry.kicked s i json = some k) :
    json.valueToInt "socket_id".toList = (s.slot k).socket := by
  unfold Entry.kicked at h
  simp only at h
  split_ifs at h
  exact (of_decide_eq_true (findSlot_some h)).symm

theorem remove_closes {p : Player} {x : ℕ} (hx : x ∈ s.sockets) (h : x ∉ (Players.remove s p).1.sockets) :
    p.socket = x := by
  unfold Players.remove at h
  split_ifs at h
  · exact absurd hx h
  · by_contra hne
    exact h ((List.mem_erase_of_ne (Ne.symm hne)).mpr hx)

theorem leave_socket (rs : Rooms) (p : Player) : (rs.leave p).2.socket = p.socket := by
  unfold Rooms.leave
  split_ifs <;> rfl

theorem drop_closes {x : ℕ} (hx : x ∈ s.sockets) (h : x ∉ (s.drop i).sockets) : (s.slot i).socket = x := by
  have hs : ((s.leaveRoom i).slot i).socket = (s.slot i).socket := (s.leaveRoom_same i).slot i
  rw [← hs]
  exact @remove_closes (s.leaveRoom i) _ x hx h

theorem dropCopy_closes {k : Slot} {x : ℕ} (hx : x ∈ s.sockets) (h : x ∉ (s.dropCopy k).sockets) :
    (s.slot k).socket = x := by
  rw [← leave_socket s.rooms (s.slot k)]
  exact @remove_closes { s with rooms := (s.rooms.leave (s.slot k)).1 } _ x hx h

theorem verify_closes {key : CStr} {loaded : User} {x : ℕ} (hx : x ∈ s.sockets)
    (h : x ∉ (Thread.verifyAccount signKey s i key loaded).sockets) :
    ∃ k, (s.slot k).socket = x ∧ (s.slot k).uid = signKey key ∧ (s.slot k).kick ≠ 0 := by
  unfold Thread.verifyAccount at h
  rcases verifyScan_cases signKey s i key with ⟨p, r, hscan⟩ | ⟨_, _, _, ⟨_, hscan⟩ | ⟨k, hk, hkick, p, r, hscan⟩⟩
  · rw [hscan] at h
    exact absurd hx h
  · rw [hscan] at h
    exact absurd hx h
  · rw [hscan] at h
    exact ⟨k, @drop_closes (s.send p r) k x hx h, of_decide_eq_true (findSlot_some hk), hkick⟩

structure Server.SameUsers (s t : Server) : Prop where
  nextUser : t.nextUser = s.nextUser
  user : ∀ a, (t.users a).id = (s.users a).id ∧ (t.users a).privilege = (s.users a).privilege

theorem Server.SameUsers.of_eq (hn : t.nextUser = s.nextUser) (hu : t.users = s.users) : s.SameUsers t :=
  ⟨hn, fun _ => hu ▸ ⟨rfl, rfl⟩⟩

theorem Server.SameUsers.refl (s : Server) : s.SameUsers s := .of_eq rfl rfl

theorem Server.SameUsers.trans {u : Server} (h : s.SameUsers t) (h' : t.SameUsers u) : s.SameUsers u :=
  ⟨h'.nextUser.trans h.nextUser, fun a => ⟨(h'.user a).1.trans (h.user a).1, (h'.user a).2.trans (h.user a).2⟩⟩

theorem setUser_same {a : ℕ} {u : User} (hid : u.id = (s.users a).id) (hp : u.privilege = (s.users a).privilege) :
    s.SameUsers (s.setUser a u) := by
  refine ⟨rfl, ?_⟩
  intro b
  by_cases hb : b = a
  · subst hb
    exact ⟨(congrArg User.id (Function.update_self ..)).trans hid,
      (congrArg User.privilege (Function.update_self ..)).trans hp⟩
  · have hother : (s.setUser a u).users b = s.users b := Function.update_of_ne hb ..
    rw [hother]
    exact ⟨rfl, rfl⟩

theorem remove_sameUsers (s : Server) (p : Player) : s.SameUsers (Players.remove s p).1 := by
  unfold Players.remove
  split_ifs <;> exact .of_eq rfl rfl

theorem drop_sameUsers (s : Server) (i : Slot) : s.SameUsers (s.drop i) := by
  have h := remove_sameUsers (s.leaveRoom i) ((s.leaveRoom i).slot i)
  exact ⟨h.nextUser, h.user⟩

theorem dropCopy_sameUsers (s : Server) (k : Slot) : s.SameUsers (s.dropCopy k) := by
  have h := remove_sameUsers { s with rooms := (s.rooms.leave (s.slot k)).1 } (s.rooms.leave (s.slot k)).2
  exact ⟨h.nextUser, h.user⟩

theorem exitLoop_sameUsers (s : Server) (i : Slot) (num : ℕ) (ks : List Slot) :
    s.SameUsers (Entry.exitLoop s i num ks).1 := by
  induction ks generalizing s num with
  | nil => exact .refl s
  | cons k ks ih =>
    rw [Entry.exitLoop]
    split_ifs
    · exact ih s num
    · have hcopy := dropCopy_sameUsers (s.send (s.slot i) (.exiting (s.slot k).socket (num + 1) 0)) k
      exact Server.SameUsers.trans ⟨hcopy.nextUser, hcopy.user⟩ (ih _ _)

theorem exit_sameUsers (s : Server) (i : Slot) : s.SameUsers (Entry.exit s i) := by
  unfold Entry.exit
  generalize List.finRange 1024 = ks
  have h := exitLoop_sameUsers { s with closeing := true } i 0 ks
  exact ⟨h.nextUser, h.user⟩

theorem kickUser_sameUsers (s : Server) (i : Slot) (json : JsonValue) : s.SameUsers (Entry.kickUser s i json) := by
  cases hk : Entry.kicked s i json with
  | some k =>
    rw [kickUser_some hk]
    have h := dropCopy_sameUsers s k
    exact ⟨h.nextUser, h.user⟩
  | none =>
    unfold Entry.kickUser
    unfold Entry.kicked at hk
    simp only at hk ⊢
    split_ifs with hid hself
    · exact .of_eq rfl rfl
    · exact .of_eq rfl rfl
    · rw [if_pos ⟨not_le.mp hid, hself⟩] at hk
      rw [hk]
      exact .refl s

theorem play_sameUsers (h : Play s t) : s.SameUsers t := by
  cases h with
  | idle => exact .refl s
  | @shot i a b bullets bullets' x y angle time now hr hu hc hb hnew =>
    have hfire := @setUser_same s a { s.users a with coin := i32 ((s.users a).coin - 1) } rfl rfl
    exact ⟨rfl, hfire.user⟩
  | missed hr hb hfound => exact .of_eq rfl rfl
  | @award i a b f bullets fishs fishs' id id' fish hr hu hb hfound hf hget hfish =>
    have hpay := @setUser_same s a { s.users a with
      coin := i32 ((s.users a).coin + fish.fish.coin)
      killfish := killFish fish.fish.no (s.users a).killfish } rfl rfl
    exact ⟨rfl, hpay.user⟩
  | newFish hr hf hnew => exact .of_eq rfl rfl
  | bulletVisit hr hb hv => exact .of_eq rfl rfl
  | fishVisit hr hf hv => exact .of_eq rfl rfl

theorem played_sameUsers (h : Played s t) : s.SameUsers t := by
  obtain ⟨u, hu, sent, rfl⟩ := h
  exact ⟨(play_sameUsers hu).nextUser, (play_sameUsers hu).user⟩

theorem openRoom_sameUsers {p : Player} {r : ℕ} (h : Entry.openRoom s p r time rand = some t) : s.SameUsers t := by
  unfold Entry.openRoom at h
  split at h
  · obtain ⟨fish, _, rfl⟩ := Option.map_eq_some_iff.mp h
    exact .of_eq rfl rfl
  · cases h

theorem inRoom_sameUsers (h : Entry.inRoom s i now time rand = some t) : s.SameUsers t := by
  unfold Entry.inRoom at h
  split at h
  · cases h
    exact .refl s
  split_ifs at h
  · cases h
    exact .refl s
  simp only at h
  split_ifs at h
  · cases h
    exact .of_eq rfl rfl
  · split at h
    · cases h
      exact .of_eq rfl rfl
    · refine Server.SameUsers.trans ?_ (openRoom_sameUsers h)
      exact .of_eq rfl rfl

theorem handled_sameUsers {e : Event} (h : Handled s i json now time rand e t) : s.SameUsers t := by
  cases h with
  | verify =>
    unfold Entry.verifyAccount
    split <;> exact .of_eq rfl rfl
  | inRoom _ hr => exact inRoom_sameUsers hr
  | leaveRoom => exact .of_eq rfl rfl
  | played hp => exact played_sameUsers hp
  | kickUser => exact kickUser_sameUsers s i json
  | exit => exact exit_sameUsers s i

structure Server.LoadsUser (s t : Server) (uid : ℤ) (loaded : User) : Prop where
  nextUser : t.nextUser = s.nextUser + 1
  user : ∀ a, a ≠ s.nextUser → (t.users a).id = (s.users a).id ∧ (t.users a).privilege = (s.users a).privilege
  loaded : (t.users s.nextUser).id = uid ∧ (t.users s.nextUser).privilege = loaded.privilege

theorem assign_loads (h : s.SameUsers t) (uid : ℤ) (loaded : User) :
    s.LoadsUser (Thread.verifyAssign t i uid loaded) uid loaded := by
  unfold Thread.verifyAssign
  refine ⟨congrArg (· + 1) h.nextUser, ?_, ?_⟩
  · intro a ha
    rw [← h.nextUser] at ha
    have hother : Function.update t.users t.nextUser { loaded with id := uid } a = t.users a :=
      Function.update_of_ne ha ..
    change (Function.update t.users t.nextUser { loaded with id := uid } a).id = _ ∧
      (Function.update t.users t.nextUser { loaded with id := uid } a).privilege = _
    rw [hother]
    exact h.user a
  · rw [← h.nextUser]
    change (Function.update t.users t.nextUser { loaded with id := uid } t.nextUser).id = _ ∧
      (Function.update t.users t.nextUser { loaded with id := uid } t.nextUser).privilege = _
    rw [Function.update_self]
    exact ⟨rfl, rfl⟩

theorem verify_users (signKey : CStr → ℤ) (s : Server) (i : Slot) (key : CStr) (loaded : User) :
    s.SameUsers (Thread.verifyAccount signKey s i key loaded) ∨
      s.LoadsUser (Thread.verifyAccount signKey s i key loaded) (signKey key) loaded := by
  unfold Thread.verifyAccount
  rcases verifyScan_cases signKey s i key with ⟨p, r, hscan⟩ | ⟨_, _, _, ⟨_, hscan⟩ | ⟨k, _, _, p, r, hscan⟩⟩
  · rw [hscan]
    exact .inl (.of_eq rfl rfl)
  · rw [hscan]
    have hload := @assign_loads s s i (.refl s) (signKey key) loaded
    exact .inr ⟨hload.nextUser, hload.user, hload.loaded⟩
  · rw [hscan]
    have hdrop := drop_sameUsers (s.send p r) k
    have hload := @assign_loads s _ i ⟨hdrop.nextUser, hdrop.user⟩ (signKey key) loaded
    exact .inr ⟨hload.nextUser, hload.user, hload.loaded⟩

theorem step_users {op : Op} (ht : serverStep signKey s op = some t) :
    s.SameUsers t ∨ ∃ i key loaded, op = .verify i key loaded ∧ s.LoadsUser t (signKey key) loaded := by
  have hstep := ht
  unfold serverStep at ht
  split_ifs at ht
  cases op with
  | connect socket ip now =>
    simp only at ht
    split_ifs at ht
    cases ht
    refine .inl ?_
    unfold Players.add
    split_ifs
    · exact .of_eq rfl rfl
    · split <;> exact .of_eq rfl rfl
  | handshake i =>
    simp only at ht
    split_ifs at ht
    cases ht
    exact .inl (.of_eq rfl rfl)
  | message i json now time rand =>
    simp only at ht
    split_ifs at ht
    exact .inl (handled_sameUsers (dispatch_handled ht))
  | close i =>
    simp only at ht
    split_ifs at ht
    cases ht
    exact .inl (drop_sameUsers s i)
  | verify i key loaded =>
    simp only at ht
    split_ifs at ht
    cases ht
    rcases verify_users signKey s i key loaded with h | h
    · exact .inl ⟨h.nextUser, h.user⟩
    · exact .inr ⟨i, key, loaded, rfl, h.nextUser, h.user, h.loaded⟩
  | saved a =>
    simp only at ht
    split_ifs at ht
    cases ht
    exact .inl (.of_eq rfl rfl)
  | fish r time rand => exact .inl (played_sameUsers (played_of_step (.fish r time rand) rfl hstep))
  | bulletVisit r b now => exact .inl (played_sameUsers (played_of_step (.bulletVisit r b now) rfl hstep))
  | fishVisit r f => exact .inl (played_sameUsers (played_of_step (.fishVisit r f) rfl hstep))

def Server.Entitled (accounts : Accounts) (s : Server) : Prop :=
  ∀ a < s.nextUser, (s.users a).privilege = accounts.privilege (s.users a).id

theorem Server.Entitled.step {accounts : Accounts} (h : s.Entitled accounts) {op : Op}
    (hop : accounts.loads signKey s op) (ht : serverStep signKey s op = some t) : t.Entitled accounts := by
  intro a ha
  rcases step_users ht with hsame | ⟨i, key, loaded, rfl, hload⟩
  · rw [hsame.nextUser] at ha
    rw [(hsame.user a).1, (hsame.user a).2]
    exact h a ha
  · obtain ⟨db, rfl⟩ := hop
    by_cases hnew : a = s.nextUser
    · rw [hnew, hload.loaded.1, hload.loaded.2, load_privilege]
    · rw [hload.nextUser] at ha
      rw [(hload.user a hnew).1, (hload.user a hnew).2]
      exact h a (by omega)

theorem allowed_privilege {accounts : Accounts} (h : s.Entitled accounts) (ho : s.session.Owned)
    {right : Privilege → Bool} (hallowed : Entry.allowed s i right = true) :
    right (accounts.privilege (s.slot i).uid) = true := by
  obtain ⟨u, hu, hright⟩ := (Option.any_eq_true _ _).mp hallowed
  obtain ⟨a, ha, rfl⟩ := Option.map_eq_some_iff.mp hu
  obtain ⟨hlt, howner, _⟩ := ho i a ha
  have hid : (s.users a).id = (s.slot i).uid := howner
  rwa [h a hlt, hid] at hright

theorem handled_closes {accounts : Accounts} (h : s.Entitled accounts) (ho : s.session.Owned) {x : ℕ}
    (ht : Handled s i json now time rand (Entry.event s i json) t) (hx : x ∈ s.sockets) (hclosed : x ∉ t.sockets) :
    s.Closes accounts signKey x (.message i json now time rand) := by
  have hasked := event_asked s i json
  have hsame : s.SameTable t → s.Closes accounts signKey x (.message i json now time rand) := by
    intro hst
    rw [hst.sockets] at hclosed
    exact absurd hx hclosed
  generalize Entry.event s i json = e at ht hasked
  cases ht with
  | verify => exact hsame (entryVerify_same s i json)
  | inRoom _ hr => exact hsame (inRoom_same hr)
  | leaveRoom => exact hsame ((s.leaveRoom_same i).trans ⟨fun _ => rfl, rfl, rfl⟩)
  | played hp => exact hsame (played_same hp)
  | kickUser =>
    cases hk : Entry.kicked s i json with
    | none => exact hsame (kickUser_same hk)
    | some k =>
      rw [hk] at hasked
      obtain ⟨hop, hallowed, -⟩ := hasked
      rw [kickUser_some hk] at hclosed
      have hsocket := dropCopy_closes hx hclosed
      refine .kicked hsocket hop ?_ (allowed_privilege h ho hallowed)
      rw [kicked_socket hk, hsocket]
  | exit => exact .exit hasked.1 (allowed_privilege h ho hasked.2)

theorem step_closes {accounts : Accounts} (h : s.Entitled accounts) (ho : s.session.Owned) {op : Op} {x : ℕ}
    (ht : serverStep signKey s op = some t) (hx : x ∈ s.sockets) (hclosed : x ∉ t.sockets) :
    s.Closes accounts signKey x op := by
  have hstep := ht
  have hsame : ∀ {op : Op}, s.sockets = t.sockets → s.Closes accounts signKey x op := by
    intro op he
    rw [← he] at hclosed
    exact absurd hx hclosed
  unfold serverStep at ht
  split_ifs at ht
  cases op with
  | connect socket ip now =>
    simp only at ht
    split_ifs at ht
    cases ht
    exact absurd (List.mem_cons_of_mem socket hx) hclosed
  | handshake i =>
    simp only at ht
    split_ifs at ht
    cases ht
    exact hsame rfl
  | message i json now time rand =>
    simp only at ht
    split_ifs at ht
    exact handled_closes h ho (dispatch_handled ht) hx hclosed
  | close i =>
    simp only at ht
    split_ifs at ht
    cases ht
    exact .own (drop_closes hx hclosed)
  | verify i key loaded =>
    simp only at ht
    split_ifs at ht
    cases ht
    obtain ⟨k, hk, huid, hkick⟩ := @verify_closes signKey s i key loaded x hx hclosed
    exact .forced hk huid hkick
  | saved a =>
    simp only at ht
    split_ifs at ht
    cases ht
    exact hsame rfl
  | fish r time rand => exact hsame (played_same (played_of_step (.fish r time rand) rfl hstep)).sockets.symm
  | bulletVisit r b now =>
    exact hsame (played_same (played_of_step (.bulletVisit r b now) rfl hstep)).sockets.symm
  | fishVisit r f => exact hsame (played_same (played_of_step (.fishVisit r f) rfl hstep)).sockets.symm

theorem Session.step_exited {u : Session} {e : Event} (h : (u.step e).exited = true) :
    u.exited = true ∨ e = .exit := by
  cases e with
  | leave i => exact .inl ((u.unseat_exited i).symm.trans h)
  | drop i => exact .inl ((u.drop_exited i).symm.trans h)
  | kick k => exact .inl ((u.kick_exited k).symm.trans h)
  | login i key uid out =>
    cases out with
    | none => exact .inl h
    | some k => exact .inl ((u.drop_exited k).symm.trans h)
  | exit => exact .inr rfl
  | _ => exact .inl h

theorem exit_step {op : Op} (ht : serverStep signKey s op = some t) (hexit : t.exited = true) :
    ∃ i json now time rand, op = .message i json now time rand ∧ Entry.event s i json = .exit := by
  have hs : s.exited = false := by
    unfold serverStep at ht
    split_ifs at ht with he
    simpa using he
  obtain ⟨-, hst⟩ := serverStep_session ht
  have hx : (s.session.step (s.event signKey op)).exited = true := by
    rw [← hst]
    exact hexit
  rcases Session.step_exited hx with h | h
  · cases hs.symm.trans h
  · cases op with
    | message i json now time rand => exact ⟨i, json, now, time, rand, rfl, h⟩
    | connect socket ip now =>
      simp only [Server.event] at h
      split_ifs at h
      split at h <;> cases h
    | verify i key loaded =>
      simp only [Server.event, Thread.verifyEvent] at h
      split at h <;> cases h
    | _ => cases h

end

theorem rights_from_database (accounts : Accounts) (signKey : CStr → ℤ) (maxRoom : ℕ) (outside : ℕ → Room)
    (fish : List SettingFish) (users : ℕ → User) (s : Server)
    (h : Reach (serverStep signKey) (accounts.loads signKey) (Server.start maxRoom outside fish users) s) :
    (∀ i a, (s.slot i).user = some a → (s.users a).privilege = accounts.privilege (s.slot i).uid) ∧
      (s.exited = true → ∃ u i json now time rand row,
        Reach (serverStep signKey) (accounts.loads signKey) (Server.start maxRoom outside fish users) u ∧
          serverStep signKey u (.message i json now time rand) = some s ∧
            json.value "op".toList = some "exit".toList ∧
              accounts.users (u.slot i).uid = some row ∧ row.groupId = -1) ∧
      ∀ op t, accounts.loads signKey s op → serverStep signKey s op = some t →
        ∀ x ∈ s.sockets, x ∉ t.sockets → s.Closes accounts signKey x op := by
  have hentitled : ∀ {u}, Reach (serverStep signKey) (accounts.loads signKey)
      (Server.start maxRoom outside fish users) u → u.Entitled accounts := by
    intro u hu
    apply hu.invariant (P := fun u => u.Entitled accounts)
    · exact fun a ha => absurd ha (Nat.not_lt_zero a)
    · exact fun u op t hu hop ht => hu.step hop ht
  refine ⟨?_, ?_, ?_⟩
  · intro i a ha
    obtain ⟨hlt, howner, _⟩ := (proper_reachable h).owned i a ha
    have hid : (s.users a).id = (s.slot i).uid := howner
    rw [← hid]
    exact hentitled h a hlt
  · intro hexit
    cases h with
    | start => cases hexit
    | @step u _ op hu hop ht =>
      obtain ⟨i, json, now, time, rand, rfl, he⟩ := exit_step ht hexit
      have hasked := event_asked u i json
      rw [he] at hasked
      obtain ⟨row, hrow, hgroup⟩ := privilege_exit
        (allowed_privilege (hentitled hu) (proper_reachable hu).owned hasked.2)
      exact ⟨u, i, json, now, time, rand, row, hu, ht, hasked.1, hrow, hgroup⟩
  · intro op t _ ht x hx hclosed
    exact step_closes (hentitled h) (proper_reachable h).owned ht hx hclosed

def staff : Accounts where
  users := fun uid =>
    if uid = 7 then some ⟨['7'], -1, ['n'], []⟩ else if uid = 8 then some ⟨['8'], 2, ['m'], []⟩ else none
  item := fun groupId key => decide (groupId = 2) && decide (key = "game_kick".toList)

def noRows : Db := ⟨fun _ => none, [], Table.empty, Table.empty⟩

def staffLoads (_ : Server) : Op → Bool
  | .verify _ key loaded => decide (loaded = User.load staff noRows (sampleKey key))
  | _ => true

def signIn (i : Slot) (socket : ℕ) (key : CStr) : List Op :=
  [.connect socket 0 0, .handshake i, verifyMessage i key ['1'], .verify i key (User.load staff noRows (sampleKey key))]

def exitMessage (i : Slot) : Op := sampleMessage i [("op".toList, "exit".toList)]

theorem owner_ends_server : ∃ s u : Server, (s.exited, s.sockets) = (true, []) ∧
    ∃ i json now time rand row, serverStep sampleKey u (.message i json now time rand) = some s ∧
      json.value "op".toList = some "exit".toList ∧
        staff.users (u.slot i).uid = some row ∧ row.groupId = -1 := by
  have hrun : ((runIf (serverStep sampleKey) staffLoads sampleServer
      (signIn 0 5 ['a'] ++ signIn 1 6 ['b'] ++ [exitMessage 1, kickSocket 0 ['6'], exitMessage 0])).map
        (fun s => (s.exited, s.sockets))) = some (true, []) := by decide +kernel
  obtain ⟨s, hs, hh⟩ := Option.map_eq_some_iff.mp hrun
  have hreach : Reach (serverStep sampleKey) (staff.loads sampleKey) sampleServer s := by
    apply (Reach.of_runIf hs).mono
    intro s op hop
    cases op with
    | verify i key loaded => exact ⟨noRows, of_decide_eq_true hop⟩
    | _ => trivial
  obtain ⟨u, i, json, now, time, rand, row, -, hrest⟩ := (rights_from_database staff sampleKey 1 _ _ _ s hreach).2.1
    (Prod.mk.inj hh).1
  exact ⟨s, u, hh, i, json, now, time, rand, row, hrest⟩

end FishServer
