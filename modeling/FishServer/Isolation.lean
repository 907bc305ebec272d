import FishServer.Proper
import FishServer.Seats
import FishServer.Setting

namespace FishServer

open Transition LinkedList

/-! What a message leaves alone: all but the slot, the user and the bullets of its sender. -/

structure Server.Spares (s t : Server) (i : Slot) (cleared : ℕ → Prop) : Prop where
  slot : ∀ k, k ≠ i → t.slot k = s.slot k
  seat : ∀ k, k ≠ i → ∀ r j, (t.rooms.room r).players j = some k ↔ (s.rooms.room r).players j = some k
  users : ∀ a, (s.slot i).user ≠ some a → t.users a = s.users a
  closeing : t.closeing = s.closeing
  bullets : ∀ r o p v, r < s.rooms.maxRoom → (s.rooms.room r).bullets = some o → o.list.value p = some v →
    v.uid ≠ (s.slot i).uid → ¬cleared r → ∃ o', (t.rooms.room r).bullets = some o' ∧ o'.list.value p = some v

section

variable {s t : Server} {i : Slot} {cleared : ℕ → Prop} {json : JsonValue} {now : ℤ} {time : ℚ} {rand : ℕ → ℕ}

theorem Server.Spares.refl (s : Server) (i : Slot) (cleared : ℕ → Prop) : s.Spares s i cleared :=
  ⟨fun _ _ => rfl, fun _ _ _ _ => Iff.rfl, fun _ _ => rfl, rfl, fun _ o _ _ _ ho hv _ _ => ⟨o, ho, hv⟩⟩

theorem setRoom_self (rs : Rooms) (r : ℕ) (room : Room) : (rs.setRoom r room).room r = room :=
  Function.update_self ..

theorem setRoom_of_ne (rs : Rooms) {r q : ℕ} (room : Room) (h : q ≠ r) : (rs.setRoom r room).room q = rs.room q :=
  Function.update_of_ne h ..

theorem setBullets_players (s : Server) (r q : ℕ) (b : Bullets) :
    ((s.setBullets r b).rooms.room q).players = (s.rooms.room q).players := by
  change ((s.rooms.setRoom r _).room q).players = _
  by_cases hq : q = r
  · rw [hq, setRoom_self]
  · rw [setRoom_of_ne _ _ hq]

theorem setFishs_players (s : Server) (r q : ℕ) (f : Fishs) :
    ((s.setFishs r f).rooms.room q).players = (s.rooms.room q).players := by
  change ((s.rooms.setRoom r _).room q).players = _
  by_cases hq : q = r
  · rw [hq, setRoom_self]
  · rw [setRoom_of_ne _ _ hq]

theorem Server.Spares.setBullets (h : s.Spares t i cleared)
    (hrooms : ∀ q, (t.rooms.room q).bullets = (s.rooms.room q).bullets) {r : ℕ} {o b : Bullets}
    (ho : (s.rooms.room r).bullets = some o)
    (hb : ∀ p v, o.list.value p = some v → v.uid ≠ (s.slot i).uid → b.list.value p = some v) :
    s.Spares (t.setBullets r b) i cleared where
  slot := h.slot
  seat := by
    intro k hk q j
    rw [setBullets_players]
    exact h.seat k hk q j
  users := h.users
  closeing := h.closeing
  bullets := by
    intro q o' p v hq ho' hv hu hc
    by_cases hqr : q = r
    · subst hqr
      rw [ho] at ho'
      cases ho'
      exact ⟨b, congrArg Room.bullets (setRoom_self ..), hb p v hv hu⟩
    · refine ⟨o', ?_, hv⟩
      change ((t.rooms.setRoom r _).room q).bullets = _
      rw [setRoom_of_ne _ _ hqr, hrooms]
      exact ho'

theorem Server.Spares.of_update {a : ℕ} (p : Player) (u : User) (ha : (s.slot i).user = some a)
    (hs : t.slot = Function.update s.slot i p) (hu : t.users = Function.update s.users a u)
    (hc : t.closeing = s.closeing) (hp : ∀ r, (t.rooms.room r).players = (s.rooms.room r).players)
    (hb : ∀ r, (t.rooms.room r).bullets = (s.rooms.room r).bullets) : s.Spares t i cleared where
  slot := by
    intro k hk
    rw [hs, Function.update_of_ne hk]
  seat := by
    intro k _ r j
    rw [hp]
  users := by
    intro b hb
    rw [hu, Function.update_of_ne]
    rintro rfl
    exact hb ha
  closeing := hc
  bullets := by
    intro r o p v _ ho hv _ _
    exact ⟨o, (hb r).trans ho, hv⟩

theorem create_spares {o o' : Bullets} {l : List ℕ} (hl : Objects.Sound Bullet.id o l) {uid x y : ℤ} {angle : CStr}
    {b p : ℕ} {v : Bullet} (h : Bullets.create o uid x y angle time = some (o', b)) (hv : o.list.value p = some v) :
    o'.list.value p = some v := by
  obtain ⟨_, _, id, happ⟩ := hl.create (v := fun id => ⟨id, uid, x, y, angle, time, false, false⟩) (fun _ => rfl) h
  rw [happ, DList.value_append_of_ne]
  · exact hv
  · rintro rfl
    exact hl.holds.fresh_notMem (hl.holds.mem_of_value hv)

theorem free_spares {o : Bullets} {l : List ℕ} (hl : Objects.Sound Bullet.id o l) {id uid : ℤ} {b p : ℕ} {v : Bullet}
    (h : o.getBullet id uid = some (some b)) (hv : o.list.value p = some v) (hu : v.uid ≠ uid) :
    (o.list.modify Bullet.free b).value p = some v := by
  rw [DList.value_modify_of_ne]
  · exact hv
  · rintro rfl
    obtain ⟨w, hw, _, hwu, _⟩ := getBullet_found hl h
    rw [hv] at hw
    cases hw
    exact hu hwu

theorem PlayOf.spares (hs : s.Proper) (hseat : s.session.Seated) (h : PlayOf s i t) : s.Spares t i cleared := by
  have hroom : 0 < (s.slot i).room → (s.slot i).room - 1 < s.rooms.maxRoom := by
    intro hr
    have hle : (s.slot i).room ≤ s.rooms.maxRoom := (hseat.sits i hr.ne').room
    omega
  cases h with
  | idle => exact .refl s i cleared
  | @shot a b bullets bullets' x y angle time now hr ha _ hb hnew =>
    obtain ⟨l, hl⟩ := (hs.stocked.bullets _ _ (hroom hr) hb).sound
    have hown : s.Spares ((s.setSlot i { s.slot i with opTime := now }).setUser a
        { s.users a with coin := i32 ((s.users a).coin - 1) }) i cleared :=
      .of_update _ _ ha rfl rfl rfl (fun _ => rfl) (fun _ => rfl)
    have hset := hown.setBullets (fun _ => rfl) hb (fun p v hv _ => create_spares hl hnew hv)
    exact ⟨hset.slot, hset.seat, hset.users, hset.closeing, hset.bullets⟩
  | missed hr hb hfound =>
    obtain ⟨l, hl⟩ := (hs.stocked.bullets _ _ (hroom hr) hb).sound
    exact (Server.Spares.refl s i cleared).setBullets (fun _ => rfl) hb (fun p v hv hu => free_spares hl hfound hv hu)
  | @award a b f bullets fishs fishs' id id' fish hr ha hb hfound hf hget hfish =>
    obtain ⟨l, hl⟩ := (hs.stocked.bullets _ _ (hroom hr) hb).sound
    have hpay : s.Spares (s.pay i a b fishs' f fish.fish) i cleared :=
      .of_update (s.slot i) _ ha (Function.update_eq_self i s.slot).symm rfl rfl (fun r => setFishs_players s _ r _)
        (fun r => setFishs_bullets s _ r _)
    exact hpay.setBullets (fun r => setFishs_bullets s _ r _) hb (fun p v hv hu => free_spares hl hfound hv hu)

theorem setPlayer_other (room : Room) (j : ℕ) (x : Option Slot) {k : Slot} (hx : x ≠ some k)
    (hj : room.players j ≠ some k) (q : ℕ) : (room.setPlayer j x).players q = some k ↔ room.players q = some k := by
  change Function.update room.players j x q = some k ↔ _
  by_cases hq : q = j
  · rw [hq, Function.update_self]
    exact ⟨fun h => absurd h hx, fun h => absurd h hj⟩
  · rw [Function.update_of_ne hq]

theorem setRoom_seat (rs : Rooms) (r : ℕ) {room : Room} {k : Slot}
    (h : ∀ j, room.players j = some k ↔ (rs.room r).players j = some k) (q j : ℕ) :
    ((rs.setRoom r room).room q).players j = some k ↔ (rs.room q).players j = some k := by
  by_cases hq : q = r
  · rw [hq, setRoom_self]
    exact h j
  · rw [setRoom_of_ne _ _ hq]

theorem takeSeat_spares {rs : Rooms} {room seat : ℕ} (hrooms : ∀ r, rs.room r = s.rooms.room r)
    (hfree : (s.rooms.room (room - 1)).players (seat - 1) = none) (now : ℤ) :
    s.Spares (s.takeSeat i rs room seat now) i cleared := by
  constructor
  · intro k hk
    exact Function.update_of_ne hk ..
  · intro k hk r j
    change ((rs.setRoom (room - 1) _).room r).players j = some k ↔ _
    rw [← hrooms r]
    apply setRoom_seat
    apply setPlayer_other
    · exact fun he => hk (Option.some.inj he).symm
    · rw [hrooms, hfree]
      exact fun he => nomatch he
  · exact fun _ _ => rfl
  · rfl
  · intro r o p v _ ho hv _ _
    refine ⟨o, ?_, hv⟩
    change ((rs.setRoom (room - 1) _).room r).bullets = some o
    rw [← hrooms r] at ho
    by_cases hr : r = room - 1
    · rw [hr, setRoom_self]
      rw [hr] at ho
      exact ho
    · rw [setRoom_of_ne _ _ hr]
      exact ho

theorem Server.Spares.openRoom {u : Server} (h : s.Spares t i cleared) {p : Player} {r : ℕ}
    (hn : r < s.rooms.maxRoom → (s.rooms.room r).bullets = none) (ht : Entry.openRoom t p r time rand = some u) :
    s.Spares u i cleared := by
  unfold Entry.openRoom at ht
  split at ht
  · obtain ⟨fish, _, rfl⟩ := Option.map_eq_some_iff.mp ht
    constructor
    · exact h.slot
    · intro k hk q j
      rw [← h.seat k hk q j]
      change ((t.rooms.setRoom r _).room q).players j = some k ↔ _
      apply setRoom_seat
      exact fun _ => Iff.rfl
    · exact h.users
    · exact h.closeing
    · intro q o p v hq ho hv hu hc
      obtain ⟨o', ho', hv'⟩ := h.bullets q o p v hq ho hv hu hc
      refine ⟨o', ?_, hv'⟩
      change ((t.rooms.setRoom r _).room q).bullets = some o'
      rw [setRoom_of_ne]
      · exact ho'
      · intro hqr
        rw [hqr] at hq ho
        rw [hn hq] at ho
        cases ho
  · cases ht

theorem inRoom_spares (hs : s.Proper) (h : Entry.inRoom s i now time rand = some t) : s.Spares t i cleared := by
  unfold Entry.inRoom at h
  split at h
  · cases h
    exact .refl s i cleared
  split_ifs at h
  · cases h
    exact .refl s i cleared
  simp only at h
  obtain ⟨hrooms, _⟩ := findRoom_rooms s.rooms
  split_ifs at h with hz
  · cases h
    have hroom : ∀ r, s.rooms.findRoom.1.room r = s.rooms.room r := fun r => congrFun hrooms r
    refine ⟨fun _ _ => rfl, ?_, fun _ _ => rfl, rfl, ?_⟩
    · intro k _ r j
      change (s.rooms.findRoom.1.room r).players j = some k ↔ _
      rw [hroom]
    · intro r o p v _ ho hv _ _
      refine ⟨o, ?_, hv⟩
      change (s.rooms.findRoom.1.room r).bullets = some o
      rw [hroom]
      exact ho
  · obtain ⟨hcurr, _, _, hfree⟩ := findRoom_seat s.rooms hz
    rw [show s.rooms.curr = s.rooms.findRoom.2.1 - 1 by omega] at hfree
    have hseat : s.Spares (s.takeSeat i s.rooms.findRoom.1 s.rooms.findRoom.2.1 s.rooms.findRoom.2.2 now) i
        cleared := takeSeat_spares (fun r => congrFun hrooms r) hfree now
    have hsend : ∀ sent, s.Spares
        { s.takeSeat i s.rooms.findRoom.1 s.rooms.findRoom.2.1 s.rooms.findRoom.2.2 now with sent } i cleared :=
      fun _ => ⟨hseat.slot, hseat.seat, hseat.users, hseat.closeing, hseat.bullets⟩
    split at h
    · cases h
      exact hsend _
    · next hnone =>
      refine Server.Spares.openRoom (hsend _) ?_ h
      intro hr
      have hfish : (s.rooms.room (s.rooms.findRoom.2.1 - 1)).fishs = none := by
        rw [← hrooms]
        have hself := congrArg Room.fishs (setRoom_self s.rooms.findRoom.1 (s.rooms.findRoom.2.1 - 1)
          ((s.rooms.findRoom.1.room (s.rooms.findRoom.2.1 - 1)).setPlayer (s.rooms.findRoom.2.2 - 1) (some i)))
        exact hself.symm.trans hnone
      have hp := hs.paired _ hr
      rw [hfish] at hp
      exact Option.isNone_iff_eq_none.mp (by simpa using hp.symm)

def Server.clears (s : Server) (i : Slot) (json : JsonValue) (r : ℕ) : Prop :=
  json.value "op".toList = some "leave room".toList ∧ (s.slot i).room = r + 1 ∧
    ∀ k, k ≠ i → (s.slot k).room ≠ r + 1

theorem close_of_player {room : Room} {j : ℕ} {k : Slot} (hj : j < 4) (h : room.players j = some k) :
    room.close = room := by
  unfold Room.close
  rw [if_neg]
  intro he
  have hn := List.all_eq_true.mp he j (List.mem_range.mpr hj)
  rw [h] at hn
  cases hn

theorem leave_spares (hseat : s.session.Seated) (hop : json.value "op".toList = some "leave room".toList)
    (hr : 0 < (s.slot i).room) : s.Spares (Entry.leaveRoom s i) i (s.clears i json) := by
  have hsit := hseat.sits i hr.ne'
  have hheld : (s.rooms.room ((s.slot i).room - 1)).players ((s.slot i).seat - 1) = some i := hsit.held
  have hrooms : (s.leaveRoom i).rooms = s.rooms.setRoom ((s.slot i).room - 1)
      (((s.rooms.room ((s.slot i).room - 1)).setPlayer ((s.slot i).seat - 1) none).close) := by
    change (s.rooms.leave (s.slot i)).1 = _
    unfold Rooms.leave
    rw [if_neg hr.ne']
  constructor
  · intro k hk
    exact Function.update_of_ne hk ..
  · intro k hk r j
    change ((s.leaveRoom i).rooms.room r).players j = some k ↔ _
    rw [hrooms]
    apply setRoom_seat
    intro q
    rw [close_players]
    apply setPlayer_other
    · exact fun he => nomatch he
    · rw [hheld]
      exact fun he => hk (Option.some.inj he).symm
  · exact fun _ _ => rfl
  · rfl
  · intro r o p v hrm ho hv _ hc
    refine ⟨o, ?_, hv⟩
    change ((s.leaveRoom i).rooms.room r).bullets = some o
    rw [hrooms]
    by_cases hri : r = (s.slot i).room - 1
    · have hother : ∃ k, k ≠ i ∧ (s.slot k).room = r + 1 := by
        by_contra hn
        simp only [not_exists, not_and] at hn
        exact hc ⟨hop, by omega, hn⟩
      obtain ⟨k, hk, hkr⟩ := hother
      have hsk := hseat.sits k (show (s.slot k).room ≠ 0 by omega)
      have hkheld : (s.rooms.room r).players ((s.slot k).seat - 1) = some k := by
        have hh : (s.rooms.room ((s.slot k).room - 1)).players ((s.slot k).seat - 1) = some k := hsk.held
        rwa [hkr, Nat.add_sub_cancel] at hh
      have hpos : 0 < (s.slot k).seat := hsk.seat_pos
      have hle : (s.slot k).seat ≤ 4 := hsk.seat_le
      subst hri
      rw [setRoom_self, close_of_player (show (s.slot k).seat - 1 < 4 by omega)]
      · exact ho
      · apply (setPlayer_other _ _ _ _ _ _).mpr hkheld
        · exact fun he => nomatch he
        · rw [hheld]
          exact fun he => hk (Option.some.inj he).symm
    · rw [setRoom_of_ne _ _ hri]
      exact ho

theorem Server.Spares.send (s : Server) (i : Slot) (cleared : ℕ → Prop) (p : Player) (r : Reply) :
    s.Spares (s.send p r) i cleared :=
  ⟨fun _ _ => rfl, fun _ _ _ _ => Iff.rfl, fun _ _ => rfl, rfl, fun _ o _ _ _ ho hv _ _ => ⟨o, ho, hv⟩⟩

theorem PlayedBy.spares (hs : s.Proper) (hseat : s.session.Seated) (h : PlayedBy s i t) :
    s.Spares t i cleared := by
  obtain ⟨u, hu, sent, rfl⟩ := h
  have hp : s.Spares u i cleared := hu.spares hs hseat
  exact ⟨hp.slot, hp.seat, hp.users, hp.closeing, hp.bullets⟩

def Server.unprivileged (s : Server) (i : Slot) : Bool :=
  (s.user i).all (fun u => !u.privilege.view && !u.privilege.kick && !u.privilege.exit)

theorem not_allowed (h : s.unprivileged i = true) (right : Privilege → Bool)
    (hr : right = Privilege.view ∨ right = Privilege.kick ∨ right = Privilege.exit) :
    Entry.allowed s i right = false := by
  unfold Server.unprivileged at h
  unfold Entry.allowed
  cases hu : s.user i with
  | none => rfl
  | some u =>
    rw [hu, Option.all_some, Bool.and_eq_true, Bool.and_eq_true] at h
    rw [Option.any_some]
    rcases hr with rfl | rfl | rfl
    · simpa using h.1.1
    · simpa using h.1.2
    · simpa using h.2

theorem dispatch_spares (hs : s.Proper) (hseat : s.session.Seated) (hp : s.unprivileged i = true)
    (hop : json.value "op".toList ≠ some "verify account".toList)
    (h : Entry.dispatch s i json now time rand = some t) : s.Spares t i (s.clears i json) := by
  have hsend : ∀ p r, s.Spares (s.send p r) i (s.clears i json) := Server.Spares.send s i _
  have hd := dispatched h
  generalize Entry.event s i json = e at hd
  cases hd with
  | idle => exact .refl s i _
  | sent p r => exact hsend p r
  | verify hverify => exact absurd hverify hop
  | inRoom _ h => exact inRoom_spares hs h
  | leaveRoom hleave hr => exact leave_spares hseat hleave hr
  | toShot _ hr h => exact (toShot_playedBy hr h).spares hs hseat
  | hitFish hr h => exact (hitFish_playedBy hr h).spares hs hseat
  | kickUser ha => exact absurd (ha.symm.trans (not_allowed hp Privilege.kick (.inr (.inl rfl)))) (by decide)
  | exit ha => exact absurd (ha.symm.trans (not_allowed hp Privilege.exit (.inr (.inr rfl)))) (by decide)

end

structure Server.Isolated (s t : Server) (i : Slot) (cleared : ℕ → Prop) : Prop where
  slot : ∀ k, k ≠ i → t.slot k = s.slot k
  seat : ∀ k, k ≠ i → ∀ r j, (t.rooms.room r).players j = some k ↔ (s.rooms.room r).players j = some k
  user : ∀ k, k ≠ i → t.user k = s.user k
  bullets : ∀ k, k ≠ i → (s.slot k).room ≠ 0 → ∀ r o p v, r < s.rooms.maxRoom → ¬cleared r →
    (s.rooms.room r).bullets = some o → o.list.value p = some v → v.uid = (s.slot k).uid →
      ∃ o', (t.rooms.room r).bullets = some o' ∧ o'.list.value p = some v

theorem Server.Spares.isolated {s t : Server} {i : Slot} {cleared : ℕ → Prop} (h : s.Spares t i cleared)
    (hs : s.Proper)
    (huid : ∀ j k, (s.slot j).uid ≠ 0 → (s.slot j).uid = (s.slot k).uid → j = k) (hu : (s.slot i).user ≠ none) :
    s.Isolated t i cleared := by
  have hown : ∀ k a, (s.slot k).user = some a → (s.users a).id = (s.slot k).uid ∧ (s.slot k).uid ≠ 0 :=
    fun k a ha => (hs.owned k a ha).2
  obtain ⟨a, ha⟩ := Option.ne_none_iff_exists'.mp hu
  have hi := hown i a ha
  refine ⟨h.slot, h.seat, ?_, ?_⟩
  · intro k hk
    unfold Server.user
    rw [h.slot k hk]
    cases hb : (s.slot k).user with
    | none => rfl
    | some b =>
      have hka := hown k b hb
      rw [Option.map_some, Option.map_some, h.users]
      rw [ha]
      rintro ⟨⟩
      exact hk (huid k i hka.2 (hka.1.symm.trans hi.1))
  · intro k hk _ r o p v hr hc ho hv hvu
    apply h.bullets r o p v hr ho hv _ hc
    rw [hvu]
    exact fun he => hk (huid i k hi.2 he.symm).symm

theorem unprivileged_isolated (signKey : CStr → ℤ) (maxRoom : ℕ) (outside : ℕ → Room) (fish : List SettingFish)
    (users : ℕ → User) :
    (∀ s, Reach (serverStep signKey) (fun _ _ => True) (Server.start maxRoom outside fish users) s → s.Proper) ∧
      ∀ (st st' : Setting) (s t : Server) (i : Slot) (json : JsonValue) (now : ℤ) (time : ℚ) (rand : ℕ → ℕ),
        s.Proper → s.session.Seated →
          (∀ j k, (s.slot j).uid ≠ 0 → (s.slot j).uid = (s.slot k).uid → j = k) →
            s.rooms.findRoom.2.1 ≤ s.rooms.maxRoom → (s.slot i).user ≠ none → s.unprivileged i = true →
              json.value "op".toList ≠ some "verify account".toList →
                Entry.entry st s i json now time rand = some (st', t) →
                  (st', t.closeing) = (st, s.closeing) ∧ s.Isolated t i (s.clears i json) := by
  constructor
  · exact fun s h => proper_reachable h
  · intro st st' s t i json now time rand hs hseat huid _ hu hp hop h
    unfold Entry.entry at h
    rw [if_neg (fun hh => by rw [not_allowed hp Privilege.exit (.inr (.inr rfl))] at hh; cases hh.2)] at h
    obtain ⟨u, hd, he⟩ := Option.map_eq_some_iff.mp h
    cases he
    have hsp := dispatch_spares hs hseat hp hop hd
    exact ⟨congrArg (Prod.mk st) hsp.closeing, hsp.isolated hs huid hu⟩

def accountKey (key : CStr) : ℤ :=
  if key = ['a'] then 7 else if key = ['b'] then 8 else if key = ['c'] then 9 else if key = ['d'] then 10 else 0

def plainUser : User := ⟨0, 5, ['n'], [], ⟨false, false, false⟩⟩

def plainServer : Server := Server.start 2 (fun _ => Room.zero) [⟨1, 1, 1⟩] (fun _ => plainUser)

def visit (i : Slot) (socket : ℕ) (key : CStr) : List Op :=
  [.connect socket 0 0, .handshake i, verifyMessage i key ['1'], .verify i key plainUser, inRoom i]

def aimMessage : JsonValue :=
  message [("op".toList, "to shot".toList), ("x".toList, ['1']), ("y".toList, ['1']), ("angle".toList, ['1'])]

def leaveMessage : JsonValue := message [("op".toList, "leave room".toList)]

theorem seated_of_run {signKey : CStr → ℤ} {maxRoom : ℕ} {outside : ℕ → Room} {fish : List SettingFish}
    {users : ℕ → User} {s : Server}
    (h : Reach (serverStep signKey) (fun s op => s.session.sparesSeats (s.event signKey op) = true)
      (Server.start maxRoom outside fish users) s) : s.session.Seated := by
  apply session_invariant (fun u e => u.sparesSeats e = true) _ _ _ h
  · exact fun s op hk => hk
  · exact seated_start maxRoom outside fish users
  · exact fun u e hu he hc => hu.step e he hc

theorem distinct_of_accounts {s : Server} (h : ∀ k, (s.slot k).uid = if k.val < 4 then 7 + k.val else 0)
    (j k : Slot) (hj : (s.slot j).uid ≠ 0) (he : (s.slot j).uid = (s.slot k).uid) : j = k := by
  rw [h] at hj
  rw [h, h] at he
  split_ifs at hj he with h1 h2
  · apply Fin.ext
    omega
  · omega
  · exact absurd rfl hj
  · exact absurd rfl hj

theorem others_kept_by_shot : ∃ s t : Server, (s.slot 1).room = 1 ∧ (t.trace.shots.length) = 2 ∧
    s.Isolated t 0 (s.clears 0 aimMessage) := by
  have hrun : ((runIf (serverStep accountKey) (fun s op => s.session.sparesSeats (s.event accountKey op))
      plainServer (visit 0 5 ['a'] ++ visit 1 6 ['b'] ++ visit 2 7 ['c'] ++ visit 3 8 ['d'] ++
        [.message 1 aimMessage 0 0 (fun _ => 0)])).bind (fun s =>
          (Entry.entry .empty s 0 aimMessage 0 0 (fun _ => 0)).map (fun r => (decide (∀ k, (s.slot k).uid =
            if k.val < 4 then 7 + k.val else 0), decide (s.rooms.findRoom.2.1 ≤ s.rooms.maxRoom), (s.slot 0).user,
              s.unprivileged 0, (s.slot 1).room, r.2.trace.shots.length)))) = some (true, true, some 0, true, 1, 2) := by
    decide +kernel
  obtain ⟨s, hs, hh⟩ := Option.bind_eq_some_iff.mp hrun
  obtain ⟨⟨st, t⟩, ht, hh⟩ := Option.map_eq_some_iff.mp hh
  simp only [Prod.mk.injEq, decide_eq_true_eq] at hh
  obtain ⟨huid, hrange, huser, hplain, hroom, hshots⟩ := hh
  have hr := Reach.of_runIf hs
  have hmain := unprivileged_isolated accountKey 2 (fun _ => Room.zero) [⟨1, 1, 1⟩] (fun _ => plainUser)
  exact ⟨s, t, hroom, hshots, (hmain.2 _ _ s t 0 _ _ _ _ (hmain.1 s (hr.mono fun _ _ _ => trivial)) (seated_of_run hr)
    (distinct_of_accounts huid) hrange (by rw [huser]; exact Option.some_ne_none 0) hplain (by decide) ht).2⟩

-- the last player leaves a room in which a bullet of a player who sits elsewhere is still under way
theorem cleared_room_loses_bullet : ∃ (s t : Server) (st st' : Setting),
    runIf (serverStep accountKey) (fun _ _ => true) plainServer
      (visit 0 5 ['a'] ++ visit 1 6 ['b'] ++ visit 2 7 ['c'] ++ visit 3 8 ['d'] ++
        [.message 3 aimMessage 0 0 (fun _ => 0), .message 3 leaveMessage 0 0 (fun _ => 0), inRoom 3, .close 0,
          .close 1]) = some s ∧
    s.session.Seated ∧ (∀ j k, (s.slot j).uid ≠ 0 → (s.slot j).uid = (s.slot k).uid → j = k) ∧
    s.rooms.findRoom.2.1 ≤ s.rooms.maxRoom ∧ (s.slot 2).user ≠ none ∧ s.unprivileged 2 = true ∧
    Entry.entry st s 2 leaveMessage 0 0 (fun _ => 0) = some (st', t) ∧ ¬s.Isolated t 2 (fun _ => False) := by
  have hrun : ((runIf (serverStep accountKey) (fun s op => s.session.sparesSeats (s.event accountKey op))
      plainServer (visit 0 5 ['a'] ++ visit 1 6 ['b'] ++ visit 2 7 ['c'] ++ visit 3 8 ['d'] ++
        [.message 3 aimMessage 0 0 (fun _ => 0), .message 3 leaveMessage 0 0 (fun _ => 0), inRoom 3, .close 0,
          .close 1])).bind (fun s => (Entry.entry .empty s 2 leaveMessage 0 0 (fun _ => 0)).map (fun r =>
            (decide (∀ k, (s.slot k).uid = if k.val = 2 then 9 else if k.val = 3 then 10 else 0) &&
              s.unprivileged 2 && !(r.2.rooms.room 0).bullets.isSome &&
              decide (s.rooms.findRoom.2.1 ≤ s.rooms.maxRoom), s.rooms.maxRoom, (s.slot 2).user, (s.slot 3).room,
                ((s.rooms.room 0).bullets.bind (fun o => o.list.value 0)).map Bullet.uid)))) =
                  some (true, 2, some 2, 2, some 10) := by
    decide +kernel
  obtain ⟨s, hs, hh⟩ := Option.bind_eq_some_iff.mp hrun
  obtain ⟨⟨st, t⟩, ht, hh⟩ := Option.map_eq_some_iff.mp hh
  simp only [Prod.mk.injEq, Bool.and_eq_true, decide_eq_true_eq, Bool.not_eq_true'] at hh
  obtain ⟨⟨⟨⟨huid, hplain⟩, hgone⟩, hrange⟩, hmax, huser, hroom, hbullet⟩ := hh
  refine ⟨s, t, .empty, st, runIf_mono (fun _ _ _ => rfl) hs, seated_of_run (Reach.of_runIf hs), ?_, hrange,
    by rw [huser]; exact Option.some_ne_none 2, hplain, ht, ?_⟩
  · intro j k hj he
    rw [huid] at hj
    rw [huid, huid] at he
    apply Fin.ext
    split_ifs at hj he <;> omega
  · intro h
    obtain ⟨v, hv, hvu⟩ := Option.map_eq_some_iff.mp hbullet
    obtain ⟨o, ho, hval⟩ := Option.bind_eq_some_iff.mp hv
    obtain ⟨o', ho', _⟩ := h.bullets 3 (by decide) (by rw [hroom]; decide) 0 o 0 v (by omega) id ho hval
      (by rw [hvu, huid]; rfl)
    rw [ho'] at hgone
    cases hgone

end FishServer
