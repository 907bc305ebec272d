import FishServer.Winnings

namespace FishServer

open Transition

/-! The player table against the sockets that are open. -/

structure Server.TableAgrees (s : Server) : Prop where
  len : s.len = ((Finset.univ.filter (fun i => (s.slot i).socket ≠ 0)).card : ℤ)
  held : ∀ x ∈ s.sockets, ∃! i, (s.slot i).socket = x
  opened : ∀ i, (s.slot i).socket ≠ 0 → (s.slot i).socket ∈ s.sockets

structure Server.Sockets (s : Server) : Prop where
  nodup : s.sockets.Nodup
  zero : 0 ∉ s.sockets

structure Server.SameTable (s t : Server) : Prop where
  slot : ∀ i, (t.slot i).socket = (s.slot i).socket
  len : t.len = s.len
  sockets : t.sockets = s.sockets

namespace Server

variable {s t : Server} {i : Slot}

theorem TableAgrees.same (h : s.TableAgrees) (ht : s.SameTable t) : t.TableAgrees where
  len := by
    rw [ht.len, h.len]
    simp only [ht.slot]
  held := by
    intro x hx
    rw [ht.sockets] at hx
    simpa only [ht.slot] using h.held x hx
  opened := by
    intro i hi
    rw [ht.slot] at hi
    rw [ht.slot, ht.sockets]
    exact h.opened i hi

theorem Sockets.same (h : s.Sockets) (ht : s.SameTable t) : t.Sockets := by
  constructor
  · rw [ht.sockets]
    exact h.nodup
  · rw [ht.sockets]
    exact h.zero

theorem TableAgrees.unique (h : s.TableAgrees) {j : Slot} (hi : (s.slot i).socket ≠ 0)
    (he : (s.slot j).socket = (s.slot i).socket) : j = i :=
  (h.held _ (h.opened i hi)).unique he rfl

theorem TableAgrees.len_lt (h : s.TableAgrees) (hi : (s.slot i).socket = 0) : s.len < 1024 := by
  rw [h.len]
  have hc := Finset.card_lt_card (s := Finset.univ.filter (fun i => (s.slot i).socket ≠ 0))
    (t := Finset.univ) (Finset.filter_ssubset.mpr ⟨i, Finset.mem_univ i, not_not.mpr hi⟩)
  rw [Finset.card_univ, Fintype.card_fin] at hc
  exact_mod_cast hc

theorem filter_update_insert {f : Slot → ℕ} {x : ℕ} (hx : x ≠ 0) (hi : f i = 0) :
    (Finset.univ.filter (fun j => Function.update f i x j ≠ 0)).card =
      (Finset.univ.filter (fun j => f j ≠ 0)).card + 1 := by
  have he : Finset.univ.filter (fun j => Function.update f i x j ≠ 0) =
      insert i (Finset.univ.filter (fun j => f j ≠ 0)) := by
    ext j
    by_cases hj : j = i
    · subst hj
      simp [hx]
    · simp [hj]
  rw [he, Finset.card_insert_of_notMem (by simpa using hi)]

theorem filter_update_erase {f : Slot → ℕ} (hi : f i ≠ 0) :
    (Finset.univ.filter (fun j => Function.update f i 0 j ≠ 0)).card + 1 =
      (Finset.univ.filter (fun j => f j ≠ 0)).card := by
  have he : Finset.univ.filter (fun j => Function.update f i 0 j ≠ 0) =
      (Finset.univ.filter (fun j => f j ≠ 0)).erase i := by
    ext j
    by_cases hj : j = i
    · subst hj
      simp
    · simp [hj]
  rw [he, Finset.card_erase_add_one (by simpa using hi)]

structure Takes (s t : Server) (i : Slot) (x : ℕ) : Prop where
  slot : ∀ j, (t.slot j).socket = Function.update (fun j => (s.slot j).socket) i x j
  len : t.len = u32 (s.len + 1)
  sockets : t.sockets = x :: s.sockets

structure Gives (s t : Server) (i : Slot) : Prop where
  slot : ∀ j, (t.slot j).socket = Function.update (fun j => (s.slot j).socket) i 0 j
  len : t.len = u32 (s.len - 1)
  sockets : t.sockets = s.sockets.erase (s.slot i).socket

theorem TableAgrees.takes (h : s.TableAgrees) (hs : s.Sockets) {x : ℕ} (ht : s.Takes t i x)
    (hi : (s.slot i).socket = 0) (hx : x ≠ 0) (hn : x ∉ s.sockets) : t.TableAgrees := by
  have hother : ∀ y ∈ s.sockets, ∀ j, (t.slot j).socket = y ↔ (s.slot j).socket = y := by
    intro y hy j
    rw [ht.slot]
    by_cases hj : j = i
    · subst hj
      rw [Function.update_self, hi]
      constructor
      · rintro rfl
        exact absurd hy hn
      · rintro rfl
        exact absurd hy hs.zero
    · rw [Function.update_of_ne hj]
  constructor
  · have hlt := h.len_lt hi
    have hc := filter_update_insert (f := fun j => (s.slot j).socket) hx hi
    have hlen := h.len
    rw [ht.len]
    simp only [ht.slot]
    rw [hc, u32_of_bounds] <;> omega
  · intro y hy
    rw [ht.sockets] at hy
    rcases List.mem_cons.mp hy with rfl | hy
    · refine ⟨i, by simp only [ht.slot, Function.update_self], ?_⟩
      intro j hj
      by_contra hji
      simp only [ht.slot, Function.update_of_ne hji] at hj
      exact hn (hj ▸ h.opened j (hj ▸ hx))
    · simpa only [hother y hy] using h.held y hy
  · intro j hj
    rw [ht.sockets]
    by_cases hji : j = i
    · subst hji
      rw [ht.slot, Function.update_self]
      exact List.mem_cons_self
    · rw [ht.slot, Function.update_of_ne hji] at hj ⊢
      exact List.mem_cons_of_mem _ (h.opened j hj)

theorem TableAgrees.gives (h : s.TableAgrees) (hs : s.Sockets) (ht : s.Gives t i)
    (hi : (s.slot i).socket ≠ 0) : t.TableAgrees := by
  constructor
  · have hc := filter_update_erase (f := fun j => (s.slot j).socket) hi
    have hlen := h.len
    have hle : (Finset.univ.filter (fun j => (s.slot j).socket ≠ 0)).card ≤ 1024 := by
      have := Finset.card_le_univ (Finset.univ.filter (fun j => (s.slot j).socket ≠ 0))
      rwa [Fintype.card_fin] at this
    rw [ht.len]
    simp only [ht.slot]
    rw [u32_of_bounds] <;> omega
  · intro y hy
    rw [ht.sockets, hs.nodup.mem_erase_iff] at hy
    obtain ⟨j, hj, hu⟩ := h.held y hy.2
    have hji : j ≠ i := by
      rintro rfl
      exact hy.1 hj.symm
    refine ⟨j, ?_, ?_⟩
    · simp only [ht.slot, Function.update_of_ne hji]
      exact hj
    · intro k hk
      by_cases hki : k = i
      · subst hki
        simp only [ht.slot, Function.update_self] at hk
        exact absurd (hk ▸ hy.2) hs.zero
      · simp only [ht.slot, Function.update_of_ne hki] at hk
        exact hu k hk
  · intro j hj
    have hji : j ≠ i := by
      rintro rfl
      rw [ht.slot, Function.update_self] at hj
      exact hj rfl
    rw [ht.slot, Function.update_of_ne hji] at hj ⊢
    rw [ht.sockets, hs.nodup.mem_erase_iff]
    exact ⟨fun he => hji (h.unique hi he), h.opened j hj⟩

theorem Sockets.takes (h : s.Sockets) {x : ℕ} (ht : s.Takes t i x) (hx : x ≠ 0) (hn : x ∉ s.sockets) :
    t.Sockets := by
  constructor
  · rw [ht.sockets]
    exact List.nodup_cons.mpr ⟨hn, h.nodup⟩
  · rw [ht.sockets, List.mem_cons, not_or]
    exact ⟨hx.symm, h.zero⟩

theorem Sockets.gives (h : s.Sockets) (ht : s.Gives t i) : t.Sockets := by
  constructor
  · rw [ht.sockets]
    exact h.nodup.erase _
  · rw [ht.sockets]
    exact fun hm => h.zero (List.mem_of_mem_erase hm)

theorem SameTable.refl (s : Server) : s.SameTable s := ⟨fun _ => rfl, rfl, rfl⟩

theorem SameTable.trans {u : Server} (h : s.SameTable t) (h' : t.SameTable u) : s.SameTable u :=
  ⟨fun i => (h'.slot i).trans (h.slot i), h'.len.trans h.len, h'.sockets.trans h.sockets⟩

theorem SameTable.of_update (i : Slot) (p : Player) (hs : t.slot = Function.update s.slot i p)
    (hp : p.socket = (s.slot i).socket) (hl : t.len = s.len) (hk : t.sockets = s.sockets) : s.SameTable t := by
  refine ⟨?_, hl, hk⟩
  intro j
  rw [hs]
  by_cases hj : j = i
  · rw [hj, Function.update_self, hp]
  · rw [Function.update_of_ne hj]

theorem leaveRoom_same (s : Server) (i : Slot) : s.SameTable (s.leaveRoom i) := by
  refine .of_update i (s.rooms.leave (s.slot i)).2 rfl ?_ rfl rfl
  unfold Rooms.leave
  split_ifs <;> rfl

theorem removeSlot_gives (hc : (s.slot i).closeing = false) (hi : (s.slot i).socket ≠ 0) :
    s.Gives (s.removeSlot i) i := by
  unfold removeSlot Players.remove
  rw [if_neg (by simp [hc, hi])]
  refine ⟨?_, rfl, rfl⟩
  intro j
  change (Function.update s.slot i Player.zero j).socket = _
  by_cases hj : j = i
  · rw [hj, Function.update_self, Function.update_self]
    rfl
  · rw [Function.update_of_ne hj, Function.update_of_ne hj]

theorem removeSlot_same (h : (s.slot i).closeing ∨ (s.slot i).socket = 0) : s.SameTable (s.removeSlot i) := by
  unfold removeSlot Players.remove
  rw [if_pos h]
  exact .of_update i (s.slot i) rfl rfl rfl rfl

theorem leaveRoom_closeing (s : Server) (i j : Slot) : ((s.leaveRoom i).slot j).closeing = (s.slot j).closeing := by
  have h := (s.session.unseat_open i j).2
  rw [← session_leaveRoom] at h
  exact h

structure Kept (s : Server) : Prop where
  accounted : s.TableAgrees
  sockets : s.Sockets
  tidy : s.session.Tidy

theorem Kept.drop (h : s.Kept) (i : Slot) : (s.drop i).TableAgrees ∧ (s.drop i).Sockets := by
  have hl := s.leaveRoom_same i
  have hacc := h.accounted.same hl
  have hsock := h.sockets.same hl
  by_cases hi : (s.slot i).socket = 0
  · have hr := removeSlot_same (s := s.leaveRoom i) (.inr ((hl.slot i).trans hi))
    exact ⟨hacc.same hr, hsock.same hr⟩
  · have hi' : ((s.leaveRoom i).slot i).socket ≠ 0 := by
      rw [hl.slot]
      exact hi
    have hg := removeSlot_gives ((s.leaveRoom_closeing i i).trans (h.tidy.closeing i)) hi'
    exact ⟨hacc.gives hsock hg hi', hsock.gives hg⟩

end Server

section

variable {signKey : CStr → ℤ} {s t : Server} {i : Slot} {json : JsonValue} {now : ℤ} {time : ℚ} {rand : ℕ → ℕ}

theorem openRoom_same {p : Player} {r : ℕ} (h : Entry.openRoom s p r time rand = some t) : s.SameTable t := by
  unfold Entry.openRoom at h
  split at h
  · obtain ⟨fish, _, rfl⟩ := Option.map_eq_some_iff.mp h
    exact ⟨fun _ => rfl, rfl, rfl⟩
  · cases h

theorem inRoom_same (h : Entry.inRoom s i now time rand = some t) : s.SameTable t := by
  unfold Entry.inRoom at h
  split at h
  · cases h
    exact .refl s
  split_ifs at h
  · cases h
    exact .refl s
  simp only at h
  split_ifs at h
  · cases h
    exact ⟨fun _ => rfl, rfl, rfl⟩
  · have hp : ({ s.slot i with room := s.rooms.findRoom.2.1, seat := s.rooms.findRoom.2.2, gameTime := now } :
        Player).socket = (s.slot i).socket := rfl
    split at h
    · cases h
      exact .of_update i _ rfl hp rfl rfl
    · refine Server.SameTable.trans ?_ (openRoom_same h)
      exact .of_update i _ rfl hp rfl rfl

theorem played_same (h : Played s t) : s.SameTable t := by
  have hs := played_session h
  have hsock : ∀ i, (t.slot i).socket = (s.slot i).socket :=
    fun i => congrArg (fun u : Session => (u.slot i).socket) hs
  obtain ⟨u, hu, sent, rfl⟩ := h
  cases hu <;> exact ⟨hsock, rfl, rfl⟩

theorem entryVerify_same (s : Server) (i : Slot) (json : JsonValue) : s.SameTable (Entry.verifyAccount s i json) := by
  unfold Entry.verifyAccount
  split
  · exact ⟨fun _ => rfl, rfl, rfl⟩
  · exact .of_update i { s.slot i with kick := json.valueToInt "kick".toList, tmp := _ } rfl rfl rfl rfl

theorem kickUser_same (h : Entry.kicked s i json = none) : s.SameTable (Entry.kickUser s i json) := by
  unfold Entry.kickUser
  unfold Entry.kicked at h
  simp only at h ⊢
  by_cases h1 : json.valueToInt "socket_id".toList ≤ 0
  · rw [if_pos h1]
    exact ⟨fun _ => rfl, rfl, rfl⟩
  rw [if_neg h1]
  by_cases h2 : json.valueToInt "socket_id".toList = (s.slot i).socket
  · rw [if_pos h2]
    exact ⟨fun _ => rfl, rfl, rfl⟩
  rw [if_neg h2]
  rw [if_pos ⟨not_le.mp h1, h2⟩] at h
  rw [h]
  exact .refl s

def Event.isKick : Event → Bool
  | .kick _ => true
  | _ => false

theorem exit_exited (s : Server) (i : Slot) : (Entry.exit s i).exited = true := by
  unfold Entry.exit
  generalize List.finRange 1024 = ks
  rfl

theorem handled_same {e : Event} (h : Handled s i json now time rand e t) (hk : e.isKick = false)
    (hx : t.exited = false) : s.SameTable t := by
  cases h with
  | verify => apply entryVerify_same
  | inRoom _ hr => exact inRoom_same hr
  | leaveRoom => exact (s.leaveRoom_same i).trans ⟨fun _ => rfl, rfl, rfl⟩
  | played hp => exact played_same hp
  | kickUser =>
    apply kickUser_same
    cases hn : Entry.kicked s i json with
    | none => rfl
    | some k =>
      rw [hn] at hk
      cases hk
  | exit =>
    have he := exit_exited s i
    rw [hx] at he
    cases he

theorem verify_kept (signKey : CStr → ℤ) (h : s.Kept) (i : Slot) (key : CStr) (loaded : User) :
    (Thread.verifyAccount signKey s i key loaded).TableAgrees ∧
      (Thread.verifyAccount signKey s i key loaded).Sockets := by
  have hload : ∀ (u : Server) (uid : ℤ), u.SameTable ((Thread.verifyAssign u i uid loaded).send
      ((Thread.verifyAssign u i uid loaded).slot i) (.verified uid loaded.coin loaded.name)) :=
    fun u uid => .of_update i { u.slot i with uid, user := some u.nextUser } rfl rfl rfl rfl
  unfold Thread.verifyAccount
  rcases verifyScan_cases signKey s i key with ⟨p, r, hscan⟩ | ⟨_, _, _, ⟨_, hscan⟩ | ⟨k, _, _, p, r, hscan⟩⟩
  · rw [hscan]
    exact ⟨h.accounted.same ⟨fun _ => rfl, rfl, rfl⟩, h.sockets.same ⟨fun _ => rfl, rfl, rfl⟩⟩
  · rw [hscan]
    exact ⟨h.accounted.same (hload _ _), h.sockets.same (hload _ _)⟩
  · rw [hscan]
    have hsend : (s.send p r).Kept :=
      ⟨h.accounted.same ⟨fun _ => rfl, rfl, rfl⟩, h.sockets.same ⟨fun _ => rfl, rfl, rfl⟩, h.tidy⟩
    obtain ⟨hacc, hsock⟩ := hsend.drop k
    exact ⟨hacc.same (hload _ _), hsock.same (hload _ _)⟩

def Server.roomy (s : Server) : Op → Bool
  | .connect .. => (findSlot (fun i => decide ((s.slot i).socket = 0))).isSome
  | _ => true

def Server.accounts (signKey : CStr → ℤ) (s : Server) (op : Op) : Bool :=
  !(s.event signKey op).isKick && s.roomy op

theorem add_takes (h : s.TableAgrees) (socket ip : ℕ) (now : ℤ)
    (hf : findSlot (fun i => decide ((s.slot i).socket = 0)) = some i) :
    s.Takes { Players.add s socket ip now with sockets := socket :: s.sockets } i socket := by
  have hlt := h.len_lt (of_decide_eq_true (findSlot_some hf))
  unfold Players.add
  rw [if_neg (by omega), hf]
  refine ⟨?_, rfl, rfl⟩
  intro j
  change (Function.update s.slot i _ j).socket = _
  by_cases hj : j = i
  · rw [hj, Function.update_self, Function.update_self]
  · rw [Function.update_of_ne hj, Function.update_of_ne hj]

theorem Server.Kept.step (h : s.Kept) (op : Op) (hc : s.accounts signKey op = true)
    (ht : serverStep signKey s op = some t) (hx : t.exited = false) : t.Kept := by
  obtain ⟨he, hst⟩ := serverStep_session ht
  have htidy : t.session.Tidy := by
    rw [hst]
    exact h.tidy.step _ he
  have hsame : s.SameTable t → t.Kept := fun hs => ⟨h.accounted.same hs, h.sockets.same hs, htidy⟩
  obtain ⟨hkick, hroom⟩ := Bool.and_eq_true_iff.mp hc
  have hstep := ht
  unfold serverStep at ht
  split_ifs at ht
  cases op with
  | connect socket ip now =>
    simp only at ht
    split_ifs at ht with hs
    cases ht
    simp only [Server.roomy, Option.isSome_iff_exists] at hroom
    obtain ⟨i, hi⟩ := hroom
    have hfree : (s.slot i).socket = 0 := of_decide_eq_true (findSlot_some hi)
    have htake := add_takes h.accounted socket ip now hi
    exact ⟨h.accounted.takes h.sockets htake hfree hs.1 hs.2, h.sockets.takes htake hs.1 hs.2, htidy⟩
  | handshake i =>
    simp only at ht
    split_ifs at ht
    cases ht
    exact hsame (.of_update i { s.slot i with hack := true } rfl rfl rfl rfl)
  | message i json now time rand =>
    simp only at ht
    split_ifs at ht
    exact hsame (handled_same (dispatch_handled ht) (Bool.not_eq_true' _ ▸ hkick) hx)
  | close i =>
    simp only at ht
    split_ifs at ht
    cases ht
    exact ⟨(h.drop i).1, (h.drop i).2, htidy⟩
  | verify i key loaded =>
    simp only at ht
    split_ifs at ht
    cases ht
    obtain ⟨hacc, hsock⟩ := verify_kept signKey h i key loaded
    exact ⟨hacc.same ⟨fun _ => rfl, rfl, rfl⟩, hsock.same ⟨fun _ => rfl, rfl, rfl⟩, htidy⟩
  | saved a =>
    simp only at ht
    split_ifs at ht
    cases ht
    exact hsame ⟨fun _ => rfl, rfl, rfl⟩
  | fish r time rand => exact hsame (played_same (played_of_step (.fish r time rand) rfl hstep))
  | bulletVisit r b now => exact hsame (played_same (played_of_step (.bulletVisit r b now) rfl hstep))
  | fishVisit r f => exact hsame (played_same (played_of_step (.fishVisit r f) rfl hstep))

theorem kickUser_some {k : Slot} (h : Entry.kicked s i json = some k) :
    Entry.kickUser s i json =
      (s.dropCopy k).send (s.slot i) (.text "\x7b'op':'kick user', 'status':1, 'msg':'ok!'\x7d".toList) := by
  unfold Entry.kicked at h
  simp only at h
  split_ifs at h with hid
  unfold Entry.kickUser
  simp only
  rw [if_neg (not_le.mpr hid.1), if_neg hid.2, h]

theorem dropCopy_sockets {k : Slot} (hc : (s.slot k).closeing = false) (hk : (s.slot k).socket ≠ 0) :
    (s.dropCopy k).sockets = s.sockets.erase (s.slot k).socket := by
  have hl : (s.rooms.leave (s.slot k)).2.closeing = (s.slot k).closeing ∧
      (s.rooms.leave (s.slot k)).2.socket = (s.slot k).socket := by
    unfold Rooms.leave
    split_ifs <;> exact ⟨rfl, rfl⟩
  unfold Server.dropCopy Players.remove
  rw [hl.1, hl.2, if_neg]
  simp [hc, hk]

theorem kickUser_closes {k : Slot} (ht : s.session.Tidy) (h : Entry.kicked s i json = some k) :
    ((Entry.kickUser s i json).slot k).socket = (s.slot k).socket ∧
      (Entry.kickUser s i json).sockets = s.sockets.erase (s.slot k).socket := by
  have hs := kickUser_session s i json
  rw [h] at hs
  have hslot := congrArg (fun u : Session => (u.slot k).socket) hs
  refine ⟨hslot.trans (congrArg (fun f : Slot → Guest => (f k).socket) (s.session.kick_frame k).slot), ?_⟩
  rw [kickUser_some h]
  exact dropCopy_sockets (ht.closeing k) (kicked_connected h)

theorem kicked_not_accounted (h : s.Sockets) (ht : s.session.Tidy) (hk : (Entry.event s i json).isKick = true)
    (hd : Entry.dispatch s i json now time rand = some t) : ¬t.TableAgrees := by
  have hh := dispatch_handled hd
  generalize Entry.event s i json = e at hk hh
  cases hh with
  | verify =>
    split at hk <;> cases hk
  | inRoom =>
    split_ifs at hk <;> cases hk
  | leaveRoom => cases hk
  | played => cases hk
  | exit => cases hk
  | kickUser =>
    cases hn : Entry.kicked s i json with
    | none =>
      rw [hn] at hk
      cases hk
    | some k =>
      obtain ⟨hslot, hsock⟩ := kickUser_closes ht hn
      intro ha
      have hm := ha.opened k
      rw [hslot, hsock, h.nodup.mem_erase_iff] at hm
      exact (hm (kicked_connected hn)).1 rfl

theorem full_not_accounted {socket ip : ℕ} (h : s.TableAgrees) (hf : s.roomy (.connect socket ip now) = false)
    (hs : socket ≠ 0) (hn : socket ∉ s.sockets) :
    ¬Server.TableAgrees { Players.add s socket ip now with sockets := socket :: s.sockets } := by
  simp only [Server.roomy, Option.isSome_eq_false_iff, Option.isNone_iff_eq_none] at hf
  have hadd : Players.add s socket ip now = s := by
    unfold Players.add
    split_ifs
    · rfl
    · rw [hf]
  rw [hadd]
  intro ha
  obtain ⟨j, hj, _⟩ := ha.held socket List.mem_cons_self
  change (s.slot j).socket = socket at hj
  exact hn (hj ▸ h.opened j (hj ▸ hs))

theorem Server.Kept.breaks (h : s.Kept) (op : Op) (hc : s.accounts signKey op = false)
    (ht : serverStep signKey s op = some t) : ¬t.TableAgrees := by
  rcases Bool.and_eq_false_iff.mp hc with hk | hf
  · have hk' : (s.event signKey op).isKick = true := by simpa using hk
    unfold serverStep at ht
    split_ifs at ht
    cases op with
    | message i json now time rand =>
      simp only at ht
      split_ifs at ht
      exact kicked_not_accounted h.sockets h.tidy hk' ht
    | connect socket ip now =>
      unfold Server.event at hk'
      simp only at hk'
      split_ifs at hk'
      · cases hk'
      · split at hk' <;> cases hk'
    | verify i key loaded =>
      unfold Server.event Thread.verifyEvent at hk'
      simp only at hk'
      split at hk' <;> cases hk'
    | handshake | close | saved | fish | bulletVisit | fishVisit => cases hk'
  · unfold serverStep at ht
    split_ifs at ht
    cases op with
    | connect socket ip now =>
      simp only at ht
      split_ifs at ht with hs
      cases ht
      exact full_not_accounted h.accounted hf hs.1 hs.2
    | message | handshake | close | verify | saved | fish | bulletVisit | fishVisit => cases hf

end

theorem kept_start (maxRoom : ℕ) (outside : ℕ → Room) (fish : List SettingFish) (users : ℕ → User) :
    (Server.start maxRoom outside fish users).Kept := by
  refine ⟨⟨?_, ?_, ?_⟩, ⟨List.nodup_nil, List.not_mem_nil⟩, tidy_start maxRoom outside fish users⟩
  · have he : Finset.univ.filter (fun i => ((Server.start maxRoom outside fish users).slot i).socket ≠ 0) = ∅ :=
      Finset.filter_eq_empty_iff.mpr (fun _ _ => not_not.mpr rfl)
    rw [he]
    rfl
  · exact fun x hx => nomatch hx
  · exact fun i hi => absurd rfl hi

theorem table_accounted (signKey : CStr → ℤ) (maxRoom : ℕ) (outside : ℕ → Room) (fish : List SettingFish)
    (users : ℕ → User) (s : Server)
    (h : Reach (serverStep signKey) (fun s op => s.accounts signKey op = true)
      (Server.start maxRoom outside fish users) s) (hx : s.exited = false) :
    s.TableAgrees ∧ ∀ op t, serverStep signKey s op = some t → t.exited = false →
      (t.TableAgrees ↔ s.accounts signKey op = true) := by
  have hs : s.exited = false → s.Kept := by
    apply h.invariant (P := fun s => s.exited = false → s.Kept)
    · exact fun _ => kept_start maxRoom outside fish users
    · intro s op t hs hc ht hx
      apply (hs _).step op hc ht hx
      unfold serverStep at ht
      split_ifs at ht with he
      simpa using he
  refine ⟨(hs hx).accounted, ?_⟩
  intro op t ht hxt
  constructor
  · intro ha
    by_contra hc
    exact (hs hx).breaks op (by simpa using hc) ht ha
  · exact fun hc => ((hs hx).step op hc ht hxt).accounted

theorem table_after_takeOver : ∃ s : Server, (s.len, s.sockets) = (1, [6]) ∧ s.TableAgrees := by
  have hrun : ((runIf (serverStep sampleKey) (fun s op => s.accounts sampleKey op) sampleServer
      (enter 0 5 ['a'] ++ enter 1 6 ['a'])).map (fun s => (s.exited, s.len, s.sockets))) =
        some (false, 1, [6]) := by decide +kernel
  obtain ⟨s, hs, hh⟩ := Option.map_eq_some_iff.mp hrun
  obtain ⟨hx, hh⟩ := Prod.mk.inj hh
  exact ⟨s, hh, (table_accounted sampleKey 1 _ _ _ s (Reach.of_runIf hs) hx).1⟩

-- the kick works on a copy of the slot
theorem kicked_slot_keeps_socket : ∃ s : Server, runIf (serverStep sampleKey) (fun _ _ => true) sampleServer
      (enter 0 5 ['a'] ++ enter 1 6 ['b'] ++ [kickSocket 1 ['5']]) = some s ∧ ¬s.TableAgrees := by
  have hrun : ((runIf (serverStep sampleKey) (fun _ _ => true) sampleServer
      (enter 0 5 ['a'] ++ enter 1 6 ['b'] ++ [kickSocket 1 ['5']])).map
        (fun s => ((s.slot 0).socket, s.sockets))) = some (5, [6]) := by decide +kernel
  obtain ⟨s, hs, hh⟩ := Option.map_eq_some_iff.mp hrun
  simp only [Prod.mk.injEq] at hh
  refine ⟨s, hs, ?_⟩
  intro h
  have hm := h.opened 0 (by rw [hh.1]; decide)
  rw [hh.1, hh.2] at hm
  revert hm
  decide

end FishServer
