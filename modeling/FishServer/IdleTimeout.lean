import FishServer.SlotTimes

namespace FishServer

open Transition

/-! The timeouts that `onread` looks at, against what the connection of a slot has done. -/

structure Timeouts where
  noVerifyAccountTimout : ℤ
  noGameTimeout : ℤ
  noOpTimeout : ℤ

def onread (o : Timeouts) (now : ℤ) (p : Player) : Bool :=
  if 0 < o.noVerifyAccountTimout ∧ o.noVerifyAccountTimout < i32 (now - p.inTime) ∧ p.uid = 0 then false
  else if 0 < o.noGameTimeout ∧ o.noGameTimeout < i32 (now - p.inTime) ∧ p.room = 0 then false
  else if 0 < o.noOpTimeout ∧ o.noOpTimeout < i32 (now - p.opTime) then false
  else true

/-- What the connection of a slot has done: when it came, whether its account was verified, when it last left a
room and when it last shot. -/
structure History where
  connect : ℤ
  verified : Bool
  left : Option ℤ
  op : Option ℤ
deriving DecidableEq

structure Watch where
  server : Server
  clock : ℤ
  past : Slot → History

def Op.time (clock : ℤ) : Op → ℤ
  | .connect _ _ now => now
  | .message _ _ now _ _ => now
  | _ => clock

def Watch.record (signKey : CStr → ℤ) (w : Watch) : Op → Slot → History
  | .connect socket ip now =>
    match w.server.event signKey (.connect socket ip now) with
    | .connect i _ => Function.update w.past i ⟨now, false, none, none⟩
    | _ => w.past
  | .message i json now _ _ =>
    if Entry.shoots w.server i json then Function.update w.past i { w.past i with op := some now }
    else
      match Entry.event w.server i json with
      | .leave i => Function.update w.past i { w.past i with left := some now }
      | _ => w.past
  | .verify i key _ =>
    match Thread.verifyEvent signKey w.server i key with
    | .login i _ _ _ => Function.update w.past i { w.past i with verified := true }
    | _ => w.past
  | _ => w.past

def Watch.step (signKey : CStr → ℤ) (w : Watch) (op : Op) : Option Watch :=
  (serverStep signKey w.server op).map (fun t => ⟨t, op.time w.clock, w.record signKey op⟩)

def Watch.inOrder (w : Watch) (op : Op) : Bool :=
  decide (w.clock ≤ op.time w.clock) && decide (op.time w.clock ≤ maxInt)

def Watch.start (s : Server) : Watch := ⟨s, 0, fun _ => ⟨0, false, none, none⟩⟩

section

variable (o : Timeouts) (now : ℤ) (p : Player) (h : History)

def VerifyDue : Prop :=
  0 < o.noVerifyAccountTimout ∧ h.verified = false ∧ o.noVerifyAccountTimout < now - h.connect

def GameDue : Prop :=
  0 < o.noGameTimeout ∧ p.room = 0 ∧ o.noGameTimeout < now - max h.connect (h.left.getD h.connect)

def OpDue : Prop := 0 < o.noOpTimeout ∧ o.noOpTimeout < now - max h.connect (h.op.getD h.connect)

/-- The timeout without a game has run out since the player came, and not since it left a room. -/
def JustBack : Prop :=
  0 < o.noGameTimeout ∧ p.room = 0 ∧ o.noGameTimeout < now - h.connect ∧ ∃ t ∈ h.left, now - t ≤ o.noGameTimeout

def NoShotYet : Prop :=
  0 < o.noOpTimeout ∧ h.op = none ∧ o.noOpTimeout < now ∧ now - h.connect ≤ o.noOpTimeout

/-- Where the check without a game or the one without a shot comes too early, another timeout has run out. -/
structure InTime : Prop where
  back : JustBack o now p h → VerifyDue o now h ∨ OpDue o now h
  fresh : NoShotYet o now h → VerifyDue o now h ∨ GameDue o now p h

end

structure History.Fits (h : History) (clock : ℤ) (p : Player) : Prop where
  inTime : p.inTime = h.connect
  opTime : p.opTime = h.op.getD 0
  verified : h.verified = true → p.uid ≠ 0
  connect : 0 ≤ h.connect ∧ h.connect ≤ clock
  left : ∀ t ∈ h.left, h.connect ≤ t ∧ t ≤ clock
  op : ∀ t ∈ h.op, h.connect ≤ t ∧ t ≤ clock

structure Watch.Sound (w : Watch) : Prop where
  clock : 0 ≤ w.clock ∧ w.clock ≤ maxInt
  free : ∀ i, (w.server.slot i).socket = 0 → (w.server.slot i).opTime = 0
  fits : ∀ i, (w.server.slot i).socket ≠ 0 → (w.past i).Fits w.clock (w.server.slot i)

section

variable {signKey : CStr → ℤ} {h : History} {p p' : Player} {clock clock' : ℤ} {w w' : Watch} {op : Op} {i : Slot}

theorem History.Fits.later (hf : h.Fits clock p) (hc : clock ≤ clock') : h.Fits clock' p where
  inTime := hf.inTime
  opTime := hf.opTime
  verified := hf.verified
  connect := ⟨hf.connect.1, hf.connect.2.trans hc⟩
  left := fun t ht => ⟨(hf.left t ht).1, (hf.left t ht).2.trans hc⟩
  op := fun t ht => ⟨(hf.op t ht).1, (hf.op t ht).2.trans hc⟩

theorem History.Fits.stays (hf : h.Fits clock p) (hs : p.Stays p') (hne : p'.socket ≠ 0) : h.Fits clock p' := by
  rcases hs with ⟨-, hin, hop, huid⟩ | ⟨hgone, -⟩
  · exact ⟨hin.trans hf.inTime, hop.trans hf.opTime, fun hv => huid (hf.verified hv), hf.connect, hf.left, hf.op⟩
  · exact absurd hgone hne

theorem History.Fits.leave (hf : h.Fits clock p) : { h with left := some clock }.Fits clock p := by
  refine ⟨hf.inTime, hf.opTime, hf.verified, hf.connect, ?_, hf.op⟩
  rintro t ⟨⟩
  exact ⟨hf.connect.2, le_rfl⟩

theorem History.Fits.shoot (hf : h.Fits clock p) :
    { h with op := some clock }.Fits clock { p with opTime := clock } := by
  refine ⟨hf.inTime, rfl, hf.verified, hf.connect, hf.left, ?_⟩
  rintro t ⟨⟩
  exact ⟨hf.connect.2, le_rfl⟩

theorem History.Fits.verify (hf : h.Fits clock p) (huid : p.uid ≠ 0) :
    { h with verified := true }.Fits clock p :=
  ⟨hf.inTime, hf.opTime, fun _ => huid, hf.connect, hf.left, hf.op⟩

theorem Watch.Sound.stays (hs : w.Sound) {t : Server} (ht : w.server.Stays t) (hc : w.clock ≤ clock)
    (hmax : clock ≤ maxInt) : Watch.Sound ⟨t, clock, w.past⟩ where
  clock := ⟨hs.clock.1.trans hc, hmax⟩
  free := by
    intro i hi
    rcases ht i with ⟨hsock, -, hop, -⟩ | ⟨-, hop⟩
    · exact hop.trans (hs.free i (hsock.symm.trans hi))
    · exact hop
  fits := by
    intro i hi
    have hbefore : (w.server.slot i).socket ≠ 0 := by
      rcases ht i with ⟨hsock, -⟩ | ⟨hgone, -⟩
      · rw [← hsock]
        exact hi
      · exact absurd hgone hi
    exact ((hs.fits i hbefore).later hc).stays (ht i) hi

theorem Watch.Sound.record {s : Server} {past : Slot → History} (hs : Watch.Sound ⟨s, clock, past⟩) {h : History}
    (hf : (s.slot i).socket ≠ 0 → h.Fits clock (s.slot i)) : Watch.Sound ⟨s, clock, Function.update past i h⟩ where
  clock := hs.clock
  free := hs.free
  fits := by
    intro j hj
    by_cases hji : j = i
    · subst hji
      simp only [Function.update_self]
      exact hf hj
    · simp only [Function.update_of_ne hji]
      exact hs.fits j hj

theorem Watch.Sound.connect (hs : w.Sound) (signKey : CStr → ℤ) (socket ip : ℕ) {now : ℤ} (hc : w.clock ≤ now)
    (hmax : now ≤ maxInt) :
    Watch.Sound ⟨Players.add w.server socket ip now, now, w.record signKey (.connect socket ip now)⟩ := by
  have hsame := hs.stays (.of_slot rfl) hc hmax
  unfold Players.add Watch.record Server.event
  simp only
  by_cases hlen : w.server.len = 1024
  · rw [if_pos hlen, if_pos hlen]
    exact hsame
  rw [if_neg hlen, if_neg hlen]
  cases hfind : findSlot (fun i => decide ((w.server.slot i).socket = 0)) with
  | none => exact hsame
  | some i =>
    have hfree := hs.free i (of_decide_eq_true (findSlot_some hfind))
    constructor
    · exact hsame.clock
    · intro j hj
      by_cases hji : j = i
      · subst hji
        simp only [Server.setSlot, Function.update_self]
        exact hfree
      · simp only [Server.setSlot, Function.update_of_ne hji] at hj ⊢
        exact hs.free j hj
    · intro j hj
      by_cases hji : j = i
      · subst hji
        simp only [Server.setSlot, Function.update_self]
        refine ⟨rfl, hfree, ?_, ⟨hs.clock.1.trans hc, le_rfl⟩, ?_, ?_⟩
        · rintro ⟨⟩
        · rintro t ⟨⟩
        · rintro t ⟨⟩
      · simp only [Server.setSlot, Function.update_of_ne hji] at hj ⊢
        exact (hs.fits j hj).later hc

theorem Watch.Sound.message (hs : w.Sound) (signKey : CStr → ℤ) {json : JsonValue} {now : ℤ}
    {time : ℚ} {rand : ℕ → ℕ} {t : Server} (h : Entry.dispatch w.server i json now time rand = some t)
    (hne : (w.server.slot i).socket ≠ 0) (hc : w.clock ≤ now) (hmax : now ≤ maxInt) :
    Watch.Sound ⟨t, now, w.record signKey (.message i json now time rand)⟩ := by
  unfold Watch.record
  simp only
  by_cases hshot : Entry.shoots w.server i json = true
  · rw [if_pos hshot]
    have hslot := dispatch_shot hshot h
    have hsound := hs.stays (.of_slot rfl) hc hmax
    constructor
    · exact hsound.clock
    · intro j hj
      by_cases hji : j = i
      · subst hji
        simp only [hslot, Function.update_self] at hj
        exact absurd hj hne
      · simp only [hslot, Function.update_of_ne hji] at hj ⊢
        exact hs.free j hj
    · intro j hj
      by_cases hji : j = i
      · subst hji
        simp only [hslot, Function.update_self]
        exact ((hs.fits j hne).later hc).shoot
      · simp only [hslot, Function.update_of_ne hji] at hj ⊢
        exact (hs.fits j hj).later hc
  · rw [if_neg hshot]
    have hsound := hs.stays (dispatch_stays (by simpa using hshot) h) hc hmax
    rcases entryEvent_cases w.server i json with he | ⟨key, kick, he⟩ | ⟨-, he⟩ | he | ⟨k, -, he⟩ | he
    all_goals rw [he]
    case inr.inr.inr.inl => exact hsound.record (fun hi => (hsound.fits i hi).leave)
    all_goals exact hsound

theorem Watch.Sound.verify (hs : w.Sound) (signKey : CStr → ℤ) (i : Slot) (key : CStr) (loaded : User) :
    Watch.Sound ⟨Thread.verifyAccount signKey w.server i key loaded, w.clock,
      w.record signKey (.verify i key loaded)⟩ := by
  obtain ⟨hstays, hlogin⟩ := verify_stays signKey w.server i key loaded
  have hsound := hs.stays hstays le_rfl hs.clock.2
  unfold Watch.record
  simp only
  rcases hlogin with hidle | huid
  · rw [hidle]
    exact hsound
  · have hone := hsound.record (fun hi => (hsound.fits i hi).verify huid)
    unfold Thread.verifyEvent
    cases Thread.verifyScan signKey w.server i key with
    | denied t => exact hsound
    | granted t uid => exact hone

theorem watch_step_sound (hs : w.Sound) (ho : w.inOrder op = true) (h : w.step signKey op = some w') :
    w'.Sound := by
  obtain ⟨t, ht, rfl⟩ := Option.map_eq_some_iff.mp h
  simp only [Watch.inOrder, Bool.and_eq_true, decide_eq_true_eq] at ho
  have hstep := ht
  unfold serverStep at ht
  split_ifs at ht
  cases op with
  | connect socket ip now =>
    simp only at ht
    split_ifs at ht with hg
    cases ht
    obtain ⟨hclock, hfree, hfits⟩ := hs.connect signKey socket ip ho.1 ho.2
    exact ⟨hclock, hfree, hfits⟩
  | handshake i =>
    simp only at ht
    split_ifs at ht
    cases ht
    exact hs.stays (.of_update i rfl (.inl ⟨rfl, rfl, rfl, id⟩)) ho.1 ho.2
  | message i json now time rand =>
    simp only at ht
    split_ifs at ht with hg
    have hconnected := hg.1
    unfold Server.connected at hconnected
    rw [Bool.and_eq_true] at hconnected
    exact hs.message signKey ht (of_decide_eq_true hconnected.1) ho.1 ho.2
  | close i =>
    simp only at ht
    split_ifs at ht
    cases ht
    exact hs.stays (drop_stays w.server i) ho.1 ho.2
  | verify i key loaded =>
    simp only at ht
    split_ifs at ht
    cases ht
    obtain ⟨hclock, hfree, hfits⟩ := hs.verify signKey i key loaded
    exact ⟨hclock, hfree, hfits⟩
  | saved a =>
    simp only at ht
    split_ifs at ht
    cases ht
    exact hs.stays (.of_slot rfl) ho.1 ho.2
  | fish | bulletVisit | fishVisit => exact hs.stays (.of_slot (visit_slot _ (by simp) rfl hstep)) ho.1 ho.2

theorem watch_start_sound (maxRoom : ℕ) (outside : ℕ → Room) (fish : List SettingFish) (users : ℕ → User) :
    (Watch.start (Server.start maxRoom outside fish users)).Sound where
  clock := ⟨le_rfl, (by decide : (0 : ℤ) ≤ maxInt)⟩
  free := fun _ _ => rfl
  fits := fun _ hi => absurd rfl hi

theorem onread_false_iff {o : Timeouts} {now : ℤ} : onread o now p = false ↔
    (0 < o.noVerifyAccountTimout ∧ o.noVerifyAccountTimout < i32 (now - p.inTime) ∧ p.uid = 0) ∨
      (0 < o.noGameTimeout ∧ o.noGameTimeout < i32 (now - p.inTime) ∧ p.room = 0) ∨
        (0 < o.noOpTimeout ∧ o.noOpTimeout < i32 (now - p.opTime)) := by
  unfold onread
  split_ifs <;> tauto

section

variable {o : Timeouts} {now : ℤ} (hf : h.Fits clock p) (hc : clock ≤ now) (hmax : now ≤ maxInt)

include hf hc hmax

theorem since_connect : i32 (now - p.inTime) = now - h.connect := by
  have hb := hf.connect
  rw [hf.inTime]
  unfold maxInt at hmax
  exact i32_of_bounds (by omega) (by omega)

theorem since_op : i32 (now - p.opTime) = now - h.op.getD 0 := by
  have hop := hf.op
  have hb := hf.connect
  rw [hf.opTime]
  unfold maxInt at hmax
  cases ho : h.op with
  | none => exact i32_of_bounds (by simp; omega) (by simp; omega)
  | some t =>
    have ht := hop t ho
    exact i32_of_bounds (by simp; omega) (by simp; omega)

theorem verify_check (hcheck : 0 < o.noVerifyAccountTimout ∧ o.noVerifyAccountTimout < i32 (now - p.inTime) ∧
    p.uid = 0) : VerifyDue o now h := by
  rw [since_connect hf hc hmax] at hcheck
  obtain ⟨hpos, hlt, huid⟩ := hcheck
  refine ⟨hpos, ?_, hlt⟩
  by_contra hv
  exact hf.verified (by simpa using hv) huid

theorem game_check : (0 < o.noGameTimeout ∧ o.noGameTimeout < i32 (now - p.inTime) ∧ p.room = 0) ↔
    GameDue o now p h ∨ JustBack o now p h := by
  have hl := hf.left
  rw [since_connect hf hc hmax]
  unfold GameDue JustBack
  cases hleft : h.left with
  | none => simp [and_comm]
  | some t =>
    have ht := hl t hleft
    simp only [Option.getD_some, Option.mem_some_iff, exists_eq_left']
    omega

theorem op_check : (0 < o.noOpTimeout ∧ o.noOpTimeout < i32 (now - p.opTime)) ↔
    OpDue o now h ∨ NoShotYet o now h := by
  have hl := hf.op
  have hb := hf.connect
  rw [since_op hf hc hmax]
  unfold OpDue NoShotYet
  cases hop : h.op with
  | none =>
    simp only [Option.getD_none, max_self, true_and]
    omega
  | some t =>
    have ht := hl t hop
    simp only [Option.getD_some, reduceCtorEq, false_and, and_false, or_false]
    omega

theorem onread_due_iff : (onread o now p = false → VerifyDue o now h ∨ GameDue o now p h ∨ OpDue o now h) ↔
    InTime o now p h := by
  have hg := game_check hf hc hmax (o := o)
  have ho := op_check hf hc hmax (o := o)
  have hback : JustBack o now p h → ¬GameDue o now p h := by
    rintro ⟨-, -, -, t, ht, hlt⟩ ⟨-, -, hdue⟩
    rw [ht, Option.getD_some] at hdue
    omega
  have hfresh : NoShotYet o now h → ¬OpDue o now h := by
    rintro ⟨-, hnone, -, hle⟩ ⟨-, hdue⟩
    rw [hnone, Option.getD_none, max_self] at hdue
    omega
  rw [onread_false_iff, hg, ho]
  constructor
  · intro hdue
    constructor
    · intro hb
      rcases hdue (.inr (.inl (.inr hb))) with hv | hd | hd
      · exact .inl hv
      · exact absurd hd (hback hb)
      · exact .inr hd
    · intro hn
      rcases hdue (.inr (.inr (.inr hn))) with hv | hd | hd
      · exact .inl hv
      · exact .inr hd
      · exact absurd hd (hfresh hn)
  · rintro ⟨hb, hn⟩ (hv | (hd | hj) | hd | hj)
    · exact .inl (verify_check hf hc hmax hv)
    · exact .inr (.inl hd)
    · exact (hb hj).imp_right .inr
    · exact .inr (.inr hd)
    · exact (hn hj).imp_right .inl

end

theorem timeouts_due_iff (signKey : CStr → ℤ) (maxRoom : ℕ) (outside : ℕ → Room) (fish : List SettingFish)
    (users : ℕ → User) (w : Watch)
    (hr : Reach (Watch.step signKey) (fun w op => w.inOrder op = true)
      (Watch.start (Server.start maxRoom outside fish users)) w)
    (i : Slot) (hi : (w.server.slot i).socket ≠ 0) (o : Timeouts) (now : ℤ) (hc : w.clock ≤ now)
    (hmax : now ≤ maxInt) :
    (onread o now (w.server.slot i) = false → VerifyDue o now (w.past i) ∨
      GameDue o now (w.server.slot i) (w.past i) ∨ OpDue o now (w.past i)) ↔
        InTime o now (w.server.slot i) (w.past i) := by
  have hs := hr.invariant (watch_start_sound maxRoom outside fish users)
    (fun w op w' hw ho h => watch_step_sound hw ho h)
  exact onread_due_iff (hs.fits i hi) hc hmax

end

theorem unverified_timed_out : ∃ w : Watch, onread ⟨10, 300, 60⟩ 200 (w.server.slot 0) = false ∧
    (onread ⟨10, 300, 60⟩ 200 (w.server.slot 0) = false → VerifyDue ⟨10, 300, 60⟩ 200 (w.past 0) ∨
      GameDue ⟨10, 300, 60⟩ 200 (w.server.slot 0) (w.past 0) ∨ OpDue ⟨10, 300, 60⟩ 200 (w.past 0)) := by
  have hrun : ((runIf (Watch.step sampleKey) Watch.inOrder (Watch.start sampleServer) [.connect 5 0 100]).map
      (fun w => ((w.server.slot 0).socket, w.clock, w.past 0, onread ⟨10, 300, 60⟩ 200 (w.server.slot 0)))) =
        some (5, 100, ⟨100, false, none, none⟩, false) := by decide +kernel
  obtain ⟨w, hw, hh⟩ := Option.map_eq_some_iff.mp hrun
  simp only [Prod.mk.injEq] at hh
  obtain ⟨hsock, hclock, hpast, hread⟩ := hh
  refine ⟨w, hread, (timeouts_due_iff sampleKey 1 _ _ _ w (Reach.of_runIf hw) 0 ?_ ⟨10, 300, 60⟩ 200 ?_ ?_).mpr ?_⟩
  · rw [hsock]
    decide
  · rw [hclock]
    decide
  · decide
  · rw [hpast]
    constructor
    · rintro ⟨-, -, -, t, ht, -⟩
      cases ht
    · rintro ⟨-, -, -, hle⟩
      exact absurd hle (by decide)

-- a second after it came the connection is closed for want of a shot
theorem newcomer_timed_out : ¬ ∀ (signKey : CStr → ℤ) (maxRoom : ℕ) (outside : ℕ → Room) (fish : List SettingFish)
    (users : ℕ → User) (w : Watch), Reach (Watch.step signKey) (fun w op => w.inOrder op = true)
      (Watch.start (Server.start maxRoom outside fish users)) w → ∀ i, (w.server.slot i).socket ≠ 0 →
        ∀ (o : Timeouts) (now : ℤ), w.clock ≤ now → now ≤ maxInt → onread o now (w.server.slot i) = false →
          VerifyDue o now (w.past i) ∨ GameDue o now (w.server.slot i) (w.past i) ∨ OpDue o now (w.past i) := by
  intro h
  have hrun : ((runIf (Watch.step sampleKey) Watch.inOrder (Watch.start sampleServer) [.connect 5 0 100]).map
      (fun w => ((w.server.slot 0).socket, w.clock, w.past 0, onread ⟨0, 0, 60⟩ 101 (w.server.slot 0)))) =
        some (5, 100, ⟨100, false, none, none⟩, false) := by decide +kernel
  obtain ⟨w, hw, hh⟩ := Option.map_eq_some_iff.mp hrun
  simp only [Prod.mk.injEq] at hh
  obtain ⟨hsock, hclock, hpast, hread⟩ := hh
  have hdue := h sampleKey 1 _ _ _ w (Reach.of_runIf hw) 0 (by rw [hsock]; decide) ⟨0, 0, 60⟩ 101
    (by rw [hclock]; decide) (by decide) hread
  rw [hpast] at hdue
  rcases hdue with ⟨hpos, -⟩ | ⟨hpos, -⟩ | ⟨-, hdue⟩
  · exact absurd hpos (by decide)
  · exact absurd hpos (by decide)
  · exact absurd hdue (by decide)

end FishServer
