import FishServer.Lifetimes
import FishServer.Setting

namespace FishServer

open Transition

/-! The thread that saves the users, over the sessions of the accounts. -/

def Thread.saveTimeval (st : Setting) : ℤ :=
  let timeval := ((st.system "game_user_save_timeval".toList).map atoi).getD 0
  if timeval < 5 then 300 else timeval

/-- `slot` tells whose user a slot of the table has. A pass began at `passTime` and has come to the slot `cursor`; the
pass before it began at `lastPass`. `unsaved` lists with their times what the coins of an account have changed by since
they were last saved or loaded, which no function reads. -/
structure Saver where
  life : Lifetimes
  slot : Slot → Option ℤ
  clock : ℤ
  passTime : ℤ
  lastPass : ℤ
  cursor : ℕ
  unsaved : ℤ → List (ℤ × ℤ)

inductive SaverOp
  | wait (seconds : ℕ)
  | login (i : Slot) (uid : ℤ)
  | kill (i : Slot) (no : ℤ)
  | earn (i : Slot) (coins : ℤ)
  | leave (i : Slot)
  | userLeave (uid : ℤ)
  | passStart
  | passSlot (i : Slot)

namespace Saver

def start (db : Db) (now : ℤ) : Saver := ⟨Lifetimes.start db, fun _ => none, now, now, now, 1024, fun _ => []⟩

def setSlot (s : Saver) (i : Slot) (x : Option ℤ) : Saver := { s with slot := Function.update s.slot i x }

def stored (s : Saver) (uid : ℤ) (life : Lifetimes) : Saver :=
  { s with life, unsaved := Function.update s.unsaved uid [] }

def step (timeval : ℤ) (s : Saver) : SaverOp → Option Saver
  | .wait seconds => some { s with clock := s.clock + seconds }
  | .login i uid =>
    if s.slot i = none then
      (s.life.step (.login uid s.clock)).map (fun life => (s.stored uid life).setSlot i (some uid))
    else none
  | .kill i no => do
    let uid ← s.slot i
    let life ← s.life.step (.kill uid no)
    some { s with life }
  | .earn i coins => do
    let uid ← s.slot i
    let life ← s.life.step (.earn uid coins)
    some { s with life, unsaved := Function.update s.unsaved uid ((s.clock, coins) :: s.unsaved uid) }
  | .leave i => some (s.setSlot i none)
  | .userLeave uid =>
    if ∀ i, s.slot i ≠ some uid then (s.life.step (.leave uid s.clock)).map (s.stored uid) else none
  | .passStart =>
    if s.cursor = 1024 then some { s with passTime := s.clock, lastPass := s.passTime, cursor := 0 } else none
  | .passSlot i =>
    if i.val = s.cursor then
      match s.slot i with
      | none => some { s with cursor := s.cursor + 1 }
      | some uid => do
        let a ← s.life.live uid
        if timeval < s.passTime - a.opTime then do
          let life ← s.life.step (.save uid s.clock)
          some { s.stored uid life with cursor := s.cursor + 1 }
        else some { s with cursor := s.cursor + 1 }
    else none

structure Bound (s : Saver) (uid : ℤ) (a : Account) : Prop where
  nonzero : uid ≠ 0
  id : a.id = uid
  backup : ∀ m, s.life.db.balance uid = some m → a.backupCoin = m
  coin : a.coin = i32 (a.backupCoin + ((s.unsaved uid).map Prod.snd).sum)
  times : a.opTime ≤ s.clock ∧ ∀ e ∈ s.unsaved uid, a.opTime ≤ e.1 ∧ e.1 ≤ s.clock

def passed (s : Saver) (i : Slot) : ℤ := if i.val < s.cursor then s.passTime else s.lastPass

structure Sound (timeval : ℤ) (s : Saver) : Prop where
  order : s.lastPass ≤ s.passTime ∧ s.passTime ≤ s.clock
  ints : ∀ uid m, s.life.db.balance uid = some m → isInt m = true
  live : ∀ uid a, s.life.live uid = some a → s.Bound uid a
  slots : ∀ i uid, s.slot i = some uid → ∃ a, s.life.live uid = some a ∧ s.passed i - timeval ≤ a.opTime

structure CoinsSaved (uid now : ℤ) (d : Db) (b : Account) (e : Db) : Prop where
  id : b.id = uid
  opTime : b.opTime = now
  coin : b.coin = b.backupCoin
  ints : isInt b.coin = true
  balance : ∀ m, e.balance uid = some m → b.backupCoin = m
  others : ∀ other, other ≠ uid → e.balance other = d.balance other

theorem save_opTime {a : Account} (d : Db) (now : ℤ) (hid : a.id ≠ 0) :
    (Account.save Sql.allGood now a d).1.opTime = now := by
  unfold Account.save
  rw [if_neg hid]
  by_cases hcoin : a.coin = a.backupCoin
  · simp [Account.saveCoin, hcoin]
  · simp [Account.saveCoin, hcoin, Sql.allGood]

theorem coins_saved {a : Account} {d : Db} {uid : ℤ} (huid : uid ≠ 0) (hid : a.id = uid) (now : ℤ)
    (hback : ∀ m, d.balance uid = some m → a.backupCoin = m) (hint : isInt a.coin = true) :
    CoinsSaved uid now d (Account.save Sql.allGood now a d).1 (Account.save Sql.allGood now a d).2 := by
  subst hid
  have hcoins := save_coins d now huid
  simp only [Prod.ext_iff] at hcoins
  obtain ⟨hcoin, hbackup, hbalance⟩ := hcoins
  refine ⟨(save_parts d now huid).1, save_opTime d now huid, ?_, ?_, ?_, ?_⟩
  · rw [hcoin, hbackup]
    split_ifs with he
    · exact he
    · rfl
  · rw [hcoin]
    split_ifs
    · exact hint
    · exact isInt_i32 _
  · intro m hm
    rw [hbalance] at hm
    rw [hbackup]
    split_ifs at hm ⊢
    · exact hback m hm
    · unfold Db.setBalance at hm
      simp only [Function.update_self] at hm
      obtain ⟨-, -, hm⟩ := Option.map_eq_some_iff.mp hm
      exact hm
  · intro other hne
    rw [hbalance]
    split_ifs
    · rfl
    · exact Function.update_of_ne hne ..

variable {timeval : ℤ} {s t : Saver} {uid : ℤ} {a : Account}

theorem Bound.isInt_coin (h : s.Bound uid a) : isInt a.coin = true := by
  rw [h.coin]
  exact isInt_i32 _

theorem passed_le (h : s.Sound timeval) (i : Slot) : s.passed i ≤ s.passTime := by
  unfold passed
  split_ifs
  · exact le_rfl
  · exact h.order.1

theorem Sound.live_of (h : s.Sound timeval) {x : Option Account} (hclock : t.clock = s.clock)
    (hlive : t.life.live = Function.update s.life.live uid x)
    (hb : ∀ other, other ≠ uid → t.life.db.balance other = s.life.db.balance other)
    (hu : ∀ other, other ≠ uid → t.unsaved other = s.unsaved other) (hx : ∀ a, x = some a → t.Bound uid a) :
    ∀ other b, t.life.live other = some b → t.Bound other b := by
  intro other b hother
  rw [hlive] at hother
  by_cases hne : other = uid
  · subst hne
    rw [Function.update_self] at hother
    exact hx b hother
  · rw [Function.update_of_ne hne] at hother
    have hold := h.live other b hother
    refine ⟨hold.nonzero, hold.id, hb other hne ▸ hold.backup, ?_, ?_⟩
    · rw [hu other hne]
      exact hold.coin
    · rw [hu other hne, hclock]
      exact hold.times

theorem Sound.slots_of (h : s.Sound timeval) {b : Account} (ha : s.life.live uid = some a)
    (hlive : t.life.live = Function.update s.life.live uid (some b)) (hslot : t.slot = s.slot)
    (hpassed : t.passed = s.passed) (hop : a.opTime ≤ b.opTime) : ∀ i other, t.slot i = some other →
      ∃ a, t.life.live other = some a ∧ t.passed i - timeval ≤ a.opTime := by
  intro i other hi
  rw [hslot] at hi
  obtain ⟨c, hc, hle⟩ := h.slots i other hi
  rw [hpassed, hlive]
  by_cases hne : other = uid
  · subst hne
    rw [ha] at hc
    cases hc
    exact ⟨b, Function.update_self .., hle.trans hop⟩
  · exact ⟨c, by rw [Function.update_of_ne hne, hc], hle⟩

theorem Sound.ints_of (h : s.Sound timeval) {b : Account} {d : Db} (hs : CoinsSaved uid s.clock s.life.db b d) :
    ∀ other m, d.balance other = some m → isInt m = true := by
  intro other m hm
  by_cases hne : other = uid
  · subst hne
    rw [← hs.balance m hm, ← hs.coin]
    exact hs.ints
  · rw [hs.others other hne] at hm
    exact h.ints other m hm

theorem CoinsSaved.bound {b : Account} {d : Db} (hs : CoinsSaved uid s.clock s.life.db b d) (huid : uid ≠ 0)
    (hclock : t.clock = s.clock) (hdb : t.life.db = d) (hu : t.unsaved uid = []) : t.Bound uid b := by
  refine ⟨huid, hs.id, by rw [hdb]; exact hs.balance, ?_, ?_⟩
  · rw [hu, List.map_nil, List.sum_nil, add_zero, ← hs.coin, i32_of_isInt hs.ints]
  · rw [hu, hs.opTime, hclock]
    exact ⟨le_rfl, fun e he => absurd he List.not_mem_nil⟩

theorem Sound.login (h : s.Sound timeval) (htime : 0 ≤ timeval) {i : Slot} (huid : uid ≠ 0)
    (hfree : s.life.live uid = none) :
    ((s.stored uid (s.life.load uid s.clock)).setSlot i (some uid)).Sound timeval := by
  refine ⟨h.order, h.ints, ?_, ?_⟩
  · refine h.live_of (t := (s.stored uid (s.life.load uid s.clock)).setSlot i (some uid)) rfl rfl (fun _ _ => rfl)
      (fun other hne => Function.update_of_ne hne ..) ?_
    rintro a ⟨⟩
    have hunsaved : ((s.stored uid (s.life.load uid s.clock)).setSlot i (some uid)).unsaved uid = [] :=
      Function.update_self ..
    have hint : isInt (s.life.db.getCoin uid) = true := by
      unfold Db.getCoin
      cases hm : s.life.db.balance uid with
      | none => rfl
      | some m => exact h.ints uid m hm
    refine ⟨huid, rfl, ?_, ?_, ?_⟩
    · intro m hm
      change s.life.db.getCoin uid = m
      rw [Db.getCoin, show s.life.db.balance uid = some m from hm]
      rfl
    · rw [hunsaved, List.map_nil, List.sum_nil, add_zero]
      exact (i32_of_isInt hint).symm
    · rw [hunsaved]
      exact ⟨le_rfl, fun e he => absurd he List.not_mem_nil⟩
  · intro j other hj
    change Function.update s.slot i (some uid) j = some other at hj
    by_cases hji : j = i
    · rw [hji, Function.update_self] at hj
      cases hj
      refine ⟨Account.load s.life.db uid s.clock, Function.update_self .., ?_⟩
      change s.passed j - timeval ≤ s.clock
      have hle := passed_le h j
      have horder := h.order.2
      omega
    · rw [Function.update_of_ne hji] at hj
      obtain ⟨a, ha, hle⟩ := h.slots j other hj
      have hne : other ≠ uid := by
        rintro rfl
        rw [hfree] at ha
        cases ha
      exact ⟨a, (Function.update_of_ne hne ..).trans ha, hle⟩

theorem Sound.kill (h : s.Sound timeval) (ha : s.life.live uid = some a) (no : ℤ) :
    Sound timeval { s with life := s.life.kill uid no a } := by
  have hold := h.live uid a ha
  refine ⟨h.order, h.ints, ?_, ?_⟩
  · refine h.live_of (t := { s with life := s.life.kill uid no a }) (x := some (a.killFish no)) rfl rfl
      (fun _ _ => rfl) (fun _ _ => rfl) ?_
    rintro b ⟨⟩
    exact ⟨hold.nonzero, hold.id, hold.backup, hold.coin, hold.times⟩
  · exact h.slots_of (t := { s with life := s.life.kill uid no a }) ha rfl rfl rfl le_rfl

theorem Sound.earn (h : s.Sound timeval) (ha : s.life.live uid = some a) (coins : ℤ) :
    Sound timeval { s with
      life := s.life.earn uid coins a
      unsaved := Function.update s.unsaved uid ((s.clock, coins) :: s.unsaved uid) } := by
  have hold := h.live uid a ha
  generalize ht : ({ s with
      life := s.life.earn uid coins a
      unsaved := Function.update s.unsaved uid ((s.clock, coins) :: s.unsaved uid) } : Saver) = t
  have hunsaved : t.unsaved = Function.update s.unsaved uid ((s.clock, coins) :: s.unsaved uid) := by rw [← ht]
  have hlive : t.life.live = Function.update s.life.live uid (some { a with coin := i32 (a.coin + coins) }) := by
    rw [← ht]
    rfl
  subst ht
  refine ⟨h.order, h.ints, ?_, h.slots_of ha hlive rfl rfl le_rfl⟩
  refine h.live_of rfl hlive (fun _ _ => rfl) (fun other hne => by rw [hunsaved, Function.update_of_ne hne]) ?_
  rintro b ⟨⟩
  refine ⟨hold.nonzero, hold.id, hold.backup, ?_, ?_⟩
  · simp only [Function.update_self, List.map_cons, List.sum_cons]
    rw [hold.coin, add_comm (i32 _) coins, i32_add_i32]
    congr 1
    ring
  · simp only [Function.update_self]
    refine ⟨hold.times.1, ?_⟩
    intro e he
    rcases List.mem_cons.mp he with rfl | he
    · exact ⟨hold.times.1, le_rfl⟩
    · exact hold.times.2 e he

theorem Sound.userLeave (h : s.Sound timeval) (ha : s.life.live uid = some a) (hout : ∀ i, s.slot i ≠ some uid) :
    (s.stored uid (s.life.leave uid s.clock a)).Sound timeval := by
  have hold := h.live uid a ha
  have hs := coins_saved hold.nonzero hold.id s.clock hold.backup hold.isInt_coin
  refine ⟨h.order, h.ints_of hs, ?_, ?_⟩
  · refine h.live_of (t := s.stored uid (s.life.leave uid s.clock a)) (x := none) rfl rfl hs.others
      (fun other hne => Function.update_of_ne hne ..) ?_
    intro b hb
    cases hb
  · intro i other hi
    obtain ⟨b, hb, hle⟩ := h.slots i other hi
    have hne : other ≠ uid := fun he => hout i (he ▸ hi)
    exact ⟨b, (Function.update_of_ne hne ..).trans hb, hle⟩

theorem Sound.passSlot (h : s.Sound timeval) {i : Slot} (hi : i.val = s.cursor)
    (hok : ∀ uid, s.slot i = some uid → ∃ a, s.life.live uid = some a ∧ s.passTime - timeval ≤ a.opTime) :
    Sound timeval { s with cursor := s.cursor + 1 } := by
  refine ⟨h.order, h.ints, ?_, ?_⟩
  · intro other b hb
    have hold := h.live other b hb
    exact ⟨hold.nonzero, hold.id, hold.backup, hold.coin, hold.times⟩
  · intro j other hj
    obtain ⟨b, hb, hle⟩ := h.slots j other hj
    refine ⟨b, hb, ?_⟩
    unfold passed at hle ⊢
    by_cases hji : j = i
    · obtain ⟨b', hb', hle'⟩ := hok other (hji ▸ hj)
      have hsame : b' = b := Option.some.inj (hb'.symm.trans hb)
      rw [if_pos (show j.val < s.cursor + 1 by rw [hji]; omega), ← hsame]
      exact hle'
    · have hval : j.val ≠ s.cursor := fun he => hji (Fin.ext (he.trans hi.symm))
      have hlt : j.val < s.cursor + 1 ↔ j.val < s.cursor := by omega
      simp only [hlt]
      exact hle

theorem Sound.save (h : s.Sound timeval) (ha : s.life.live uid = some a) :
    (s.stored uid (s.life.save uid s.clock a)).Sound timeval := by
  have hold := h.live uid a ha
  have hs := coins_saved hold.nonzero hold.id s.clock hold.backup hold.isInt_coin
  refine ⟨h.order, h.ints_of hs, ?_, ?_⟩
  · refine h.live_of (t := s.stored uid (s.life.save uid s.clock a)) rfl rfl hs.others
      (fun other hne => Function.update_of_ne hne ..) ?_
    rintro b ⟨⟩
    exact hs.bound hold.nonzero rfl rfl (Function.update_self ..)
  · refine h.slots_of (t := s.stored uid (s.life.save uid s.clock a)) ha rfl rfl rfl ?_
    rw [hs.opTime]
    exact hold.times.1

theorem Sound.step (h : s.Sound timeval) (htime : 0 ≤ timeval) {op : SaverOp} (ht : s.step timeval op = some t) :
    t.Sound timeval := by
  cases op with
  | wait seconds =>
    cases ht
    refine ⟨⟨h.order.1, h.order.2.trans (by simp)⟩, h.ints, ?_, h.slots⟩
    intro other b hb
    have hold := h.live other b hb
    refine ⟨hold.nonzero, hold.id, hold.backup, hold.coin, hold.times.1.trans (by simp), ?_⟩
    intro e he
    exact ⟨(hold.times.2 e he).1, (hold.times.2 e he).2.trans (by simp)⟩
  | login i uid =>
    rw [Saver.step] at ht
    split_ifs at ht
    obtain ⟨life, hlife, rfl⟩ := Option.map_eq_some_iff.mp ht
    rw [Lifetimes.step] at hlife
    split_ifs at hlife with hfree
    cases hlife
    exact h.login htime hfree.1 hfree.2
  | kill i no =>
    obtain ⟨uid, -, hrest⟩ := Option.bind_eq_some_iff.mp ht
    obtain ⟨life, hlife, hlast⟩ := Option.bind_eq_some_iff.mp hrest
    obtain ⟨a, ha, rfl⟩ := Option.map_eq_some_iff.mp hlife
    cases hlast
    exact h.kill ha no
  | earn i coins =>
    obtain ⟨uid, -, hrest⟩ := Option.bind_eq_some_iff.mp ht
    obtain ⟨life, hlife, hlast⟩ := Option.bind_eq_some_iff.mp hrest
    obtain ⟨a, ha, rfl⟩ := Option.map_eq_some_iff.mp hlife
    cases hlast
    exact h.earn ha coins
  | leave i =>
    cases ht
    refine ⟨h.order, h.ints, ?_, ?_⟩
    · intro other b hb
      have hold := h.live other b hb
      exact ⟨hold.nonzero, hold.id, hold.backup, hold.coin, hold.times⟩
    · intro j other hj
      change Function.update s.slot i none j = some other at hj
      by_cases hji : j = i
      · rw [hji, Function.update_self] at hj
        cases hj
      · rw [Function.update_of_ne hji] at hj
        exact h.slots j other hj
  | userLeave uid =>
    rw [Saver.step] at ht
    split_ifs at ht with hout
    obtain ⟨life, hlife, rfl⟩ := Option.map_eq_some_iff.mp ht
    obtain ⟨a, ha, rfl⟩ := Option.map_eq_some_iff.mp hlife
    exact h.userLeave ha hout
  | passStart =>
    rw [Saver.step] at ht
    split_ifs at ht with hdone
    cases ht
    refine ⟨⟨h.order.2, le_rfl⟩, h.ints, ?_, ?_⟩
    · intro other b hb
      have hold := h.live other b hb
      exact ⟨hold.nonzero, hold.id, hold.backup, hold.coin, hold.times⟩
    · intro j other hj
      obtain ⟨b, hb, hle⟩ := h.slots j other hj
      refine ⟨b, hb, ?_⟩
      unfold passed at hle ⊢
      rw [if_pos (show j.val < s.cursor by rw [hdone]; exact j.isLt)] at hle
      exact hle
  | passSlot i =>
    rw [Saver.step] at ht
    split_ifs at ht with hi
    cases hslot : s.slot i with
    | none =>
      rw [hslot] at ht
      cases ht
      apply h.passSlot hi
      intro uid huid
      rw [hslot] at huid
      cases huid
    | some uid =>
      rw [hslot] at ht
      obtain ⟨a, ha, hrest⟩ := Option.bind_eq_some_iff.mp ht
      split_ifs at hrest with hstale
      · obtain ⟨life, hlife, hlast⟩ := Option.bind_eq_some_iff.mp hrest
        obtain ⟨a', ha', rfl⟩ := Option.map_eq_some_iff.mp hlife
        cases hlast
        have hsaved := h.save ha'
        refine Sound.passSlot hsaved hi ?_
        intro other hother
        have hold := h.live uid a' ha'
        have hs := coins_saved hold.nonzero hold.id s.clock hold.backup hold.isInt_coin
        obtain rfl : uid = other := Option.some.inj (hslot.symm.trans hother)
        refine ⟨_, Function.update_self .., ?_⟩
        rw [hs.opTime]
        have horder := h.order.2
        change s.passTime - timeval ≤ s.clock
        omega
      · cases hrest
        apply h.passSlot hi
        intro other hother
        obtain rfl : uid = other := Option.some.inj (hslot.symm.trans hother)
        exact ⟨a, ha, by omega⟩

end Saver

theorem saveTimeval_pos (st : Setting) : 0 ≤ Thread.saveTimeval st := by
  unfold Thread.saveTimeval
  simp only
  split_ifs <;> omega

/-- What a crash takes from an account that is logged in: its coins are the balance and what it has won since a time
that lies no more than the interval before the last pass that came to its slot, or the one before where that pass has
not come to it yet. -/
theorem unsaved_since_pass (st : Setting) {db : Db} (hints : ∀ uid m, db.balance uid = some m → isInt m = true)
    {now : ℤ} {s : Saver}
    (h : Reach (Saver.step (Thread.saveTimeval st)) (fun _ _ => True) (Saver.start db now) s) {uid m : ℤ} {a : Account}
    (ha : s.life.live uid = some a) (hm : s.life.db.balance uid = some m) :
    a.coin = i32 (m + ((s.unsaved uid).map Prod.snd).sum) ∧ (∀ e ∈ s.unsaved uid, a.opTime ≤ e.1 ∧ e.1 ≤ s.clock) ∧
      ∀ i, s.slot i = some uid →
        (if i.val < s.cursor then s.passTime else s.lastPass) - Thread.saveTimeval st ≤ a.opTime := by
  have hsound : s.Sound (Thread.saveTimeval st) := by
    apply h.invariant (P := fun s => s.Sound (Thread.saveTimeval st))
    · refine ⟨⟨le_rfl, le_rfl⟩, hints, ?_, ?_⟩
      · intro uid a ha
        cases ha
      · intro i uid hi
        cases hi
    · exact fun s op t hs _ ht => hs.step (saveTimeval_pos st) ht
  have hb := hsound.live uid a ha
  refine ⟨?_, hb.times.2, ?_⟩
  · rw [hb.coin, hb.backup m hm]
  · intro i hi
    obtain ⟨b, hlive, hle⟩ := hsound.slots i uid hi
    rw [ha] at hlive
    cases hlive
    exact hle

def onePass (i j k : Slot) : List SaverOp := [.login i 7, .earn i 6, .wait 200, .login k 9, .wait 200, .passStart,
  .passSlot i, .earn i (-1), .passSlot j, .passSlot k, .wait 10, .earn i 3]

theorem two_coins_unsaved : ∃ s : Saver, (s.cursor, s.passTime, s.clock) = (3, 400, 410) ∧
    (s.life.db.balance 7, s.unsaved 7) = (some 46, [(410, 3), (400, -1)]) ∧
      ∃ a, s.life.live 7 = some a ∧ a.coin = i32 (46 + ((s.unsaved 7).map Prod.snd).sum) ∧
        (∀ e ∈ s.unsaved 7, a.opTime ≤ e.1 ∧ e.1 ≤ s.clock) ∧
          ∀ i, s.slot i = some 7 →
            (if i.val < s.cursor then s.passTime else s.lastPass) - Thread.saveTimeval Setting.empty ≤ a.opTime := by
  have hrun : ((runIf (Saver.step (Thread.saveTimeval Setting.empty)) (fun _ _ => true) (Saver.start richDb 0)
      (onePass 0 1 2)).map (fun s => ((s.cursor, s.passTime, s.clock), (s.life.db.balance 7, s.unsaved 7),
        (s.life.live 7).isSome))) = some ((3, 400, 410), (some 46, [(410, 3), (400, -1)]), true) := by decide +kernel
  obtain ⟨s, hs, hh⟩ := Option.map_eq_some_iff.mp hrun
  obtain ⟨htimes, hrest⟩ := Prod.mk.inj hh
  obtain ⟨hsaved, hsome⟩ := Prod.mk.inj hrest
  obtain ⟨a, ha⟩ := Option.isSome_iff_exists.mp hsome
  refine ⟨s, htimes, hsaved, a, ha, ?_⟩
  refine unsaved_since_pass Setting.empty ?_ ((Reach.of_runIf hs).mono (fun _ _ _ => trivial)) ha (Prod.mk.inj hsaved).1
  intro uid m hm
  change (if uid = 7 then some (40 : ℤ) else none) = some m at hm
  split_ifs at hm
  cases hm
  rfl

end FishServer
