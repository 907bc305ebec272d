import FishServer.Account
import FishServer.Lib.Transition

namespace FishServer

open Transition

/-! The saves of one account as the threads interleave them: the query, the change in memory and the write of
a save are steps of their own. -/

structure Live where
  coin : ℤ
  backupCoin : ℤ
  freed : Bool
deriving DecidableEq

inductive SavePoint
  | changed
  | selected (balance : ℤ)
  | computed (balance winCoin : ℤ)
  | done
deriving DecidableEq

structure SaveCall where
  user : ℕ
  leaving : Bool
  point : SavePoint
deriving DecidableEq

/-- The balance in the table, the `User` objects of the account and the calls of `save` so far, with the totals
of the changes from outside and in the game. -/
structure Saves where
  balance : ℤ
  users : List Live
  calls : List SaveCall
  outside : ℤ
  inGame : ℤ
deriving DecidableEq

inductive SaveOp
  | load
  | play (user : ℕ) (coins : ℤ)
  | external (coins : ℤ)
  | begin (user : ℕ) (leaving : Bool)
  | select (call : ℕ)
  | compute (call : ℕ)
  | update (call : ℕ)
  | free (call : ℕ)

-- the library answers the nearest int for a balance out of range
def readBalance (balance : ℤ) : ℤ := max (-2147483648) (min maxInt balance)

def Saves.load (s : Saves) : Saves :=
  { s with users := s.users ++ [⟨readBalance s.balance, readBalance s.balance, false⟩] }

def Saves.play (s : Saves) (u : ℕ) (coins : ℤ) (v : Live) : Saves :=
  { s with users := s.users.set u { v with coin := i32 (v.coin + coins) }, inGame := s.inGame + coins }

def Saves.begin (s : Saves) (u : ℕ) (leaving : Bool) (v : Live) : Saves :=
  { s with calls := s.calls ++ [⟨u, leaving, if v.coin = v.backupCoin then .done else .changed⟩] }

def Saves.setPoint (s : Saves) (c : ℕ) (call : SaveCall) (point : SavePoint) : Saves :=
  { s with calls := s.calls.set c { call with point } }

def Saves.compute (s : Saves) (c : ℕ) (call : SaveCall) (balance : ℤ) (v : Live) : Saves :=
  let winCoin := i32 (v.coin - v.backupCoin)
  let coin := i32 (balance + winCoin)
  { s.setPoint c call (.computed balance winCoin) with
    users := s.users.set call.user { v with coin, backupCoin := coin } }

def Saves.update (s : Saves) (c : ℕ) (call : SaveCall) (balance winCoin : ℤ) : Saves :=
  { s.setPoint c call .done with balance := i32 (balance + winCoin) }

/-- `userLeave` frees the object when its save is done. -/
def Saves.free (s : Saves) (call : SaveCall) (v : Live) : Saves :=
  { s with users := s.users.set call.user { v with freed := true } }

def saveStep (s : Saves) : SaveOp → Option Saves
  | .load => some s.load
  | .play u coins => (s.users[u]?).bind (fun v => if v.freed then none else some (s.play u coins v))
  | .external coins => some { s with balance := s.balance + coins, outside := s.outside + coins }
  | .begin u leaving => (s.users[u]?).bind (fun v => if v.freed then none else some (s.begin u leaving v))
  | .select c => (s.calls[c]?).bind (fun call =>
      if call.point = .changed then some (s.setPoint c call (.selected (readBalance s.balance))) else none)
  | .compute c => (s.calls[c]?).bind (fun call =>
      match call.point with
      | .selected balance => (s.users[call.user]?).map (s.compute c call balance)
      | _ => none)
  | .update c => (s.calls[c]?).bind (fun call =>
      match call.point with
      | .computed balance winCoin => some (s.update c call balance winCoin)
      | _ => none)
  | .free c => (s.calls[c]?).bind (fun call =>
      if call.leaving ∧ call.point = .done then
        (s.users[call.user]?).bind (fun v => if v.freed then none else some (s.free call v))
      else none)

def Live.owed (v : Live) : ℤ := if v.freed then 0 else v.coin - v.backupCoin

def SaveCall.owed (call : SaveCall) : ℤ :=
  match call.point with
  | .computed _ winCoin => winCoin
  | _ => 0

/-- What the account is worth: the balance, what the objects have won since their last save, and what the
saves under way are about to write. -/
def Saves.worth (s : Saves) : ℤ := s.balance + (s.users.map Live.owed).sum + (s.calls.map SaveCall.owed).sum

def Saves.quiet (s : Saves) : Prop := ∀ call ∈ s.calls, call.point = .done

def Saves.total (s : Saves) : ℤ :=
  s.balance + ((s.users.filter (fun v => !v.freed)).map (fun v => v.coin - v.backupCoin)).sum

def Saves.start (balance : ℤ) : Saves := ⟨balance, [], [], 0, 0⟩

/-- The write finds the balance that the query answered, the sums are ints, and what is freed owes nothing and
is no longer being saved. -/
def undisturbed (s : Saves) : SaveOp → Bool
  | .play u coins => (s.users[u]?).all (fun v => isInt (v.coin + coins))
  | .compute c => (s.calls[c]?).all (fun call =>
      match call.point with
      | .selected balance => (s.users[call.user]?).all (fun v => !v.freed &&
          isInt (v.coin - v.backupCoin) && isInt (balance + (v.coin - v.backupCoin)))
      | _ => true)
  | .update c => (s.calls[c]?).all (fun call =>
      match call.point with
      | .computed balance _ => decide (s.balance = balance)
      | _ => true)
  | .free c => (s.calls[c]?).all (fun call =>
      (s.users[call.user]?).all (fun v => decide (v.coin = v.backupCoin)))
  | _ => true

theorem sum_set {α : Type} (f : α → ℤ) {l : List α} {i : ℕ} {a : α} (h : l[i]? = some a) (b : α) :
    ((l.set i b).map f).sum = (l.map f).sum - f a + f b := by
  induction l generalizing i with
  | nil => simp at h
  | cons x l ih =>
    cases i with
    | zero =>
      rw [List.getElem?_cons_zero, Option.some.injEq] at h
      rw [List.set_cons_zero, List.map_cons, List.map_cons, List.sum_cons, List.sum_cons, h]
      omega
    | succ i =>
      rw [List.getElem?_cons_succ] at h
      rw [List.set_cons_succ, List.map_cons, List.map_cons, List.sum_cons, List.sum_cons, ih h]
      omega

structure Saves.Sound (start : ℤ) (s : Saves) : Prop where
  worth : s.worth = start + s.outside + s.inGame
  fits : ∀ call ∈ s.calls, ∀ balance winCoin, call.point = .computed balance winCoin →
    isInt (balance + winCoin) = true

theorem SavePoint.owed_of_ne {call : SaveCall} (h : ∀ b w, call.point ≠ .computed b w) : call.owed = 0 := by
  unfold SaveCall.owed
  cases hp : call.point with
  | computed b w => exact absurd hp (h b w)
  | changed => rfl
  | selected b => rfl
  | done => rfl

theorem Saves.Sound.load {start : ℤ} {s : Saves} (h : s.Sound start) : s.load.Sound start := by
  constructor
  · have hworth := h.worth
    unfold Saves.worth Saves.load at *
    simp only [List.map_append, List.map_cons, List.map_nil, List.sum_append, List.sum_cons, List.sum_nil,
      Live.owed, Bool.false_eq_true, if_false]
    omega
  · exact h.fits

theorem Saves.Sound.play {start : ℤ} {s : Saves} {u : ℕ} {v : Live} {coins : ℤ} (h : s.Sound start)
    (hu : s.users[u]? = some v) (hfree : v.freed = false) (hfit : isInt (v.coin + coins) = true) :
    (s.play u coins v).Sound start := by
  constructor
  · have hworth := h.worth
    unfold Saves.worth Saves.play at *
    simp only
    rw [sum_set Live.owed hu, i32_of_isInt hfit]
    simp only [Live.owed, hfree, Bool.false_eq_true, if_false]
    omega
  · exact h.fits

theorem Saves.Sound.external {start : ℤ} {s : Saves} (h : s.Sound start) (coins : ℤ) :
    Saves.Sound start { s with balance := s.balance + coins, outside := s.outside + coins } := by
  constructor
  · have hworth := h.worth
    unfold Saves.worth at *
    simp only
    omega
  · exact h.fits

theorem Saves.Sound.begin {start : ℤ} {s : Saves} (h : s.Sound start) (u : ℕ) (leaving : Bool) (v : Live) :
    (s.begin u leaving v).Sound start := by
  have hpoint : ∀ b w, (if v.coin = v.backupCoin then SavePoint.done else .changed) ≠ .computed b w := by
    intro b w
    split_ifs <;> exact SavePoint.noConfusion
  constructor
  · have hworth := h.worth
    unfold Saves.worth Saves.begin at *
    simp only [List.map_append, List.map_cons, List.map_nil, List.sum_append, List.sum_cons, List.sum_nil]
    rw [SavePoint.owed_of_ne hpoint]
    omega
  · intro call hcall b w hb
    rcases List.mem_append.mp hcall with hold | hnew
    · exact h.fits call hold b w hb
    · rw [List.mem_singleton.mp hnew] at hb
      exact absurd hb (hpoint b w)

theorem mem_setPoint {s : Saves} {c : ℕ} {call x : SaveCall} {point : SavePoint}
    (h : x ∈ (s.setPoint c call point).calls) : x ∈ s.calls ∨ x = { call with point } :=
  List.mem_or_eq_of_mem_set h

theorem Saves.Sound.select {start : ℤ} {s : Saves} {c : ℕ} {call : SaveCall} (h : s.Sound start)
    (hc : s.calls[c]? = some call) (hpoint : call.point = .changed) (balance : ℤ) :
    (s.setPoint c call (.selected balance)).Sound start := by
  constructor
  · have hworth := h.worth
    unfold Saves.worth Saves.setPoint at *
    simp only
    rw [sum_set SaveCall.owed hc]
    simp only [SaveCall.owed, hpoint]
    omega
  · intro x hx b w hb
    rcases mem_setPoint hx with hold | hnew
    · exact h.fits x hold b w hb
    · rw [hnew] at hb
      cases hb

theorem Saves.Sound.compute {start : ℤ} {s : Saves} {c : ℕ} {call : SaveCall} {v : Live} {balance : ℤ}
    (h : s.Sound start) (hc : s.calls[c]? = some call) (hpoint : call.point = .selected balance)
    (hu : s.users[call.user]? = some v) (hlive : v.freed = false)
    (hwin : isInt (v.coin - v.backupCoin) = true) (hcoin : isInt (balance + (v.coin - v.backupCoin)) = true) :
    (s.compute c call balance v).Sound start := by
  constructor
  · have hworth := h.worth
    unfold Saves.worth Saves.compute Saves.setPoint at *
    simp only
    rw [sum_set SaveCall.owed hc, sum_set Live.owed hu, i32_of_isInt hwin]
    simp only [SaveCall.owed, Live.owed, hpoint, hlive, Bool.false_eq_true, if_false]
    omega
  · intro x hx b w hb
    rcases mem_setPoint hx with hold | hnew
    · exact h.fits x hold b w hb
    · rw [hnew, i32_of_isInt hwin] at hb
      cases hb
      exact hcoin

theorem Saves.Sound.update {start : ℤ} {s : Saves} {c : ℕ} {call : SaveCall} {balance winCoin : ℤ}
    (h : s.Sound start) (hc : s.calls[c]? = some call) (hpoint : call.point = .computed balance winCoin)
    (hsame : s.balance = balance) : (s.update c call balance winCoin).Sound start := by
  have hfit := h.fits call (List.mem_of_getElem? hc) balance winCoin hpoint
  constructor
  · have hworth := h.worth
    unfold Saves.worth Saves.update Saves.setPoint at *
    simp only
    rw [sum_set SaveCall.owed hc, i32_of_isInt hfit]
    simp only [SaveCall.owed, hpoint]
    omega
  · intro x hx b w hb
    rcases mem_setPoint hx with hold | hnew
    · exact h.fits x hold b w hb
    · rw [hnew] at hb
      cases hb

theorem Saves.Sound.free {start : ℤ} {s : Saves} {call : SaveCall} {v : Live} (h : s.Sound start)
    (hu : s.users[call.user]? = some v) (hpaid : v.coin = v.backupCoin) : (s.free call v).Sound start := by
  constructor
  · have hworth := h.worth
    unfold Saves.worth Saves.free at *
    simp only
    rw [sum_set Live.owed hu]
    simp only [Live.owed, hpaid, sub_self, ite_self]
    omega
  · exact h.fits

theorem Saves.Sound.step {start : ℤ} {s t : Saves} {op : SaveOp} (h : s.Sound start)
    (hok : undisturbed s op = true) (ht : saveStep s op = some t) : t.Sound start := by
  cases op with
  | load =>
    cases ht
    exact h.load
  | play u coins =>
    obtain ⟨v, hu, ht⟩ := Option.bind_eq_some_iff.mp ht
    rw [undisturbed, hu] at hok
    split_ifs at ht with hfreed
    cases ht
    exact h.play hu (by simpa using hfreed) hok
  | external coins =>
    cases ht
    exact h.external coins
  | begin u leaving =>
    obtain ⟨v, hu, ht⟩ := Option.bind_eq_some_iff.mp ht
    split_ifs at ht
    cases ht
    exact h.begin u leaving v
  | select c =>
    obtain ⟨call, hc, ht⟩ := Option.bind_eq_some_iff.mp ht
    split_ifs at ht with hpoint
    cases ht
    exact h.select hc hpoint _
  | compute c =>
    obtain ⟨call, hc, ht⟩ := Option.bind_eq_some_iff.mp ht
    cases hpoint : call.point with
    | selected balance =>
      simp only [hpoint] at ht
      obtain ⟨v, hu, rfl⟩ := Option.map_eq_some_iff.mp ht
      simp only [undisturbed, hc, Option.all_some, hpoint, hu, Bool.and_eq_true, Bool.not_eq_true'] at hok
      exact h.compute hc hpoint hu hok.1.1 hok.1.2 hok.2
    | changed => simp [hpoint] at ht
    | computed b w => simp [hpoint] at ht
    | done => simp [hpoint] at ht
  | update c =>
    obtain ⟨call, hc, ht⟩ := Option.bind_eq_some_iff.mp ht
    cases hpoint : call.point with
    | computed balance winCoin =>
      simp only [hpoint, Option.some.injEq] at ht
      simp only [undisturbed, hc, Option.all_some, hpoint, decide_eq_true_eq] at hok
      rw [← ht]
      exact h.update hc hpoint hok
    | changed => simp [hpoint] at ht
    | selected b => simp [hpoint] at ht
    | done => simp [hpoint] at ht
  | free c =>
    obtain ⟨call, hc, ht⟩ := Option.bind_eq_some_iff.mp ht
    split_ifs at ht
    obtain ⟨v, hu, ht⟩ := Option.bind_eq_some_iff.mp ht
    split_ifs at ht
    cases ht
    simp only [undisturbed, hc, Option.all_some, hu, decide_eq_true_eq] at hok
    exact h.free hu hok

theorem live_owed (l : List Live) :
    (l.map Live.owed).sum = ((l.filter (fun v => !v.freed)).map (fun v => v.coin - v.backupCoin)).sum := by
  induction l with
  | nil => rfl
  | cons v l ih =>
    rw [List.map_cons, List.sum_cons, ih]
    cases hv : v.freed with
    | true => simp [Live.owed, hv]
    | false => simp [Live.owed, hv]

theorem Saves.quiet_worth {s : Saves} (h : s.quiet) : s.worth = s.total := by
  have hcalls : (s.calls.map SaveCall.owed).sum = 0 := by
    apply List.sum_eq_zero
    intro x hx
    obtain ⟨call, hcall, rfl⟩ := List.mem_map.mp hx
    rw [SaveCall.owed, h call hcall]
  unfold Saves.worth Saves.total
  rw [hcalls, live_owed, add_zero]

theorem balance_conserved {start : ℤ} {s : Saves}
    (h : Reach saveStep (fun s op => undisturbed s op = true) (Saves.start start) s) (hquiet : s.quiet) :
    s.total = start + s.outside + s.inGame := by
  have hsound : s.Sound start := by
    apply h.invariant
    · constructor
      · rfl
      · intro call hcall
        cases hcall
    · intro s op t hs hok ht
      exact hs.step hok ht
  rw [← Saves.quiet_worth hquiet]
  exact hsound.worth

theorem save_uninterrupted {s : Saves} {v : Live} {a : Account} {db : Db} (leaving : Bool)
    (hu : s.users = [v]) (hcalls : s.calls = []) (hlive : v.freed = false) (hcoin : a.coin = v.coin)
    (hbackup : a.backupCoin = v.backupCoin) (hchange : v.coin ≠ v.backupCoin)
    (hbalance : db.balance a.id = some s.balance) (hint : readBalance s.balance = s.balance) :
    ∃ t, runIf saveStep (fun _ _ => true) s [.begin 0 leaving, .select 0, .compute 0, .update 0] = some t ∧
      (Account.saveCoin Sql.allGood a db).2.balance a.id = some t.balance ∧
      t.users = [⟨(Account.saveCoin Sql.allGood a db).1.coin, (Account.saveCoin Sql.allGood a db).1.backupCoin,
        false⟩] := by
  simp [runIf, saveStep, hu, hcalls, hlive, Saves.begin, hchange, Saves.setPoint, Saves.compute, Saves.update,
    Account.saveCoin, Sql.allGood, Db.getCoin, hbalance, Db.setBalance, hint, hcoin, hbackup]

theorem two_saves_conserve : ∃ s : Saves,
    runIf saveStep undisturbed (Saves.start 100) [.load, .play 0 5, .external 7, .begin 0 false, .select 0,
      .play 0 (-1), .compute 0, .play 0 2, .update 0, .begin 0 true, .select 1, .compute 1, .update 1, .free 1] =
      some s ∧ s.total = 100 + s.outside + s.inGame := by
  obtain ⟨s, hs, hquiet⟩ : ∃ s : Saves,
      runIf saveStep undisturbed (Saves.start 100) [.load, .play 0 5, .external 7, .begin 0 false, .select 0,
        .play 0 (-1), .compute 0, .play 0 2, .update 0, .begin 0 true, .select 1, .compute 1, .update 1, .free 1] =
        some s ∧ s.calls.all (fun call => decide (call.point = .done)) = true := ⟨_, rfl, by decide⟩
  refine ⟨s, hs, balance_conserved (Reach.of_runIf hs) ?_⟩
  intro call hcall
  exact of_decide_eq_true (List.all_eq_true.mp hquiet call hcall)

/-- The periodic save and the save at the end of the session both read the balance before either writes it. -/
theorem overlapping_saves_lose_coins :
    ¬ ∀ (start : ℤ) (s : Saves), Reach saveStep (fun _ _ => True) (Saves.start start) s → s.quiet →
      s.total = start + s.outside + s.inGame := by
  intro h
  obtain ⟨s, hs, hquiet, hlost⟩ : ∃ s : Saves,
      runIf saveStep (fun _ _ => true) (Saves.start 100) [.load, .play 0 5, .begin 0 false, .begin 0 true,
        .select 0, .select 1, .compute 0, .update 0, .compute 1, .update 1] = some s ∧
      s.calls.all (fun call => decide (call.point = .done)) = true ∧ s.total = 100 ∧ s.outside = 0 ∧ s.inGame = 5 :=
    ⟨_, rfl, by decide⟩
  obtain ⟨htotal, houtside, hgame⟩ := hlost
  have hsame := h 100 s ((Reach.of_runIf hs).mono (fun _ _ _ => trivial))
    (fun call hcall => of_decide_eq_true (List.all_eq_true.mp hquiet call hcall))
  rw [htotal, houtside, hgame] at hsame
  exact absurd hsame (by decide)

end FishServer
