import FishServer.Play

namespace FishServer

/-! The shots and awards since a state, and what they make of the coins and kills of the users. -/

structure Ledger where
  shots : List Shot
  awards : List Award

def Server.since (s s₀ : Server) : Ledger where
  shots := s.trace.shots.take (s.trace.shots.length - s₀.trace.shots.length)
  awards := s.trace.awards.take (s.trace.awards.length - s₀.trace.awards.length)

def killSum (no : ℤ) (ks : List KillFish) : ℤ :=
  ((ks.filter (fun k => decide (k.no = no))).map KillFish.value).sum

def killCount (no : ℤ) : List KillFish → ℤ
  | [] => 0
  | k :: ks => if k.no = no then k.value else killCount no ks

def isInt (x : ℤ) : Bool := decide (-2 ^ 31 ≤ x) && decide (x < 2 ^ 31)

namespace Ledger

variable (l : Ledger) (s₀ : Server)

def shotsOf (a : ℕ) : ℕ := l.shots.countP (fun x => decide (x.user = a))

def won (a : ℕ) : ℤ := ((l.awards.filter (fun w => decide (w.user = a))).map Award.coin).sum

def caught (a : ℕ) (no : ℤ) : ℕ := l.awards.countP (fun w => decide (w.user = a) && decide (w.no = no))

def coin (a : ℕ) : ℤ := (s₀.users a).coin - l.shotsOf a + l.won a

def kills (a : ℕ) (no : ℤ) : ℤ := killCount no (s₀.users a).killfish + l.caught a no

def coinsFit : Bool :=
  l.shots.all (fun x => isInt (l.coin s₀ x.user)) && l.awards.all (fun w => isInt (l.coin s₀ w.user))

def killsFit : Bool := l.awards.all (fun w => isInt (l.kills s₀ w.user w.no))

def shoot (x : Shot) : Ledger := { l with shots := x :: l.shots }

def pay (w : Award) : Ledger := { l with awards := w :: l.awards }

variable (x : Shot) (w : Award) (a : ℕ) (no : ℤ)

@[simp] theorem shotsOf_shoot : (l.shoot x).shotsOf a = l.shotsOf a + if x.user = a then 1 else 0 := by
  simp [shoot, shotsOf, List.countP_cons]

@[simp] theorem won_shoot : (l.shoot x).won a = l.won a := rfl

@[simp] theorem caught_shoot : (l.shoot x).caught a no = l.caught a no := rfl

@[simp] theorem shotsOf_pay : (l.pay w).shotsOf a = l.shotsOf a := rfl

@[simp] theorem won_pay : (l.pay w).won a = l.won a + if w.user = a then w.coin else 0 := by
  unfold pay won
  by_cases h : w.user = a
  · simp [h, add_comm]
  · simp [h]

@[simp] theorem caught_pay :
    (l.pay w).caught a no = l.caught a no + if w.user = a ∧ w.no = no then 1 else 0 := by
  simp [pay, caught, List.countP_cons]

theorem coinsFit_shoot (h : (l.shoot x).coinsFit s₀ = true) : isInt ((l.shoot x).coin s₀ x.user) = true := by
  unfold coinsFit at h
  rw [Bool.and_eq_true] at h
  exact List.all_eq_true.mp h.1 x List.mem_cons_self

theorem coinsFit_pay (h : (l.pay w).coinsFit s₀ = true) : isInt ((l.pay w).coin s₀ w.user) = true := by
  unfold coinsFit at h
  rw [Bool.and_eq_true] at h
  exact List.all_eq_true.mp h.2 w List.mem_cons_self

theorem killsFit_pay (h : (l.pay w).killsFit s₀ = true) : isInt ((l.pay w).kills s₀ w.user w.no) = true :=
  List.all_eq_true.mp h w List.mem_cons_self

end Ledger

theorem since_eq {s s₀ : Server} {l : Ledger} (hs : s.trace.shots = l.shots ++ s₀.trace.shots)
    (ha : s.trace.awards = l.awards ++ s₀.trace.awards) : s.since s₀ = l := by
  unfold Server.since
  rw [hs, ha]
  simp

theorem i32_of_isInt {x : ℤ} (h : isInt x = true) : i32 x = x := by
  unfold isInt at h
  rw [Bool.and_eq_true, decide_eq_true_eq, decide_eq_true_eq] at h
  exact i32_of_bounds h.1 h.2

theorem i32_eq_iff {x : ℤ} : i32 x = x ↔ isInt x = true := by
  constructor
  · intro h
    unfold i32 at h
    simp only [isInt, Bool.and_eq_true, decide_eq_true_eq]
    omega
  · exact i32_of_isInt

theorem isInt_i32 (x : ℤ) : isInt (i32 x) = true := by
  simp only [isInt, Bool.and_eq_true, decide_eq_true_eq]
  unfold i32
  omega

theorem killCount_killFish (no n : ℤ) (ks : List KillFish) (h : isInt (killCount no ks + 1) = true) :
    killCount n (killFish no ks) = killCount n ks + if no = n then 1 else 0 := by
  induction ks with
  | nil => simp [killFish, killCount]
  | cons k ks ih =>
    by_cases hk : k.no = no
    · rw [killCount, if_pos hk] at h
      rw [killFish, if_pos hk, killCount, killCount]
      simp only [i32_of_isInt h, hk]
      split_ifs <;> omega
    · rw [killCount, if_neg hk] at h
      rw [killFish, if_neg hk, killCount, killCount]
      by_cases hn : k.no = n
      · rw [if_pos hn, if_pos hn, if_neg (fun he => hk (hn.trans he.symm)), add_zero]
      · rw [if_neg hn, if_neg hn]
        exact ih h

@[simp] theorem killSum_nil (n : ℤ) : killSum n [] = 0 := rfl

theorem killSum_cons (n : ℤ) (k : KillFish) (ks : List KillFish) :
    killSum n (k :: ks) = (if k.no = n then k.value else 0) + killSum n ks := by
  unfold killSum
  by_cases h : k.no = n
  · simp [h]
  · simp [h]

theorem killSum_killFish (no n : ℤ) (ks : List KillFish) (h : isInt (killCount no ks + 1) = true) :
    killSum n (killFish no ks) = killSum n ks + if no = n then 1 else 0 := by
  induction ks with
  | nil => simp [killFish, killSum_cons]
  | cons k ks ih =>
    by_cases hk : k.no = no
    · rw [killCount, if_pos hk] at h
      rw [killFish, if_pos hk, killSum_cons, killSum_cons]
      simp only [i32_of_isInt h, hk]
      split_ifs <;> omega
    · rw [killCount, if_neg hk] at h
      rw [killFish, if_neg hk, killSum_cons, killSum_cons, ih h]
      omega

structure Ledger.Balanced (l : Ledger) (s₀ s : Server) : Prop where
  coin : ∀ a, (s.users a).coin = l.coin s₀ a
  count : ∀ a no, killCount no (s.users a).killfish = l.kills s₀ a no
  sum : ∀ a no, killSum no (s.users a).killfish = killSum no (s₀.users a).killfish + l.caught a no

variable {l : Ledger} {s₀ s t : Server}

theorem Ledger.balanced_nil (s₀ : Server) : (⟨[], []⟩ : Ledger).Balanced s₀ s₀ where
  coin := fun a => by simp [Ledger.coin, Ledger.shotsOf, Ledger.won]
  count := fun a no => by simp [Ledger.kills, Ledger.caught]
  sum := fun a no => by simp [Ledger.caught]

theorem Ledger.Balanced.congr (h : l.Balanced s₀ s) (hu : t.users = s.users) : l.Balanced s₀ t := by
  constructor
  · rw [hu]
    exact h.coin
  · rw [hu]
    exact h.count
  · rw [hu]
    exact h.sum

theorem Ledger.Balanced.shoot (h : l.Balanced s₀ s) {x : Shot}
    (ht : t.users = Function.update s.users x.user
      { s.users x.user with coin := i32 ((s.users x.user).coin - 1) })
    (hfit : isInt ((l.shoot x).coin s₀ x.user) = true) : (l.shoot x).Balanced s₀ t := by
  have hcoin : (l.shoot x).coin s₀ x.user = l.coin s₀ x.user - 1 := by
    simp only [Ledger.coin, Ledger.shotsOf_shoot, Ledger.won_shoot, if_true]
    omega
  rw [hcoin] at hfit
  have hother : ∀ a, a ≠ x.user → t.users a = s.users a := by
    intro a ha
    rw [ht, Function.update_of_ne ha]
  have hself : t.users x.user = { s.users x.user with coin := l.coin s₀ x.user - 1 } := by
    rw [ht, Function.update_self, h.coin, i32_of_isInt hfit]
  refine ⟨?_, ?_, ?_⟩
  · intro a
    by_cases ha : a = x.user
    · rw [ha, hself, hcoin]
    · rw [hother a ha, h.coin]
      simp [Ledger.coin, Ne.symm ha]
  · intro a no
    by_cases ha : a = x.user
    · rw [ha, hself]
      exact h.count x.user no
    · rw [hother a ha]
      exact h.count a no
  · intro a no
    by_cases ha : a = x.user
    · rw [ha, hself]
      exact h.sum x.user no
    · rw [hother a ha]
      exact h.sum a no

theorem Ledger.Balanced.pay (h : l.Balanced s₀ s) {w : Award}
    (ht : t.users = Function.update s.users w.user
      { s.users w.user with
        coin := i32 ((s.users w.user).coin + w.coin)
        killfish := killFish w.no (s.users w.user).killfish })
    (hfit : isInt ((l.pay w).coin s₀ w.user) = true)
    (hkills : isInt ((l.pay w).kills s₀ w.user w.no) = true) : (l.pay w).Balanced s₀ t := by
  have hcoin : (l.pay w).coin s₀ w.user = l.coin s₀ w.user + w.coin := by
    simp only [Ledger.coin, Ledger.shotsOf_pay, Ledger.won_pay, if_true]
    omega
  have hcount : isInt (killCount w.no (s.users w.user).killfish + 1) = true := by
    rw [h.count]
    simpa [Ledger.kills, add_assoc] using hkills
  rw [hcoin] at hfit
  have hother : ∀ a, a ≠ w.user → t.users a = s.users a := by
    intro a ha
    rw [ht, Function.update_of_ne ha]
  have hself : t.users w.user = { s.users w.user with
      coin := l.coin s₀ w.user + w.coin, killfish := killFish w.no (s.users w.user).killfish } := by
    rw [ht, Function.update_self, h.coin, i32_of_isInt hfit]
  refine ⟨?_, ?_, ?_⟩
  · intro a
    by_cases ha : a = w.user
    · rw [ha, hself, hcoin]
    · rw [hother a ha, h.coin]
      simp [Ledger.coin, Ne.symm ha]
  · intro a no
    by_cases ha : a = w.user
    · rw [ha, hself, killCount_killFish w.no no _ hcount, h.count]
      simp [Ledger.kills, add_assoc]
    · rw [hother a ha, h.count]
      simp [Ledger.kills, Ne.symm ha]
  · intro a no
    by_cases ha : a = w.user
    · rw [ha, hself, killSum_killFish w.no no _ hcount, h.sum]
      simp [add_assoc]
    · rw [hother a ha, h.sum]
      simp [Ne.symm ha]

end FishServer
