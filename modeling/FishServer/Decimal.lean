import FishServer.Ledger
import FishServer.Lib.Printf

namespace FishServer

open Printf

/-! Printing a number, and reading it back. -/

theorem width_isInt {n : ℤ} (h : isInt n = true) : width n ≤ 11 := by
  unfold isInt at h
  rw [Bool.and_eq_true, decide_eq_true_eq, decide_eq_true_eq] at h
  exact width_int h.1 h.2

theorem digit_bounds {c : Char} (h : c.isDigit = true) : 48 ≤ c.toNat ∧ c.toNat ≤ 57 := by
  rw [Char.isDigit, Bool.and_eq_true, decide_eq_true_eq, decide_eq_true_eq] at h
  exact h

theorem digits_ofDigitChars (ds : CStr) (hd : ∀ c ∈ ds, c.isDigit = true) (acc : ℕ) :
    digits acc ds = Nat.ofDigitChars 10 ds acc := by
  induction ds generalizing acc with
  | nil => rfl
  | cons c ds ih =>
    have hc := hd c List.mem_cons_self
    obtain ⟨hlo, -⟩ := digit_bounds hc
    have hacc : (acc : ℤ) * 10 + ((c.toNat : ℤ) - 48) = ((10 * acc + (c.toNat - '0'.toNat) : ℕ) : ℤ) := by
      have h0 : '0'.toNat = 48 := rfl
      omega
    rw [digits, if_pos hc, hacc, Nat.ofDigitChars_cons]
    exact ih (fun d hm => hd d (List.mem_cons_of_mem c hm)) _

theorem toDigits_isDigit (n : ℕ) : ∀ c ∈ Nat.toDigits 10 n, c.isDigit = true :=
  fun _ hc => Nat.isDigit_of_mem_toDigits (by decide) (by decide) hc

theorem digits_toDigits (n : ℕ) : digits 0 (Nat.toDigits 10 n) = n := by
  have h := digits_ofDigitChars _ (toDigits_isDigit n) 0
  rw [Nat.ofDigitChars_ten_toDigits] at h
  exact h

theorem atoi_toDigits (n : ℕ) : atoi (Nat.toDigits 10 n) = max (-2147483648) (min maxInt n) := by
  have hd := toDigits_isDigit n
  have hn := digits_toDigits n
  obtain ⟨c, ds, hcs⟩ := List.exists_cons_of_ne_nil (Nat.toDigits_ne_nil (n := n) (b := 10))
  rw [hcs] at hd hn ⊢
  obtain ⟨hlo, hhi⟩ := digit_bounds (hd c List.mem_cons_self)
  have hspace : isSpace c = false := by
    have hblank : c ≠ ' ' := by
      rintro rfl
      exact absurd hlo (by decide)
    simp only [isSpace, decide_eq_false hblank, Bool.false_or, Bool.and_eq_false_iff, decide_eq_false_iff_not]
    omega
  have hskip : (c :: ds).dropWhile isSpace = c :: ds := by
    rw [List.dropWhile_cons, hspace]
    rfl
  unfold atoi
  rw [hskip]
  split
  · next he =>
    cases he
    exact absurd hlo (by decide)
  · next he =>
    cases he
    exact absurd hlo (by decide)
  · rw [hn]

theorem atoi_decimal {n : ℤ} (h : isInt n = true) : atoi (decimal n) = n := by
  simp only [isInt, Bool.and_eq_true, decide_eq_true_eq] at h
  unfold decimal
  split_ifs with hn
  · have hneg : atoi ('-' :: Nat.toDigits 10 n.natAbs) =
        max (-2147483648) (min maxInt (-digits 0 (Nat.toDigits 10 n.natAbs))) := rfl
    rw [hneg, digits_toDigits]
    unfold maxInt
    omega
  · rw [atoi_toDigits]
    unfold maxInt
    omega

end FishServer
