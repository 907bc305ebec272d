import Mathlib

namespace Bitmap

abbrev Bytes := ℤ → BitVec 8

/-- Bit `i` of a byte array, least significant bit of each byte first; `i / 8` rounds down. -/
def bitAt (m : Bytes) (i : ℤ) : Bool := (m (i / 8)).getLsbD (i % 8).toNat

def setBit (m : Bytes) (i : ℤ) : Bytes :=
  Function.update m (i / 8) (m (i / 8) ||| 1#8 <<< (i % 8).toNat)

def clearBit (m : Bytes) (i : ℤ) : Bytes :=
  Function.update m (i / 8) (m (i / 8) &&& ~~~(1#8 <<< (i % 8).toNat))

theorem mask_getLsbD {k j : ℕ} (hj : j < 8) : (1#8 <<< k).getLsbD j = decide (j = k) := by
  simp only [BitVec.getLsbD_shiftLeft, BitVec.getLsbD_one]
  grind

theorem position_eq_iff (i j : ℤ) : i / 8 = j / 8 ∧ (i % 8).toNat = (j % 8).toNat ↔ i = j := by
  omega

theorem bitAt_setBit (m : Bytes) (i j : ℤ) :
    bitAt (setBit m i) j = (decide (j = i) || bitAt m j) := by
  have hj : (j % 8).toNat < 8 := by omega
  by_cases hbyte : j / 8 = i / 8
  · have hpos : (j % 8).toNat = (i % 8).toNat ↔ j = i := by
      rw [← position_eq_iff]
      exact ⟨fun h => ⟨hbyte, h⟩, And.right⟩
    simp only [bitAt, setBit, hbyte, Function.update_self, BitVec.getLsbD_or, mask_getLsbD hj, hpos]
    exact Bool.or_comm _ _
  · have hne : j ≠ i := fun h => hbyte (h ▸ rfl)
    simp [bitAt, setBit, hbyte, hne]

theorem bitAt_clearBit (m : Bytes) (i j : ℤ) :
    bitAt (clearBit m i) j = (!decide (j = i) && bitAt m j) := by
  have hj : (j % 8).toNat < 8 := by omega
  by_cases hbyte : j / 8 = i / 8
  · have hpos : (j % 8).toNat = (i % 8).toNat ↔ j = i := by
      rw [← position_eq_iff]
      exact ⟨fun h => ⟨hbyte, h⟩, And.right⟩
    simp only [bitAt, clearBit, hbyte, Function.update_self, BitVec.getLsbD_and,
      BitVec.getLsbD_not, mask_getLsbD hj, hpos, hj, decide_true, Bool.true_and]
    exact Bool.and_comm _ _
  · have hne : j ≠ i := fun h => hbyte (h ▸ rfl)
    simp [bitAt, clearBit, hbyte, hne]

@[simp] theorem bitAt_clearBit_self (m : Bytes) (i : ℤ) : bitAt (clearBit m i) i = false := by
  simp [bitAt_clearBit]

theorem clearBit_setBit {m : Bytes} {i : ℤ} (h : bitAt m i = false) (j : ℤ) :
    bitAt (clearBit (setBit m i) i) j = bitAt m j := by
  by_cases hj : j = i
  · simp [hj, h]
  · simp [bitAt_clearBit, bitAt_setBit, hj]

def scanUp (m : Bytes) (i : ℤ) : ℕ → Option ℤ
  | 0 => none
  | n + 1 => if bitAt m i = false then some i else scanUp m (i + 1) n

def scanDown (m : Bytes) (i : ℤ) : ℕ → Option ℤ
  | 0 => none
  | n + 1 => if bitAt m i = false then some i else scanDown m (i - 1) n

theorem scanUp_some {m : Bytes} {i k : ℤ} {n : ℕ} (h : scanUp m i n = some k) :
    i ≤ k ∧ k < i + n ∧ bitAt m k = false := by
  induction n generalizing i with
  | zero => simp [scanUp] at h
  | succ n ih =>
    by_cases hi : bitAt m i = false
    · simp only [scanUp, hi, ↓reduceIte, Option.some.injEq] at h
      exact ⟨by omega, by omega, h ▸ hi⟩
    · simp only [scanUp, hi] at h
      have := ih h
      exact ⟨by omega, by omega, this.2.2⟩

theorem scanDown_some {m : Bytes} {i k : ℤ} {n : ℕ} (h : scanDown m i n = some k) :
    k ≤ i ∧ i - n < k ∧ bitAt m k = false := by
  induction n generalizing i with
  | zero => simp [scanDown] at h
  | succ n ih =>
    by_cases hi : bitAt m i = false
    · simp only [scanDown, hi, ↓reduceIte, Option.some.injEq] at h
      exact ⟨by omega, by omega, h ▸ hi⟩
    · simp only [scanDown, hi] at h
      have := ih h
      exact ⟨by omega, by omega, this.2.2⟩

theorem scanUp_none {m : Bytes} {i k : ℤ} {n : ℕ} (h : scanUp m i n = none) (h0 : i ≤ k) (h1 : k < i + n) :
    bitAt m k = true := by
  induction n generalizing i with
  | zero => omega
  | succ n ih =>
    rw [scanUp] at h
    split_ifs at h with hi
    by_cases hk : k = i
    · subst hk
      simpa using hi
    · apply ih h
      · omega
      · omega

theorem scanDown_none {m : Bytes} {i k : ℤ} {n : ℕ} (h : scanDown m i n = none) (h0 : k ≤ i) (h1 : i - n < k) :
    bitAt m k = true := by
  induction n generalizing i with
  | zero => omega
  | succ n ih =>
    rw [scanDown] at h
    split_ifs at h with hi
    by_cases hk : k = i
    · subst hk
      simpa using hi
    · apply ih h
      · omega
      · omega

def testedUp (m : Bytes) (i : ℤ) : ℕ → List ℤ
  | 0 => []
  | n + 1 => i :: if bitAt m i = false then [] else testedUp m (i + 1) n

def testedDown (m : Bytes) (i : ℤ) : ℕ → List ℤ
  | 0 => []
  | n + 1 => i :: if bitAt m i = false then [] else testedDown m (i - 1) n

theorem testedUp_bounds {m : Bytes} {i k : ℤ} {n : ℕ} (h : k ∈ testedUp m i n) : i ≤ k ∧ k < i + n := by
  induction n generalizing i with
  | zero => cases h
  | succ n ih =>
    rw [testedUp] at h
    rcases List.mem_cons.mp h with h | h
    · omega
    · split_ifs at h
      · cases h
      · have := ih h
        omega

theorem testedDown_bounds {m : Bytes} {i k : ℤ} {n : ℕ} (h : k ∈ testedDown m i n) : k ≤ i ∧ i - n < k := by
  induction n generalizing i with
  | zero => cases h
  | succ n ih =>
    rw [testedDown] at h
    rcases List.mem_cons.mp h with h | h
    · omega
    · split_ifs at h
      · cases h
      · have := ih h
        omega

theorem mem_testedUp {m : Bytes} {i : ℤ} {n : ℕ} (h : 0 < n) : i ∈ testedUp m i n := by
  cases n with
  | zero => cases h
  | succ n => exact List.mem_cons_self

end Bitmap
