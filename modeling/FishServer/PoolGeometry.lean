import FishServer.PoolRun

namespace FishServer

open Bitmap

namespace Layout

variable {s : Memory} {i j : Fin 3} {k l : ℤ}

theorem addr_bounds (h : Layout s) (hk : InClass s.con i k) :
    s.con.addrStart i ≤ addrOf s.con i k ∧
      addrOf s.con i k + blockSize i ≤ s.con.addrEnd i := by
  have hpos := blockSize_pos i
  have hsize := h.addr_size i
  obtain ⟨hk0, hk1⟩ := hk
  unfold addrOf
  constructor
  · nlinarith
  · nlinarith

theorem region_le (h : Layout s) (i : Fin 3) : s.con.addrStart i ≤ s.con.addrEnd i := by
  have hpos := blockSize_pos i
  have hsize := h.addr_size i
  have hbits := h.bit_le i
  nlinarith

theorem region_lt (h : Layout s) (hij : i < j) : s.con.addrEnd i ≤ s.con.addrStart j := by
  have h1 := h.region_le 1
  have := h.addr_next1
  have := h.addr_next2
  fin_cases i <;> fin_cases j <;> simp at hij ⊢ <;> omega

theorem bits_lt (h : Layout s) (hij : i < j) : s.con.bitEnd i ≤ s.con.bitStart j := by
  have h1 := h.bit_le 1
  have := h.bit_next1
  have := h.bit_next2
  fin_cases i <;> fin_cases j <;> simp at hij ⊢ <;> omega

theorem region_bounds (h : Layout s) (i : Fin 3) :
    s.var.firstPtr ≤ s.con.addrStart i ∧ s.con.addrEnd i ≤ s.var.endPtr + 1 := by
  have h0 := h.region_le 0
  have h1 := h.region_le 1
  have h2 := h.region_le 2
  have := h.addr_first
  have := h.addr_next1
  have := h.addr_next2
  have := h.addr_last
  fin_cases i <;> simp <;> omega

theorem bitStart_nonneg (h : Layout s) (i : Fin 3) : 0 ≤ s.con.bitStart i := by
  have h0 := h.bit_le 0
  have h1 := h.bit_le 1
  have := h.bit_first
  have := h.bit_next1
  have := h.bit_next2
  fin_cases i <;> simp <;> omega

theorem class_unique (h : Layout s) (hi : InClass s.con i k) (hj : InClass s.con j k) : i = j := by
  obtain ⟨hi0, hi1⟩ := hi
  obtain ⟨hj0, hj1⟩ := hj
  rcases lt_trichotomy i j with hij | hij | hij
  · have := h.bits_lt hij
    omega
  · exact hij
  · have := h.bits_lt hij
    omega

theorem addr_inj (h : Layout s) (hi : InClass s.con i k) (hj : InClass s.con j l)
    (heq : addrOf s.con i k = addrOf s.con j l) : i = j ∧ k = l := by
  have hpos := blockSize_pos i
  have hpos' := blockSize_pos j
  have bi := h.addr_bounds hi
  have bj := h.addr_bounds hj
  rcases lt_trichotomy i j with hij | rfl | hij
  · have := h.region_lt hij
    omega
  · refine ⟨rfl, ?_⟩
    have hmul : (k - s.con.bitStart i) * blockSize i = (l - s.con.bitStart i) * blockSize i := by
      simpa only [addrOf, add_right_inj] using heq
    have := mul_right_cancel₀ hpos.ne' hmul
    omega
  · have := h.region_lt hij
    omega

theorem addr_apart (h : Layout s) (hi : InClass s.con i k) (hj : InClass s.con j l)
    (hne : addrOf s.con i k ≠ addrOf s.con j l) :
    addrOf s.con i k + blockSize i ≤ addrOf s.con j l ∨
      addrOf s.con j l + blockSize j ≤ addrOf s.con i k := by
  have bi := h.addr_bounds hi
  have bj := h.addr_bounds hj
  rcases lt_trichotomy i j with hij | rfl | hij
  · have := h.region_lt hij
    omega
  · have hpos := blockSize_pos i
    have hkl : k ≠ l := fun hkl => hne (by rw [hkl])
    unfold addrOf
    rcases lt_or_gt_of_ne hkl with hkl | hkl
    · left; nlinarith
    · right; nlinarith
  · have := h.region_lt hij
    omega

theorem blockPtr_eq (h : Layout s) (hk : InClass s.con i k) :
    blockPtr s.con i k = addrOf s.con i k := by
  have hb := h.addr_bounds hk
  have hr := h.region_bounds i
  have hpos := blockSize_pos i
  have hfirst := h.first_nonneg
  have hlast := h.addr_last
  have hfits := h.addr_fits
  have hoff : 0 ≤ (k - s.con.bitStart i) * blockSize i :=
    mul_nonneg (by have := hk.1; omega) hpos.le
  unfold addrOf at hb
  unfold blockPtr addrOf
  rw [u32_of_bounds hoff (by omega), u32_of_bounds (by omega) (by omega)]

theorem find_region (h : Layout s) (hk : InClass s.con i k) :
    classes.find? (fun j => decide (s.con.addrStart j ≤ addrOf s.con i k ∧
      addrOf s.con i k < s.con.addrEnd j)) = some i := by
  have hb := h.addr_bounds hk
  have hpos := blockSize_pos i
  have hself : s.con.addrStart i ≤ addrOf s.con i k ∧ addrOf s.con i k < s.con.addrEnd i := by
    omega
  have hother : ∀ j < i, ¬ (s.con.addrStart j ≤ addrOf s.con i k ∧
      addrOf s.con i k < s.con.addrEnd j) := by
    intro j hj
    have := h.region_lt hj
    omega
  have hi : i = 0 ∨ i = 1 ∨ i = 2 := by fin_cases i <;> simp
  simp only [classes, List.find?_cons]
  rcases hi with rfl | rfl | rfl
  · simp only [hself, and_self, decide_true]
  · simp only [hself, hother 0 (by decide), and_self, decide_true, decide_false]
  · simp only [hself, hother 0 (by decide), hother 1 (by decide), and_self, decide_true, decide_false]

theorem release_bit (s : Memory) (i : Fin 3) (k : ℤ) :
    (addrOf s.con i k - s.con.addrStart i) / blockSize i + s.con.bitStart i = k := by
  have hpos := blockSize_pos i
  have : addrOf s.con i k - s.con.addrStart i = (k - s.con.bitStart i) * blockSize i := by
    unfold addrOf
    ring
  rw [this, Int.mul_ediv_cancel _ hpos.ne']
  omega

theorem addr_inPool (h : Layout s) (hk : InClass s.con i k) : InPool s (addrOf s.con i k) := by
  have hb := h.addr_bounds hk
  have hr := h.region_bounds i
  have hpos := blockSize_pos i
  unfold InPool
  omega

theorem addr_i32 (h : Layout s) (hk : InClass s.con i k) :
    i32 (addrOf s.con i k) = addrOf s.con i k := by
  have hb := h.addr_bounds hk
  have hr := h.region_bounds i
  have hpos := blockSize_pos i
  have hfirst := h.first_nonneg
  have hlast := h.addr_last
  have hfits := h.addr_fits
  exact i32_of_bounds (by omega) (by omega)

end Layout

theorem bitPos_bounds {s : Memory} {i : Fin 3} (h : Layout s) (h0 : 0 ≤ s.con.bitIndex i)
    (hfit : s.con.bitIndex i + s.con.bitStart i < 2 ^ 31) :
    s.con.bitStart i ≤ bitPos s.con i ∧
      (bitPos s.con i < s.con.bitEnd i ∨ bitPos s.con i = s.con.bitStart i) := by
  have hs := h.bitStart_nonneg i
  simp only [bitPos, i32_of_bounds (show -2 ^ 31 ≤ s.con.bitIndex i + s.con.bitStart i by omega) hfit]
  split <;> omega

theorem foundBit_some {s : Memory} {i : Fin 3} {k : ℤ} (hlo : s.con.bitStart i ≤ bitPos s.con i)
    (hhi : bitPos s.con i < s.con.bitEnd i ∨ bitPos s.con i = s.con.bitStart i)
    (h : foundBit s i = some k) : InClass s.con i k ∧ bitAt s.var.usePtr k = false := by
  unfold InClass
  simp only [foundBit] at h
  split at h
  case h_1 k' hup =>
    have hk := scanUp_some hup
    rw [Option.some.injEq] at h
    subst h
    exact ⟨by omega, hk.2.2⟩
  case h_2 hup =>
    have hk := scanDown_some h
    exact ⟨by omega, hk.2.2⟩

theorem freeIndex_found {s : Memory} {i : Fin 3} {k : ℤ} (h : freeIndex s i = some k) :
    foundBit s i = some k ∧ k ≠ -1 := by
  obtain ⟨hfound, hk⟩ := Option.filter_eq_some_iff.mp h
  exact ⟨hfound, of_decide_eq_true hk⟩

theorem freeIndex_of_found {s : Memory} {i : Fin 3} {k : ℤ} (h : foundBit s i = some k) (hk : k ≠ -1) :
    freeIndex s i = some k := by
  rw [freeIndex, h, Option.filter_some, if_pos (decide_eq_true hk)]

theorem freeIndex_some {s : Memory} {i : Fin 3} {k : ℤ} (hlo : s.con.bitStart i ≤ bitPos s.con i)
    (hhi : bitPos s.con i < s.con.bitEnd i ∨ bitPos s.con i = s.con.bitStart i)
    (h : freeIndex s i = some k) : InClass s.con i k ∧ bitAt s.var.usePtr k = false :=
  foundBit_some hlo hhi (freeIndex_found h).1

theorem foundBit_none {s : Memory} {i : Fin 3} (hstart : 0 ≤ s.con.bitStart i)
    (hlo : s.con.bitStart i ≤ bitPos s.con i)
    (hhi : bitPos s.con i < s.con.bitEnd i ∨ bitPos s.con i = s.con.bitStart i) (h : freeIndex s i = none) :
    foundBit s i = none := by
  cases hfound : foundBit s i with
  | none => rfl
  | some k =>
    obtain ⟨⟨hk, -⟩, -⟩ := foundBit_some hlo hhi hfound
    rw [freeIndex_of_found hfound (by omega)] at h
    cases h

theorem setFound_bits {s : Memory} {i : Fin 3} (h : freeIndex s i = none) {k : ℤ} (hk : 0 ≤ k) :
    bitAt (setFound s i).var.usePtr k = bitAt s.var.usePtr k := by
  unfold setFound
  cases hfound : foundBit s i with
  | none => rfl
  | some l =>
    have hl : l = -1 := by
      by_contra hne
      rw [freeIndex_of_found hfound hne] at h
      cases h
    simp only [Option.elim_some, bitAt_setBit]
    rw [decide_eq_false (by omega), Bool.false_or]

end FishServer
