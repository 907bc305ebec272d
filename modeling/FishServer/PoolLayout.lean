import FishServer.MemoryPool

namespace FishServer

structure Layout (s : Memory) : Prop where
  first_nonneg : 0 ≤ s.var.firstPtr
  addr_first : s.con.addrStart 0 = s.var.firstPtr
  addr_next1 : s.con.addrStart 1 = s.con.addrEnd 0
  addr_next2 : s.con.addrStart 2 = s.con.addrEnd 1
  addr_size : ∀ i, s.con.addrEnd i = s.con.addrStart i + (s.con.bitEnd i - s.con.bitStart i) * blockSize i
  addr_last : s.var.endPtr = s.con.addrEnd 2 - 1
  addr_fits : s.con.addrEnd 2 < 2 ^ 31
  bit_first : s.con.bitStart 0 = 0
  bit_next1 : s.con.bitStart 1 = s.con.bitEnd 0
  bit_next2 : s.con.bitStart 2 = s.con.bitEnd 1
  bit_le : ∀ i, s.con.bitStart i ≤ s.con.bitEnd i

theorem blockSize_pos (i : Fin 3) : 0 < blockSize i := by
  fin_cases i <;> decide

theorem regionSize_eq (byte : ℤ) (i : Fin 3) :
    ∃ b, 0 ≤ b ∧ regionSize byte 6 i = b * blockSize i ∧
      u32 (byte * blockRatio i) / 6 ≤ b * blockSize i ∧ b * blockSize i ≤ 715828882 := by
  obtain ⟨m, hm⟩ : ∃ m, u32 (byte * blockRatio i) / 6 = m := ⟨_, rfl⟩
  have h0 := u32_nonneg (byte * blockRatio i)
  have h1 := u32_lt (byte * blockRatio i)
  refine ⟨(m + blockSize i - 1) / blockSize i, ?_⟩
  simp only [regionSize, hm]
  have hm0 : 0 ≤ m := by omega
  have hm1 : m ≤ 715827882 := by omega
  clear h0 h1 hm
  fin_cases i <;> simp [blockSize, u32] <;> split <;> omega

structure InitTables (s : Memory) (b0 b1 b2 : ℤ) : Prop where
  blocks0 : 0 < b0
  blocks1 : 0 ≤ b1
  blocks2 : 0 ≤ b2
  total : s.var.total = 50 * b0 + 200 * b1 + 1000 * b2
  addrStart : s.con.addrStart =
    ![s.var.firstPtr, s.var.firstPtr + 50 * b0, s.var.firstPtr + 50 * b0 + 200 * b1]
  addrEnd : s.con.addrEnd = ![s.var.firstPtr + 50 * b0, s.var.firstPtr + 50 * b0 + 200 * b1,
    s.var.firstPtr + 50 * b0 + 200 * b1 + 1000 * b2]
  bitStart : s.con.bitStart = ![0, b0, b0 + b1]
  bitEnd : s.con.bitEnd = ![b0, b0 + b1, b0 + b1 + b2]
  bitIndex : s.con.bitIndex = 0
  endPtr : s.var.endPtr = s.var.firstPtr + s.var.total - 1
  clear : ∀ k, 0 ≤ k → k < b0 + b1 + b2 → Bitmap.bitAt s.var.usePtr k = false

theorem memoryInit_tables (byte firstPtr : ℤ) (outside : Bitmap.Bytes) (h0 : 0 ≤ firstPtr)
    (hbyte : byte < 2 ^ 32)
    (hfit : firstPtr + (memoryInit byte firstPtr outside).var.total < 2 ^ 31) :
    ∃ b0 b1 b2, InitTables (memoryInit byte firstPtr outside) b0 b1 b2 := by
  have hsum : (classes.map blockRatio).sum = 6 := by decide
  have hone : (classes.map blockSize).sum = 1250 := by decide
  simp only [memoryInit, hsum, hone] at hfit ⊢
  obtain ⟨n, hn⟩ : ∃ n, (if byte < 1250 then (1250 : ℤ) else byte) = n := ⟨_, rfl⟩
  rw [hn] at hfit ⊢
  have hn' : u32 (n * blockRatio 0) = n := by
    simp only [blockRatio, Matrix.cons_val, mul_one]
    apply u32_of_bounds <;> split at hn <;> omega
  have hn0 : 1250 ≤ n := by split at hn <;> omega
  obtain ⟨b0, hb0, hr0, hl0, hm0⟩ := regionSize_eq n 0
  obtain ⟨b1, hb1, hr1, -, hm1⟩ := regionSize_eq n 1
  obtain ⟨b2, hb2, hr2, -, hm2⟩ := regionSize_eq n 2
  rw [hn'] at hl0
  simp only [classes, List.foldl, initClass, hr0, hr1, hr2] at hfit ⊢
  simp only [blockSize, MemoryCon.zero, Matrix.cons_val] at *
  simp (disch := omega) only [u32_of_bounds] at hfit ⊢
  refine ⟨b0, b1, b2, ?_⟩
  constructor
  case clear =>
    intro k hk0 hk1
    simp only [Bitmap.bitAt]
    rw [if_pos (by omega)]
    simp
  case addrStart | addrEnd | bitStart | bitEnd =>
    funext i
    fin_cases i <;> simp (disch := omega) [Function.update, i32_of_bounds] <;> omega
  case bitIndex => rfl
  case total => simp (disch := omega); omega
  case endPtr => simp (disch := omega) [u32_of_bounds]
  all_goals omega

theorem InitTables.layout {s : Memory} {b0 b1 b2 : ℤ} (h : InitTables s b0 b1 b2)
    (h0 : 0 ≤ s.var.firstPtr) (hfit : s.var.firstPtr + s.var.total < 2 ^ 31) : Layout s := by
  obtain ⟨hb0, hb1, hb2, htotal, hstart, hend, hbs, hbe, -, hlast, -⟩ := h
  constructor
  case addr_size =>
    intro i
    fin_cases i <;> simp [hstart, hend, hbs, hbe, blockSize] <;> omega
  case bit_le => intro i; fin_cases i <;> simp [hbs, hbe] <;> omega
  case first_nonneg => exact h0
  all_goals simp [hstart, hend, hbs, hbe]
  all_goals omega

end FishServer
