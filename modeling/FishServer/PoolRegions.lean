import FishServer.PoolLayout

namespace FishServer

/-! The regions of the pool for every size, as offsets from its first byte. -/

def roundUp (m block : ℤ) : ℤ := (m + block - 1) / block * block

def initLoop (byte : ℤ) : InitLoop :=
  classes.foldl (initClass (if byte < 1250 then 1250 else byte) 6) ⟨.zero, 0, 0, 0⟩

def bitmapBytes (byte : ℤ) : ℤ :=
  if (initLoop byte).bitSize % 8 ≠ 0 then (initLoop byte).bitSize / 8 + 1 else (initLoop byte).bitSize / 8

def Memory.regionStart (s : Memory) (i : Fin 3) : ℤ := u32 (s.con.addrStart i - s.var.firstPtr)

def Memory.regionEnd (s : Memory) (i : Fin 3) : ℤ := u32 (s.con.addrEnd i - s.var.firstPtr)

structure Memory.Partition (s : Memory) (byte : ℤ) : Prop where
  first : s.regionStart 0 = 0
  next1 : s.regionStart 1 = s.regionEnd 0
  next2 : s.regionStart 2 = s.regionEnd 1
  total : s.regionEnd 2 = s.var.total
  disjoint : ∀ i j, i ≠ j →
    Disjoint (Set.Ico (s.regionStart i) (s.regionEnd i)) (Set.Ico (s.regionStart j) (s.regionEnd j))
  bit_first : s.con.bitStart 0 = 0
  bit_next1 : s.con.bitStart 1 = s.con.bitEnd 0
  bit_next2 : s.con.bitStart 2 = s.con.bitEnd 1
  length : ∀ i, s.regionEnd i - s.regionStart i = blockSize i * (s.con.bitEnd i - s.con.bitStart i)
  bitmap : ∀ i k, s.con.bitStart i ≤ k → k < s.con.bitEnd i → 0 ≤ k / 8 ∧ k / 8 < bitmapBytes byte

structure Memory.Laid (s : Memory) (byte : ℤ) : Prop extends s.Partition byte where
  exact : ∀ i, s.regionEnd i - s.regionStart i = roundUp (max byte 1250 * blockRatio i / 6) (blockSize i)

theorem memoryInit_bitmap (byte firstPtr : ℤ) (outside : Bitmap.Bytes) :
    (memoryInit byte firstPtr outside).var.usePtr =
      fun k => if 0 ≤ k ∧ k < bitmapBytes byte then 0#8 else outside k := rfl

theorem regionSize_roundUp (byte : ℤ) (i : Fin 3) :
    regionSize byte 6 i = roundUp (u32 (byte * blockRatio i) / 6) (blockSize i) := by
  have h0 := u32_nonneg (byte * blockRatio i)
  have h1 := u32_lt (byte * blockRatio i)
  unfold regionSize
  generalize u32 (byte * blockRatio i) = x at h0 h1 ⊢
  fin_cases i
  all_goals
    simp only [blockSize, roundUp, u32]
    simp
    split <;> omega

theorem u32_i32_sub (x y : ℤ) : u32 (i32 (x + y) - y) = u32 x := by
  unfold u32 i32
  omega

theorem u32_i32 (x : ℤ) : u32 (i32 x) = u32 x := by
  unfold u32 i32
  omega

theorem region_blocks (n : ℤ) (i : Fin 3) :
    ∃ b, 0 ≤ b ∧ regionSize n 6 i = blockSize i * b ∧ blockSize i * b ≤ 715828882 ∧
      blockSize i * b = roundUp (u32 (n * blockRatio i) / 6) (blockSize i) := by
  obtain ⟨b, hb, hr, -, hm⟩ := regionSize_eq n i
  refine ⟨b, hb, ?_, ?_, ?_⟩
  · rw [hr, mul_comm]
  · rwa [mul_comm]
  · rw [← regionSize_roundUp, hr, mul_comm]

structure LoopSizes (l : InitLoop) (b : Fin 3 → ℤ) : Prop where
  size : l.size = 50 * b 0 + 200 * b 1 + 1000 * b 2
  bitSize : l.bitSize = b 0 + b 1 + b 2
  addrStart : l.con.addrStart = ![0, i32 (50 * b 0), i32 (50 * b 0 + 200 * b 1)]
  addrEnd : l.con.addrEnd =
    ![i32 (50 * b 0), i32 (50 * b 0 + 200 * b 1), i32 (50 * b 0 + 200 * b 1 + 1000 * b 2)]
  bitStart : l.con.bitStart = ![0, b 0, b 0 + b 1]
  bitEnd : l.con.bitEnd = ![b 0, b 0 + b 1, b 0 + b 1 + b 2]

theorem initLoop_sizes {byte : ℤ} {b : Fin 3 → ℤ} (hb : ∀ i, 0 ≤ b i)
    (hr : ∀ i, regionSize (if byte < 1250 then 1250 else byte) 6 i = blockSize i * b i)
    (hm : ∀ i, blockSize i * b i ≤ 715828882) : LoopSizes (initLoop byte) b := by
  have h0 := hb 0
  have h1 := hb 1
  have h2 := hb 2
  have m0 := hm 0
  have m1 := hm 1
  have m2 := hm 2
  unfold initLoop
  simp only [classes, List.foldl, initClass, hr]
  simp only [blockSize, MemoryCon.zero, Matrix.cons_val] at *
  simp (disch := omega) only [u32_of_bounds]
  constructor
  case size | bitSize => simp (disch := omega)
  all_goals
    funext i
    fin_cases i <;> simp (disch := omega) [Function.update, i32_of_bounds]
  · exact add_comm _ _
  · rw [add_comm]

theorem memoryInit_con (byte firstPtr : ℤ) (outside : Bitmap.Bytes) :
    (memoryInit byte firstPtr outside).con = { (initLoop byte).con with
      addrStart := fun i => i32 ((initLoop byte).con.addrStart i + firstPtr)
      addrEnd := fun i => i32 ((initLoop byte).con.addrEnd i + firstPtr) } := rfl

structure Regions (s : Memory) (b : Fin 3 → ℤ) : Prop where
  start : s.regionStart = ![0, 50 * b 0, 50 * b 0 + 200 * b 1]
  stop : s.regionEnd = ![50 * b 0, 50 * b 0 + 200 * b 1, 50 * b 0 + 200 * b 1 + 1000 * b 2]

theorem LoopSizes.regions {byte : ℤ} {b : Fin 3 → ℤ} (h : LoopSizes (initLoop byte) b) (hb : ∀ i, 0 ≤ b i)
    (hm : ∀ i, blockSize i * b i ≤ 715828882) (firstPtr : ℤ) (outside : Bitmap.Bytes) :
    Regions (memoryInit byte firstPtr outside) b := by
  have h0 := hb 0
  have h1 := hb 1
  have h2 := hb 2
  have m0 := hm 0
  have m1 := hm 1
  have m2 := hm 2
  simp only [blockSize, Matrix.cons_val] at m0 m1 m2
  have hfirst : (memoryInit byte firstPtr outside).var.firstPtr = firstPtr := rfl
  constructor
  all_goals
    funext i
    simp only [Memory.regionStart, Memory.regionEnd, memoryInit_con, hfirst, u32_i32_sub, h.addrStart, h.addrEnd]
    fin_cases i <;> simp (disch := omega) [u32_i32, u32_of_bounds]

theorem region_length {s : Memory} {b : Fin 3 → ℤ} (h : Regions s b) (i : Fin 3) :
    s.regionEnd i - s.regionStart i = blockSize i * b i := by
  rw [h.start, h.stop]
  fin_cases i <;> simp [blockSize]

theorem Regions.disjoint {s : Memory} {b : Fin 3 → ℤ} (h : Regions s b) (hb : ∀ i, 0 ≤ b i) (i j : Fin 3)
    (hij : i ≠ j) :
    Disjoint (Set.Ico (s.regionStart i) (s.regionEnd i)) (Set.Ico (s.regionStart j) (s.regionEnd j)) := by
  have h0 := hb 0
  have h1 := hb 1
  have h2 := hb 2
  rw [h.start, h.stop, Set.Ico_disjoint_Ico]
  fin_cases i <;> fin_cases j <;> simp at hij ⊢ <;> omega

theorem roundUp_wrapped {n : ℤ} (h0 : 1431655766 ≤ n) (h1 : n < 2 ^ 31) :
    roundUp (u32 (n * 3) / 6) 1000 ≠ roundUp (n * 3 / 6) 1000 := by
  have hwrap : u32 (n * 3) = n * 3 - 2 ^ 32 := by
    unfold u32
    omega
  rw [hwrap]
  unfold roundUp
  omega

theorem LoopSizes.partition {byte : ℤ} {b : Fin 3 → ℤ} (h : LoopSizes (initLoop byte) b) (hb : ∀ i, 0 ≤ b i)
    (hm : ∀ i, blockSize i * b i ≤ 715828882) (firstPtr : ℤ) (outside : Bitmap.Bytes) :
    (memoryInit byte firstPtr outside).Partition byte := by
  have hregions := h.regions hb hm firstPtr outside
  have hstart : (memoryInit byte firstPtr outside).con.bitStart = ![0, b 0, b 0 + b 1] := h.bitStart
  have hend : (memoryInit byte firstPtr outside).con.bitEnd = ![b 0, b 0 + b 1, b 0 + b 1 + b 2] := h.bitEnd
  have htotal : (memoryInit byte firstPtr outside).var.total = 50 * b 0 + 200 * b 1 + 1000 * b 2 := h.size
  constructor
  case first => rw [hregions.start]; rfl
  case next1 | next2 => rw [hregions.start, hregions.stop]; rfl
  case total => rw [hregions.stop, htotal]; rfl
  case disjoint => exact hregions.disjoint hb
  case bit_first => rw [hstart]; rfl
  case bit_next1 | bit_next2 => rw [hstart, hend]; rfl
  case length =>
    intro i
    rw [region_length hregions, hstart, hend]
    fin_cases i <;> simp
  case bitmap =>
    intro i k hk0 hk1
    have b0 := hb 0
    have b1 := hb 1
    have b2 := hb 2
    have hk : 0 ≤ k ∧ k < b 0 + b 1 + b 2 := by
      rw [hstart] at hk0
      rw [hend] at hk1
      fin_cases i <;> simp at hk0 hk1 <;> omega
    unfold bitmapBytes
    rw [h.bitSize]
    split_ifs <;> omega

theorem memoryInit_sizes (byte : ℤ) : ∃ b, (∀ i, 0 ≤ b i) ∧ (∀ i, blockSize i * b i ≤ 715828882) ∧
    (∀ i, blockSize i * b i = roundUp (u32 (max byte 1250 * blockRatio i) / 6) (blockSize i)) ∧
      LoopSizes (initLoop byte) b := by
  have hmax : (if byte < 1250 then 1250 else byte) = max byte 1250 := by
    split_ifs <;> omega
  have hblocks := fun i => region_blocks (max byte 1250) i
  choose b hb hr hm hround using hblocks
  exact ⟨b, hb, hm, hround, initLoop_sizes hb (by rwa [hmax]) hm⟩

theorem memoryInit_partition (byte firstPtr : ℤ) (outside : Bitmap.Bytes) :
    (memoryInit byte firstPtr outside).Partition byte := by
  obtain ⟨b, hb, hm, -, hsizes⟩ := memoryInit_sizes byte
  exact hsizes.partition hb hm firstPtr outside

theorem regions_exact_iff (byte firstPtr : ℤ) (outside : Bitmap.Bytes) (h0 : 0 < byte) (h1 : byte < 2 ^ 31) :
    (memoryInit byte firstPtr outside).Laid byte ↔ byte ≤ 1431655765 := by
  obtain ⟨b, hb, hm, hround, hsizes⟩ := memoryInit_sizes byte
  have hlen := region_length (hsizes.regions hb hm firstPtr outside)
  constructor
  · intro h
    have hlast := h.exact 2
    rw [hlen, hround] at hlast
    by_contra hbig
    apply roundUp_wrapped _ _ hlast
    · omega
    · omega
  · intro h
    refine ⟨memoryInit_partition byte firstPtr outside, ?_⟩
    intro i
    rw [hlen, hround, u32_of_bounds]
    · fin_cases i <;> simp [blockRatio]
    · fin_cases i <;> simp [blockRatio] <;> omega

theorem megabyte_exact : (memoryInit 1048576 65536 fun _ => 0#8).Laid 1048576 :=
  (regions_exact_iff 1048576 65536 (fun _ => 0#8) (by decide) (by decide)).mpr (by decide)

theorem wrapped_region_empty : ¬ ∀ (byte firstPtr : ℤ) (outside : Bitmap.Bytes), 0 < byte → byte < 2 ^ 31 →
    (memoryInit byte firstPtr outside).Laid byte := by
  intro h
  have hlast := (h 1431655766 65536 (fun _ => 0#8) (by decide) (by decide)).exact 2
  exact absurd hlast (by decide)

end FishServer
