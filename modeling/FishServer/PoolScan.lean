import FishServer.PoolRegions
import FishServer.PoolCursor

namespace FishServer

open Bitmap Transition

/-! The bits that the search of `memory_alloc` tests, over runs of any length. -/

def testedBits (s : Memory) (i : Fin 3) : List ℤ :=
  let pos := bitPos s.con i
  let n := (s.con.bitEnd i - pos).toNat
  testedUp s.var.usePtr pos n ++ if (scanUp s.var.usePtr pos n).isSome then []
    else testedDown s.var.usePtr pos (pos - s.con.bitStart i).toNat

structure Memory.Confined (s : Memory) (i : Fin 3) : Prop where
  tested : ∀ k ∈ testedBits s i, InClass s.con i k
  set : ∀ k, foundBit s i = some k → InClass s.con i k

structure BitRows (con : MemoryCon) : Prop where
  first : con.bitStart 0 = 0
  next1 : con.bitStart 1 = con.bitEnd 0
  next2 : con.bitStart 2 = con.bitEnd 1
  le : ∀ i, con.bitStart i ≤ con.bitEnd i
  last : con.bitEnd 2 < 2 ^ 31

theorem memoryInit_bitRows (byte firstPtr : ℤ) (outside : Bytes) :
    BitRows (memoryInit byte firstPtr outside).con := by
  obtain ⟨b, hb, hm, -, hsizes⟩ := memoryInit_sizes byte
  have hstart : (memoryInit byte firstPtr outside).con.bitStart = ![0, b 0, b 0 + b 1] := hsizes.bitStart
  have hend : (memoryInit byte firstPtr outside).con.bitEnd = ![b 0, b 0 + b 1, b 0 + b 1 + b 2] := hsizes.bitEnd
  have b0 := hb 0
  have b1 := hb 1
  have b2 := hb 2
  have m0 := hm 0
  have m1 := hm 1
  have m2 := hm 2
  simp only [blockSize, Matrix.cons_val] at m0 m1 m2
  constructor
  case le =>
    intro i
    rw [hstart, hend]
    fin_cases i <;> simp <;> omega
  all_goals
    simp only [hstart, hend, Matrix.cons_val]
  omega

section

variable {con : MemoryCon} {i j : Fin 3} {k : ℤ}

theorem BitRows.bounds (h : BitRows con) (i : Fin 3) : 0 ≤ con.bitStart i ∧ con.bitEnd i < 2 ^ 31 := by
  have h0 := h.le 0
  have h1 := h.le 1
  have h2 := h.le 2
  have := h.first
  have := h.next1
  have := h.next2
  have := h.last
  fin_cases i <;> simp <;> omega

theorem BitRows.class_unique (h : BitRows con) (hi : InClass con i k) (hj : InClass con j k) : i = j := by
  obtain ⟨hi0, hi1⟩ := hi
  obtain ⟨hj0, hj1⟩ := hj
  have h0 := h.le 0
  have h1 := h.le 1
  have h2 := h.le 2
  have := h.next1
  have := h.next2
  fin_cases i <;> fin_cases j <;> simp at hi0 hi1 hj0 hj1 ⊢ <;> omega

end

theorem clamp_start_le {con : MemoryCon} {i : Fin 3} (hle : con.bitStart i ≤ con.bitEnd i) :
    con.bitStart i ≤ bitPos con i ↔ con.bitStart i ≤ i32 (con.bitIndex i + con.bitStart i) := by
  unfold bitPos
  simp only
  split_ifs
  · omega
  · exact Iff.rfl

theorem bitPos_lt (con : MemoryCon) (i : Fin 3) : bitPos con i < con.bitEnd i ∨ bitPos con i = con.bitStart i := by
  unfold bitPos
  simp only
  split_ifs
  · exact .inr rfl
  · left
    omega

theorem confined_iff {s : Memory} {i : Fin 3} (hle : s.con.bitStart i ≤ s.con.bitEnd i) :
    s.Confined i ↔ s.con.bitStart i ≤ bitPos s.con i := by
  have hlt := bitPos_lt s.con i
  constructor
  · intro h
    by_contra hlow
    have hin := h.tested (bitPos s.con i) (List.mem_append_left _ (mem_testedUp (by omega)))
    exact hlow hin.1
  · intro h
    constructor
    · intro k hk
      unfold testedBits at hk
      rcases List.mem_append.mp hk with hk | hk
      · have := testedUp_bounds hk
        exact ⟨by omega, by omega⟩
      · split_ifs at hk
        · cases hk
        · have := testedDown_bounds hk
          exact ⟨by omega, by omega⟩
    · intro k hk
      exact (foundBit_some h hlt hk).1

theorem memoryFree_rows (s : Memory) (ptr : ℤ) : (memoryFree s ptr).con.bitStart = s.con.bitStart ∧
    (memoryFree s ptr).con.bitEnd = s.con.bitEnd ∧ (memoryFree s ptr).con.bitIndex = s.con.bitIndex := by
  unfold memoryFree
  simp only
  split_ifs
  · split
    · exact ⟨rfl, rfl, rfl⟩
    · exact ⟨rfl, rfl, rfl⟩
  · exact ⟨rfl, rfl, rfl⟩

structure Scanned (con : MemoryCon) (s : PoolState) : Prop where
  start : s.mem.con.bitStart = con.bitStart
  stop : s.mem.con.bitEnd = con.bitEnd
  cursor : ∀ i, s.mem.con.bitIndex i = i32 (s.served i)

theorem poolStep_alloc {s t : PoolState} {size sysPtr : ℤ} (h : poolStep s (.alloc size sysPtr) = some t) :
    1 ≤ size ∧ ((poolClass s.mem size = none ∧ t.served = s.served ∧ SamePool s.mem t.mem ∧
        t.mem.con.bitIndex = s.mem.con.bitIndex ∧
          ∀ k, 0 ≤ k → bitAt t.mem.var.usePtr k = bitAt s.mem.var.usePtr k) ∨
      ∃ i k, poolClass s.mem size = some i ∧ classOf size = some i ∧ freeIndex s.mem i = some k ∧
        t.served = Function.update s.served i (s.served i + 1) ∧
        t.mem = takeBlock (countClass (countAlloc s.mem) i) i k) := by
  have hsize : 1 ≤ size := by
    by_contra hlow
    have hnone : memoryAlloc s.mem size sysPtr = (s.mem, none) := by
      unfold memoryAlloc
      rw [if_pos (by omega)]
    simp only [poolStep, hnone] at h
    cases h
  refine ⟨hsize, ?_⟩
  cases hi : poolClass s.mem size with
  | none =>
    obtain ⟨mem, halloc, hsame, hindex, hbits⟩ := memoryAlloc_system sysPtr hsize hi
    simp only [poolStep, halloc, hi] at h
    cases h
    exact .inl ⟨rfl, rfl, hsame, hindex, hbits⟩
  | some i =>
    obtain ⟨k, hk, hclass, halloc⟩ := memoryAlloc_served sysPtr hsize hi
    simp only [poolStep, halloc, hi] at h
    cases h
    refine .inr ⟨i, k, rfl, hclass, hk, ?_, rfl⟩
    funext j
    by_cases hij : j = i
    · rw [hij, Function.update_self]
      exact if_pos rfl
    · rw [Function.update_of_ne hij]
      apply if_neg
      intro he
      exact hij (Option.some.inj he).symm

theorem poolStep_free {s t : PoolState} {ptr : ℤ} (h : poolStep s (.free ptr) = some t) :
    (∃ b ∈ s.live, b.ptr = ptr) ∧ t = { s with
      mem := memoryFree s.mem ptr
      live := s.live.eraseP (fun b => decide (b.ptr = ptr)) } := by
  simp only [poolStep, Option.ite_none_right_eq_some, List.any_eq_true, decide_eq_true_eq, Option.some.injEq] at h
  exact ⟨h.1, h.2.symm⟩

theorem Scanned.step {con : MemoryCon} {s t : PoolState} {op : PoolOp} (h : Scanned con s)
    (ht : poolStep s op = some t) : Scanned con t := by
  cases op with
  | alloc size sysPtr =>
    obtain ⟨-, ⟨-, hserved, hsame, hindex, -⟩ | ⟨i, k, -, -, -, hserved, hmem⟩⟩ := poolStep_alloc ht
    · constructor
      · exact hsame.bitStart.trans h.start
      · exact hsame.bitEnd.trans h.stop
      · intro j
        rw [hindex, hserved]
        exact h.cursor j
    · constructor
      · rw [hmem]
        exact h.start
      · rw [hmem]
        exact h.stop
      · intro j
        have hindex : t.mem.con.bitIndex = Function.update s.mem.con.bitIndex i (i32 (s.mem.con.bitIndex i + 1)) := by
          rw [hmem]
          rfl
        rw [hindex, hserved]
        by_cases hij : j = i
        · rw [hij, Function.update_self, Function.update_self, h.cursor, i32_succ, Nat.cast_succ]
        · rw [Function.update_of_ne hij, Function.update_of_ne hij]
          exact h.cursor j
  | free ptr =>
    obtain ⟨-, rfl⟩ := poolStep_free ht
    obtain ⟨hstart, hend, hindex⟩ := memoryFree_rows s.mem ptr
    constructor
    · exact hstart.trans h.start
    · exact hend.trans h.stop
    · intro j
      exact (congrFun hindex j).trans (h.cursor j)

theorem scanned_of_run {byte firstPtr : ℤ} {outside : Bytes} {ok : PoolState → PoolOp → Prop} {s : PoolState}
    (hrun : Reach poolStep ok (poolStart byte firstPtr outside) s) :
    Scanned (memoryInit byte firstPtr outside).con s := by
  apply hrun.invariant
  · have hzero : i32 ((0 : ℕ) : ℤ) = 0 := by decide
    refine ⟨rfl, rfl, ?_⟩
    intro i
    exact hzero.symm
  · intro s op t hs _ ht
    exact hs.step ht

theorem cursor_fits_iff {c b : ℤ} (h0 : 0 ≤ b) (h1 : b < 2 ^ 31) :
    b ≤ i32 (i32 c + b) ↔ c % 2 ^ 32 + b < 2 ^ 31 := by
  unfold i32
  omega

/-- A search stays in its class exactly while the blocks served from it, counted modulo `2 ^ 32`, and its
first bit have a sum that is an int. -/
theorem search_confined_iff (byte firstPtr : ℤ) (outside : Bytes) {s : PoolState}
    (hrun : Reach poolStep (fun _ _ => True) (poolStart byte firstPtr outside) s) (i : Fin 3) :
    s.mem.Confined i ↔ (s.served i : ℤ) % 2 ^ 32 + s.mem.con.bitStart i < 2 ^ 31 := by
  have hscan := scanned_of_run hrun
  have hrows := memoryInit_bitRows byte firstPtr outside
  have hle : s.mem.con.bitStart i ≤ s.mem.con.bitEnd i := by
    rw [hscan.start, hscan.stop]
    exact hrows.le i
  obtain ⟨h0, h1⟩ := hrows.bounds i
  rw [← hscan.start] at h0
  rw [← hscan.stop] at h1
  rw [confined_iff hle, clamp_start_le hle, hscan.cursor]
  apply cursor_fits_iff h0
  omega

theorem first_search_confined : ∃ s, runIf poolStep (fun _ _ => true) smallPool smallRun = some s ∧
    s.served 1 = 3 ∧ s.mem.Confined 1 := by
  obtain ⟨s, hs, hserved, hstart⟩ : ∃ s, runIf poolStep (fun _ _ => true) smallPool smallRun = some s ∧
      s.served 1 = 3 ∧ s.mem.con.bitStart 1 = 5 := ⟨_, rfl, by decide, by decide⟩
  have hrun : Reach poolStep (fun _ _ => True) smallPool s := (Reach.of_runIf hs).mono (fun _ _ _ => trivial)
  refine ⟨s, hs, hserved, (search_confined_iff 1250 65536 quiet hrun 1).mpr ?_⟩
  rw [hserved, hstart]
  norm_num

theorem search_leaves_class : ¬ ∀ (byte firstPtr : ℤ) (outside : Bytes) (s : PoolState),
    Reach poolStep (fun _ _ => True) (poolStart byte firstPtr outside) s → ∀ i, s.mem.Confined i := by
  intro h
  obtain ⟨s, hs, hidle⟩ := idle_reachable (n := 2 ^ 31 - 5) (by omega)
  obtain ⟨hstart, hend⟩ := hidle.bits
  have hconf := h 1250 65536 quiet s (hs.mono (fun _ _ _ => trivial)) 1
  have hle : s.mem.con.bitStart 1 ≤ s.mem.con.bitEnd 1 := by omega
  rw [confined_iff hle, clamp_start_le hle, hidle.cursor, hstart] at hconf
  revert hconf
  decide

end FishServer
