import FishServer.PoolSafety

namespace FishServer

open Bitmap Transition

/-!
The cursor of a class is never reset. When it and the first bit of the class add up to `2 ^ 31`, the
search starts far below the bitmap.
-/

structure Idle (n : ℕ) (s : PoolState) : Prop where
  inv : PoolInv s
  same : SamePool smallPool.mem s.mem
  live : s.live = []
  served : s.served 1 = n
  below : ∀ k < 0, bitAt s.mem.var.usePtr k = false

theorem smallPool_bits : smallPool.mem.con.bitStart 1 = 5 ∧ smallPool.mem.con.bitEnd 1 = 8 := by
  decide

theorem smallPool_addr : smallPool.mem.con.addrStart 1 = 65786 ∧ smallPool.mem.con.addrEnd 1 = 66386 ∧
    smallPool.mem.var.firstPtr = 65536 ∧ smallPool.mem.var.endPtr = 67385 := by
  decide

theorem smallPool_idle : Idle 0 smallPool := by
  refine ⟨poolStart_inv 1250 65536 quiet (by decide) (by decide) (by decide),
    ⟨rfl, rfl, rfl, rfl, rfl, rfl⟩, rfl, rfl, ?_⟩
  intro k _
  simp [smallPool, poolStart, memoryInit, quiet, bitAt]

theorem SamePool.trans {s s' s'' : Memory} (h : SamePool s s') (h' : SamePool s' s'') :
    SamePool s s'' :=
  ⟨h'.addrStart.trans h.addrStart, h'.addrEnd.trans h.addrEnd, h'.bitStart.trans h.bitStart,
    h'.bitEnd.trans h.bitEnd, h'.firstPtr.trans h.firstPtr, h'.endPtr.trans h.endPtr⟩

theorem scanUp_clear {m : Bytes} {i : ℤ} {n : ℕ} (h : bitAt m i = false) (hn : 0 < n) :
    scanUp m i n = some i := by
  obtain ⟨n, rfl⟩ : ∃ j, n = j + 1 := ⟨n - 1, by omega⟩
  simp [scanUp, h]

theorem Idle.bits {n : ℕ} {s : PoolState} (h : Idle n s) :
    s.mem.con.bitStart 1 = 5 ∧ s.mem.con.bitEnd 1 = 8 := by
  rw [h.same.bitStart, h.same.bitEnd]
  exact smallPool_bits

theorem Idle.clear {n : ℕ} {s : PoolState} (h : Idle n s) {k : ℤ} (hk : InClass s.mem.con 1 k) :
    bitAt s.mem.var.usePtr k = false := by
  by_contra hbit
  obtain ⟨b, hb, -⟩ := h.inv.owned 1 k hk (by simpa using hbit)
  simp [h.live] at hb

theorem Idle.null_outside {n : ℕ} {s : PoolState} (h : Idle n s) : ¬ InPool s.mem 0 := by
  obtain ⟨-, -, hfirst, -⟩ := smallPool_addr
  rw [h.same.inPool]
  simp [InPool, hfirst]

theorem Idle.poolClass {n : ℕ} {s : PoolState} (h : Idle n s) (hn : n + 5 < 2 ^ 31) :
    poolClass s.mem 51 = some 1 := by
  obtain ⟨h5, h8⟩ := h.bits
  have hcur : s.mem.con.bitIndex 1 = n := by rw [h.inv.cursor, h.served]
  have hpos := bitPos_bounds (i := 1) h.inv.layout (by omega) (by omega)
  have hfree : freeIndex s.mem 1 = some (bitPos s.mem.con 1) := by
    have hclear := h.clear (k := bitPos s.mem.con 1) ⟨by omega, by omega⟩
    apply freeIndex_of_found
    · simp only [foundBit, scanUp_clear hclear (show 0 < (s.mem.con.bitEnd 1 - bitPos s.mem.con 1).toNat by omega)]
    · omega
  have hclass : classOf 51 = some 1 := by decide
  simp [FishServer.poolClass, hclass, hfree]

theorem Idle.fits {n : ℕ} {s : PoolState} (h : Idle n s) (hn : n + 5 < 2 ^ 31) :
    s.mem.con.bitIndex 1 + s.mem.con.bitStart 1 < 2 ^ 31 := by
  obtain ⟨h5, -⟩ := h.bits
  rw [h.inv.cursor, h.served, h5]
  omega

theorem Idle.round {n : ℕ} {s : PoolState} (h : Idle n s) (hn : n + 5 < 2 ^ 31) :
    ∃ t, Reach poolStep PoolAssumed s t ∧ Idle (n + 1) t := by
  have hclass := h.poolClass hn
  obtain ⟨k, hin, hclear, -, halloc⟩ :=
    poolStep_served 0 h.inv (by omega) (h.fits hn) hclass
  have hok : PoolAssumed s (.alloc 51 0) := by
    refine ⟨by omega, h.null_outside, ?_⟩
    intro i hi
    obtain rfl : i = 1 := Option.some.inj (hi.symm.trans hclass)
    have := h.served
    omega
  let t : PoolState :=
    { mem := takeBlock (countClass (countAlloc s.mem) 1) 1 k
      live := ⟨addrOf s.mem.con 1 k, 51, true⟩ :: s.live
      served := fun j => if some 1 = some j then s.served j + 1 else s.served j }
  have hserved := h.served
  have hinv : PoolInv t := alloc_served_inv h.inv (by omega) (by omega) (h.fits hn) hclass halloc
  have hsame : SamePool s.mem t.mem := takeBlock_samePool s.mem 1 k
  have hin' := (hsame.inClass 1 k).mpr hin
  obtain ⟨hsame', -, huse⟩ := memoryFree_block hinv.layout hin'
  have hfree := poolStep_free_block (s := t) List.mem_cons_self (hsame.addrOf 1 k).symm
  have hok' : PoolAssumed t (.free (addrOf t.mem.con 1 k)) := trivial
  refine ⟨_, (Reach.start.step hok halloc).step hok' hfree, free_pool_inv hinv hin',
    (h.same.trans hsame).trans hsame', ?_, ?_, ?_⟩
  · simp [t, h.live, hsame.addrOf]
  · simp [t, h.served]
  · intro l hl
    have hmem : t.mem.var.usePtr = setBit s.mem.var.usePtr k := rfl
    simp only [huse, hmem, clearBit_setBit hclear]
    exact h.below l hl

theorem idle_reachable {n : ℕ} (hn : n + 4 < 2 ^ 31) :
    ∃ s, Reach poolStep PoolAssumed smallPool s ∧ Idle n s := by
  induction n with
  | zero => exact ⟨smallPool, .start, smallPool_idle⟩
  | succ n ih =>
    obtain ⟨s, hs, hidle⟩ := ih (by omega)
    obtain ⟨t, ht, hidle'⟩ := hidle.round (by omega)
    exact ⟨t, hs.trans ht, hidle'⟩

theorem freeIndex_below {s : Memory} (hstart : s.con.bitStart 1 = 5) (hend : s.con.bitEnd 1 = 8)
    (hcur : s.con.bitIndex 1 = 2 ^ 31 - 5) (hbit : bitAt s.var.usePtr (-2 ^ 31) = false) :
    freeIndex s 1 = some (-2 ^ 31) := by
  have hpos : bitPos s.con 1 = -2 ^ 31 := by
    simp only [bitPos, hcur, hstart, hend, i32]
    norm_num
  apply freeIndex_of_found
  · simp only [foundBit, hpos, scanUp_clear hbit (show 0 < (s.con.bitEnd 1 - -2 ^ 31).toNat by omega)]
  · norm_num

theorem blockPtr_below {con : MemoryCon} (hstart : con.bitStart 1 = 5) (haddr : con.addrStart 1 = 65786) :
    blockPtr con 1 (-2 ^ 31) = 64786 := by
  simp only [blockPtr, hstart, haddr, blockSize, u32]
  norm_num

theorem Idle.cursor {s : PoolState} (h : Idle (2 ^ 31 - 5) s) : s.mem.con.bitIndex 1 = 2 ^ 31 - 5 := by
  rw [h.inv.cursor, h.served]
  norm_num

theorem Idle.served_below {s : PoolState} (h : Idle (2 ^ 31 - 5) s) :
    s.mem.con.addrStart 1 = 65786 ∧ FishServer.poolClass s.mem 51 = some 1 ∧
      memoryAlloc s.mem 51 0 =
        (takeBlock (countClass (countAlloc s.mem) 1) 1 (-2 ^ 31), some 64786) := by
  obtain ⟨hstart, hend⟩ := h.bits
  have haddr : s.mem.con.addrStart 1 = 65786 := by
    rw [h.same.addrStart]
    exact smallPool_addr.1
  have hfree := freeIndex_below hstart hend h.cursor (h.below _ (by norm_num))
  have hclass : classOf 51 = some 1 := by decide
  have hpool : FishServer.poolClass s.mem 51 = some 1 := by simp [FishServer.poolClass, hclass, hfree]
  obtain ⟨k, hk, -, halloc⟩ := memoryAlloc_served 0 (by omega) hpool
  obtain rfl : -2 ^ 31 = k := Option.some.inj (hfree.symm.trans hk)
  rw [blockPtr_below hstart haddr] at halloc
  exact ⟨haddr, hpool, halloc⟩

theorem pool_cursor_overflow : 65536 + smallPool.mem.var.total < 2 ^ 31 ∧
    ∃ s, Reach poolStep PoolAssumed smallPool s ∧ ¬ PoolSafe s := by
  refine ⟨by decide, ?_⟩
  obtain ⟨s, hs, hidle⟩ := idle_reachable (n := 2 ^ 31 - 5) (by omega)
  obtain ⟨haddr, hpool, halloc⟩ := hidle.served_below
  have hok : PoolAssumed s (.alloc 51 0) := by
    refine ⟨by omega, hidle.null_outside, ?_⟩
    intro i hi
    obtain rfl : i = 1 := Option.some.inj (hi.symm.trans hpool)
    have := hidle.served
    omega
  have hstep : ∃ t, poolStep s (.alloc 51 0) = some t ∧ ⟨64786, 51, true⟩ ∈ t.live ∧
      t.mem.con.addrStart 1 = 65786 := by
    simp only [poolStep, halloc, hpool]
    exact ⟨_, rfl, List.mem_cons_self, haddr⟩
  obtain ⟨t, ht, hmem, haddr'⟩ := hstep
  refine ⟨t, hs.step hok ht, ?_⟩
  intro hsafe
  obtain ⟨i, hi, hlow, -⟩ := hsafe.inside _ hmem rfl
  have hclass : classOf 51 = some 1 := by decide
  obtain rfl : i = 1 := Option.some.inj (hi.symm.trans hclass)
  rw [haddr'] at hlow
  norm_num at hlow

end FishServer
