import FishServer.PoolScan

namespace FishServer

open Bitmap Transition

/-! No free block of a class is missed. -/

/-- A request of class `i` is served from the pool exactly while the class has a free block. -/
structure Memory.Complete (s : Memory) (size : ℤ) (i : Fin 3) : Prop where
  served : (∃ k, InClass s.con i k ∧ ∀ sysPtr, (memoryAlloc s size sysPtr).2 = some (blockPtr s.con i k)) ↔
    ∃ k, InClass s.con i k ∧ bitAt s.var.usePtr k = false
  fallback : (∀ sysPtr, (memoryAlloc s size sysPtr).2 = some sysPtr) →
    ∀ k, InClass s.con i k → bitAt s.var.usePtr k = true

/-- The blocks served and the first bit of the class have a sum that is an int. -/
def SearchFits (s : PoolState) : PoolOp → Prop
  | .alloc size _ => ∀ i, classOf size = some i → (s.served i : ℤ) + s.mem.con.bitStart i < 2 ^ 31
  | .free _ => True

structure UsedBits (s : PoolState) (i : Fin 3) (e : Finset ℤ) : Prop where
  card : e.card ≤ s.served i
  first : 0 < s.served i → s.mem.con.bitStart i ∈ e
  set : ∀ k, InClass s.mem.con i k → bitAt s.mem.var.usePtr k = true → k ∈ e

section

variable {con : MemoryCon} {s t : PoolState} {i : Fin 3} {e : Finset ℤ}

theorem Scanned.pos_cases (h : Scanned con s) (hrows : BitRows con)
    (hfit : (s.served i : ℤ) + s.mem.con.bitStart i < 2 ^ 31) :
    bitPos s.mem.con i = s.mem.con.bitStart i ∨ (bitPos s.mem.con i = s.served i + s.mem.con.bitStart i ∧
      (s.served i : ℤ) + s.mem.con.bitStart i < s.mem.con.bitEnd i) := by
  obtain ⟨h0, -⟩ := hrows.bounds i
  rw [← h.start] at h0
  have hcursor := h.cursor i
  rw [i32_of_bounds (by omega) (by omega)] at hcursor
  unfold bitPos
  simp only
  rw [hcursor, i32_of_bounds (by omega) hfit]
  split_ifs
  · exact .inl rfl
  · right
    exact ⟨rfl, by omega⟩

theorem Scanned.start_le (h : Scanned con s) (hrows : BitRows con)
    (hfit : (s.served i : ℤ) + s.mem.con.bitStart i < 2 ^ 31) : s.mem.con.bitStart i ≤ bitPos s.mem.con i := by
  rcases h.pos_cases hrows hfit with hpos | ⟨hpos, -⟩
  · omega
  · omega

theorem foundBit_scans {m : Memory} (h : foundBit m i = none) :
    scanUp m.var.usePtr (bitPos m.con i) (m.con.bitEnd i - bitPos m.con i).toNat = none ∧
      scanDown m.var.usePtr (bitPos m.con i) (bitPos m.con i - m.con.bitStart i).toNat = none := by
  unfold foundBit at h
  simp only at h
  split at h
  · cases h
  · rename_i hup
    exact ⟨hup, h⟩

theorem UsedBits.search (h : UsedBits s i e) (hscan : Scanned con s) (hrows : BitRows con)
    (hfit : (s.served i : ℤ) + s.mem.con.bitStart i < 2 ^ 31) (hnone : freeIndex s.mem i = none) {k : ℤ}
    (hk : InClass s.mem.con i k) : bitAt s.mem.var.usePtr k = true := by
  obtain ⟨hk0, hk1⟩ := hk
  have hstart : 0 ≤ s.mem.con.bitStart i := by
    rw [hscan.start]
    exact (hrows.bounds i).1
  obtain ⟨hup, hdown⟩ :=
    foundBit_scans (foundBit_none hstart (hscan.start_le hrows hfit) (bitPos_lt s.mem.con i) hnone)
  rcases hscan.pos_cases hrows hfit with hpos | ⟨hpos, hlt⟩
  · apply scanUp_none hup
    · omega
    · omega
  · exfalso
    by_cases hzero : s.served i = 0
    · have hclear : bitAt s.mem.var.usePtr (bitPos s.mem.con i) = true := by
        apply scanUp_none hup
        · exact le_refl _
        · omega
      have hin := h.set (bitPos s.mem.con i) ⟨by omega, by omega⟩ hclear
      have hempty : e = ∅ := Finset.card_eq_zero.mp (by have := h.card; omega)
      rw [hempty] at hin
      cases hin
    have hall : Finset.Ico (s.mem.con.bitStart i) (s.mem.con.bitEnd i) ⊆ e := by
      intro l hl
      obtain ⟨hl0, hl1⟩ := Finset.mem_Ico.mp hl
      by_cases hfirst : l = s.mem.con.bitStart i
      · rw [hfirst]
        exact h.first (by omega)
      apply h.set l ⟨hl0, hl1⟩
      by_cases hside : bitPos s.mem.con i ≤ l
      · apply scanUp_none hup hside
        omega
      · apply scanDown_none hdown
        · omega
        · omega
    have hcard := Finset.card_le_card hall
    rw [Int.card_Ico] at hcard
    have := h.card
    omega

theorem UsedBits.complete (h : UsedBits s i e) (hscan : Scanned con s) (hrows : BitRows con)
    (hfit : (s.served i : ℤ) + s.mem.con.bitStart i < 2 ^ 31) {size : ℤ} (hsize : 1 ≤ size)
    (hclass : classOf size = some i) : s.mem.Complete size i := by
  cases hfree : freeIndex s.mem i with
  | none =>
    have hfull : ∀ k, InClass s.mem.con i k → bitAt s.mem.var.usePtr k = true :=
      fun k hk => h.search hscan hrows hfit hfree hk
    have hpool : poolClass s.mem size = none := by
      unfold poolClass
      rw [hclass, Option.filter_some, hfree]
      rfl
    refine ⟨⟨?_, ?_⟩, fun _ => hfull⟩
    · rintro ⟨k, -, hall⟩
      have hsys : ∀ p, (memoryAlloc s.mem size p).2 = some p := by
        intro p
        obtain ⟨mem, halloc, -⟩ := memoryAlloc_system p hsize hpool
        rw [halloc]
      have h0 := (hsys 0).symm.trans (hall 0)
      have h1 := (hsys 1).symm.trans (hall 1)
      rw [← h0, Option.some.injEq] at h1
      exact absurd h1 one_ne_zero
    · rintro ⟨k, hk, hclear⟩
      rw [hfull k hk] at hclear
      cases hclear
  | some k =>
    obtain ⟨hin, hclear⟩ := freeIndex_some (hscan.start_le hrows hfit) (bitPos_lt _ i) hfree
    have hpool : poolClass s.mem size = some i := by
      unfold poolClass
      rw [hclass, Option.filter_some, hfree]
      rfl
    have hserved : ∀ p, (memoryAlloc s.mem size p).2 = some (blockPtr s.mem.con i k) := by
      intro p
      obtain ⟨l, hl, -, halloc⟩ := memoryAlloc_served p hsize hpool
      rw [hfree, Option.some.injEq] at hl
      rw [halloc, hl]
    refine ⟨⟨fun _ => ⟨k, hin, hclear⟩, fun _ => ⟨k, hin, hserved⟩⟩, ?_⟩
    intro hsys
    have h0 := (hserved 0).symm.trans (hsys 0)
    have h1 := (hserved 1).symm.trans (hsys 1)
    rw [h0, Option.some.injEq] at h1
    exact absurd h1 zero_ne_one

theorem memoryFree_bits {m : Memory} {ptr k : ℤ} (h : bitAt (memoryFree m ptr).var.usePtr k = true) :
    bitAt m.var.usePtr k = true := by
  unfold memoryFree at h
  simp only at h
  split_ifs at h
  · split at h
    · unfold releaseBlock at h
      rw [bitAt_clearBit, Bool.and_eq_true] at h
      exact h.2
    · exact h
  · exact h

theorem UsedBits.first_free (h : UsedBits s i e) (hscan : Scanned con s) (hrows : BitRows con)
    (hzero : s.served i = 0) {k : ℤ} (hfree : freeIndex s.mem i = some k) : k = s.mem.con.bitStart i := by
  have hbound := hrows.bounds i
  have hle := hrows.le i
  rw [← hscan.start, ← hscan.stop] at hle
  rw [← hscan.start, ← hscan.stop] at hbound
  have hfit : (s.served i : ℤ) + s.mem.con.bitStart i < 2 ^ 31 := by omega
  have hstart := hscan.start_le hrows hfit
  obtain ⟨⟨hk0, hk1⟩, -⟩ := freeIndex_some hstart (bitPos_lt _ i) hfree
  have hpos : bitPos s.mem.con i = s.mem.con.bitStart i := by
    rcases hscan.pos_cases hrows hfit with hpos | ⟨hpos, -⟩
    · exact hpos
    · omega
  have hclear : bitAt s.mem.var.usePtr (s.mem.con.bitStart i) = false := by
    by_contra hset
    have hin := h.set (s.mem.con.bitStart i) ⟨le_refl _, by omega⟩ (by simpa using hset)
    have hempty : e = ∅ := Finset.card_eq_zero.mp (by have := h.card; omega)
    rw [hempty] at hin
    cases hin
  have hfound := (freeIndex_found hfree).1
  unfold foundBit at hfound
  simp only at hfound
  rw [hpos, scanUp_clear hclear (by omega)] at hfound
  exact (Option.some.inj hfound).symm

theorem UsedBits.same (h : UsedBits s i e) (hstart : t.mem.con.bitStart = s.mem.con.bitStart)
    (hend : t.mem.con.bitEnd = s.mem.con.bitEnd) (hserved : t.served i = s.served i)
    (hbits : ∀ k, InClass s.mem.con i k → bitAt t.mem.var.usePtr k = true → bitAt s.mem.var.usePtr k = true) :
    UsedBits t i e := by
  constructor
  · rw [hserved]
    exact h.card
  · rw [hserved, hstart]
    exact h.first
  · intro k hk hset
    unfold InClass at hk
    rw [hstart, hend] at hk
    exact h.set k hk (hbits k hk hset)

theorem UsedBits.take (h : UsedBits s i e) (hscan : Scanned con s) (hrows : BitRows con) {k : ℤ}
    (hfree : freeIndex s.mem i = some k) (hserved : t.served i = s.served i + 1)
    (hmem : t.mem = takeBlock (countClass (countAlloc s.mem) i) i k) : UsedBits t i (insert k e) := by
  constructor
  · have := Finset.card_insert_le k e
    have := h.card
    omega
  · intro _
    rw [hmem]
    change s.mem.con.bitStart i ∈ insert k e
    by_cases hzero : s.served i = 0
    · rw [h.first_free hscan hrows hzero hfree]
      exact Finset.mem_insert_self _ _
    · exact Finset.mem_insert_of_mem (h.first (by omega))
  · intro l hl hset
    rw [hmem] at hl hset
    change bitAt (setBit s.mem.var.usePtr k) l = true at hset
    rw [bitAt_setBit, Bool.or_eq_true, decide_eq_true_eq] at hset
    rcases hset with rfl | hset
    · exact Finset.mem_insert_self _ _
    · exact Finset.mem_insert_of_mem (h.set l hl hset)

theorem UsedBits.step (h : UsedBits s i e) (hscan : Scanned con s) (hrows : BitRows con) {op : PoolOp}
    (hfit : SearchFits s op) (ht : poolStep s op = some t) : ∃ e', UsedBits t i e' := by
  cases op with
  | alloc size sysPtr =>
    obtain ⟨-, ⟨-, hserved, hsame, -, hbits⟩ | ⟨j, k, -, hclass, hfree, hserved, hmem⟩⟩ := poolStep_alloc ht
    · refine ⟨e, h.same hsame.bitStart hsame.bitEnd (congrFun hserved i) ?_⟩
      intro k hk hset
      have hstart : 0 ≤ s.mem.con.bitStart i := by
        rw [hscan.start]
        exact (hrows.bounds i).1
      rwa [hbits k (hstart.trans hk.1)] at hset
    · by_cases hij : i = j
      · subst hij
        refine ⟨insert k e, h.take hscan hrows hfree ?_ hmem⟩
        rw [hserved, Function.update_self]
      · refine ⟨e, h.same ?_ ?_ ?_ ?_⟩
        · rw [hmem]
          rfl
        · rw [hmem]
          rfl
        · rw [hserved, Function.update_of_ne hij]
        · intro l hl hset
          rw [hmem] at hset
          change bitAt (setBit s.mem.var.usePtr k) l = true at hset
          rw [bitAt_setBit, Bool.or_eq_true, decide_eq_true_eq] at hset
          rcases hset with rfl | hset
          · obtain ⟨hin, -⟩ := freeIndex_some (hscan.start_le hrows (hfit j hclass)) (bitPos_lt _ j) hfree
            unfold InClass at hl hin
            rw [hscan.start, hscan.stop] at hl hin
            exact absurd (hrows.class_unique hl hin) hij
          · exact hset
  | free ptr =>
    obtain ⟨-, rfl⟩ := poolStep_free ht
    obtain ⟨hstart, hend, -⟩ := memoryFree_rows s.mem ptr
    exact ⟨e, h.same hstart hend rfl (fun k _ hset => memoryFree_bits hset)⟩

end

theorem usedBits_start (byte firstPtr : ℤ) (outside : Bytes) (i : Fin 3) :
    UsedBits (poolStart byte firstPtr outside) i ∅ := by
  constructor
  · exact Nat.zero_le _
  · intro hpos
    exact absurd hpos (lt_irrefl 0)
  · intro k hk hset
    have hbyte := (memoryInit_partition byte firstPtr outside).bitmap i k hk.1 hk.2
    change bitAt (memoryInit byte firstPtr outside).var.usePtr k = true at hset
    rw [memoryInit_bitmap, bitAt, if_pos hbyte, BitVec.getLsbD_zero] at hset
    cases hset

theorem usedBits_of_run {byte firstPtr : ℤ} {outside : Bytes} {s : PoolState}
    (hrun : Reach poolStep SearchFits (poolStart byte firstPtr outside) s) (i : Fin 3) : ∃ e, UsedBits s i e := by
  have hrows := memoryInit_bitRows byte firstPtr outside
  have hinv : Scanned (memoryInit byte firstPtr outside).con s ∧ ∃ e, UsedBits s i e := by
    apply hrun.invariant
    · have hstart : Reach poolStep SearchFits (poolStart byte firstPtr outside) (poolStart byte firstPtr outside) :=
        .start
      exact ⟨scanned_of_run hstart, ∅, usedBits_start byte firstPtr outside i⟩
    · rintro s op t ⟨hscan, e, he⟩ hfit ht
      exact ⟨hscan.step ht, he.step hscan hrows hfit ht⟩
  exact hinv.2

theorem pool_complete (byte firstPtr : ℤ) (outside : Bytes) {s : PoolState}
    (hrun : Reach poolStep SearchFits (poolStart byte firstPtr outside) s) {size : ℤ} {i : Fin 3} (hsize : 1 ≤ size)
    (hclass : classOf size = some i) (hfit : (s.served i : ℤ) + s.mem.con.bitStart i < 2 ^ 31) :
    s.mem.Complete size i := by
  obtain ⟨e, he⟩ := usedBits_of_run hrun i
  exact he.complete (scanned_of_run hrun) (memoryInit_bitRows byte firstPtr outside) hfit hsize hclass

instance (s : PoolState) (op : PoolOp) : Decidable (SearchFits s op) :=
  match op with
  | .alloc size _ => inferInstanceAs (Decidable (∀ i, classOf size = some i →
      (s.served i : ℤ) + s.mem.con.bitStart i < 2 ^ 31))
  | .free _ => inferInstanceAs (Decidable True)

theorem freed_block_found : ∃ s, runIf poolStep (fun s op => decide (SearchFits s op)) smallPool smallRun = some s ∧
    ∃ k, InClass s.mem.con 1 k ∧ ∀ sysPtr, (memoryAlloc s.mem 51 sysPtr).2 = some (blockPtr s.mem.con 1 k) := by
  obtain ⟨s, hs, hclear, hstart, hend, hfit⟩ : ∃ s,
      runIf poolStep (fun s op => decide (SearchFits s op)) smallPool smallRun = some s ∧
        bitAt s.mem.var.usePtr 6 = false ∧ s.mem.con.bitStart 1 = 5 ∧ s.mem.con.bitEnd 1 = 8 ∧
          (s.served 1 : ℤ) + s.mem.con.bitStart 1 < 2 ^ 31 :=
    ⟨_, rfl, by decide, by decide, by decide, by decide⟩
  have hrun : Reach poolStep SearchFits smallPool s := (Reach.of_runIf hs).mono (fun _ _ hok => of_decide_eq_true hok)
  have hin : InClass s.mem.con 1 6 := ⟨by omega, by omega⟩
  exact ⟨s, hs, (pool_complete 1250 65536 quiet hrun (by decide) (by decide) hfit).served.mpr ⟨6, hin, hclear⟩⟩

/-- With all blocks of the second class free, the search starts at bit `-2 ^ 31` and takes it. -/
theorem free_blocks_missed : ¬ ∀ (byte firstPtr : ℤ) (outside : Bytes) (s : PoolState),
    Reach poolStep (fun _ _ => True) (poolStart byte firstPtr outside) s → (∀ i, s.served i < 2 ^ 31) →
      ∀ (size : ℤ) (i : Fin 3), 1 ≤ size → classOf size = some i → s.mem.Complete size i := by
  intro h
  obtain ⟨s, hs, hidle⟩ := idle_reachable (n := 2 ^ 31 - 5) (by omega)
  obtain ⟨hstart, hend⟩ := hidle.bits
  have hrun : Reach poolStep (fun _ _ => True) smallPool s := hs.mono (fun _ _ _ => trivial)
  have hserved : ∀ i, s.served i < 2 ^ 31 := by
    intro i
    have hcursor := (scanned_of_run hrun).cursor i
    rw [hidle.inv.cursor] at hcursor
    unfold i32 at hcursor
    omega
  obtain ⟨haddr, -, halloc⟩ := hidle.served_below
  have hclass : classOf 51 = some 1 := by decide
  have hin : InClass s.mem.con 1 5 := ⟨by omega, by omega⟩
  obtain ⟨k, hk, hall⟩ := (h 1250 65536 quiet s hrun hserved 51 1 (by decide) hclass).served.mpr
    ⟨5, hin, hidle.clear hin⟩
  have hptr := hall 0
  rw [halloc, Option.some.injEq, hidle.inv.layout.blockPtr_eq hk] at hptr
  have hlow := (hidle.inv.layout.addr_bounds hk).1
  omega

end FishServer
