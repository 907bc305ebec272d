import FishServer.PoolGeometry

namespace FishServer

open Bitmap Transition

structure PoolInv (s : PoolState) : Prop where
  layout : Layout s.mem
  cursor : ∀ i, s.mem.con.bitIndex i = s.served i
  placed : ∀ b ∈ s.live, b.pool = true → ∃ i k, classOf b.size = some i ∧ InClass s.mem.con i k ∧
    b.ptr = addrOf s.mem.con i k ∧ bitAt s.mem.var.usePtr k = true
  owned : ∀ i k, InClass s.mem.con i k → bitAt s.mem.var.usePtr k = true →
    ∃ b ∈ s.live, b.pool = true ∧ b.ptr = addrOf s.mem.con i k
  distinct : s.live.Pairwise (fun a b => a.pool = true → b.pool = true → a.ptr ≠ b.ptr)
  system : ∀ b ∈ s.live, b.pool = false → ¬ InPool s.mem b.ptr

theorem Block.range_of_class {b : Block} {i : Fin 3} (h : classOf b.size = some i) :
    b.range = Set.Ico b.ptr (b.ptr + blockSize i) := by
  simp [Block.range, h]

theorem PoolInv.safe {s : PoolState} (h : PoolInv s) : PoolSafe s := by
  refine ⟨?_, ?_, ?_⟩
  · apply h.distinct.imp_of_mem
    intro a b ha hb hne hpa hpb
    obtain ⟨i, k, hci, hki, hai, -⟩ := h.placed a ha hpa
    obtain ⟨j, l, hcj, hlj, hbj, -⟩ := h.placed b hb hpb
    rw [Block.range_of_class hci, Block.range_of_class hcj, Set.Ico_disjoint_Ico]
    have := h.layout.addr_apart hki hlj (hai ▸ hbj ▸ hne hpa hpb)
    omega
  · intro b hb hp
    obtain ⟨i, k, hci, hki, hptr, -⟩ := h.placed b hb hp
    exact ⟨i, hci, hptr ▸ h.layout.addr_bounds hki⟩
  · intro i k hk
    constructor
    · intro hbit
      obtain ⟨b, hb, hp, hptr⟩ := h.owned i k hk hbit
      obtain ⟨j, l, hcj, hlj, hptr', -⟩ := h.placed b hb hp
      obtain ⟨rfl, rfl⟩ := h.layout.addr_inj hk hlj (hptr ▸ hptr')
      exact ⟨b, hb, hp, hcj, hptr⟩
    · rintro ⟨b, hb, hp, -, hptr⟩
      obtain ⟨j, l, -, hlj, hptr', hbit⟩ := h.placed b hb hp
      obtain ⟨rfl, rfl⟩ := h.layout.addr_inj hk hlj (hptr ▸ hptr')
      exact hbit

theorem poolStart_inv (byte firstPtr : ℤ) (outside : Bytes) (hbyte : byte < 2 ^ 32) (h0 : 0 ≤ firstPtr)
    (hfit : firstPtr + (memoryInit byte firstPtr outside).var.total < 2 ^ 31) :
    PoolInv (poolStart byte firstPtr outside) := by
  obtain ⟨b0, b1, b2, ht⟩ := memoryInit_tables byte firstPtr outside h0 hbyte hfit
  refine ⟨ht.layout h0 hfit, ?_, by simp [poolStart], ?_, .nil, by simp [poolStart]⟩
  · intro i
    simp [poolStart, ht.bitIndex]
  · intro i k hk hbit
    have hb0 := ht.blocks0
    have hb1 := ht.blocks1
    have hb2 := ht.blocks2
    have hrange : 0 ≤ k ∧ k < b0 + b1 + b2 := by
      obtain ⟨hk0, hk1⟩ := hk
      simp only [poolStart, ht.bitStart, ht.bitEnd] at hk0 hk1
      fin_cases i <;> simp at hk0 hk1 <;> omega
    rw [poolStart, ht.clear k hrange.1 hrange.2] at hbit
    contradiction

theorem memoryAlloc_served {s : Memory} {size : ℤ} {i : Fin 3} (sysPtr : ℤ) (hsize : 1 ≤ size)
    (h : poolClass s size = some i) : ∃ k, freeIndex s i = some k ∧ classOf size = some i ∧
      memoryAlloc s size sysPtr =
        (takeBlock (countClass (countAlloc s) i) i k, some (blockPtr s.con i k)) := by
  obtain ⟨hclass, hfree⟩ := Option.filter_eq_some_iff.mp h
  obtain ⟨k, hk⟩ := Option.isSome_iff_exists.mp hfree
  refine ⟨k, hk, hclass, ?_⟩
  have hk' : freeIndex (countClass (countAlloc s) i) i = some k := hk
  simp only [memoryAlloc, show ¬ size < 1 by omega, hclass, hk', if_false]
  rfl

structure SamePool (s s' : Memory) : Prop where
  addrStart : s'.con.addrStart = s.con.addrStart
  addrEnd : s'.con.addrEnd = s.con.addrEnd
  bitStart : s'.con.bitStart = s.con.bitStart
  bitEnd : s'.con.bitEnd = s.con.bitEnd
  firstPtr : s'.var.firstPtr = s.var.firstPtr
  endPtr : s'.var.endPtr = s.var.endPtr

namespace SamePool

variable {s s' : Memory}

theorem layout (h : SamePool s s') (hs : Layout s) : Layout s' := by
  obtain ⟨h1, h2, h3, h4, h5, h6⟩ := h
  obtain ⟨g0, g1, g2, g3, g4, g5, g6, g7, g8, g9, g10⟩ := hs
  constructor <;> simp only [h1, h2, h3, h4, h5, h6] <;> assumption

theorem inClass (h : SamePool s s') (i : Fin 3) (k : ℤ) : InClass s'.con i k ↔ InClass s.con i k := by
  simp only [InClass, h.bitStart, h.bitEnd]

theorem addrOf (h : SamePool s s') (i : Fin 3) (k : ℤ) :
    FishServer.addrOf s'.con i k = FishServer.addrOf s.con i k := by
  simp only [FishServer.addrOf, h.addrStart, h.bitStart]

theorem inPool (h : SamePool s s') (p : ℤ) : InPool s' p ↔ InPool s p := by
  simp only [InPool, h.firstPtr, h.endPtr]

end SamePool

theorem memoryAlloc_system {s : Memory} {size : ℤ} (sysPtr : ℤ) (hsize : 1 ≤ size)
    (h : poolClass s size = none) : ∃ s', memoryAlloc s size sysPtr = (s', some sysPtr) ∧
      SamePool s s' ∧ s'.con.bitIndex = s.con.bitIndex ∧
        ∀ k, 0 ≤ k → bitAt s'.var.usePtr k = bitAt s.var.usePtr k := by
  simp only [memoryAlloc, show ¬ size < 1 by omega, if_false]
  cases hclass : classOf size with
  | none => exact ⟨_, rfl, ⟨rfl, rfl, rfl, rfl, rfl, rfl⟩, rfl, fun _ _ => rfl⟩
  | some i =>
    have hfree : freeIndex s i = none := by simpa [poolClass, hclass] using h
    have hfree' : freeIndex (countClass (countAlloc s) i) i = none := hfree
    simp only [hfree']
    exact ⟨_, rfl, ⟨rfl, rfl, rfl, rfl, rfl, rfl⟩, rfl, fun k hk => setFound_bits hfree' hk⟩

theorem memoryFree_outside {s : Memory} {ptr : ℤ} (h : ¬ InPool s ptr) :
    SamePool s (memoryFree s ptr) ∧ (memoryFree s ptr).con.bitIndex = s.con.bitIndex ∧
      (memoryFree s ptr).var.usePtr = s.var.usePtr := by
  have h' : ¬ (s.var.firstPtr ≤ ptr ∧ ptr ≤ s.var.endPtr) := h
  simp only [memoryFree, h', if_false, and_self, and_true]
  exact ⟨rfl, rfl, rfl, rfl, rfl, rfl⟩

theorem memoryFree_block {s : Memory} {i : Fin 3} {k : ℤ} (h : Layout s) (hk : InClass s.con i k) :
    SamePool s (memoryFree s (addrOf s.con i k)) ∧
      (memoryFree s (addrOf s.con i k)).con.bitIndex = s.con.bitIndex ∧
      (memoryFree s (addrOf s.con i k)).var.usePtr = clearBit s.var.usePtr k := by
  have hin : s.var.firstPtr ≤ addrOf s.con i k ∧ addrOf s.con i k ≤ s.var.endPtr := h.addr_inPool hk
  simp only [memoryFree, hin, and_self, if_true, h.addr_i32 hk, h.find_region hk, releaseBlock,
    Layout.release_bit, and_true]
  exact ⟨rfl, rfl, rfl, rfl, rfl, rfl⟩

theorem pairwise_eraseP_ptr {l : List Block} {p : ℤ}
    (hl : l.Pairwise (fun a b => a.pool = true → b.pool = true → a.ptr ≠ b.ptr))
    (hp : ∀ b ∈ l, b.ptr = p → b.pool = true) :
    ∀ b ∈ l.eraseP (fun b => decide (b.ptr = p)), b.ptr ≠ p := by
  induction hl with
  | nil => simp
  | @cons a l ha _ ih =>
    by_cases hap : a.ptr = p
    · intro b hb hbp
      rw [List.eraseP_cons_of_pos (by simpa using hap)] at hb
      exact ha b hb (hp a (by simp) hap) (hp b (by simp [hb]) hbp) (hap.trans hbp.symm)
    · intro b hb
      rw [List.eraseP_cons_of_neg (by simpa using hap)] at hb
      rcases List.mem_cons.mp hb with rfl | hb
      · exact hap
      · exact ih (fun b hb => hp b (by simp [hb])) b hb

theorem takeBlock_samePool (s : Memory) (i : Fin 3) (k : ℤ) :
    SamePool s (takeBlock (countClass (countAlloc s) i) i k) := ⟨rfl, rfl, rfl, rfl, rfl, rfl⟩

theorem poolStep_served {s : PoolState} {size : ℤ} {i : Fin 3} (sysPtr : ℤ) (h : PoolInv s)
    (hsize : 1 ≤ size) (hfit : s.mem.con.bitIndex i + s.mem.con.bitStart i < 2 ^ 31)
    (hi : poolClass s.mem size = some i) :
    ∃ k, InClass s.mem.con i k ∧ bitAt s.mem.var.usePtr k = false ∧ classOf size = some i ∧
      poolStep s (.alloc size sysPtr) = some
        { mem := takeBlock (countClass (countAlloc s.mem) i) i k
          live := ⟨addrOf s.mem.con i k, size, true⟩ :: s.live
          served := fun j => if some i = some j then s.served j + 1 else s.served j } := by
  obtain ⟨k, hk, hclass, halloc⟩ := memoryAlloc_served sysPtr hsize hi
  have hpos := bitPos_bounds h.layout (by rw [h.cursor]; positivity) hfit
  obtain ⟨hin, hclear⟩ := freeIndex_some hpos.1 hpos.2 hk
  refine ⟨k, hin, hclear, hclass, ?_⟩
  simp only [poolStep, halloc, hi, h.layout.blockPtr_eq hin, Option.isSome_some]

theorem alloc_served_inv {s t : PoolState} {size sysPtr : ℤ} {i : Fin 3} (h : PoolInv s)
    (hsize : 1 ≤ size) (hcount : s.served i + 1 < 2 ^ 31)
    (hfit : s.mem.con.bitIndex i + s.mem.con.bitStart i < 2 ^ 31)
    (hi : poolClass s.mem size = some i) (ht : poolStep s (.alloc size sysPtr) = some t) :
    PoolInv t := by
  obtain ⟨k, hin, hclear, hclass, hstep⟩ := poolStep_served sysPtr h hsize hfit hi
  have hsame := takeBlock_samePool s.mem i k
  rw [hstep, Option.some.injEq] at ht
  subst ht
  have hfresh : ∀ b ∈ s.live, b.pool = true → b.ptr ≠ addrOf s.mem.con i k := by
    intro b hb hp heq
    obtain ⟨j, l, -, hl, hbl, hbit⟩ := h.placed b hb hp
    obtain ⟨rfl, rfl⟩ := h.layout.addr_inj hin hl (heq ▸ hbl)
    rw [hclear] at hbit
    contradiction
  have hbits : ∀ l, bitAt (setBit s.mem.var.usePtr k) l = (decide (l = k) || bitAt s.mem.var.usePtr l) :=
    bitAt_setBit _ _
  refine ⟨hsame.layout h.layout, ?_, ?_, ?_, ?_, ?_⟩
  · intro j
    have hj := h.cursor j
    have hindex : (takeBlock (countClass (countAlloc s.mem) i) i k).con.bitIndex j =
        Function.update s.mem.con.bitIndex i (i32 (s.mem.con.bitIndex i + 1)) j := rfl
    refine hindex.trans ?_
    by_cases hij : j = i
    · subst hij
      rw [Function.update_self, i32_of_bounds (by omega) (by omega), hj]
      simp
    · have hij' : i ≠ j := fun he => hij he.symm
      rw [Function.update_of_ne hij, hj]
      simp [hij']
  · intro b hb hp
    rcases List.mem_cons.mp hb with rfl | hb
    · refine ⟨i, k, hclass, (hsame.inClass i k).mpr hin, (hsame.addrOf i k).symm, ?_⟩
      exact (hbits k).trans (by simp)
    · obtain ⟨j, l, hcj, hl, hbl, hbit⟩ := h.placed b hb hp
      refine ⟨j, l, hcj, (hsame.inClass j l).mpr hl, hbl.trans (hsame.addrOf j l).symm, ?_⟩
      exact (hbits l).trans (by simp [hbit])
  · intro j l hl hbit
    have hbit' := (hbits l).symm.trans hbit
    rw [hsame.inClass] at hl
    simp only [hsame.addrOf]
    by_cases hlk : l = k
    · subst hlk
      obtain rfl := h.layout.class_unique hin hl
      exact ⟨_, List.mem_cons_self, rfl, rfl⟩
    · obtain ⟨b, hb, hp, hbl⟩ := h.owned j l hl (by simpa [hlk] using hbit')
      exact ⟨b, List.mem_cons_of_mem _ hb, hp, hbl⟩
  · refine List.pairwise_cons.mpr ⟨?_, h.distinct⟩
    intro b hb _ hp heq
    exact hfresh b hb hp heq.symm
  · intro b hb hp
    rw [hsame.inPool]
    rcases List.mem_cons.mp hb with rfl | hb
    · contradiction
    · exact h.system b hb hp

theorem alloc_system_inv {s t : PoolState} {size sysPtr : ℤ} (h : PoolInv s) (hsize : 1 ≤ size)
    (hout : ¬ InPool s.mem sysPtr) (hi : poolClass s.mem size = none)
    (ht : poolStep s (.alloc size sysPtr) = some t) : PoolInv t := by
  obtain ⟨mem, halloc, hsame, hindex, hbits⟩ := memoryAlloc_system sysPtr hsize hi
  have hsbits : ∀ j k, InClass s.mem.con j k → bitAt mem.var.usePtr k = bitAt s.mem.var.usePtr k :=
    fun j k hk => hbits k ((h.layout.bitStart_nonneg j).trans hk.1)
  simp only [poolStep, halloc, hi, Option.isSome_none, Option.some.injEq] at ht
  subst ht
  refine ⟨hsame.layout h.layout, ?_, ?_, ?_, ?_, ?_⟩
  · intro j
    simpa [hindex] using h.cursor j
  · intro b hb hp
    rcases List.mem_cons.mp hb with rfl | hb
    · contradiction
    · obtain ⟨j, l, hcj, hl, hbl, hbit⟩ := h.placed b hb hp
      exact ⟨j, l, hcj, (hsame.inClass j l).mpr hl, hbl.trans (hsame.addrOf j l).symm, (hsbits j l hl).trans hbit⟩
  · intro j l hl hbit
    have hin := (hsame.inClass j l).mp hl
    obtain ⟨b, hb, hp, hbl⟩ := h.owned j l hin ((hsbits j l hin).symm.trans hbit)
    exact ⟨b, List.mem_cons_of_mem _ hb, hp, hbl.trans (hsame.addrOf j l).symm⟩
  · refine List.pairwise_cons.mpr ⟨?_, h.distinct⟩
    intro b _ hp
    contradiction
  · intro b hb hp
    rw [hsame.inPool]
    rcases List.mem_cons.mp hb with rfl | hb
    · exact hout
    · exact h.system b hb hp

theorem mem_of_eraseP {l : List Block} {p : ℤ} {b : Block}
    (hb : b ∈ l.eraseP (fun b => decide (b.ptr = p))) : b ∈ l := List.mem_of_mem_eraseP hb

theorem mem_eraseP_of_ne {l : List Block} {p : ℤ} {b : Block} (hb : b ∈ l) (hne : b.ptr ≠ p) :
    b ∈ l.eraseP (fun b => decide (b.ptr = p)) :=
  (List.mem_eraseP_of_neg (by simpa using hne)).mpr hb

theorem free_pool_inv {s : PoolState} {i : Fin 3} {k : ℤ} (h : PoolInv s) (hk : InClass s.mem.con i k) :
    PoolInv { s with
      mem := memoryFree s.mem (addrOf s.mem.con i k)
      live := s.live.eraseP (fun b => decide (b.ptr = addrOf s.mem.con i k)) } := by
  obtain ⟨hsame, hindex, huse⟩ := memoryFree_block h.layout hk
  have hne := pairwise_eraseP_ptr (p := addrOf s.mem.con i k) h.distinct (by
    intro b hb hbp
    by_contra hp
    exact h.system b hb (by simpa using hp) (hbp ▸ h.layout.addr_inPool hk))
  refine ⟨hsame.layout h.layout, ?_, ?_, ?_, ?_, ?_⟩
  · simpa [hindex] using h.cursor
  · intro b hb hp
    obtain ⟨j, l, hcj, hl, hbl, hbit⟩ := h.placed b (mem_of_eraseP hb) hp
    have hlk : l ≠ k := by
      rintro rfl
      obtain rfl := h.layout.class_unique hk hl
      exact hne b hb hbl
    refine ⟨j, l, hcj, (hsame.inClass j l).mpr hl, hbl.trans (hsame.addrOf j l).symm, ?_⟩
    simp [huse, bitAt_clearBit, hlk, hbit]
  · intro j l hl hbit
    rw [hsame.inClass] at hl
    simp only [huse, bitAt_clearBit, Bool.and_eq_true, Bool.not_eq_true', decide_eq_false_iff_not] at hbit
    obtain ⟨b, hb, hp, hbl⟩ := h.owned j l hl hbit.2
    refine ⟨b, mem_eraseP_of_ne hb ?_, hp, hbl.trans (hsame.addrOf j l).symm⟩
    intro heq
    exact hbit.1 (h.layout.addr_inj hl hk (hbl ▸ heq)).2
  · exact h.distinct.sublist List.eraseP_sublist
  · intro b hb hp
    rw [hsame.inPool]
    exact h.system b (mem_of_eraseP hb) hp

theorem free_system_inv {s : PoolState} {ptr : ℤ} (h : PoolInv s) (hout : ¬ InPool s.mem ptr) :
    PoolInv { s with
      mem := memoryFree s.mem ptr
      live := s.live.eraseP (fun b => decide (b.ptr = ptr)) } := by
  obtain ⟨hsame, hindex, huse⟩ := memoryFree_outside hout
  refine ⟨hsame.layout h.layout, ?_, ?_, ?_, ?_, ?_⟩
  · simpa [hindex] using h.cursor
  · intro b hb hp
    obtain ⟨j, l, hcj, hl, hbl, hbit⟩ := h.placed b (mem_of_eraseP hb) hp
    exact ⟨j, l, hcj, (hsame.inClass j l).mpr hl, hbl.trans (hsame.addrOf j l).symm, huse ▸ hbit⟩
  · intro j l hl hbit
    rw [hsame.inClass] at hl
    obtain ⟨b, hb, hp, hbl⟩ := h.owned j l hl (huse ▸ hbit)
    refine ⟨b, mem_eraseP_of_ne hb ?_, hp, hbl.trans (hsame.addrOf j l).symm⟩
    intro heq
    exact hout (heq ▸ hbl ▸ h.layout.addr_inPool hl)
  · exact h.distinct.sublist List.eraseP_sublist
  · intro b hb hp
    rw [hsame.inPool]
    exact h.system b (mem_of_eraseP hb) hp

theorem free_inv {s t : PoolState} {ptr : ℤ} (h : PoolInv s)
    (ht : poolStep s (.free ptr) = some t) : PoolInv t := by
  simp only [poolStep, Option.ite_none_right_eq_some, List.any_eq_true, decide_eq_true_eq,
    Option.some.injEq] at ht
  obtain ⟨⟨b, hb, rfl⟩, rfl⟩ := ht
  cases hp : b.pool with
  | true =>
    obtain ⟨i, k, -, hk, hbk, -⟩ := h.placed b hb hp
    rw [hbk]
    exact free_pool_inv h hk
  | false => exact free_system_inv h (h.system b hb hp)

theorem poolStep_free_block {s : PoolState} {i : Fin 3} {k : ℤ} {b : Block} (hb : b ∈ s.live)
    (hptr : b.ptr = addrOf s.mem.con i k) :
    poolStep s (.free (addrOf s.mem.con i k)) = some { s with
      mem := memoryFree s.mem (addrOf s.mem.con i k)
      live := s.live.eraseP (fun b => decide (b.ptr = addrOf s.mem.con i k)) } := by
  have hany : s.live.any (fun b => decide (b.ptr = addrOf s.mem.con i k)) = true :=
    List.any_eq_true.mpr ⟨b, hb, by simpa using hptr⟩
  simp only [poolStep, hany, if_true]

theorem poolStep_inv {s t : PoolState} {op : PoolOp} (h : PoolInv s) (ha : PoolAssumed s op)
    (hf : CursorFits s op) (ht : poolStep s op = some t) : PoolInv t := by
  cases op with
  | alloc size sysPtr =>
    obtain ⟨hsize, hout, hcount⟩ := ha
    cases hi : poolClass s.mem size with
    | none => exact alloc_system_inv h hsize hout hi ht
    | some i =>
      have hclass : classOf size = some i := (Option.filter_eq_some_iff.mp hi).1
      exact alloc_served_inv h hsize (hcount i hi) (hf i hclass) hi ht
  | free ptr => exact free_inv h ht

theorem pool_safe {byte firstPtr : ℤ} {outside : Bytes} {s : PoolState} (hbyte : byte < 2 ^ 32)
    (h0 : 0 ≤ firstPtr) (hfit : firstPtr + (memoryInit byte firstPtr outside).var.total < 2 ^ 31)
    (hrun : Reach poolStep (fun s op => PoolAssumed s op ∧ CursorFits s op)
      (poolStart byte firstPtr outside) s) : PoolSafe s := by
  apply PoolInv.safe
  apply hrun.invariant (poolStart_inv byte firstPtr outside hbyte h0 hfit)
  intro s op t hs hop ht
  exact poolStep_inv hs hop.1 hop.2 ht

theorem pool_safe_small : ∃ s,
    runIf poolStep (fun s op => decide (PoolAssumed s op ∧ CursorFits s op)) smallPool smallRun = some s ∧
      s.live.map Block.ptr = [7, 66186, 65786] ∧ PoolSafe s := by
  obtain ⟨s, hs, hlive⟩ : ∃ s,
      runIf poolStep (fun s op => decide (PoolAssumed s op ∧ CursorFits s op)) smallPool smallRun = some s ∧
        s.live.map Block.ptr = [7, 66186, 65786] := ⟨_, rfl, by decide⟩
  have hrun : Reach poolStep (fun s op => PoolAssumed s op ∧ CursorFits s op) smallPool s :=
    (Reach.of_runIf hs).mono (fun _ _ hok => of_decide_eq_true hok)
  exact ⟨s, hs, hlive, pool_safe (by decide) (by decide) (by decide) hrun⟩

end FishServer
