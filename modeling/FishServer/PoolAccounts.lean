import FishServer.PoolComplete

namespace FishServer

open Bitmap Transition

/-! The figures of `server info` against the blocks in use. -/

def blockBytes (b : Block) : ℤ := (classOf b.size).elim 0 blockSize

noncomputable def usedBits (s : Memory) (i : Fin 3) : Finset ℤ :=
  (Finset.Ico (s.con.bitStart i) (s.con.bitEnd i)).filter (fun k => bitAt s.var.usePtr k = true)

def poolBytes (l : List Block) : ℤ := ((l.filter (fun b => b.pool)).map blockBytes).sum

def systemBytes (l : List Block) : ℤ := ((l.filter (fun b => !b.pool)).map Block.size).sum

structure PoolState.Accounted (s : PoolState) : Prop where
  use : s.mem.var.use = poolBytes s.live
  bits : ∀ i, s.mem.con.bitUse i = (usedBits s.mem i).card
  system : s.mem.var.systemUse = systemBytes s.live

/-- The class of a request has a free block, and what is freed was not a request above 1000 bytes. -/
def Accountable (s : PoolState) : PoolOp → Prop
  | .alloc size _ => ∀ i, classOf size = some i → ∃ k, InClass s.mem.con i k ∧ bitAt s.mem.var.usePtr k = false
  | .free ptr => ∀ b ∈ s.live, b.ptr = ptr → b.size ≤ 1000

structure PoolState.Balanced (s : PoolState) : Prop extends s.Accounted where
  total : poolBytes s.live = ∑ i, blockSize i * ((usedBits s.mem i).card : ℤ)
  pool : ∀ b ∈ s.live, b.pool = false → 1000 < b.size

section

variable {s t : PoolState} {i : Fin 3} {k : ℤ} {b : Block} {l : List Block}

theorem poolBytes_cons (b : Block) (l : List Block) :
    poolBytes (b :: l) = (if b.pool then blockBytes b else 0) + poolBytes l := by
  unfold poolBytes
  cases hb : b.pool <;> simp [hb]

theorem systemBytes_cons (b : Block) (l : List Block) :
    systemBytes (b :: l) = (if b.pool then 0 else b.size) + systemBytes l := by
  unfold systemBytes
  cases hb : b.pool <;> simp [hb]

theorem poolBytes_eraseP {p : Block → Bool} (h : ∃ b ∈ l, p b = true) :
    ∃ b ∈ l, p b = true ∧ poolBytes l = (if b.pool then blockBytes b else 0) + poolBytes (l.eraseP p) ∧
      systemBytes l = (if b.pool then 0 else b.size) + systemBytes (l.eraseP p) := by
  induction l with
  | nil => simp at h
  | cons a l ih =>
    by_cases ha : p a = true
    · refine ⟨a, List.mem_cons_self, ha, ?_, ?_⟩
      · rw [List.eraseP_cons_of_pos ha, poolBytes_cons]
      · rw [List.eraseP_cons_of_pos ha, systemBytes_cons]
    · obtain ⟨b, hb, hpb⟩ := h
      have hbl : b ∈ l := by
        rcases List.mem_cons.mp hb with rfl | hb
        · exact absurd hpb ha
        · exact hb
      obtain ⟨c, hc, hpc, hpool, hsys⟩ := ih ⟨b, hbl, hpb⟩
      refine ⟨c, List.mem_cons_of_mem _ hc, hpc, ?_, ?_⟩
      · rw [List.eraseP_cons_of_neg ha, poolBytes_cons, poolBytes_cons, hpool]
        ring
      · rw [List.eraseP_cons_of_neg ha, systemBytes_cons, systemBytes_cons, hsys]
        ring

theorem mem_usedBits (s : Memory) (i : Fin 3) (k : ℤ) :
    k ∈ usedBits s i ↔ InClass s.con i k ∧ bitAt s.var.usePtr k = true := by
  unfold usedBits InClass
  rw [Finset.mem_filter, Finset.mem_Ico]

theorem usedBits_le (h : Layout s.mem) (i : Fin 3) :
    ((usedBits s.mem i).card : ℤ) ≤ s.mem.con.bitEnd i - s.mem.con.bitStart i := by
  have hcard := Finset.card_filter_le (Finset.Ico (s.mem.con.bitStart i) (s.mem.con.bitEnd i))
    (fun k => bitAt s.mem.var.usePtr k = true)
  rw [Int.card_Ico] at hcard
  have hle := h.bit_le i
  unfold usedBits
  omega

theorem used_fits (h : Layout s.mem) : ∑ i, blockSize i * ((usedBits s.mem i).card : ℤ) < 2 ^ 31 := by
  have h0 := usedBits_le h 0
  have h1 := usedBits_le h 1
  have h2 := usedBits_le h 2
  have a0 := h.addr_size 0
  have a1 := h.addr_size 1
  have a2 := h.addr_size 2
  have := h.addr_next1
  have := h.addr_next2
  have := h.addr_first
  have := h.first_nonneg
  have := h.addr_fits
  simp only [Fin.sum_univ_three, blockSize, Matrix.cons_val] at *
  omega

theorem bits_fit (h : Layout s.mem) (i : Fin 3) : s.mem.con.bitEnd i < 2 ^ 31 := by
  have a0 := h.addr_size 0
  have a1 := h.addr_size 1
  have a2 := h.addr_size 2
  have b0 := h.bit_le 0
  have b1 := h.bit_le 1
  have b2 := h.bit_le 2
  have := h.addr_next1
  have := h.addr_next2
  have := h.addr_first
  have := h.first_nonneg
  have := h.addr_fits
  have := h.bit_first
  have := h.bit_next1
  have := h.bit_next2
  simp only [blockSize, Matrix.cons_val] at a0 a1 a2
  fin_cases i <;> simp <;> omega

theorem used_nonneg (s : Memory) (i : Fin 3) : 0 ≤ blockSize i * ((usedBits s i).card : ℤ) :=
  mul_nonneg (blockSize_pos i).le (Int.natCast_nonneg _)

theorem usedBits_take (h : Layout s.mem) (hin : InClass s.mem.con i k) (hclear : bitAt s.mem.var.usePtr k = false)
    (j : Fin 3) : usedBits (takeBlock (countClass (countAlloc s.mem) i) i k) j =
      if j = i then insert k (usedBits s.mem j) else usedBits s.mem j := by
  have hsame := takeBlock_samePool s.mem i k
  ext l
  have hmem : l ∈ usedBits (takeBlock (countClass (countAlloc s.mem) i) i k) j ↔
      InClass s.mem.con j l ∧ (l = k ∨ bitAt s.mem.var.usePtr l = true) := by
    rw [mem_usedBits, hsame.inClass]
    change InClass s.mem.con j l ∧ bitAt (setBit s.mem.var.usePtr k) l = true ↔ _
    rw [bitAt_setBit, Bool.or_eq_true, decide_eq_true_eq]
  rw [hmem]
  split_ifs with hj
  · subst hj
    rw [Finset.mem_insert, mem_usedBits]
    constructor
    · rintro ⟨hl, rfl | hset⟩
      · exact .inl rfl
      · exact .inr ⟨hl, hset⟩
    · rintro (rfl | ⟨hl, hset⟩)
      · exact ⟨hin, .inl rfl⟩
      · exact ⟨hl, .inr hset⟩
  · rw [mem_usedBits]
    constructor
    · rintro ⟨hl, rfl | hset⟩
      · exact absurd (h.class_unique hl hin) hj
      · exact ⟨hl, hset⟩
    · rintro ⟨hl, hset⟩
      exact ⟨hl, .inr hset⟩

theorem usedBits_free (h : Layout s.mem) (hin : InClass s.mem.con i k) (j : Fin 3) :
    usedBits (memoryFree s.mem (addrOf s.mem.con i k)) j =
      if j = i then (usedBits s.mem j).erase k else usedBits s.mem j := by
  obtain ⟨hsame, -, huse⟩ := memoryFree_block h hin
  ext l
  have hmem : l ∈ usedBits (memoryFree s.mem (addrOf s.mem.con i k)) j ↔
      InClass s.mem.con j l ∧ l ≠ k ∧ bitAt s.mem.var.usePtr l = true := by
    rw [mem_usedBits, hsame.inClass, huse, bitAt_clearBit, Bool.and_eq_true, Bool.not_eq_true',
      decide_eq_false_iff_not]
  rw [hmem]
  split_ifs with hj
  · rw [Finset.mem_erase, mem_usedBits]
    tauto
  · rw [mem_usedBits]
    constructor
    · rintro ⟨hl, -, hset⟩
      exact ⟨hl, hset⟩
    · rintro ⟨hl, hset⟩
      refine ⟨hl, ?_, hset⟩
      rintro rfl
      exact hj (h.class_unique hl hin)

theorem counts_update {f g : Fin 3 → ℤ} {d : ℤ} (i : Fin 3) (h : ∀ j, g j = if j = i then f j + d else f j) :
    ∑ j, blockSize j * g j = ∑ j, blockSize j * f j + blockSize i * d := by
  have hterm : ∀ j, blockSize j * g j = blockSize j * f j + if j = i then blockSize i * d else 0 := by
    intro j
    rw [h j]
    split_ifs with hj
    · rw [hj]
      ring
    · ring
  simp only [hterm, Finset.sum_add_distrib, Finset.sum_ite_eq', Finset.mem_univ, if_true]

theorem PoolState.Balanced.start (byte firstPtr : ℤ) (outside : Bytes)
    (hinv : PoolInv (poolStart byte firstPtr outside)) : (poolStart byte firstPtr outside).Balanced := by
  have hempty : ∀ i, usedBits (poolStart byte firstPtr outside).mem i = ∅ := by
    intro i
    apply Finset.eq_empty_of_forall_notMem
    intro k hk
    obtain ⟨hin, hset⟩ := (mem_usedBits _ _ _).mp hk
    obtain ⟨b, hb, -⟩ := hinv.owned i k hin hset
    cases hb
  constructor
  case pool =>
    intro b hb
    cases hb
  case toAccounted =>
    constructor
    · rfl
    · intro i
      rw [hempty]
      rfl
    · rfl
  case total =>
    simp only [hempty, Finset.card_empty, Nat.cast_zero, mul_zero, Finset.sum_const_zero]
    rfl

theorem bitUse_counted {d : ℤ} (hl : Layout t.mem) (h : ∀ j, s.mem.con.bitUse j = (usedBits s.mem j).card)
    (hcard : ∀ j, ((usedBits t.mem j).card : ℤ) =
      if j = i then ((usedBits s.mem j).card : ℤ) + d else (usedBits s.mem j).card)
    (huse : t.mem.con.bitUse = Function.update s.mem.con.bitUse i (i32 (s.mem.con.bitUse i + d))) (j : Fin 3) :
    t.mem.con.bitUse j = (usedBits t.mem j).card := by
  rw [huse]
  by_cases hj : j = i
  · have hle := usedBits_le hl i
    have hrow := hl.bitStart_nonneg i
    have hlast := bits_fit hl i
    have hci := hcard i
    rw [if_pos rfl] at hci
    rw [hj, Function.update_self, h, ← hci]
    exact i32_of_bounds (by omega) (by omega)
  · rw [Function.update_of_ne hj, hcard, if_neg hj, h]

theorem use_counted {d : ℤ} (hl : Layout t.mem) (h : s.mem.var.use = poolBytes s.live)
    (hpool : poolBytes t.live = poolBytes s.live + d)
    (htotal : poolBytes t.live = ∑ j, blockSize j * ((usedBits t.mem j).card : ℤ))
    (huse : t.mem.var.use = u32 (s.mem.var.use + d)) : t.mem.var.use = poolBytes t.live := by
  have hbound := used_fits hl
  have hnonneg := Finset.sum_nonneg fun j (_ : j ∈ Finset.univ) => used_nonneg t.mem j
  rw [huse, h, ← hpool]
  exact u32_of_bounds (by omega) (by omega)

theorem PoolState.Balanced.served (h : s.Balanced) (hl : Layout s.mem) {size : ℤ}
    (hin : InClass s.mem.con i k) (hclear : bitAt s.mem.var.usePtr k = false) (hclass : classOf size = some i)
    (hmem : t.mem = takeBlock (countClass (countAlloc s.mem) i) i k)
    (hlive : t.live = ⟨addrOf s.mem.con i k, size, true⟩ :: s.live) : t.Balanced := by
  have hlayout : Layout t.mem := by
    rw [hmem]
    exact (takeBlock_samePool s.mem i k).layout hl
  have hnew : k ∉ usedBits s.mem i := by
    intro hk
    rw [mem_usedBits, hclear] at hk
    cases hk.2
  have hcard : ∀ j, ((usedBits t.mem j).card : ℤ) =
      if j = i then ((usedBits s.mem j).card : ℤ) + 1 else (usedBits s.mem j).card := by
    intro j
    rw [hmem, usedBits_take hl hin hclear]
    split_ifs with hj
    · rw [hj, Finset.card_insert_of_notMem hnew, Nat.cast_succ]
    · rfl
  have hpool : poolBytes t.live = poolBytes s.live + blockSize i := by
    rw [hlive, poolBytes_cons]
    simp only [if_true, blockBytes, hclass, Option.elim_some]
    ring
  have htotal : poolBytes t.live = ∑ j, blockSize j * ((usedBits t.mem j).card : ℤ) := by
    rw [counts_update i hcard, hpool, h.total, mul_one]
  constructor
  case total => exact htotal
  case pool =>
    intro b hb hp
    rw [hlive] at hb
    rcases List.mem_cons.mp hb with rfl | hb
    · cases hp
    · exact h.pool b hb hp
  case toAccounted =>
    constructor
    · refine use_counted hlayout h.use hpool htotal ?_
      rw [hmem]
      rfl
    · refine bitUse_counted hlayout h.bits hcard ?_
      rw [hmem]
      rfl
    · rw [hlive, systemBytes_cons]
      simp only [if_true, zero_add]
      rw [hmem]
      exact h.system

theorem poolStep_big {size sysPtr : ℤ} (hsize : 1 ≤ size) (hclass : classOf size = none)
    (ht : poolStep s (.alloc size sysPtr) = some t) :
    t.mem.con = s.mem.con ∧ t.mem.var.usePtr = s.mem.var.usePtr ∧ t.mem.var.use = s.mem.var.use ∧
      t.mem.var.systemUse = s.mem.var.systemUse + size ∧ t.live = ⟨sysPtr, size, false⟩ :: s.live := by
  have hpool : poolClass s.mem size = none := by
    unfold poolClass
    rw [hclass]
    rfl
  simp only [poolStep, memoryAlloc, show ¬ size < 1 by omega, hclass, hpool, if_false] at ht
  cases ht
  exact ⟨rfl, rfl, rfl, rfl, rfl⟩

theorem usedBits_congr {m m' : Memory} (hcon : m'.con = m.con) (huse : m'.var.usePtr = m.var.usePtr) (i : Fin 3) :
    usedBits m' i = usedBits m i := by
  unfold usedBits
  rw [hcon, huse]

theorem PoolState.Balanced.big (h : s.Balanced) {size sysPtr : ℤ} (hsize : 1 ≤ size) (hclass : classOf size = none)
    (ht : poolStep s (.alloc size sysPtr) = some t) : t.Balanced := by
  obtain ⟨hcon, hptr, huse, hsys, hlive⟩ := poolStep_big hsize hclass ht
  have hpool : poolBytes t.live = poolBytes s.live := by
    rw [hlive, poolBytes_cons]
    simp
  have hbits : ∀ i, usedBits t.mem i = usedBits s.mem i := fun i => usedBits_congr hcon hptr i
  constructor
  case total =>
    rw [hpool, h.total]
    simp only [hbits]
  case pool =>
    intro b hb hp
    rw [hlive] at hb
    rcases List.mem_cons.mp hb with rfl | hb
    · by_contra hsmall
      have hfind := List.find?_eq_none.mp hclass 2 (by decide)
      simp only [decide_eq_true_eq] at hfind
      exact hfind (le_of_not_gt hsmall)
    · exact h.pool b hb hp
  case toAccounted =>
    constructor
    · rw [huse, hpool]
      exact h.use
    · intro i
      rw [hcon, hbits]
      exact h.bits i
    · rw [hsys, hlive, systemBytes_cons, h.system]
      simp only [Bool.false_eq_true, if_false]
      ring

theorem memoryFree_counts (h : Layout s.mem) (hk : InClass s.mem.con i k) :
    (memoryFree s.mem (addrOf s.mem.con i k)).var.use = u32 (s.mem.var.use - blockSize i) ∧
      (memoryFree s.mem (addrOf s.mem.con i k)).con.bitUse =
        Function.update s.mem.con.bitUse i (i32 (s.mem.con.bitUse i - 1)) ∧
      (memoryFree s.mem (addrOf s.mem.con i k)).var.systemUse = s.mem.var.systemUse := by
  have hin : s.mem.var.firstPtr ≤ addrOf s.mem.con i k ∧ addrOf s.mem.con i k ≤ s.mem.var.endPtr :=
    h.addr_inPool hk
  simp only [memoryFree, hin, and_self, if_true, h.addr_i32 hk, h.find_region hk, releaseBlock]

theorem PoolState.Balanced.freed (h : s.Balanced) (hinv : PoolInv s) {c : Block} (hc : c ∈ s.live)
    (hp : c.pool = true) (ht : poolStep s (.free c.ptr) = some t) : t.Balanced := by
  obtain ⟨i, k, hclass, hin, hptr, hset⟩ := hinv.placed c hc hp
  obtain ⟨-, rfl⟩ := poolStep_free ht
  obtain ⟨a, ha, hpa, hpool, hsys⟩ := poolBytes_eraseP (l := s.live) (p := fun b => decide (b.ptr = c.ptr))
    ⟨c, hc, decide_eq_true rfl⟩
  have hptra : a.ptr = c.ptr := of_decide_eq_true hpa
  have hpa' : a.pool = true := by
    by_contra hno
    apply hinv.system a ha (by simpa using hno)
    rw [hptra, hptr]
    exact hinv.layout.addr_inPool hin
  obtain ⟨j, l, hclassa, hina, hptra', -⟩ := hinv.placed a ha hpa'
  obtain ⟨rfl, rfl⟩ := hinv.layout.addr_inj hin hina (hptr.symm.trans (hptra.symm.trans hptra'))
  have hbytes : blockBytes a = blockSize i := by
    unfold blockBytes
    rw [hclassa]
    rfl
  rw [hpa', if_pos rfl, hbytes] at hpool
  rw [hpa', if_pos rfl, zero_add] at hsys
  rw [hptr] at hpool hsys ⊢
  have hmem : k ∈ usedBits s.mem i := (mem_usedBits _ _ _).mpr ⟨hin, hset⟩
  have hcard : ∀ j, ((usedBits (memoryFree s.mem (addrOf s.mem.con i k)) j).card : ℤ) =
      if j = i then ((usedBits s.mem j).card : ℤ) + -1 else (usedBits s.mem j).card := by
    intro j
    rw [usedBits_free hinv.layout hin]
    split_ifs with hj
    · subst hj
      have hone := Finset.card_erase_add_one hmem
      omega
    · rfl
  obtain ⟨huse, hbits, hsystem⟩ := memoryFree_counts hinv.layout hin
  have hlayout := (memoryFree_block hinv.layout hin).1.layout hinv.layout
  have hless : poolBytes (s.live.eraseP (fun b => decide (b.ptr = addrOf s.mem.con i k))) =
      poolBytes s.live + -blockSize i := by
    rw [hpool]
    ring
  have htotal : poolBytes (s.live.eraseP (fun b => decide (b.ptr = addrOf s.mem.con i k))) =
      ∑ j, blockSize j * ((usedBits (memoryFree s.mem (addrOf s.mem.con i k)) j).card : ℤ) := by
    rw [counts_update i hcard, ← h.total, hless, mul_neg_one]
  constructor
  case total => exact htotal
  case pool =>
    intro b hb hpb
    exact h.pool b (mem_of_eraseP hb) hpb
  case toAccounted =>
    constructor
    · exact use_counted hlayout h.use hless htotal huse
    · exact bitUse_counted hlayout h.bits hcard hbits
    · simp only
      rw [hsystem, h.system, hsys]

theorem PoolState.Balanced.step (h : s.Balanced) (hinv : PoolInv s) {con : MemoryCon} (hscan : Scanned con s)
    (hrows : BitRows con) (hused : ∀ i, ∃ e, UsedBits s i e) {op : PoolOp} (ha : PoolAssumed s op)
    (hf : CursorFits s op) (hok : Accountable s op) (ht : poolStep s op = some t) : t.Balanced := by
  cases op with
  | alloc size sysPtr =>
    cases hclass : classOf size with
    | none => exact h.big ha.1 hclass ht
    | some i =>
      have hfit := hf i hclass
      rw [hinv.cursor] at hfit
      obtain ⟨l, hl, hclear⟩ := hok i hclass
      obtain ⟨e, he⟩ := hused i
      have hpool : poolClass s.mem size = some i := by
        cases hfree : freeIndex s.mem i with
        | none =>
          rw [he.search hscan hrows hfit hfree hl] at hclear
          cases hclear
        | some k =>
          unfold poolClass
          rw [hclass, Option.filter_some, hfree]
          rfl
      obtain ⟨k, hin, hclear, -, hstep⟩ := poolStep_served sysPtr hinv ha.1 (hf i hclass) hpool
      rw [hstep] at ht
      cases ht
      exact h.served hinv.layout hin hclear hclass rfl rfl
  | free ptr =>
    obtain ⟨⟨b, hb, rfl⟩, -⟩ := poolStep_free ht
    apply h.freed hinv hb _ ht
    by_contra hp
    have := h.pool b hb (by simpa using hp)
    have := hok b hb rfl
    omega

/-! The condition leaves out no step that keeps the figures. -/

theorem fallback_breaks (hinv : PoolInv s) (hacc : s.Accounted) {size sysPtr : ℤ} (hclass : classOf size = some i)
    (hfit : s.mem.con.bitIndex i + s.mem.con.bitStart i < 2 ^ 31)
    (hfull : ∀ k, InClass s.mem.con i k → bitAt s.mem.var.usePtr k = true)
    (ht : poolStep s (.alloc size sysPtr) = some t) : ¬ t.Accounted := by
  intro hacct
  obtain ⟨hsize, -⟩ := poolStep_alloc ht
  have hpos := bitPos_bounds hinv.layout (by rw [hinv.cursor]; positivity) hfit
  have hfree : freeIndex s.mem i = none := by
    by_contra hsome
    obtain ⟨k, hk⟩ := Option.ne_none_iff_exists'.mp hsome
    obtain ⟨hin, hclear⟩ := freeIndex_some hpos.1 hpos.2 hk
    rw [hfull k hin] at hclear
    cases hclear
  have hfree' : freeIndex (countClass (countAlloc s.mem) i) i = none := hfree
  have hpool : poolClass s.mem size = none := by
    unfold poolClass
    rw [hclass, Option.filter_some, hfree]
    rfl
  simp only [poolStep, memoryAlloc, show ¬ size < 1 by omega, hclass, hfree', hpool, if_false] at ht
  cases ht
  have huse := hacct.use
  have hsize_pos := blockSize_pos i
  have hsize_le : blockSize i ≤ 1000 := by fin_cases i <;> decide
  simp only [poolBytes_cons, Option.isSome_none, Bool.false_eq_true, if_false, zero_add] at huse
  change u32 (s.mem.var.use + blockSize i) = poolBytes s.live at huse
  rw [← hacc.use] at huse
  unfold u32 at huse
  omega

theorem memoryFree_system (m : Memory) (ptr : ℤ) : (memoryFree m ptr).var.systemUse = m.var.systemUse := by
  unfold memoryFree
  simp only
  split_ifs
  · split
    · rfl
    · rfl
  · rfl

theorem big_free_breaks (hinv : PoolInv s) (hacc : s.Accounted) (hsizes : ∀ b ∈ s.live, 1 ≤ b.size) {c : Block}
    (hc : c ∈ s.live) (hbig : 1000 < c.size) (ht : poolStep s (.free c.ptr) = some t) : ¬ t.Accounted := by
  intro hacct
  obtain ⟨-, rfl⟩ := poolStep_free ht
  have hcp : c.pool = false := by
    by_contra hp
    obtain ⟨i, k, hclass, -⟩ := hinv.placed c hc (by simpa using hp)
    have hle := List.find?_some hclass
    have hsize_le : blockSize i ≤ 1000 := by fin_cases i <;> decide
    simp only [decide_eq_true_eq] at hle
    omega
  obtain ⟨a, ha, hpa, -, hsys⟩ := poolBytes_eraseP (l := s.live) (p := fun b => decide (b.ptr = c.ptr))
    ⟨c, hc, decide_eq_true rfl⟩
  have hap : a.pool = false := by
    by_contra hp
    obtain ⟨i, k, -, hin, hptr, -⟩ := hinv.placed a ha (by simpa using hp)
    apply hinv.system c hc hcp
    rw [← of_decide_eq_true hpa, hptr]
    exact hinv.layout.addr_inPool hin
  have hsystem := hacct.system
  simp only [memoryFree_system] at hsystem
  rw [hap, hacc.system.symm] at hsys
  have := hsizes a ha
  simp only [Bool.false_eq_true, if_false] at hsys
  omega

end

theorem pool_accounted {byte firstPtr : ℤ} {outside : Bytes} {s : PoolState} (hbyte : byte < 2 ^ 32)
    (h0 : 0 ≤ firstPtr) (hfit : firstPtr + (memoryInit byte firstPtr outside).var.total < 2 ^ 31)
    (hrun : Reach poolStep (fun s op => PoolAssumed s op ∧ CursorFits s op ∧ Accountable s op)
      (poolStart byte firstPtr outside) s) : s.Accounted := by
  have hrows := memoryInit_bitRows byte firstPtr outside
  have hinv := poolStart_inv byte firstPtr outside hbyte h0 hfit
  have hall : PoolInv s ∧ Scanned (memoryInit byte firstPtr outside).con s ∧ (∀ i, ∃ e, UsedBits s i e) ∧
      s.Balanced := by
    apply hrun.invariant
    · have hstart : Reach poolStep SearchFits (poolStart byte firstPtr outside) (poolStart byte firstPtr outside) :=
        .start
      exact ⟨hinv, scanned_of_run hstart, usedBits_of_run hstart,
        PoolState.Balanced.start byte firstPtr outside hinv⟩
    · rintro s op t ⟨hs, hscan, hused, hbal⟩ ⟨ha, hf, hok⟩ ht
      refine ⟨poolStep_inv hs ha hf ht, hscan.step ht, ?_, hbal.step hs hscan hrows hused ha hf hok ht⟩
      have hsearch : SearchFits s op := by
        cases op with
        | alloc size sysPtr =>
          intro i hi
          rw [← hs.cursor]
          exact hf i hi
        | free ptr => trivial
      intro i
      obtain ⟨e, he⟩ := hused i
      exact he.step hscan hrows hsearch ht
  exact hall.2.2.2.toAccounted

theorem live_sizes {s₀ s : PoolState} {ok : PoolState → PoolOp → Prop} (h₀ : ∀ b ∈ s₀.live, 1 ≤ b.size)
    (hrun : Reach poolStep ok s₀ s) : ∀ b ∈ s.live, 1 ≤ b.size := by
  apply hrun.invariant h₀
  intro s op t hs _ ht
  cases op with
  | alloc size sysPtr =>
    obtain ⟨hsize, -⟩ := poolStep_alloc ht
    rw [poolStep] at ht
    split at ht
    · cases ht
    · cases ht
      intro b hb
      rcases List.mem_cons.mp hb with rfl | hb
      · exact hsize
      · exact hs b hb
  | free ptr =>
    obtain ⟨-, rfl⟩ := poolStep_free ht
    intro b hb
    exact hs b (mem_of_eraseP hb)

theorem accounts_break {byte firstPtr : ℤ} {outside : Bytes} {s t : PoolState} {op : PoolOp} (hbyte : byte < 2 ^ 32)
    (h0 : 0 ≤ firstPtr) (hfit : firstPtr + (memoryInit byte firstPtr outside).var.total < 2 ^ 31)
    (hrun : Reach poolStep (fun s op => PoolAssumed s op ∧ CursorFits s op) (poolStart byte firstPtr outside) s)
    (hf : CursorFits s op) (hacc : s.Accounted) (hbad : ¬ Accountable s op) (ht : poolStep s op = some t) :
    ¬ t.Accounted := by
  have hinv : PoolInv s := by
    apply hrun.invariant (poolStart_inv byte firstPtr outside hbyte h0 hfit)
    intro s op t hs hop ht
    exact poolStep_inv hs hop.1 hop.2 ht
  have hsizes : ∀ b ∈ s.live, 1 ≤ b.size := by
    apply live_sizes _ hrun
    intro b hb
    cases hb
  cases op with
  | alloc size sysPtr =>
    simp only [Accountable, not_forall, not_exists, not_and, Bool.not_eq_false] at hbad
    obtain ⟨i, hclass, hfull⟩ := hbad
    exact fallback_breaks hinv hacc hclass (hf i hclass) hfull ht
  | free ptr =>
    simp only [Accountable, not_forall, not_le] at hbad
    obtain ⟨c, hc, rfl, hbig⟩ := hbad
    exact big_free_breaks hinv hacc hsizes hc hbig ht

theorem two_requests_accounted : ∃ s,
    runIf poolStep (fun _ _ => true) smallPool [.alloc 51 16, .alloc 2000 16] = some s ∧ s.Accounted := by
  have hok : PoolAssumed smallPool (.alloc 51 16) ∧ CursorFits smallPool (.alloc 51 16) := by decide
  have hfree : Accountable smallPool (.alloc 51 16) := by
    intro i hi
    obtain rfl : i = 1 := (Option.some.inj (hi.symm.trans (by decide : classOf 51 = some 1)))
    exact ⟨5, ⟨by decide, by decide⟩, by decide⟩
  obtain ⟨s, hs, hok'⟩ : ∃ s, poolStep smallPool (.alloc 51 16) = some s ∧
      (PoolAssumed s (.alloc 2000 16) ∧ CursorFits s (.alloc 2000 16)) := ⟨_, rfl, by decide⟩
  have hbig : Accountable s (.alloc 2000 16) := by
    intro i hi
    exact absurd (hi.symm.trans (by decide : classOf 2000 = none)) (by simp)
  obtain ⟨t, ht⟩ : ∃ t, poolStep s (.alloc 2000 16) = some t := ⟨_, rfl⟩
  have hrun : Reach poolStep (fun s op => PoolAssumed s op ∧ CursorFits s op ∧ Accountable s op) smallPool t :=
    (Reach.start.step ⟨hok.1, hok.2, hfree⟩ hs).step ⟨hok'.1, hok'.2, hbig⟩ ht
  refine ⟨t, ?_, pool_accounted (by decide) (by decide) (by decide) hrun⟩
  rw [runIf, if_pos rfl, hs, Option.bind_some, runIf, if_pos rfl, ht]
  rfl

/-- The fourth request of the second class goes to the system; its 200 bytes stay in the figures for good. -/
theorem exhausted_class_miscounted : ¬ ∀ (byte firstPtr : ℤ) (outside : Bytes) (s : PoolState), byte < 2 ^ 32 →
    0 ≤ firstPtr → firstPtr + (memoryInit byte firstPtr outside).var.total < 2 ^ 31 →
      Reach poolStep PoolAssumed (poolStart byte firstPtr outside) s → s.Accounted := by
  intro h
  obtain ⟨s, hs, huse, hlive⟩ : ∃ s, runIf poolStep (fun s op => decide (PoolAssumed s op)) smallPool
      [.alloc 51 16, .alloc 51 16, .alloc 51 16, .alloc 51 16, .free 16] = some s ∧
        s.mem.var.use = 800 ∧ poolBytes s.live = 600 := ⟨_, rfl, by decide, by decide⟩
  have hrun : Reach poolStep PoolAssumed smallPool s :=
    (Reach.of_runIf hs).mono (fun _ _ hok => of_decide_eq_true hok)
  have hacc := (h 1250 65536 quiet s (by decide) (by decide) (by decide) hrun).use
  omega

end FishServer
