import FishServer.Sha1

namespace FishServer

open Sha1 (Hash wordAt blockWords absorb compress logical constant schedule rounds ch parity maj
  schedule_load schedule_expand zeros lengthBytes pad sha1)

theorem and_full (w : BitVec 32) : w &&& 0xFFFFFFFF#32 = w := BitVec.and_allOnes

theorem circularShift_eq {bits : ℕ} (h : bits < 32) (word : BitVec 32) :
    circularShift bits word = word.rotateLeft bits := by
  rw [circularShift, and_full, BitVec.rotateLeft_def, Nat.mod_eq_of_lt h]

theorem choose_eq : choose = ch := by
  funext x y z
  apply BitVec.eq_of_getLsbD_eq
  intro i hi
  simp only [choose, ch, BitVec.getLsbD_or, BitVec.getLsbD_and, BitVec.getLsbD_xor, BitVec.getLsbD_not, hi]
  cases x.getLsbD i <;> cases y.getLsbD i <;> cases z.getLsbD i <;> rfl

theorem majority_eq : majority = maj := by
  funext x y z
  apply BitVec.eq_of_getLsbD_eq
  intro i hi
  simp only [majority, maj, BitVec.getLsbD_or, BitVec.getLsbD_and, BitVec.getLsbD_xor]
  cases x.getLsbD i <;> cases y.getLsbD i <;> cases z.getLsbD i <;> rfl

theorem expandWords_length (W : List (BitVec 32)) (n : ℕ) : (expandWords W n).length = W.length + n := by
  induction n with
  | zero => rfl
  | succ n ih =>
    rw [expandWords, List.length_append, ih]
    rfl

def Scheduled (m : ℕ → BitVec 32) (W : List (BitVec 32)) : Prop :=
  ∀ t, t < W.length → W.getD t 0 = schedule m t

theorem loadWords_scheduled (block : ℕ → Byte) : Scheduled (loadWord block) (loadWords block) := by
  intro t ht
  have h16 : t < 16 := by simpa [loadWords] using ht
  rw [schedule_load h16]
  simp [loadWords, List.getD_eq_getElem?_getD, h16]

theorem expandWord_eq {m : ℕ → BitVec 32} {W : List (BitVec 32)} (h : Scheduled m W)
    (hlen : 16 ≤ W.length) : expandWord W W.length = schedule m W.length := by
  rw [expandWord, circularShift_eq (by norm_num), schedule_expand (by omega), h _ (by omega), h _ (by omega),
    h _ (by omega), h _ (by omega)]

theorem Scheduled.push {m : ℕ → BitVec 32} {W : List (BitVec 32)} (h : Scheduled m W)
    (hlen : 16 ≤ W.length) : Scheduled m (W ++ [expandWord W W.length]) := by
  intro t ht
  rw [List.length_append, List.length_singleton] at ht
  by_cases hold : t < W.length
  · rw [List.getD_append _ _ _ _ hold]
    exact h t hold
  · have hlast : t = W.length := by omega
    subst hlast
    rw [List.getD_append_right _ _ _ _ le_rfl, Nat.sub_self]
    exact expandWord_eq h hlen

theorem expandWords_scheduled (block : ℕ → Byte) (n : ℕ) :
    Scheduled (loadWord block) (expandWords (loadWords block) n) := by
  induction n with
  | zero => exact loadWords_scheduled block
  | succ n ih =>
    have hlen : (expandWords (loadWords block) n).length = 16 + n := by
      rw [expandWords_length, loadWords, List.length_map, List.length_range]
    have hpush := ih.push (by omega)
    rw [hlen] at hpush
    exact hpush

theorem sha1Words_eq (block : ℕ → Byte) {t : ℕ} (h : t < 80) :
    (sha1Words block).getD t 0 = schedule (loadWord block) t := by
  apply expandWords_scheduled block 64
  rw [expandWords_length, loadWords, List.length_map, List.length_range]
  omega

theorem sha1Step_eq {f : BitVec 32 → BitVec 32 → BitVec 32 → BitVec 32} {K : BitVec 32}
    {W : List (BitVec 32)} {w : ℕ → BitVec 32} {t : ℕ} (v : Hash) (hf : f = logical t)
    (hK : K = constant t) (hW : W.getD t 0 = w t) : sha1Step f K W t v = Sha1.round w t v := by
  rw [sha1Step, Sha1.round, circularShift_eq (by norm_num), circularShift_eq (by norm_num), and_full, hf, hK, hW]
  have hsum : v.a.rotateLeft 5 + logical t v.b v.c v.d + v.e + w t + constant t =
      v.a.rotateLeft 5 + logical t v.b v.c v.d + v.e + constant t + w t := by ring
  rw [hsum]

theorem sha1Loop_rounds {f : BitVec 32 → BitVec 32 → BitVec 32 → BitVec 32} {K : BitVec 32}
    {W : List (BitVec 32)} {w : ℕ → BitVec 32} {start : ℕ} (v : Hash) (n : ℕ)
    (hf : ∀ t, start ≤ t → t < start + n → f = logical t)
    (hK : ∀ t, start ≤ t → t < start + n → K = constant t)
    (hW : ∀ t, t < 80 → W.getD t 0 = w t) (hend : start + n ≤ 80) :
    sha1Loop f K W start n (rounds w v start) = rounds w v (start + n) := by
  induction n with
  | zero => rfl
  | succ n ih =>
    have hprefix := ih (fun t h1 h2 => hf t h1 (by omega)) (fun t h1 h2 => hK t h1 (by omega))
      (by omega)
    have hstep := sha1Step_eq (rounds w v (start + n)) (hf (start + n) (by omega) (by omega))
      (hK (start + n) (by omega) (by omega)) (hW (start + n) (by omega))
    rw [sha1Loop, hprefix, hstep]
    rfl

theorem sha1Rounds_eq (block : ℕ → Byte) (v : Hash) :
    sha1Rounds (sha1Words block) v = rounds (schedule (loadWord block)) v 80 := by
  have hW : ∀ t, t < 80 → (sha1Words block).getD t 0 = schedule (loadWord block) t :=
    fun t ht => sha1Words_eq block ht
  have h20 : sha1Loop choose 0x5A827999#32 (sha1Words block) 0 20 v = rounds (schedule (loadWord block)) v 20 := by
    apply sha1Loop_rounds v 20 _ _ hW (by norm_num)
    · intro t _ ht
      rw [choose_eq, logical, if_pos (by omega)]
    · intro t _ ht
      rw [constant, if_pos (by omega)]
  have h40 : sha1Loop exclusive 0x6ED9EBA1#32 (sha1Words block) 20 20 (rounds (schedule (loadWord block)) v 20) =
      rounds (schedule (loadWord block)) v 40 := by
    apply sha1Loop_rounds v 20 _ _ hW (by norm_num)
    · intro t _ ht
      rw [logical, if_neg (by omega), if_pos (by omega)]
      rfl
    · intro t _ ht
      rw [constant, if_neg (by omega), if_pos (by omega)]
  have h60 : sha1Loop majority 0x8F1BBCDC#32 (sha1Words block) 40 20 (rounds (schedule (loadWord block)) v 40) =
      rounds (schedule (loadWord block)) v 60 := by
    apply sha1Loop_rounds v 20 _ _ hW (by norm_num)
    · intro t _ ht
      rw [majority_eq, logical, if_neg (by omega), if_neg (by omega), if_pos (by omega)]
    · intro t _ ht
      rw [constant, if_neg (by omega), if_neg (by omega), if_pos (by omega)]
  have h80 : sha1Loop exclusive 0xCA62C1D6#32 (sha1Words block) 60 20 (rounds (schedule (loadWord block)) v 60) =
      rounds (schedule (loadWord block)) v 80 := by
    apply sha1Loop_rounds v 20 _ _ hW (by norm_num)
    · intro t _ ht
      rw [logical, if_neg (by omega), if_neg (by omega), if_neg (by omega)]
      rfl
    · intro t _ ht
      rw [constant, if_neg (by omega), if_neg (by omega), if_neg (by omega)]
  rw [sha1Rounds, h20, h40, h60, h80]

theorem addDigest_eq (h : Hash) (block : ℕ → Byte) : addDigest h block = compress h (loadWord block) := by
  rw [addDigest, compress, ← sha1Rounds_eq]
  simp only [and_full]
  rfl

theorem nextBlock_frame (context : SHA1Context) (h : Hash) :
    (context.nextBlock h).lengthLow = context.lengthLow ∧
      (context.nextBlock h).lengthHigh = context.lengthHigh ∧
      (context.nextBlock h).corrupted = context.corrupted ∧
      (context.nextBlock h).computed = context.computed :=
  ⟨rfl, rfl, rfl, rfl⟩

theorem nextBlock_block (context : SHA1Context) (h : Hash) :
    (context.nextBlock h).messageDigest = h ∧ (context.nextBlock h).messageBlockIndex = 0 :=
  ⟨rfl, rfl⟩

theorem process_digest (context : SHA1Context) :
    (sha1ProcessMessageBlock context).messageDigest =
      compress context.messageDigest (loadWord context.messageBlock) := by
  rw [sha1ProcessMessageBlock, (nextBlock_block _ _).1, addDigest_eq]

theorem process_index (context : SHA1Context) :
    (sha1ProcessMessageBlock context).messageBlockIndex = 0 := by
  rw [sha1ProcessMessageBlock, (nextBlock_block _ _).2]

theorem loadWord_eq (block : ℕ → Byte) (t : ℕ) :
    loadWord block t = block (t * 4) ++ block (t * 4 + 1) ++ block (t * 4 + 2) ++ block (t * 4 + 3) := by
  apply BitVec.eq_of_getLsbD_eq
  intro i hi
  simp only [loadWord, BitVec.getLsbD_or, BitVec.getLsbD_shiftLeft, BitVec.getLsbD_setWidth,
    BitVec.getLsbD_append]
  grind

/-- The digest covers the first `n` blocks of `p`, and the block holds the bytes of `p` after them. -/
structure Filled (n : ℕ) (p : List Byte) (context : SHA1Context) : Prop where
  length : p.length = 64 * n + context.messageBlockIndex
  digest : context.messageDigest = absorb p n
  block : ∀ k, k < context.messageBlockIndex → context.messageBlock k = p.getD (64 * n + k) 0

theorem Filled.store {n : ℕ} {p : List Byte} {context : SHA1Context} (h : Filled n p context) (b : Byte) :
    Filled n (p ++ [b]) (context.store b) := by
  have hlen := h.length
  constructor
  · rw [List.length_append, hlen]
    rfl
  · rw [Sha1.absorb_append [b] (by omega)]
    exact h.digest
  · intro k hk
    change k < context.messageBlockIndex + 1 at hk
    change Function.update context.messageBlock context.messageBlockIndex b k = _
    by_cases hlast : k = context.messageBlockIndex
    · rw [hlast, Function.update_self, List.getD_append_right _ _ _ _ (by omega), hlen, Nat.sub_self]
      rfl
    · rw [Function.update_of_ne hlast, List.getD_append _ _ _ _ (by omega)]
      exact h.block k (by omega)

theorem Filled.words {n : ℕ} {p : List Byte} {context : SHA1Context} (h : Filled n p context)
    (hfull : context.messageBlockIndex = 64) {t : ℕ} (ht : t < 16) :
    loadWord context.messageBlock t = blockWords p n t := by
  have hbyte : ∀ j, j < 4 → context.messageBlock (t * 4 + j) = p.getD (64 * n + 4 * t + j) 0 := by
    intro j hj
    rw [h.block (t * 4 + j) (by omega)]
    congr 1
    omega
  have hfirst := hbyte 0 (by norm_num)
  rw [Nat.add_zero, Nat.add_zero] at hfirst
  rw [loadWord_eq, blockWords, wordAt, hfirst, hbyte 1 (by norm_num), hbyte 2 (by norm_num),
    hbyte 3 (by norm_num)]

theorem Filled.process {n : ℕ} {p : List Byte} {context : SHA1Context} (h : Filled n p context)
    (hfull : context.messageBlockIndex = 64) : Filled (n + 1) p (sha1ProcessMessageBlock context) := by
  have hlen := h.length
  constructor
  · rw [process_index]
    omega
  · rw [process_digest, h.digest, absorb]
    apply Sha1.compress_congr
    intro t ht
    exact h.words hfull ht
  · intro k hk
    rw [process_index] at hk
    exact absurd hk (Nat.not_lt_zero k)

theorem Filled.flush {n : ℕ} {p : List Byte} {context : SHA1Context} (h : Filled n p context)
    (hroom : context.messageBlockIndex ≤ 64) :
    Filled (p.length / 64) p context.flush ∧ context.flush.messageBlockIndex < 64 := by
  have hlen := h.length
  unfold SHA1Context.flush
  split_ifs with hfull
  · have hn : p.length / 64 = n + 1 := by omega
    rw [hn]
    exact ⟨h.process hfull, by norm_num [process_index]⟩
  · have hn : p.length / 64 = n := by omega
    rw [hn]
    exact ⟨h, by omega⟩

theorem Filled.zeroFill {n : ℕ} {p : List Byte} {context : SHA1Context} (h : Filled n p context) (k : ℕ) :
    Filled n (p ++ List.replicate k 0) (zeroFill k context) := by
  induction k generalizing p context with
  | zero =>
    rw [List.replicate_zero, List.append_nil]
    exact h
  | succ k ih =>
    have hstep := ih (h.store 0)
    rw [List.append_assoc] at hstep
    exact hstep

theorem zeroFill_index (k : ℕ) (context : SHA1Context) :
    (zeroFill k context).messageBlockIndex = context.messageBlockIndex + k := by
  induction k generalizing context with
  | zero => rfl
  | succ k ih =>
    rw [FishServer.zeroFill, ih]
    change context.messageBlockIndex + 1 + k = _
    omega

theorem zeroTo_index {limit : ℕ} {context : SHA1Context} (h : context.messageBlockIndex ≤ limit) :
    (zeroTo limit context).messageBlockIndex = limit := by
  rw [zeroTo, zeroFill_index]
  omega

def Counted (length : ℕ) (context : SHA1Context) : Prop :=
  context.lengthHigh.toNat * 2 ^ 32 + context.lengthLow.toNat = 8 * length

theorem carry {high low length : ℕ} (h : high * 2 ^ 32 + low = 8 * length) (hlow : low < 2 ^ 32)
    (hlen : 8 * (length + 1) < 2 ^ 64) :
    if (low + 8) % 2 ^ 32 = 0 then high + 1 < 2 ^ 32 ∧ (high + 1) * 2 ^ 32 = 8 * (length + 1)
    else high * 2 ^ 32 + (low + 8) % 2 ^ 32 = 8 * (length + 1) := by
  norm_num at *
  split_ifs <;> omega

theorem countByte_counted {length : ℕ} {context : SHA1Context} (h : Counted length context)
    (hlen : 8 * (length + 1) < 2 ^ 64) :
    Counted (length + 1) context.countByte ∧ context.countByte.corrupted = context.corrupted := by
  have hcarry := carry h context.lengthLow.isLt hlen
  have hlow : (context.lengthLow + 8).toNat = (context.lengthLow.toNat + 8) % 2 ^ 32 := by
    rw [BitVec.toNat_add]
    rfl
  have hhigh : (context.lengthHigh + 1).toNat = (context.lengthHigh.toNat + 1) % 2 ^ 32 := by
    rw [BitVec.toNat_add]
    rfl
  rw [← hlow] at hcarry
  unfold SHA1Context.countByte Counted
  simp only [and_full]
  split_ifs with hzero
  · have hwrap : (context.lengthLow + 8).toNat = 0 := by rw [hzero]; rfl
    rw [if_pos hwrap] at hcarry
    rw [Nat.mod_eq_of_lt hcarry.1] at hhigh
    have hnonzero : context.lengthHigh + 1 ≠ 0 := by
      intro hback
      rw [hback] at hhigh
      exact Nat.succ_ne_zero _ hhigh.symm
    constructor
    · rw [hhigh, hwrap, Nat.add_zero]
      exact hcarry.2
    · rw [decide_eq_false hnonzero, Bool.or_false]
  · have hnat : (context.lengthLow + 8).toNat ≠ 0 := fun hback => hzero (BitVec.eq_of_toNat_eq hback)
    rw [if_neg hnat] at hcarry
    exact ⟨hcarry, rfl⟩

structure Fed (m : List Byte) (context : SHA1Context) : Prop where
  filled : Filled (m.length / 64) m context
  room : context.messageBlockIndex < 64
  counted : Counted m.length context
  corrupted : context.corrupted = false
  computed : context.computed = false

theorem sha1Reset_fed (stack : ℕ → Byte) : Fed [] (sha1Reset stack) := by
  constructor
  · constructor
    · rfl
    · rfl
    · intro k hk
      exact absurd hk (Nat.not_lt_zero k)
  · exact Nat.zero_lt_succ 63
  · simp [Counted, sha1Reset]
  · rfl
  · rfl

theorem stored_byte (b : Byte) : (promote b &&& 0xFF#32).setWidth 8 = b := by
  revert b
  decide

theorem process_frame (context : SHA1Context) :
    (sha1ProcessMessageBlock context).lengthLow = context.lengthLow ∧
      (sha1ProcessMessageBlock context).lengthHigh = context.lengthHigh ∧
      (sha1ProcessMessageBlock context).corrupted = context.corrupted ∧
      (sha1ProcessMessageBlock context).computed = context.computed := by
  rw [sha1ProcessMessageBlock]
  exact nextBlock_frame context (addDigest context.messageDigest context.messageBlock)

theorem flush_frame (context : SHA1Context) :
    context.flush.lengthLow = context.lengthLow ∧ context.flush.lengthHigh = context.lengthHigh ∧
      context.flush.corrupted = context.corrupted ∧ context.flush.computed = context.computed := by
  unfold SHA1Context.flush
  split_ifs
  · exact process_frame context
  · exact ⟨rfl, rfl, rfl, rfl⟩

@[simp] theorem countByte_computed (context : SHA1Context) :
    context.countByte.computed = context.computed := by
  unfold SHA1Context.countByte
  dsimp only
  split_ifs <;> rfl

theorem countByte_block (context : SHA1Context) :
    context.countByte.messageDigest = context.messageDigest ∧
      context.countByte.messageBlock = context.messageBlock ∧
      context.countByte.messageBlockIndex = context.messageBlockIndex := by
  unfold SHA1Context.countByte
  dsimp only
  split_ifs <;> exact ⟨rfl, rfl, rfl⟩

theorem Filled.countByte {n : ℕ} {p : List Byte} {context : SHA1Context} (h : Filled n p context) :
    Filled n p context.countByte := by
  obtain ⟨hdigest, hblock, hindex⟩ := countByte_block context
  constructor
  · rw [hindex]
    exact h.length
  · rw [hdigest]
    exact h.digest
  · rw [hblock, hindex]
    exact h.block

theorem Counted.flush {length : ℕ} {context : SHA1Context} (h : Counted length context) :
    Counted length context.flush := by
  obtain ⟨hlow, hhigh, -, -⟩ := flush_frame context
  unfold Counted
  rw [hlow, hhigh]
  exact h

theorem Fed.byte {m : List Byte} {context : SHA1Context} (h : Fed m context) (b : Byte)
    (hlen : 8 * (m.length + 1) < 2 ^ 64) : Fed (m ++ [b]) (context.store b).countByte.flush := by
  have hstored : Counted m.length (context.store b) := h.counted
  obtain ⟨hcounted, hcorrupted⟩ := countByte_counted hstored hlen
  have hindex : (context.store b).countByte.messageBlockIndex ≤ 64 := by
    rw [(countByte_block (context.store b)).2.2]
    exact h.room
  have hflush := (h.filled.store b).countByte.flush hindex
  constructor
  · exact hflush.1
  · exact hflush.2
  · rw [List.length_append]
    exact hcounted.flush
  · rw [(flush_frame _).2.2.1, hcorrupted]
    exact h.corrupted
  · rw [(flush_frame _).2.2.2, countByte_computed]
    exact h.computed

theorem sha1InputLoop_fed {m : List Byte} (rest : List Byte) {context : SHA1Context} (h : Fed m context)
    (hlen : 8 * (m.length + rest.length) < 2 ^ 64) : Fed (m ++ rest) (sha1InputLoop rest context) := by
  induction rest generalizing m context with
  | nil =>
    rw [List.append_nil]
    exact h
  | cons b rest ih =>
    rw [List.length_cons] at hlen
    have hbyte := h.byte b (by omega)
    have hrest := ih hbyte (by
      rw [List.length_append, List.length_singleton]
      omega)
    rw [List.append_assoc] at hrest
    rw [sha1InputLoop, h.corrupted, if_neg Bool.false_ne_true, stored_byte]
    exact hrest

theorem sha1Input_fed (message : List Byte) (stack : ℕ → Byte) (hlen : 8 * message.length < 2 ^ 64) :
    Fed message (sha1Input message (sha1Reset stack)) := by
  unfold sha1Input
  split_ifs with hempty hclosed
  · rw [hempty]
    exact sha1Reset_fed stack
  · exact absurd hclosed Bool.false_ne_true
  · have hfed := sha1InputLoop_fed message (sha1Reset_fed stack) (by simpa using hlen)
    rw [List.nil_append] at hfed
    exact hfed

theorem byteOf_eq (w : BitVec 32) {shift : ℕ} : byteOf w shift = w.extractLsb' shift 8 := by
  apply BitVec.eq_of_getLsbD_eq
  intro i hi
  have hmask : (0xFF#32).getLsbD i = true := by
    revert i
    decide
  simp only [byteOf, BitVec.getLsbD_setWidth, BitVec.getLsbD_and, BitVec.getLsbD_ushiftRight, hmask,
    BitVec.getLsbD_extractLsb']
  simp

theorem Counted.words {length : ℕ} {context : SHA1Context} (h : Counted length context) :
    context.lengthHigh ++ context.lengthLow = BitVec.ofNat 64 (8 * length) := by
  have hlow := context.lengthLow.isLt
  have hhigh := context.lengthHigh.isLt
  have hfit : context.lengthHigh.toNat * 2 ^ 32 + context.lengthLow.toNat < 2 ^ 64 := by omega
  apply BitVec.eq_of_toNat_eq
  rw [BitVec.toNat_append, BitVec.toNat_ofNat, ← h, ← Nat.shiftLeft_add_eq_or_of_lt hlow,
    Nat.shiftLeft_eq, Nat.mod_eq_of_lt hfit]

theorem Counted.bytes {length : ℕ} {context : SHA1Context} (h : Counted length context) :
    lengthBytes length =
      [byteOf context.lengthHigh 24, byteOf context.lengthHigh 16, byteOf context.lengthHigh 8,
        byteOf context.lengthHigh 0, byteOf context.lengthLow 24, byteOf context.lengthLow 16,
        byteOf context.lengthLow 8, byteOf context.lengthLow 0] := by
  have hhigh : ∀ s, (context.lengthHigh ++ context.lengthLow).extractLsb' (32 + s) 8 =
      byteOf context.lengthHigh s := by
    intro s
    rw [byteOf_eq]
    apply BitVec.eq_of_getLsbD_eq
    intro i hi
    simp only [BitVec.getLsbD_extractLsb', BitVec.getLsbD_append]
    grind
  have hlow : ∀ s, s + 8 ≤ 32 → (context.lengthHigh ++ context.lengthLow).extractLsb' s 8 =
      byteOf context.lengthLow s := by
    intro s hs
    rw [byteOf_eq]
    apply BitVec.eq_of_getLsbD_eq
    intro i hi
    simp only [BitVec.getLsbD_extractLsb', BitVec.getLsbD_append]
    grind
  rw [lengthBytes, ← h.words, ← hhigh, ← hhigh, ← hhigh, ← hhigh, ← hlow 24 (by norm_num),
    ← hlow 16 (by norm_num), ← hlow 8 (by norm_num), ← hlow 0 (by norm_num)]
  rfl

theorem Filled.withLength {n length : ℕ} {p : List Byte} {context : SHA1Context}
    (h : Filled n p context) (hindex : context.messageBlockIndex = 56) (hcount : Counted length context) :
    Filled n (p ++ lengthBytes length) { storeLength context with messageBlockIndex := 64 } := by
  have hlen := h.length
  constructor
  · rw [hcount.bytes, List.length_append, hlen, hindex]
    change 64 * n + 56 + 8 = 64 * n + 64
    omega
  · rw [Sha1.absorb_append _ (by omega)]
    exact h.digest
  · intro k hk
    change k < 64 at hk
    by_cases hold : k < 56
    · rw [List.getD_append _ _ _ _ (by omega), ← h.block k (by omega)]
      simp only [storeLength]
      repeat rw [if_neg (by omega)]
    · rw [List.getD_append_right _ _ _ _ (by omega), hcount.bytes]
      have hplace : 64 * n + k - p.length = k - 56 := by omega
      rw [hplace]
      interval_cases k <;> rfl

theorem zeroTo_lengths (limit : ℕ) (context : SHA1Context) :
    (zeroTo limit context).lengthHigh = context.lengthHigh ∧
      (zeroTo limit context).lengthLow = context.lengthLow := by
  unfold zeroTo
  generalize limit - context.messageBlockIndex = k
  induction k generalizing context with
  | zero => exact ⟨rfl, rfl⟩
  | succ k ih => exact ih (context.store 0)

theorem padBlock_lengths (context : SHA1Context) :
    (padBlock context).lengthHigh = context.lengthHigh ∧
      (padBlock context).lengthLow = context.lengthLow := by
  unfold padBlock
  split_ifs
  · obtain ⟨hhigh, hlow⟩ := zeroTo_lengths 56 (sha1ProcessMessageBlock (zeroTo 64 (context.store 0x80#8)))
    obtain ⟨hhigh', hlow'⟩ := zeroTo_lengths 64 (context.store 0x80#8)
    obtain ⟨hlow'', hhigh'', -, -⟩ := process_frame (zeroTo 64 (context.store 0x80#8))
    rw [hhigh, hlow, hhigh'', hlow'']
    exact ⟨hhigh', hlow'⟩
  · exact zeroTo_lengths 56 (context.store 0x80#8)

theorem Filled.zeroTo {n : ℕ} {p : List Byte} {context : SHA1Context} (h : Filled n p context) (limit : ℕ) :
    Filled n (p ++ List.replicate (limit - context.messageBlockIndex) 0) (zeroTo limit context) :=
  h.zeroFill (limit - context.messageBlockIndex)

theorem store_index (context : SHA1Context) (b : Byte) :
    (context.store b).messageBlockIndex = context.messageBlockIndex + 1 := rfl

theorem Filled.padBlock {n : ℕ} {m : List Byte} {context : SHA1Context} (h : Filled n m context)
    (hroom : context.messageBlockIndex < 64) :
    ∃ k, Filled k (m ++ 0x80#8 :: List.replicate (zeros m.length) 0) (padBlock context) ∧
      (padBlock context).messageBlockIndex = 56 := by
  have hlen := h.length
  have hmark := store_index context 0x80#8
  unfold FishServer.padBlock
  split_ifs with hlate
  · have hfull : (FishServer.zeroTo 64 (context.store 0x80#8)).messageBlockIndex = 64 :=
      zeroTo_index (by omega)
    have hblock := ((h.store 0x80#8).zeroTo 64).process hfull
    have hempty := process_index (FishServer.zeroTo 64 (context.store 0x80#8))
    have hfilled := hblock.zeroTo 56
    have hzeros : zeros m.length = 64 - (context.store 0x80#8).messageBlockIndex + 56 := by
      unfold zeros
      omega
    rw [hempty, List.append_assoc, List.append_assoc, ← List.replicate_add, Nat.sub_zero, ← hzeros] at hfilled
    exact ⟨n + 1, hfilled, zeroTo_index (by omega)⟩
  · have hfilled := (h.store 0x80#8).zeroTo 56
    have hzeros : zeros m.length = 56 - (context.store 0x80#8).messageBlockIndex := by
      unfold zeros
      omega
    rw [List.append_assoc, ← hzeros] at hfilled
    exact ⟨n, hfilled, zeroTo_index (by omega)⟩

theorem Filled.last {n length : ℕ} {p : List Byte} {context : SHA1Context} (h : Filled n p context)
    (hindex : context.messageBlockIndex = 56) (hcount : Counted length context) :
    (sha1ProcessMessageBlock (storeLength context)).messageDigest = absorb (p ++ lengthBytes length) (n + 1) := by
  have hfull := (h.withLength hindex hcount).process rfl
  rw [process_digest, ← hfull.digest, process_digest]

theorem padMessage_digest {m : List Byte} {context : SHA1Context} (h : Fed m context) :
    (sha1PadMessage context).messageDigest = absorb (pad m) ((pad m).length / 64) := by
  obtain ⟨k, hfilled, hindex⟩ := h.filled.padBlock h.room
  obtain ⟨hhigh, hlow⟩ := padBlock_lengths context
  have hcount : Counted m.length (padBlock context) := by
    unfold Counted
    rw [hhigh, hlow]
    exact h.counted
  have hpad : pad m = m ++ 0x80#8 :: List.replicate (zeros m.length) 0 ++ lengthBytes m.length := by
    rw [pad, List.append_assoc, List.cons_append]
  have hlength := hfilled.length
  have hblocks : (pad m).length / 64 = k + 1 := by
    rw [hpad, List.length_append, hlength, hindex, hcount.bytes]
    change (64 * k + 56 + 8) / 64 = k + 1
    omega
  rw [hblocks, hpad, ← hfilled.last hindex hcount, sha1PadMessage]

theorem swapWords_digest (h : Hash) : swapWords (digestBytes h) = h.bytes := by
  simp only [digestBytes, memoryBytes, byteOf_eq]
  rfl

theorem sha1_hash_eq (stack : ℕ → Byte) (source : List Byte)
    (hlen : 8 * (source.takeWhile (· ≠ 0)).length < 2 ^ 64) :
    sha1_hash stack source = some (sha1 (source.takeWhile (· ≠ 0))) := by
  have hfed := sha1Input_fed (source.takeWhile (· ≠ 0)) stack hlen
  have hresult : sha1Result (sha1Input (source.takeWhile (· ≠ 0)) (sha1Reset stack)) =
      (true, { sha1PadMessage (sha1Input (source.takeWhile (· ≠ 0)) (sha1Reset stack)) with
        computed := true }) := by
    rw [sha1Result, hfed.corrupted, hfed.computed]
    rfl
  unfold sha1_hash
  dsimp only
  rw [hresult, if_pos rfl, swapWords_digest, padMessage_digest hfed]
  rfl

end FishServer
