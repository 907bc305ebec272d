import FishServer.Fmsg
import FishServer.Lib.WsFrame

namespace FishServer

/-! The frames that go out. A write past a block is none. -/

def cString (text : List Byte) : List Byte := text.takeWhile (fun b => b ≠ 0)

def store (block : List Byte) (i : ℕ) (b : Byte) : Option (List Byte) :=
  if i < block.length then some (block.set i b) else none

def memcpy (block : List Byte) (i : ℕ) (bytes : List Byte) : Option (List Byte) :=
  if i + bytes.length ≤ block.length then some (block.take i ++ bytes ++ block.drop (i + bytes.length)) else none

def charOf (x : BitVec 32) : Byte := x.setWidth 8

/-- `msg` is the memory from the pointer on, `heap` the old contents of the new block. The answer is the
block and `new_len`. -/
def emsg (heap : ℕ → Byte) (fin openCode : Byte) (msg : List Byte) : Option (List Byte × ℕ) :=
  let len := BitVec.ofNat 32 (cString msg).length
  if (len + 12).toInt < 1 then none
  else do
    let nmsg := (List.range (len + 12).toNat).map heap
    let nmsg ← store nmsg 0 (charOf (promote fin <<< 7 &&& 0x80#32 ||| promote openCode &&& 0x0f#32))
    if len.toNat < 126 then
      let nmsg ← store nmsg 1 (charOf (len ||| 0))
      let nmsg ← memcpy nmsg 2 (msg.take len.toNat)
      some (nmsg, len.toNat + 2)
    else if len.toNat < 0x10000 then
      let nmsg ← store nmsg 1 (charOf (126 ||| 0))
      let nmsg ← store nmsg 2 (charOf (len >>> 8 &&& 0xff))
      let nmsg ← store nmsg 3 (charOf (len &&& 0xff))
      let nmsg ← memcpy nmsg 4 (msg.take len.toNat)
      some (nmsg, len.toNat + 4)
    else
      let nmsg ← store nmsg 1 0
      let nmsg ← memcpy nmsg 2 (msg.take 0)
      some (nmsg, 0 + 2)

def sent (frame : List Byte × ℕ) : List Byte := frame.1.take frame.2

theorem cString_append {msg : List Byte} (h : 0 ∉ msg) (beyond : List Byte) : cString (msg ++ 0 :: beyond) = msg := by
  unfold cString
  have hmsg : ∀ b ∈ msg, decide (b ≠ 0) = true := by
    intro b hb
    apply decide_eq_true
    rintro rfl
    exact h hb
  rw [List.takeWhile_append_of_pos hmsg, List.takeWhile_cons_of_neg (by decide), List.append_nil]

theorem first_charOf (fin : Bool) (opcode : BitVec 4) :
    charOf (promote (if fin then 1 else 0) <<< 7 &&& 0x80#32 ||| promote (opcode.setWidth 8) &&& 0x0f#32) =
      WsFrame.firstByte fin opcode := by
  revert fin opcode
  decide

theorem charOf_byte (x : BitVec 32) : charOf (x &&& 0xff) = BitVec.ofNat 8 x.toNat := by
  apply BitVec.eq_of_toNat_eq
  have hmask : (x &&& 0xff).toNat = x.toNat % 2 ^ 8 := by
    rw [BitVec.toNat_and]
    exact Nat.and_two_pow_sub_one_eq_mod x.toNat 8
  unfold charOf
  rw [BitVec.toNat_setWidth, hmask, BitVec.toNat_ofNat, Nat.mod_mod]

theorem charOf_len (n : ℕ) : charOf (BitVec.ofNat 32 n ||| 0) = BitVec.ofNat 8 n := by
  apply BitVec.eq_of_toNat_eq
  have hzero : BitVec.ofNat 32 n ||| 0 = BitVec.ofNat 32 n := BitVec.or_zero
  unfold charOf
  rw [hzero, BitVec.toNat_setWidth, BitVec.toNat_ofNat, BitVec.toNat_ofNat]
  omega

theorem charOf_high {n : ℕ} (h : n < 65536) :
    charOf (BitVec.ofNat 32 n >>> 8 &&& 0xff) = BitVec.ofNat 8 (n / 256) := by
  rw [charOf_byte, BitVec.toNat_ushiftRight, BitVec.toNat_ofNat, Nat.shiftRight_eq_div_pow]
  congr 1
  omega

theorem charOf_low {n : ℕ} (h : n < 65536) : charOf (BitVec.ofNat 32 n &&& 0xff) = BitVec.ofNat 8 n := by
  rw [charOf_byte, BitVec.toNat_ofNat]
  congr 1
  omega

theorem four_cells (block : List Byte) (h : 4 ≤ block.length) :
    ∃ a b c d rest, block = a :: b :: c :: d :: rest := by
  match block, h with
  | a :: b :: c :: d :: rest, _ => exact ⟨a, b, c, d, rest, rfl⟩

theorem memcpy_sent (block : List Byte) (i : ℕ) (bytes : List Byte) (h : i + bytes.length ≤ block.length) :
    ∃ nmsg, memcpy block i bytes = some nmsg ∧ nmsg.length = block.length ∧
      sent (nmsg, bytes.length + i) = block.take i ++ bytes := by
  refine ⟨_, if_pos h, ?_, ?_⟩
  · simp only [List.length_append, List.length_take, List.length_drop]
    omega
  · have hlen : (block.take i ++ bytes).length = bytes.length + i := by
      rw [List.length_append, List.length_take, min_eq_left (by omega)]
      omega
    unfold sent
    rw [← hlen, List.take_left]

theorem block_size {n : ℕ} (h : n < 65536) : (BitVec.ofNat 32 n).toNat = n ∧
    (BitVec.ofNat 32 n + 12).toNat = n + 12 ∧ ¬ (BitVec.ofNat 32 n + 12).toInt < 1 := by
  have hnat : (BitVec.ofNat 32 n).toNat = n := by
    rw [BitVec.toNat_ofNat]
    omega
  have hsize : (BitVec.ofNat 32 n + 12).toNat = n + 12 := by
    rw [BitVec.toNat_add, hnat]
    change (n + 12) % 2 ^ 32 = n + 12
    omega
  refine ⟨hnat, hsize, ?_⟩
  rw [BitVec.toInt_eq_toNat_of_lt (by omega), hsize]
  omega

theorem emsg_frame {msg : List Byte} (hmsg : 0 ∉ msg) (hlen : msg.length < 65536) (heap : ℕ → Byte) (fin : Bool)
    (opcode : BitVec 4) (beyond : List Byte) :
    ∃ nmsg, emsg heap (if fin then 1 else 0) (opcode.setWidth 8) (msg ++ 0 :: beyond) =
        some (nmsg, msg.length + if msg.length < 126 then 2 else 4) ∧ nmsg.length = msg.length + 12 ∧
      sent (nmsg, msg.length + if msg.length < 126 then 2 else 4) = WsFrame.encode fin opcode msg := by
  obtain ⟨hnat, hsize, hpos⟩ := block_size hlen
  have hblock : ((List.range (msg.length + 12)).map heap).length = msg.length + 12 := by
    rw [List.length_map, List.length_range]
  obtain ⟨a, b, c, d, rest, hcells⟩ := four_cells ((List.range (msg.length + 12)).map heap) (by omega)
  rw [hcells] at hblock
  simp only [List.length_cons] at hblock
  have h1 : 1 < rest.length + 1 + 1 + 1 + 1 := by omega
  have h2 : 2 < rest.length + 1 + 1 + 1 + 1 := by omega
  have h3 : 3 < rest.length + 1 + 1 + 1 + 1 := by omega
  unfold emsg
  simp only [cString_append hmsg, hnat, hsize, if_neg hpos, hcells, first_charOf, List.take_left]
  simp only [store, List.length_cons, Nat.zero_lt_succ, if_true, List.set_cons_zero, Option.bind_eq_bind,
    Option.bind_some]
  unfold WsFrame.encode WsFrame.shortLength
  by_cases hshort : msg.length < 126
  · simp only [if_pos hshort, h1, if_true, Option.bind_some, List.set_cons_succ, List.set_cons_zero, charOf_len]
    obtain ⟨nmsg, hcopy, hsame, hsent⟩ := memcpy_sent
      (WsFrame.firstByte fin opcode :: BitVec.ofNat 8 msg.length :: c :: d :: rest) 2 msg
      (by simp only [List.length_cons]; omega)
    rw [hcopy, Option.bind_some]
    refine ⟨nmsg, rfl, ?_, hsent⟩
    rw [hsame]
    simp only [List.length_cons]
    omega
  · simp only [if_neg hshort, if_pos hlen, h1, h2, h3, if_true, Option.bind_some, List.length_cons,
      List.set_cons_succ, List.set_cons_zero, charOf_high hlen, charOf_low hlen]
    obtain ⟨nmsg, hcopy, hsame, hsent⟩ := memcpy_sent (WsFrame.firstByte fin opcode :: charOf (126 ||| 0) ::
      BitVec.ofNat 8 (msg.length / 256) :: BitVec.ofNat 8 msg.length :: rest) 4 msg
      (by simp only [List.length_cons]; omega)
    rw [hcopy, Option.bind_some]
    refine ⟨nmsg, rfl, ?_, hsent⟩
    rw [hsame]
    simp only [List.length_cons]
    omega

theorem emsg_decodes {msg : List Byte} (hmsg : 0 ∉ msg) (hlen : msg.length < 65536) (heap : ℕ → Byte) (fin : Bool)
    (opcode : BitVec 4) (beyond : List Byte) :
    ∃ nmsg newLen, emsg heap (if fin then 1 else 0) (opcode.setWidth 8) (msg ++ 0 :: beyond) = some (nmsg, newLen) ∧
      nmsg.length = msg.length + 12 ∧ newLen ≤ nmsg.length ∧
      newLen = msg.length + 1 + (WsFrame.shortLength msg.length).length ∧
      ∀ rest, WsFrame.decode (nmsg.take newLen ++ rest) = some (⟨fin, 0, opcode, none, msg⟩, rest) := by
  obtain ⟨nmsg, hrun, hblock, hsent⟩ := emsg_frame hmsg hlen heap fin opcode beyond
  refine ⟨nmsg, _, hrun, hblock, ?_, ?_, ?_⟩
  · split_ifs <;> omega
  · unfold WsFrame.shortLength
    split_ifs
    · rfl
    · rfl
  · intro rest
    unfold sent at hsent
    rw [hsent]
    exact WsFrame.decode_encode fin opcode (by omega) rest

theorem ping_decodes : ∃ nmsg newLen, emsg (fun _ => 7) 1 1 ([0x68, 0x69] ++ 0 :: [0x21]) = some (nmsg, newLen) ∧
    nmsg.length = 14 ∧ newLen ≤ nmsg.length ∧ newLen = 2 + 1 + (WsFrame.shortLength 2).length ∧
      ∀ rest, WsFrame.decode (nmsg.take newLen ++ rest) = some (⟨true, 0, 1, none, [0x68, 0x69]⟩, rest) :=
  emsg_decodes (by decide) (by decide) (fun _ => 7) true 1 [0x21]

end FishServer
