import Mathlib

namespace WsFrame

/-! Frames of RFC 6455. -/

abbrev Byte := BitVec 8

structure Frame where
  fin : Bool
  rsv : BitVec 3
  opcode : BitVec 4
  mask : Option (List Byte)
  payload : List Byte
deriving DecidableEq

def bigEndian (l : List Byte) : ℕ := l.foldl (fun n b => n * 256 + b.toNat) 0

def takeExact (k : ℕ) (l : List Byte) : Option (List Byte × List Byte) :=
  if l.length < k then none else some (l.take k, l.drop k)

/-- A longer form is refused for a length that fits a shorter one. -/
def decodeLength (low : ℕ) (l : List Byte) : Option (ℕ × List Byte) :=
  if low < 126 then some (low, l)
  else if low = 126 then
    (takeExact 2 l).bind (fun p => if bigEndian p.1 < 126 then none else some (bigEndian p.1, p.2))
  else
    (takeExact 8 l).bind (fun p =>
      if bigEndian p.1 < 65536 ∨ 2 ^ 63 ≤ bigEndian p.1 then none else some (bigEndian p.1, p.2))

def decodeMask (masked : Bool) (l : List Byte) : Option (Option (List Byte) × List Byte) :=
  if masked then (takeExact 4 l).map (fun p => (some p.1, p.2)) else some (none, l)

def unmasked (mask : Option (List Byte)) (payload : List Byte) : List Byte :=
  mask.elim payload (fun key => payload.mapIdx (fun i b => b ^^^ key.getD (i % 4) 0))

def decode : List Byte → Option (Frame × List Byte)
  | b0 :: b1 :: l =>
    (decodeLength (b1.toNat % 128) l).bind (fun n =>
      (decodeMask (decide (128 ≤ b1.toNat)) n.2).bind (fun m =>
        (takeExact n.1 m.2).map (fun p =>
          (⟨b0.getLsbD 7, b0.extractLsb' 4 3, b0.extractLsb' 0 4, m.1, unmasked m.1 p.1⟩, p.2))))
  | _ => none

def bytes : ℕ → ℕ → List Byte
  | 0, _ => []
  | k + 1, n => bytes k (n / 256) ++ [BitVec.ofNat 8 n]

def shortLength (n : ℕ) : List Byte :=
  if n < 126 then [BitVec.ofNat 8 n] else if n < 65536 then 126#8 :: bytes 2 n else 127#8 :: bytes 8 n

def firstByte (fin : Bool) (opcode : BitVec 4) : Byte := (if fin then 0x80#8 else 0#8) ||| opcode.setWidth 8

def encode (fin : Bool) (opcode : BitVec 4) (payload : List Byte) : List Byte :=
  firstByte fin opcode :: (shortLength payload.length ++ payload)

theorem bigEndian_append (l : List Byte) (b : Byte) : bigEndian (l ++ [b]) = bigEndian l * 256 + b.toNat := by
  unfold bigEndian
  rw [List.foldl_append]
  rfl

@[simp] theorem length_bytes (k n : ℕ) : (bytes k n).length = k := by
  induction k generalizing n with
  | zero => rfl
  | succ k ih => rw [bytes, List.length_append, ih, List.length_singleton]

theorem bigEndian_bytes {k n : ℕ} (h : n < 256 ^ k) : bigEndian (bytes k n) = n := by
  induction k generalizing n with
  | zero =>
    rw [pow_zero, Nat.lt_one_iff] at h
    rw [h]
    rfl
  | succ k ih =>
    have hdiv : n / 256 < 256 ^ k := by
      apply Nat.div_lt_of_lt_mul
      rwa [pow_succ'] at h
    rw [bytes, bigEndian_append, ih hdiv, BitVec.toNat_ofNat]
    omega

theorem takeExact_append (l rest : List Byte) : takeExact l.length (l ++ rest) = some (l, rest) := by
  unfold takeExact
  rw [List.length_append, if_neg (by omega), List.take_left, List.drop_left]

theorem takeExact_bytes (k n : ℕ) (rest : List Byte) : takeExact k (bytes k n ++ rest) = some (bytes k n, rest) := by
  have h := takeExact_append (bytes k n) rest
  rwa [length_bytes] at h

theorem firstByte_fields (fin : Bool) (opcode : BitVec 4) :
    (firstByte fin opcode).getLsbD 7 = fin ∧ (firstByte fin opcode).extractLsb' 4 3 = 0#3 ∧
      (firstByte fin opcode).extractLsb' 0 4 = opcode := by
  revert fin opcode
  decide

theorem shortLength_cons {n : ℕ} (h : n < 2 ^ 63) (rest : List Byte) : ∃ b l, shortLength n = b :: l ∧
    decide (128 ≤ b.toNat) = false ∧ decodeLength (b.toNat % 128) (l ++ rest) = some (n, rest) := by
  unfold shortLength
  split_ifs with hshort hmid
  · refine ⟨_, [], rfl, ?_, ?_⟩
    · rw [decide_eq_false_iff_not, BitVec.toNat_ofNat]
      omega
    · have hlow : (BitVec.ofNat 8 n).toNat % 128 = n := by
        rw [BitVec.toNat_ofNat]
        omega
      unfold decodeLength
      rw [hlow, if_pos hshort, List.nil_append]
  · refine ⟨126#8, bytes 2 n, rfl, rfl, ?_⟩
    have hlow : (126#8).toNat % 128 = 126 := rfl
    unfold decodeLength
    rw [hlow, if_neg (lt_irrefl _), if_pos rfl, takeExact_bytes, Option.bind_some, bigEndian_bytes, if_neg hshort]
    omega
  · refine ⟨127#8, bytes 8 n, rfl, rfl, ?_⟩
    have hlow : (127#8).toNat % 128 = 127 := rfl
    unfold decodeLength
    rw [hlow, if_neg (by decide), if_neg (by decide), takeExact_bytes, Option.bind_some, bigEndian_bytes, if_neg]
    · omega
    · omega

theorem decode_encode (fin : Bool) (opcode : BitVec 4) {payload : List Byte} (h : payload.length < 2 ^ 63)
    (rest : List Byte) : decode (encode fin opcode payload ++ rest) = some (⟨fin, 0, opcode, none, payload⟩, rest) := by
  obtain ⟨b, l, hb, hmask, hlen⟩ := shortLength_cons h (payload ++ rest)
  obtain ⟨hfin, hrsv, hop⟩ := firstByte_fields fin opcode
  unfold encode
  rw [hb, List.cons_append, List.cons_append, List.cons_append, List.append_assoc]
  simp only [decode]
  rw [hlen, Option.bind_some, hmask]
  simp only [decodeMask, Bool.false_eq_true, if_false, Option.bind_some]
  rw [takeExact_append, Option.map_some, hfin, hrsv, hop]
  rfl

end WsFrame
