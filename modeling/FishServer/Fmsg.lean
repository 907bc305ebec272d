import FishServer.Basic

namespace FishServer

abbrev Byte := BitVec 8

/-- A `char` as it takes part in `int` arithmetic. -/
def promote (b : Byte) : BitVec 32 := b.signExtend 32

inductive FmsgOut
  | done (code : ℤ) (nmsg : Option (List Byte))
  | crash
deriving DecidableEq

/-- The outcome of `fmsg`, with the offsets of the bytes of `msg` it reads. -/
structure FmsgRun where
  out : FmsgOut
  reads : List ℕ
deriving DecidableEq

structure LenField where
  len : BitVec 32
  pos : ℕ
  reads : List ℕ

def len16 (msg : ℕ → Byte) (f : LenField) : LenField :=
  if f.len = 126#32 then
    { len := (0x0000ff00#32 &&& promote (msg f.pos)) ||| (0x000000ff#32 &&& promote (msg (f.pos + 1)))
      pos := f.pos + 2
      reads := f.reads ++ [f.pos, f.pos + 1] }
  else f

def len64 (msg : ℕ → Byte) (f : LenField) : LenField :=
  if f.len = 127#32 then
    { len := (0xff000000#32 &&& promote (msg (f.pos + 4))) ||| (0x00ff0000#32 &&& promote (msg (f.pos + 5))) |||
        (0x0000ff00#32 &&& promote (msg (f.pos + 6))) ||| (0x000000ff#32 &&& promote (msg (f.pos + 7)))
      pos := f.pos + 8
      reads := f.reads ++ [f.pos + 4, f.pos + 5, f.pos + 6, f.pos + 7] }
  else f

def unmask (msg : ℕ → Byte) (pos n : ℕ) : List Byte :=
  (List.range n).map (fun i => msg (pos + 4 + i) ^^^ msg (pos + i % 4))

/-- `_malloc` takes an `int`; for a size below one it returns null, and the first store crashes. -/
def fmsgBody (msg : ℕ → Byte) (f : LenField) : FmsgRun :=
  let reads := f.reads ++ [f.pos, f.pos + 1, f.pos + 2, f.pos + 3]
  if (f.len + 1).toInt < 1 then ⟨.crash, reads ++ [f.pos + 4]⟩
  else ⟨.done 1 (some (unmask msg f.pos f.len.toNat ++ [0])),
    reads ++ (List.range f.len.toNat).map (fun i => f.pos + 4 + i)⟩

def lenStart (msg : ℕ → Byte) : LenField := ⟨promote (msg 1) &&& 0x7f#32, 2, [0, 1]⟩

def fmsg (msg : ℕ → Byte) : FmsgRun :=
  if promote (msg 0) &&& 0x0f#32 = 8#32 then ⟨.done (-1) none, [0]⟩
  else if promote (msg 1) &&& 0x80#32 = 0#32 then ⟨.done (-1) none, [0, 1]⟩
  else if promote (msg 1) &&& 0x7f#32 = 0#32 then ⟨.done 0 none, [0, 1]⟩
  else fmsgBody msg (len64 msg (len16 msg (lenStart msg)))

/-- The buffer of `WebSocket::run` after `recv` put `chunk` over `stack`. With a full buffer the loop
receives one more byte, and its second round stores a zero at offset 1. -/
def runBuffer (stack : ℕ → Byte) (chunk : List Byte) (more : Bool) : ℕ → Byte := fun i =>
  if chunk.length = 1023 ∧ more = true ∧ i = 1 then 0
  else if i = chunk.length then 0
  else (chunk[i]?).getD (stack i)

def runReceive (stack : ℕ → Byte) (chunk : List Byte) (more : Bool) : Option (ℕ → Byte) :=
  if chunk.length < 6 then none else some (runBuffer stack chunk more)

theorem promote_nibble (b : Byte) : promote b &&& 0x0f#32 = 8#32 ↔ b &&& 0x0f#8 = 8#8 := by
  revert b
  decide

theorem promote_mask (b : Byte) : promote b &&& 0x80#32 = 0#32 ↔ b.toNat < 128 := by
  revert b
  decide

theorem promote_low7 (b : Byte) : (promote b &&& 0x7f#32).toNat = b.toNat % 128 := by
  revert b
  decide

theorem low_sign (b : Byte) :
    0x0000ff00#32 &&& promote b = if b.toNat < 128 then 0#32 else 0x0000ff00#32 := by
  revert b
  decide

theorem mid_sign (b : Byte) :
    0x00ff0000#32 &&& promote b = if b.toNat < 128 then 0#32 else 0x00ff0000#32 := by
  revert b
  decide

theorem high_sign (b : Byte) :
    0xff000000#32 &&& promote b = if b.toNat < 128 then 0#32 else 0xff000000#32 := by
  revert b
  decide

theorem low_byte (b : Byte) : 0x000000ff#32 &&& promote b = b.setWidth 32 := by
  revert b
  decide

def signPart (b : Byte) (n : ℕ) : ℕ := if b.toNat < 128 then 0 else n

theorem signPart_cases (b : Byte) (n : ℕ) :
    b.toNat < 128 ∧ signPart b n = 0 ∨ 128 ≤ b.toNat ∧ signPart b n = n := by
  unfold signPart
  split <;> omega

theorem len16_toNat (hi lo : Byte) :
    ((0x0000ff00#32 &&& promote hi) ||| (0x000000ff#32 &&& promote lo)).toNat =
      signPart hi 0xff00 + lo.toNat := by
  rw [low_sign, low_byte]
  unfold signPart
  split
  · revert lo
    decide
  · revert lo
    decide

theorem len64_toNat (b4 b5 b6 b7 : Byte) :
    ((0xff000000#32 &&& promote b4) ||| (0x00ff0000#32 &&& promote b5) |||
      (0x0000ff00#32 &&& promote b6) ||| (0x000000ff#32 &&& promote b7)).toNat =
      signPart b4 0xff000000 + signPart b5 0xff0000 + signPart b6 0xff00 + b7.toNat := by
  rw [high_sign, mid_sign, low_sign, low_byte]
  unfold signPart
  split <;> split <;> split <;> revert b7 <;> decide

theorem fmsgBody_done {msg : ℕ → Byte} {f : LenField} (h : f.len.toNat < 0x7fffffff) :
    fmsgBody msg f = ⟨.done 1 (some (unmask msg f.pos f.len.toNat ++ [0])),
      f.reads ++ [f.pos, f.pos + 1, f.pos + 2, f.pos + 3] ++
        (List.range f.len.toNat).map (fun i => f.pos + 4 + i)⟩ := by
  have hsize : ¬ (f.len + 1).toInt < 1 := by
    rw [BitVec.toInt_eq_toNat_cond, BitVec.toNat_add]
    simp only [BitVec.ofNat_eq_ofNat, BitVec.toNat_ofNat]
    split <;> omega
  simp only [fmsgBody, hsize, if_false]

theorem fmsgBody_crash {msg : ℕ → Byte} {f : LenField} (h : 0x7fffffff ≤ f.len.toNat) :
    fmsgBody msg f = ⟨.crash, f.reads ++ [f.pos, f.pos + 1, f.pos + 2, f.pos + 3] ++ [f.pos + 4]⟩ := by
  have hlt := f.len.isLt
  have hsize : (f.len + 1).toInt < 1 := by
    rw [BitVec.toInt_eq_toNat_cond, BitVec.toNat_add]
    simp only [BitVec.ofNat_eq_ofNat, BitVec.toNat_ofNat]
    split <;> omega
  simp only [fmsgBody, hsize, if_true]

theorem lenStart_toNat (msg : ℕ → Byte) : (lenStart msg).len.toNat = (msg 1).toNat % 128 :=
  promote_low7 _

theorem len16_short {msg : ℕ → Byte} {f : LenField} (h : f.len.toNat ≠ 126) : len16 msg f = f := by
  have hne : f.len ≠ 126#32 := fun he => h (by rw [he]; rfl)
  simp only [len16, hne, if_false]

theorem len64_short {msg : ℕ → Byte} {f : LenField} (h : f.len.toNat ≠ 127) : len64 msg f = f := by
  have hne : f.len ≠ 127#32 := fun he => h (by rw [he]; rfl)
  simp only [len64, hne, if_false]

theorem len16_start {msg : ℕ → Byte} (h : (msg 1).toNat % 128 = 126) :
    (len16 msg (lenStart msg)).len.toNat = signPart (msg 2) 0xff00 + (msg 3).toNat ∧
      (len16 msg (lenStart msg)).pos = 4 ∧ (len16 msg (lenStart msg)).reads = [0, 1, 2, 3] := by
  have heq : (lenStart msg).len = 126#32 := BitVec.eq_of_toNat_eq (by rw [lenStart_toNat, h]; rfl)
  rw [len16, if_pos heq]
  exact ⟨len16_toNat _ _, rfl, rfl⟩

theorem len64_fields (msg : ℕ → Byte) {f : LenField} (h : f.len.toNat = 127) :
    (len64 msg f).len.toNat = signPart (msg (f.pos + 4)) 0xff000000 + signPart (msg (f.pos + 5)) 0xff0000 +
        signPart (msg (f.pos + 6)) 0xff00 + (msg (f.pos + 7)).toNat ∧
      (len64 msg f).pos = f.pos + 8 ∧
      (len64 msg f).reads = f.reads ++ [f.pos + 4, f.pos + 5, f.pos + 6, f.pos + 7] := by
  have heq : f.len = 127#32 := BitVec.eq_of_toNat_eq (by rw [h]; rfl)
  rw [len64, if_pos heq]
  exact ⟨len64_toNat _ _ _ _, rfl, rfl⟩

end FishServer
