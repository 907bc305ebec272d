import FishServer.Fmsg

namespace FishServer

def frameLength (n : ℕ) : List Byte :=
  if n < 126 then [BitVec.ofNat 8 (128 + n)]
  else [BitVec.ofNat 8 (128 + 126), BitVec.ofNat 8 (n / 256), BitVec.ofNat 8 (n % 256)]

/-- The masked client frame of RFC 6455 for a payload of less than 65536 bytes. -/
def clientFrame (fin : Bool) (opcode : BitVec 4) (mask : ℕ → Byte) (payload : List Byte) : List Byte :=
  [(if fin then 0x80#8 else 0#8) ||| opcode.setWidth 8] ++ frameLength payload.length ++
    (List.range 4).map mask ++ payload.mapIdx (fun i b => b ^^^ mask (i % 4))

def Holds (msg : ℕ → Byte) (bytes : List Byte) : Prop := ∀ i (h : i < bytes.length), msg i = bytes[i]

theorem Holds.append {msg : ℕ → Byte} {xs ys : List Byte} (h : Holds msg (xs ++ ys)) :
    Holds msg xs ∧ Holds (fun i => msg (xs.length + i)) ys := by
  constructor
  · intro i hi
    rw [h i (by simp; omega), List.getElem_append_left hi]
  · intro i hi
    show msg (xs.length + i) = ys[i]
    rw [h (xs.length + i) (by simp; omega), List.getElem_append_right (by omega)]
    simp

structure FrameAt (msg : ℕ → Byte) (pos : ℕ) (opcode : BitVec 4) (mask : ℕ → Byte) (payload : List Byte) : Prop where
  opcode : msg 0 &&& 0x0f#8 = opcode.setWidth 8
  masked : 128 ≤ (msg 1).toNat
  key : ∀ j < 4, msg (pos + j) = mask j
  data : ∀ i (h : i < payload.length), msg (pos + 4 + i) = payload[i] ^^^ mask (i % 4)

theorem opcode_nibble (fin : Bool) (opcode : BitVec 4) :
    ((if fin then 0x80#8 else 0#8) ||| opcode.setWidth 8) &&& 0x0f#8 = opcode.setWidth 8 := by
  revert fin opcode
  decide

theorem frameAt_of_holds {msg : ℕ → Byte} {fin : Bool} {opcode : BitVec 4} {mask : ℕ → Byte}
    {payload : List Byte} (h : Holds msg (clientFrame fin opcode mask payload)) :
    FrameAt msg (1 + (frameLength payload.length).length) opcode mask payload ∧
      Holds (fun i => msg (1 + i)) (frameLength payload.length) := by
  obtain ⟨h, hdata⟩ := h.append
  obtain ⟨h, hkey⟩ := h.append
  obtain ⟨hfirst, hlen⟩ := h.append
  refine ⟨⟨?_, ?_, ?_, ?_⟩, hlen⟩
  · rw [hfirst 0 (by simp)]
    exact opcode_nibble fin opcode
  · have hone := hlen 0 (by unfold frameLength; split <;> simp)
    simp only [List.length_cons, List.length_nil, zero_add, Nat.add_zero] at hone
    rw [hone]
    unfold frameLength
    split
    · simp
      omega
    · simp
  · intro j hj
    have := hkey j (by simpa using hj)
    simpa [Nat.add_assoc, Nat.add_comm, Nat.add_left_comm] using this
  · intro i hi
    have := hdata i (by simpa using hi)
    simpa [Nat.add_assoc, Nat.add_comm, Nat.add_left_comm] using this

theorem frameLength_short {msg : ℕ → Byte} {n : ℕ} (hn : n < 126)
    (h : Holds (fun i => msg (1 + i)) (frameLength n)) : (msg 1).toNat = 128 + n := by
  have h1 := h 0 (by simp [frameLength, hn])
  simp only [frameLength, hn, if_true, Nat.add_zero, List.getElem_cons_zero] at h1
  rw [h1, BitVec.toNat_ofNat]
  omega

theorem frameLength_long {msg : ℕ → Byte} {n : ℕ} (hn : ¬ n < 126) (hlt : n < 65536)
    (h : Holds (fun i => msg (1 + i)) (frameLength n)) :
    (msg 1).toNat = 254 ∧ (msg 2).toNat = n / 256 ∧ (msg 3).toNat = n % 256 := by
  have h1 := h 0 (by simp [frameLength, hn])
  have h2 := h 1 (by simp [frameLength, hn])
  have h3 := h 2 (by simp [frameLength, hn])
  simp only [frameLength, hn, if_false, Nat.add_zero, List.getElem_cons_zero,
    List.getElem_cons_succ] at h1 h2 h3
  refine ⟨by rw [h1]; rfl, ?_, ?_⟩
  · rw [h2, BitVec.toNat_ofNat]
    omega
  · rw [h3, BitVec.toNat_ofNat]
    omega

theorem unmask_payload {msg : ℕ → Byte} {pos : ℕ} {opcode : BitVec 4} {mask : ℕ → Byte} {payload : List Byte}
    (h : FrameAt msg pos opcode mask payload) : unmask msg pos payload.length = payload := by
  apply List.ext_getElem
  · simp [unmask]
  · intro i hi hi'
    simp only [unmask, List.getElem_map, List.getElem_range]
    rw [h.data i hi', h.key (i % 4) (Nat.mod_lt _ (by decide)), BitVec.xor_assoc, BitVec.xor_self,
      BitVec.xor_zero]

/-- The 127 bytes of payload are read back although the length was taken for a 64-bit one. -/
def Rereads (msg : ℕ → Byte) (payload : List Byte) : Prop :=
  (msg 8).toNat < 128 ∧ (msg 9).toNat < 128 ∧ (msg 10).toNat < 128 ∧ (msg 11).toNat = 127 ∧
    unmask msg 12 127 = payload

theorem fmsg_body {msg : ℕ → Byte} {pos : ℕ} {opcode : BitVec 4} {mask : ℕ → Byte} {payload : List Byte}
    (h : FrameAt msg pos opcode mask payload) (hop : opcode ≠ 8) (hlen : (msg 1).toNat ≠ 128) :
    fmsg msg = fmsgBody msg (len64 msg (len16 msg (lenStart msg))) := by
  have hnibble : ¬ promote (msg 0) &&& 0x0f#32 = 8#32 := by
    rw [promote_nibble, h.opcode]
    intro he
    apply hop
    revert he
    clear h hop
    revert opcode
    decide
  have hmask : ¬ promote (msg 1) &&& 0x80#32 = 0#32 := by
    have := h.masked
    rw [promote_mask]
    omega
  have hzero : ¬ promote (msg 1) &&& 0x7f#32 = 0#32 := by
    intro hz
    have hmod := promote_low7 (msg 1)
    have := h.masked
    have := (msg 1).isLt
    rw [hz] at hmod
    simp at hmod
    omega
  simp only [fmsg, hnibble, hmask, hzero, if_false, lenStart]

theorem decode_out {msg : ℕ → Byte} {f : LenField} {payload : List Byte} (hpos : f.len.toNat ≠ payload.length) :
    (fmsgBody msg f).out ≠ .done 1 (some (payload ++ [0])) := by
  by_cases h : f.len.toNat < 0x7fffffff
  · rw [fmsgBody_done h]
    intro he
    have hlen := congrArg List.length (Option.some.inj (FmsgOut.done.inj he).2)
    simp [unmask] at hlen
    exact hpos hlen
  · rw [fmsgBody_crash (by omega)]
    exact FmsgOut.noConfusion

theorem decode_short {msg : ℕ → Byte} {pos : ℕ} {opcode : BitVec 4} {mask : ℕ → Byte} {payload : List Byte}
    (h : FrameAt msg pos opcode mask payload) {f : LenField} (hpos : f.pos = pos)
    (hlen : f.len.toNat = payload.length) (hle : payload.length ≤ 1015) :
    (fmsgBody msg f).out = .done 1 (some (payload ++ [0])) := by
  rw [fmsgBody_done (by omega), hpos, hlen, unmask_payload h]

theorem decode_reread {msg : ℕ → Byte} {f : LenField} {payload : List Byte} (hle : payload.length ≤ 1015)
    (hlen : f.len.toNat = 127) (hpos : f.pos = 4) (h127 : payload.length % 256 = 127) :
    (fmsgBody msg (len64 msg f)).out = .done 1 (some (payload ++ [0])) ↔
      payload.length < 256 ∧ (payload.length = 127 → Rereads msg payload) := by
  obtain ⟨hlen64, hpos64, -⟩ := len64_fields msg hlen
  simp only [hpos, Nat.reduceAdd] at hlen64 hpos64
  have hs8 := signPart_cases (msg 8) 0xff000000
  have hs9 := signPart_cases (msg 9) 0xff0000
  have hs10 := signPart_cases (msg 10) 0xff00
  have hb11 := (msg 11).isLt
  by_cases heq : (len64 msg f).len.toNat = payload.length
  · have h : payload.length = 127 := by omega
    rw [fmsgBody_done (by omega), hpos64, heq, h]
    constructor
    · intro hout
      have hlist := List.append_inj_left' (Option.some.inj (FmsgOut.done.inj hout).2) rfl
      exact ⟨by omega, fun _ => ⟨by omega, by omega, by omega, by omega, hlist⟩⟩
    · rintro ⟨-, hre⟩
      rw [(hre rfl).2.2.2.2]
  · refine iff_of_false (decode_out heq) ?_
    rintro ⟨hlt, hre⟩
    have h : payload.length = 127 := by omega
    obtain ⟨h8, h9, h10, h11, -⟩ := hre h
    omega

theorem fmsg_decodes_iff (fin : Bool) (opcode : BitVec 4) (mask : ℕ → Byte) (payload : List Byte)
    (msg : ℕ → Byte) (hop : opcode ≠ 8) (hpos : 1 ≤ payload.length) (hle : payload.length ≤ 1015)
    (hmsg : Holds msg (clientFrame fin opcode mask payload)) :
    (fmsg msg).out = .done 1 (some (payload ++ [0])) ↔
      payload.length < 256 ∧ (payload.length = 127 → Rereads msg payload) := by
  obtain ⟨hat, hlen⟩ := frameAt_of_holds hmsg
  by_cases hn : payload.length < 126
  · have h1 := frameLength_short hn hlen
    have hone : (frameLength payload.length).length = 1 := by simp [frameLength, hn]
    have hstart : (lenStart msg).len.toNat = payload.length := by
      rw [lenStart_toNat, h1]
      omega
    rw [fmsg_body hat hop (by omega), len16_short (by omega), len64_short (by omega)]
    rw [hone] at hat
    refine iff_of_true (decode_short hat rfl hstart hle) ⟨by omega, by omega⟩
  · obtain ⟨h1, h2, h3⟩ := frameLength_long hn (by omega) hlen
    have hthree : (frameLength payload.length).length = 3 := by simp [frameLength, hn]
    rw [hthree] at hat
    obtain ⟨hlen16, hpos16, -⟩ := len16_start (show (msg 1).toNat % 128 = 126 by omega)
    have hsign : signPart (msg 2) 0xff00 = 0 := if_pos (by omega)
    rw [hsign, h3, zero_add] at hlen16
    rw [fmsg_body hat hop (by omega)]
    by_cases h127 : payload.length % 256 = 127
    · exact decode_reread hle (by omega) hpos16 h127
    · rw [len64_short (by omega)]
      by_cases hbig : payload.length < 256
      · refine iff_of_true (decode_short hat hpos16 (by omega) hle) ⟨hbig, by omega⟩
      · refine iff_of_false (decode_out (by omega)) (fun h => hbig h.1)

def bufferOf (bytes : List Byte) : ℕ → Byte := fun i => bytes.getD i 0

theorem holds_bufferOf (bytes : List Byte) : Holds (bufferOf bytes) bytes := by
  intro i hi
  simp [bufferOf, hi]

theorem fmsg_decodes_hi : (fmsg (bufferOf (clientFrame true 1 (fun _ => 7) [104, 105]))).out =
    .done 1 (some ([104, 105] ++ [0])) := by
  apply (fmsg_decodes_iff true 1 (fun _ => 7) [104, 105] _ (by decide) (by decide) (by decide)
    (holds_bufferOf _)).mpr
  exact ⟨by decide, fun h => absurd h (by decide)⟩

theorem fmsg_loses_256 :
    Holds (bufferOf (clientFrame true 1 (fun _ => 7) (List.replicate 256 65)))
      (clientFrame true 1 (fun _ => 7) (List.replicate 256 65)) ∧
    (fmsg (bufferOf (clientFrame true 1 (fun _ => 7) (List.replicate 256 65)))).out ≠
      .done 1 (some (List.replicate 256 65 ++ [0])) := by
  refine ⟨holds_bufferOf _, ?_⟩
  decide +kernel

end FishServer
