import FishServer.Fmsg

namespace FishServer

/-- The end of a frame whose 64-bit length field starts at `pos`. When the top byte of the length is
negative the buffer is null, and the first store ends the process. -/
def wideEnd (msg : ℕ → Byte) (pos : ℕ) : ℕ :=
  pos + 12 + (if 128 ≤ (msg (pos + 4)).toNat then 1
    else signPart (msg (pos + 5)) 0xff0000 + signPart (msg (pos + 6)) 0xff00 + (msg (pos + 7)).toNat)

def frameEnd (msg : ℕ → Byte) : ℕ :=
  let n := (msg 1).toNat % 128
  let n16 := signPart (msg 2) 0xff00 + (msg 3).toNat
  if n = 126 then (if n16 = 127 then wideEnd msg 4 else 8 + n16)
  else if n = 127 then wideEnd msg 2
  else 6 + n

def Undecoded (msg : ℕ → Byte) : Prop :=
  msg 0 &&& 0x0f#8 = 8#8 ∨ (msg 1).toNat < 128 ∨ (msg 1).toNat % 128 = 0

theorem fmsg_decoded {msg : ℕ → Byte} (h : ¬ Undecoded msg) :
    fmsg msg = fmsgBody msg (len64 msg (len16 msg (lenStart msg))) := by
  have hzero : ¬ promote (msg 1) &&& 0x7f#32 = 0#32 := by
    intro hz
    apply h
    right
    right
    rw [← promote_low7, hz]
    rfl
  rw [fmsg, if_neg, if_neg, if_neg hzero]
  · rw [promote_mask]
    exact fun hm => h (Or.inr (Or.inl hm))
  · rw [promote_nibble]
    exact fun ho => h (Or.inl ho)

theorem fmsg_undecoded {msg : ℕ → Byte} (h : Undecoded msg) : ∀ r ∈ (fmsg msg).reads, r < 2 := by
  intro r hr
  unfold fmsg at hr
  split_ifs at hr with ho hm hz
  · simp at hr
    omega
  · simp at hr
    omega
  · simp at hr
    omega
  · rw [promote_nibble] at ho
    rw [promote_mask] at hm
    rcases h with h | h | h
    · exact absurd h ho
    · exact absurd h hm
    · refine absurd (BitVec.eq_of_toNat_eq ?_) hz
      rw [promote_low7, h]
      rfl

theorem body_reads_iff {msg : ℕ → Byte} {f : LenField} (hf : ∀ r ∈ f.reads, r < f.pos) (n : ℕ) :
    (∀ r ∈ (fmsgBody msg f).reads, r < n) ↔
      f.pos + 4 + (if f.len.toNat < 0x7fffffff then f.len.toNat else 1) ≤ n := by
  by_cases hlen : f.len.toNat < 0x7fffffff
  · rw [fmsgBody_done hlen, if_pos hlen]
    constructor
    · intro h
      have hkey := h (f.pos + 3) (by simp)
      by_cases hzero : f.len.toNat = 0
      · omega
      · have hlast := h (f.pos + 4 + (f.len.toNat - 1)) (by simp; omega)
        omega
    · intro h r hr
      simp only [List.mem_append, List.mem_cons, List.not_mem_nil, or_false, List.mem_map,
        List.mem_range] at hr
      rcases hr with (hr | hr) | ⟨i, hi, rfl⟩
      · have := hf r hr
        omega
      · omega
      · omega
  · rw [fmsgBody_crash (by omega), if_neg hlen]
    constructor
    · intro h
      have hkey := h (f.pos + 4) (by simp)
      omega
    · intro h r hr
      simp only [List.mem_append, List.mem_cons, List.not_mem_nil, or_false] at hr
      rcases hr with (hr | hr) | hr
      · have := hf r hr
        omega
      · omega
      · omega

theorem wide_reads_iff {msg : ℕ → Byte} {f : LenField} (hf : ∀ r ∈ f.reads, r < f.pos)
    (hlen : f.len.toNat = 127) (n : ℕ) :
    (∀ r ∈ (fmsgBody msg (len64 msg f)).reads, r < n) ↔ wideEnd msg f.pos ≤ n := by
  obtain ⟨hlen64, hpos64, hreads64⟩ := len64_fields msg hlen
  have hwide : ∀ r ∈ (len64 msg f).reads, r < (len64 msg f).pos := by
    intro r hr
    rw [hreads64] at hr
    simp only [List.mem_append, List.mem_cons, List.not_mem_nil, or_false] at hr
    rcases hr with hr | hr
    · have := hf r hr
      omega
    · omega
  have h4 := signPart_cases (msg (f.pos + 4)) 0xff000000
  have h5 := signPart_cases (msg (f.pos + 5)) 0xff0000
  have h6 := signPart_cases (msg (f.pos + 6)) 0xff00
  have h7 := (msg (f.pos + 7)).isLt
  rw [body_reads_iff hwide, hlen64, hpos64, wideEnd]
  rcases h4 with ⟨h4, hs4⟩ | ⟨h4, hs4⟩
  · rw [if_pos (by omega), if_neg (by omega)]
    omega
  · rw [if_neg (by omega), if_pos h4]

theorem fmsg_reads_iff (msg : ℕ → Byte) {n : ℕ} (hn : 2 ≤ n) :
    (∀ r ∈ (fmsg msg).reads, r < n) ↔ Undecoded msg ∨ frameEnd msg ≤ n := by
  by_cases hu : Undecoded msg
  · refine iff_of_true ?_ (Or.inl hu)
    intro r hr
    have := fmsg_undecoded hu r hr
    omega
  · have hstart : ∀ r ∈ (lenStart msg).reads, r < (lenStart msg).pos := by
      simp [lenStart]
    rw [fmsg_decoded hu, frameEnd, or_iff_right hu]
    have h7 := lenStart_toNat msg
    by_cases h126 : (msg 1).toNat % 128 = 126
    · obtain ⟨hlen16, hpos16, hreads16⟩ := len16_start h126
      have hshort : ∀ r ∈ (len16 msg (lenStart msg)).reads, r < (len16 msg (lenStart msg)).pos := by
        rw [hreads16, hpos16]
        simp
      simp only [h126, if_true]
      by_cases h127 : signPart (msg 2) 0xff00 + (msg 3).toNat = 127
      · rw [if_pos h127, wide_reads_iff hshort (by omega), hpos16]
      · have h2 := signPart_cases (msg 2) 0xff00
        have h3 := (msg 3).isLt
        rw [if_neg h127, len64_short (by omega), body_reads_iff hshort, hlen16, hpos16, if_pos (by omega)]
    · rw [len16_short (by omega)]
      simp only [h126, if_false]
      by_cases h127 : (msg 1).toNat % 128 = 127
      · rw [if_pos h127]
        exact wide_reads_iff hstart (by omega) n
      · rw [if_neg h127, len64_short (by omega), body_reads_iff hstart, h7, if_pos (by omega)]
        show 2 + 4 + _ ≤ n ↔ 6 + _ ≤ n
        omega

theorem run_reads_iff {stack msg : ℕ → Byte} {chunk : List Byte} {more : Bool}
    (hrun : runReceive stack chunk more = some msg) :
    (∀ r ∈ (fmsg msg).reads, r < chunk.length) ↔ Undecoded msg ∨ frameEnd msg ≤ chunk.length := by
  unfold runReceive at hrun
  split at hrun
  · contradiction
  · exact fmsg_reads_iff msg (by omega)

theorem run_reads_hi :
    (runReceive (fun _ => 0) [0x81, 0x82, 0, 0, 0, 0, 104, 105] false).isSome = true ∧
      ∀ r ∈ (fmsg (runBuffer (fun _ => 0) [0x81, 0x82, 0, 0, 0, 0, 104, 105] false)).reads, r < 8 := by
  refine ⟨rfl, ?_⟩
  apply (run_reads_iff
    (show runReceive (fun _ => 0) [0x81, 0x82, 0, 0, 0, 0, 104, 105] false = some _ from rfl)).mpr
  right
  decide

theorem fmsg_reads_past :
    (runReceive (fun _ => 0) [0x81, 0xfe, 0, 200, 0, 0] false).isSome = true ∧
      ¬ ∀ r ∈ (fmsg (runBuffer (fun _ => 0) [0x81, 0xfe, 0, 200, 0, 0] false)).reads, r < 6 := by
  refine ⟨rfl, ?_⟩
  decide +kernel

end FishServer
