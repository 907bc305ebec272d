import FishServer.FrameDecode

namespace FishServer

/-- Whether the connection is still open after `onmessage`. `entry` tells it for the handler of a text. -/
def onmessage (closeing : Bool) (entry : List Byte → Bool) (msg : ℕ → Byte) : Bool :=
  if closeing then true
  else
    match (fmsg msg).out with
    | .crash => false
    | .done code nmsg => code ≠ -1 && (code ≠ 1 || entry (nmsg.getD []))

/-- A pass of the loop over a readable connection: the result of the first `recv`, the bytes the buffer
held before it and the server's state at the message. -/
structure Round where
  size : ℕ
  stack : ℕ → Byte
  closeing : Bool
  entry : List Byte → Bool

def Round.buffer (round : Round) (chunk : List Byte) : ℕ → Byte :=
  runBuffer round.stack chunk (decide (round.size = 1023))

def afterRecv (size : ℕ) (stream : List Byte) : List Byte := stream.drop (if size = 1023 then 1024 else size)

def received (msg : ℕ → Byte) (size : ℕ) : List Byte := (List.range size).map msg

/-- The messages a handshaken connection passes to `onmessage`. The second `recv` waits while nothing is
left to receive. -/
def readLoop : List Round → List Byte → List (List Byte)
  | [], _ => []
  | round :: rounds, stream =>
    if round.size < 6 then []
    else if round.size = 1023 ∧ stream.length = 1023 then []
    else
      let msg := round.buffer (stream.take round.size)
      received msg round.size ::
        if onmessage round.closeing round.entry msg then readLoop rounds (afterRecv round.size stream)
        else []

/-- The rounds receive the whole stream, each `recv` answering between one byte and all it asked for. -/
def Cut : List Round → List Byte → Prop
  | [], stream => stream = []
  | round :: rounds, stream =>
    1 ≤ round.size ∧ round.size ≤ 1023 ∧ round.size ≤ stream.length ∧
      Cut rounds (afterRecv round.size stream)

def IsClientFrame (frame : List Byte) : Prop :=
  ∃ fin opcode mask payload, payload.length ≤ 1015 ∧ frame = clientFrame fin opcode mask payload

/-- Each round receives one whole frame, short of filling the buffer, and the connection stays open up to
the last frame. -/
def Aligned : List Round → List (List Byte) → Prop
  | [], frames => frames = []
  | _ :: _, [] => False
  | round :: rounds, frame :: frames =>
    round.size = frame.length ∧ frame.length ≠ 1023 ∧
      (frames ≠ [] → onmessage round.closeing round.entry (round.buffer frame) = true) ∧
      Aligned rounds frames

theorem clientFrame_length (fin : Bool) (opcode : BitVec 4) (mask : ℕ → Byte) (payload : List Byte) :
    (clientFrame fin opcode mask payload).length =
      1 + (frameLength payload.length).length + 4 + payload.length := by
  simp only [clientFrame, List.length_append, List.length_singleton, List.length_map, List.length_range,
    List.length_mapIdx]

theorem IsClientFrame.length {frame : List Byte} (h : IsClientFrame frame) : 6 ≤ frame.length := by
  obtain ⟨fin, opcode, mask, payload, -, rfl⟩ := h
  rw [clientFrame_length]
  unfold frameLength
  split_ifs
  · change 6 ≤ 1 + 1 + 4 + payload.length
    omega
  · change 6 ≤ 1 + 3 + 4 + payload.length
    omega

theorem holds_getD (bytes : List Byte) : Holds (fun i => bytes.getD i 0) bytes := by
  intro i hi
  simp [List.getD_eq_getElem?_getD, hi]

theorem IsClientFrame.masked {frame : List Byte} (h : IsClientFrame frame) : frame.getD 1 0 ≠ 0 := by
  obtain ⟨fin, opcode, mask, payload, -, rfl⟩ := h
  have hmasked := (frameAt_of_holds (holds_getD (clientFrame fin opcode mask payload))).1.masked
  intro hzero
  rw [hzero] at hmasked
  exact absurd hmasked (by decide)

theorem received_length (msg : ℕ → Byte) (size : ℕ) : (received msg size).length = size := by
  rw [received, List.length_map, List.length_range]

theorem received_get (msg : ℕ → Byte) {size i : ℕ} (h : i < size) : (received msg size).getD i 0 = msg i := by
  simp [received, List.getD_eq_getElem?_getD, h]

theorem received_buffer {round : Round} {chunk : List Byte} (hsize : round.size = chunk.length)
    (hfull : chunk.length ≠ 1023) : received (round.buffer chunk) round.size = chunk := by
  apply List.ext_getElem
  · rw [received_length, hsize]
  · intro i hi hi'
    have hplain : round.buffer chunk i = chunk[i] := by
      have hne : i ≠ chunk.length := by omega
      simp [Round.buffer, runBuffer, hsize, hfull, hne, hi']
    simp [received, hplain]

theorem buffer_full {round : Round} {chunk : List Byte} (hsize : round.size = 1023)
    (hchunk : chunk.length = 1023) : received (round.buffer chunk) round.size ≠ [] ∧
      (received (round.buffer chunk) round.size).getD 1 0 = 0 := by
  constructor
  · intro hempty
    have hlen := received_length (round.buffer chunk) round.size
    rw [hempty, hsize] at hlen
    exact absurd hlen (by norm_num)
  · rw [received_get _ (by omega)]
    simp [Round.buffer, runBuffer, hsize, hchunk]

theorem Cut.ended {rounds : List Round} (h : Cut rounds []) : rounds = [] := by
  cases rounds with
  | nil => rfl
  | cons round rounds =>
    obtain ⟨hpos, -, hlen, -⟩ := h
    rw [List.length_nil] at hlen
    omega

theorem aligned_passed {rounds : List Round} {frames : List (List Byte)} (h : Aligned rounds frames)
    (hframes : ∀ f ∈ frames, IsClientFrame f) : readLoop rounds frames.flatten = frames := by
  induction rounds generalizing frames with
  | nil =>
    rw [show frames = [] from h]
    rfl
  | cons round rounds ih =>
    cases frames with
    | nil => exact h.elim
    | cons frame frames =>
      obtain ⟨hsize, hfull, hopen, hrest⟩ := h
      have hlen := (hframes frame List.mem_cons_self).length
      have htake : (frame ++ frames.flatten).take round.size = frame := by
        rw [hsize, List.take_left]
      have hafter : afterRecv round.size (frame ++ frames.flatten) = frames.flatten := by
        rw [afterRecv, if_neg (by omega), hsize, List.drop_left]
      have htail := ih hrest (fun f hf => hframes f (List.mem_cons_of_mem frame hf))
      rw [List.flatten_cons, readLoop, if_neg (by omega), if_neg (by omega), htake]
      dsimp only
      rw [received_buffer hsize hfull, hafter, htail]
      congr 1
      by_cases hlast : frames = []
      · rw [hlast]
        split_ifs <;> rfl
      · rw [hopen hlast, if_pos rfl]

theorem passed_aligned {rounds : List Round} {frames : List (List Byte)} (hcut : Cut rounds frames.flatten)
    (hframes : ∀ f ∈ frames, IsClientFrame f) (h : readLoop rounds frames.flatten = frames) :
    Aligned rounds frames := by
  induction rounds generalizing frames with
  | nil => exact h.symm
  | cons round rounds ih =>
    obtain ⟨hpos, hmax, hlen, hrest⟩ := hcut
    rw [readLoop] at h
    split_ifs at h with hshort hwait
    · rw [← h] at hlen
      rw [List.flatten_nil, List.length_nil] at hlen
      omega
    · rw [← h] at hlen
      rw [List.flatten_nil, List.length_nil] at hlen
      omega
    · cases frames with
      | nil =>
        rw [List.flatten_nil, List.length_nil] at hlen
        omega
      | cons frame frames =>
        obtain ⟨hframe, htail⟩ := List.cons.inj h
        have hmasked := (hframes frame List.mem_cons_self).masked
        have hsize : round.size = frame.length := by rw [← hframe, received_length]
        have hfull : round.size ≠ 1023 := by
          intro hfull
          have hchunk : ((frame :: frames).flatten.take round.size).length = 1023 := by
            rw [List.length_take]
            omega
          apply hmasked
          rw [← hframe]
          exact (buffer_full hfull hchunk).2
        have hafter : afterRecv round.size (frame :: frames).flatten = frames.flatten := by
          rw [afterRecv, if_neg hfull, List.flatten_cons, hsize, List.drop_left]
        have htake : (frame :: frames).flatten.take round.size = frame := by
          rw [List.flatten_cons, hsize, List.take_left]
        rw [hafter] at hrest htail
        rw [htake] at htail
        refine ⟨hsize, by omega, ?_, ?_⟩
        · intro hmore
          by_contra hclosed
          rw [if_neg hclosed] at htail
          exact hmore htail.symm
        · apply ih hrest (fun f hf => hframes f (List.mem_cons_of_mem frame hf))
          split_ifs at htail with hopen
          · exact htail
          · rw [← htail] at hrest
            rw [hrest.ended, ← htail]
            rfl

theorem frames_passed_iff {rounds : List Round} {frames : List (List Byte)}
    (hframes : ∀ f ∈ frames, IsClientFrame f) (hcut : Cut rounds frames.flatten) :
    readLoop rounds frames.flatten = frames ↔ Aligned rounds frames := by
  constructor
  · exact passed_aligned hcut hframes
  · exact fun h => aligned_passed h hframes

def greeting : List Byte := clientFrame true 1 (fun _ => 0x5A) [0x68, 0x69]

theorem greeting_frame : IsClientFrame greeting := ⟨true, 1, fun _ => 0x5A, [0x68, 0x69], by decide, rfl⟩

def plainRound (size : ℕ) : Round := ⟨size, fun _ => 0, false, fun _ => true⟩

theorem greetings_passed :
    readLoop [plainRound 8, plainRound 8] [greeting, greeting].flatten = [greeting, greeting] := by
  have haligned : Aligned [plainRound 8, plainRound 8] [greeting, greeting] :=
    ⟨by decide, by decide, fun _ => by decide, by decide, by decide, fun h => absurd rfl h, rfl⟩
  have hcut : Cut [plainRound 8, plainRound 8] [greeting, greeting].flatten :=
    ⟨by decide, by decide, by decide, by decide, by decide, by decide, rfl⟩
  exact (frames_passed_iff (by simp [greeting_frame]) hcut).mpr haligned

theorem coalesced_frames_lost :
    ¬ ∀ (rounds : List Round) (frames : List (List Byte)), (∀ f ∈ frames, IsClientFrame f) →
      Cut rounds frames.flatten → readLoop rounds frames.flatten = frames := by
  intro h
  have hlost := h [plainRound 16] [greeting, greeting] (by simp [greeting_frame])
    ⟨by decide, by decide, by decide, rfl⟩
  exact absurd hlost (by decide)

end FishServer
