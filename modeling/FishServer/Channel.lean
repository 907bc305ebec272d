import FishServer.ReplyText
import FishServer.Emsg
import FishServer.Lib.WsMessage

namespace FishServer

open Printf Interleave

/-! What the calls of `sendmsg` put on a connection, whichever threads they come from. -/

def CStr.encoded (s : CStr) : List Byte := s.map (fun c => BitVec.ofNat 8 c.toNat)

structure Send where
  fin : Bool
  opcode : BitVec 4
  msg : List Byte
deriving DecidableEq

/-- `heap` is what the new block held, `beyond` what stands in memory behind the text. -/
def Send.frame (heap : ℕ → Byte) (beyond : List Byte) (x : Send) : Option (List Byte) :=
  (emsg heap (if x.fin then 1 else 0) (x.opcode.setWidth 8) (x.msg ++ 0 :: beyond)).map sent

def wire (heap : ℕ → ℕ → Byte) (beyond : ℕ → List Byte) : ℕ → List Send → Option (List Byte)
  | _, [] => some []
  | k, x :: xs => do
    let bytes ← x.frame (heap k) (beyond k)
    let rest ← wire heap beyond (k + 1) xs
    some (bytes ++ rest)

def sendmsg (msg : Option CStr) : List Send := [⟨true, 1, (msg.getD "null".toList).encoded⟩]

/-- What `viewOnline` reads of a slot when its loop gets there. -/
structure Listed where
  player : Player
  user : Option User
  backupCoin : ℤ
  opTime : ℤ

def Listed.text (x : Listed) (now : ℤ) : Formatted := .viewOnline x.player x.user x.backupCoin x.opTime now

def listedTexts (players : Slot → Listed) (now : ℤ) : List CStr :=
  (List.finRange 1024).filterMap (fun i =>
    if (players i).player.socket ≠ 0 then some (sprintf ((players i).text now).pieces) else none)

def listHead : CStr := "\x7b'op':'view online', data:[".toList

def listTail : CStr := "]\x7d".toList

def Entry.viewOnline (players : Slot → Listed) (now : ℤ) : List Send :=
  ⟨false, 1, listHead.encoded⟩ ::
    ((listedTexts players now).map (fun text => ⟨false, 0, text.encoded⟩) ++ [⟨true, 0, listTail.encoded⟩])

inductive Call
  | sendmsg (msg : Option CStr)
  | viewOnline (players : Slot → Listed) (now : ℤ)

def Call.sends : Call → List Send
  | .sendmsg msg => FishServer.sendmsg msg
  | .viewOnline players now => Entry.viewOnline players now

def Call.text : Call → CStr
  | .sendmsg msg => msg.getD "null".toList
  | .viewOnline players now => listHead ++ ((listedTexts players now).flatten ++ listTail)

def plainChar (c : Char) : Bool := decide (0 < c.toNat) && decide (c.toNat < 256)

def CStr.Plain (s : CStr) : Prop := s.all plainChar = true

instance (s : CStr) : Decidable (CStr.Plain s) := inferInstanceAs (Decidable (s.all plainChar = true))

def Call.Clean : Call → Prop
  | .sendmsg msg => ∀ m, msg = some m → CStr.Plain m ∧ m.length < 65536
  | .viewOnline players now => ∀ i, (players i).player.socket ≠ 0 →
      ((players i).text now).Fits ∧ ∀ u, (players i).user = some u → CStr.Plain u.name

def Send.Fits (x : Send) : Prop := 0 ∉ x.msg ∧ x.msg.length < 65536

def Send.plain (x : Send) : WsFrame.Frame := WsFrame.plain x.fin x.opcode x.msg

theorem Send.plain_injective : Function.Injective Send.plain := by
  rintro ⟨fin, opcode, msg⟩ ⟨fin', opcode', msg'⟩ h
  simp only [Send.plain, WsFrame.plain, WsFrame.Frame.mk.injEq, true_and] at h
  obtain ⟨rfl, rfl, rfl⟩ := h
  rfl

theorem wire_encodes {xs : List Send} (h : ∀ x ∈ xs, x.Fits) (heap : ℕ → ℕ → Byte) (beyond : ℕ → List Byte) (k : ℕ) :
    wire heap beyond k xs = some (xs.flatMap (fun x => WsFrame.encode x.fin x.opcode x.msg)) := by
  induction xs generalizing k with
  | nil => rfl
  | cons x xs ih =>
    obtain ⟨hmsg, hlen⟩ := h x List.mem_cons_self
    obtain ⟨nmsg, hrun, -, hsent⟩ := emsg_frame hmsg hlen (heap k) x.fin x.opcode (beyond k)
    have hframe : x.frame (heap k) (beyond k) = some (WsFrame.encode x.fin x.opcode x.msg) := by
      rw [Send.frame, hrun, Option.map_some, hsent]
    have hrest := ih (fun y hy => h y (List.mem_cons_of_mem x hy)) (k + 1)
    simp only [wire, hframe, hrest, Option.bind_eq_bind, Option.bind_some, List.flatMap_cons]

theorem wire_decodes {xs : List Send} (h : ∀ x ∈ xs, x.Fits) (heap : ℕ → ℕ → Byte) (beyond : ℕ → List Byte) :
    ∃ bytes, wire heap beyond 0 xs = some bytes ∧ WsFrame.decodeStream bytes = some (xs.map Send.plain) := by
  refine ⟨_, wire_encodes h heap beyond 0, ?_⟩
  have hdecode := @WsFrame.decodeStream_encode (xs.map (fun x => (x.fin, x.opcode, x.msg))) (by
    intro f hf
    obtain ⟨x, hx, rfl⟩ := List.mem_map.mp hf
    have := (h x hx).2
    simp only
    omega)
  rw [List.flatMap_map, List.map_map] at hdecode
  exact hdecode

theorem CStr.plain_iff {s : CStr} : CStr.Plain s ↔ ∀ c ∈ s, 0 < c.toNat ∧ c.toNat < 256 := by
  simp [CStr.Plain, plainChar]

theorem CStr.Plain.encoded {s : CStr} (h : CStr.Plain s) : 0 ∉ CStr.encoded s := by
  intro hzero
  obtain ⟨c, hc, hbyte⟩ := List.mem_map.mp hzero
  have hnat := congrArg BitVec.toNat hbyte
  obtain ⟨hpos, hlt⟩ := CStr.plain_iff.mp h c hc
  rw [BitVec.toNat_ofNat] at hnat
  simp at hnat
  omega

theorem decimal_plain (n : ℤ) : CStr.Plain (decimal n) := by
  have hdigits : ∀ c ∈ Nat.toDigits 10 n.natAbs, 0 < c.toNat ∧ c.toNat < 256 := by
    intro c hc
    have := digit_bounds (toDigits_isDigit _ c hc)
    omega
  rw [CStr.plain_iff]
  unfold decimal
  split_ifs
  · exact List.forall_mem_cons.mpr ⟨by decide, hdigits⟩
  · exact hdigits

def Piece.literalPlain : Piece → Bool
  | .lit s => decide (CStr.Plain s.toList)
  | _ => true

def Piece.filledPlain : Piece → Prop
  | .str s => CStr.Plain s
  | _ => True

theorem sprintf_plain {pieces : List Piece} (hlit : pieces.all Piece.literalPlain = true)
    (hfilled : ∀ piece ∈ pieces, Piece.filledPlain piece) : CStr.Plain (sprintf pieces) := by
  rw [CStr.plain_iff]
  intro c hc
  obtain ⟨piece, hpiece, hc⟩ := List.mem_flatMap.mp hc
  have hplain := List.all_eq_true.mp hlit piece hpiece
  cases piece with
  | lit s => exact CStr.plain_iff.mp (of_decide_eq_true hplain) c hc
  | int n => exact CStr.plain_iff.mp (decimal_plain n) c hc
  | str s => exact CStr.plain_iff.mp (hfilled _ hpiece) c hc

theorem printName_plain {name : CStr} (h : CStr.Plain name) : CStr.Plain (printName name) := by
  unfold printName
  split_ifs
  · decide +kernel
  · exact h

theorem viewOnlineText_plain (p : Player) {v : Shown} (h : CStr.Plain v.name) (now : ℤ) :
    CStr.Plain (sprintf (Entry.viewOnlineText p v now)) := by
  apply sprintf_plain
  · simp only [Entry.viewOnlineText, List.all_cons, List.all_nil, Piece.literalPlain]
    decide +kernel
  · simp [Entry.viewOnlineText, Piece.filledPlain, h]

theorem listed_fits {players : Slot → Listed} {now : ℤ} (h : (Call.viewOnline players now).Clean) :
    ∀ text ∈ listedTexts players now, CStr.Plain text ∧ text.length < 256 := by
  intro text htext
  obtain ⟨i, -, hi⟩ := List.mem_filterMap.mp htext
  simp only [Option.ite_none_right_eq_some, Option.some.injEq] at hi
  obtain ⟨hsocket, rfl⟩ := hi
  obtain ⟨hfits, hname⟩ := h i hsocket
  constructor
  · apply viewOnlineText_plain
    cases hu : (players i).user with
    | none => rfl
    | some u => exact printName_plain (hname u hu)
  · exact hfits

theorem Call.Clean.fits {c : Call} (h : c.Clean) : ∀ x ∈ c.sends, x.Fits := by
  cases c with
  | sendmsg msg =>
    intro x hx
    obtain rfl := List.mem_singleton.mp hx
    cases msg with
    | none => exact ⟨by decide, by decide⟩
    | some m =>
      obtain ⟨hplain, hlen⟩ := h m rfl
      exact ⟨hplain.encoded, by simpa [CStr.encoded] using hlen⟩
  | viewOnline players now =>
    refine List.forall_mem_cons.mpr ⟨⟨by decide +kernel, by decide +kernel⟩, List.forall_mem_append.mpr ⟨?_, ?_⟩⟩
    · intro x hx
      obtain ⟨text, htext, rfl⟩ := List.mem_map.mp hx
      obtain ⟨hplain, hlen⟩ := listed_fits h text htext
      exact ⟨hplain.encoded, by simp [CStr.encoded]; omega⟩
    · intro x hx
      obtain rfl := List.mem_singleton.mp hx
      exact ⟨by decide, by decide⟩

def Call.pieces : Call → WsFrame.Pieces
  | .sendmsg msg => ⟨1, (msg.getD "null".toList).encoded, [], by decide⟩
  | .viewOnline players now =>
    ⟨1, listHead.encoded, (listedTexts players now).map CStr.encoded ++ [listTail.encoded], by decide⟩

theorem continued_append (texts : List (List Byte)) (last : List Byte) :
    WsFrame.continued (texts ++ [last]) = texts.map (WsFrame.plain false 0) ++ [WsFrame.plain true 0 last] := by
  induction texts with
  | nil => rfl
  | cons text texts ih =>
    have hmore : (texts ++ [last]).isEmpty = false := by simp
    rw [List.cons_append, WsFrame.continued, ih, hmore]
    rfl

theorem Call.pieces_frames (c : Call) : c.pieces.frames = c.sends.map Send.plain := by
  cases c with
  | sendmsg msg => rfl
  | viewOnline players now =>
    have hmore : ((listedTexts players now).map CStr.encoded ++ [listTail.encoded]).isEmpty = false := by simp
    have htexts : (listedTexts players now).map (WsFrame.plain false 0 ∘ CStr.encoded) =
        (listedTexts players now).map (Send.plain ∘ fun text => ⟨false, 0, text.encoded⟩) := rfl
    rw [WsFrame.Pieces.frames, Call.pieces, hmore, continued_append, List.map_map, htexts, Call.sends, Entry.viewOnline,
      List.map_cons, List.map_append, List.map_map, List.map_singleton]
    simp only [Send.plain]

theorem Call.pieces_message (c : Call) : c.pieces.message = ⟨1, c.text.encoded⟩ := by
  cases c with
  | sendmsg msg => simp [Call.pieces, WsFrame.Pieces.message, Call.text]
  | viewOnline players now =>
    have htexts : ((listedTexts players now).map CStr.encoded).flatten =
        CStr.encoded (listedTexts players now).flatten := (List.map_flatten ..).symm
    have happend (s t : CStr) : CStr.encoded (s ++ t) = s.encoded ++ t.encoded := List.map_append
    simp only [Call.pieces, WsFrame.Pieces.message, Call.text, List.flatten_append, htexts, happend,
      List.flatten_cons, List.flatten_nil, List.append_nil]

theorem sends_frames (calls : List Call) :
    (calls.flatMap Call.sends).map Send.plain = (calls.map Call.pieces).flatMap WsFrame.Pieces.frames := by
  rw [List.map_flatMap, List.flatMap_map]
  simp only [Call.pieces_frames]

/-- The calls of the threads that write to one connection, their `send`s interleaved in any way: the client reads
every frame, and puts messages together exactly when no call's frames are torn apart. Then it gets the texts. -/
theorem socket_messages {ι : Type*} [DecidableEq ι] {threads : ι → List Call} {sends : List Send}
    (hclean : ∀ i, ∀ c ∈ threads i, c.Clean)
    (hsends : Interleaves (fun i => (threads i).flatMap Call.sends) sends) (heap : ℕ → ℕ → Byte)
    (beyond : ℕ → List Byte) :
    ∃ bytes frames, wire heap beyond 0 sends = some bytes ∧ WsFrame.decodeStream bytes = some frames ∧
      ((∃ got, WsFrame.receive none frames = some (got, none)) ↔
        ∃ calls, Interleaves threads calls ∧ calls.flatMap Call.sends = sends) ∧
      ∀ calls : List Call, calls.flatMap Call.sends = sends →
        WsFrame.receive none frames = some (calls.map (fun c => ⟨1, c.text.encoded⟩), none) := by
  have hfits : ∀ x ∈ sends, x.Fits := by
    intro x hx
    obtain ⟨i, hi⟩ := hsends.mem x hx
    obtain ⟨c, hc, hx⟩ := List.mem_flatMap.mp hi
    exact (hclean i c hc).fits x hx
  obtain ⟨bytes, hwire, hdecode⟩ := wire_decodes hfits heap beyond
  have hframes : Interleaves (fun i => ((threads i).map Call.pieces).flatMap WsFrame.Pieces.frames)
      (sends.map Send.plain) := by
    have h := hsends.map Send.plain
    simpa only [sends_frames] using h
  refine ⟨bytes, sends.map Send.plain, hwire, hdecode, ?_, ?_⟩
  · rw [WsFrame.receive_interleaved hframes]
    constructor
    · rintro ⟨ms, hms, hflat⟩
      obtain ⟨calls, hcalls, rfl⟩ := Interleaves.of_map hms
      refine ⟨calls, hcalls, ?_⟩
      rw [← sends_frames] at hflat
      exact List.map_injective_iff.mpr Send.plain_injective hflat
    · rintro ⟨calls, hcalls, rfl⟩
      exact ⟨calls.map Call.pieces, hcalls.map Call.pieces, (sends_frames calls).symm⟩
  · rintro calls rfl
    rw [sends_frames, WsFrame.receive_all, List.map_map]
    simp only [Function.comp_def, Call.pieces_message]

def emptyTable : Slot → Listed := fun _ => ⟨Player.zero, none, 0, 0⟩

def twoThreads : Bool → List Call
  | true => [.viewOnline emptyTable 1504883575]
  | false => [.sendmsg (some "hi".toList)]

def tornSends : List Send := [⟨false, 1, listHead.encoded⟩, ⟨true, 1, CStr.encoded "hi".toList⟩,
  ⟨true, 0, listTail.encoded⟩]

theorem torn_interleaves : Interleaves (fun i => (twoThreads i).flatMap Call.sends) tornSends := by
  have hlist : listedTexts emptyTable 1504883575 = [] := by
    apply List.filterMap_eq_nil_iff.mpr
    intro i _
    rfl
  have htrue : (twoThreads true).flatMap Call.sends = [⟨false, 1, listHead.encoded⟩, ⟨true, 0, listTail.encoded⟩] := by
    simp only [twoThreads, Call.sends, Entry.viewOnline, hlist, List.flatMap_cons, List.flatMap_nil, List.map_nil,
      List.nil_append, List.append_nil]
  refine .cons (i := true) htrue (.cons (i := false) (?_ : _ = _ :: []) (.cons (i := true) (?_ : _ = _ :: [])
    (.nil ?_)))
  · rw [Function.update_of_ne (by decide)]
    rfl
  · rw [Function.update_of_ne (by decide), Function.update_self]
  · intro i
    cases i with
    | true => rw [Function.update_self]
    | false => rw [Function.update_of_ne (by decide), Function.update_self]

theorem list_torn : ∃ bytes frames, wire (fun _ _ => 7) (fun _ => [0x21]) 0 tornSends = some bytes ∧
    WsFrame.decodeStream bytes = some frames ∧
      ((∃ got, WsFrame.receive none frames = some (got, none)) ↔
        ∃ calls, Interleaves twoThreads calls ∧ calls.flatMap Call.sends = tornSends) ∧
      ∀ calls : List Call, calls.flatMap Call.sends = tornSends →
        WsFrame.receive none frames = some (calls.map (fun c => ⟨1, c.text.encoded⟩), none) :=
  socket_messages (by
    intro i c hc
    cases i with
    | true =>
      obtain rfl := List.mem_singleton.mp hc
      exact fun i hi => absurd rfl hi
    | false =>
      obtain rfl := List.mem_singleton.mp hc
      intro m hm
      obtain rfl := Option.some.inj hm
      decide) torn_interleaves _ _

end FishServer
