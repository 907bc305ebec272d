import FishServer.Channel
import FishServer.FrameStream
import FishServer.Handshake
import FishServer.JsonRoundTrip
import FishServer.ServerRun

namespace FishServer

open Transition

/-! `WebSocket::run` from the bytes of a `recv` on. -/

/-- A readable connection. `chunk` is what `recv` answers, nothing for a closed or broken one; `stack` is what the
buffer held, `more` whether a full buffer got one byte more, `heap` the old contents of the parser's blocks. -/
structure Reception where
  slot : Slot
  chunk : List Byte
  stack : ℕ → Byte
  more : Bool
  heap : ℕ → Option Char
  now : ℤ
  time : ℚ
  rand : ℕ → ℕ

def Reception.buffer (r : Reception) : ℕ → Byte := runBuffer r.stack r.chunk r.more

def textOf (nmsg : List Byte) : CStr := (cString nmsg).map (fun b => Char.ofNat b.toNat)

/-- None is also for a text without a key, where the head that the lookups start from is not set. -/
def WebSocket.onmessage (s : Server) (r : Reception) : Option Server :=
  if s.closeing then some s
  else
    match (fmsg r.buffer).out with
    | .crash => none
    | .done code nmsg =>
      let s := if code = -1 then s.drop r.slot else s
      if code = 1 then
        match parseString r.heap (textOf (nmsg.getD [])) with
        | some (.done (.node key value child next) _) =>
          Entry.dispatch s r.slot (.node key value child next) r.now r.time r.rand
        | _ => none
      else some s

-- the answer itself is the one of `hack`
def WebSocket.hack (s : Server) (r : Reception) : Option Server :=
  match FishServer.hack r.stack (received r.buffer 1024) with
  | .silent => some s
  | .pastEnd => none
  | .overflow => none
  | .answer _ _ => some (s.setSlot r.slot { s.slot r.slot with hack := true })

/-- None is for a step that cannot be taken, or that ends the program. -/
def WebSocket.receive (s : Server) (r : Reception) : Option Server :=
  if s.exited ∨ (s.slot r.slot).socket = 0 then none
  else if r.chunk.length < 6 then some (s.drop r.slot)
  else if (s.slot r.slot).socket ∉ s.sockets then none
  else if (s.slot r.slot).hack then WebSocket.onmessage s r
  else WebSocket.hack s r

def Op.fromClient : Op → Bool
  | .handshake _ => true
  | .message .. => true
  | _ => false

inductive WireOp
  | receive (r : Reception)
  | other (op : Op)

def wireStep (signKey : CStr → ℤ) (s : Server) : WireOp → Option Server
  | .receive r => WebSocket.receive s r
  | .other op => if op.fromClient then none else serverStep signKey s op

inductive WireOp.Yields : WireOp → Op → Prop
  | other (op : Op) : Yields (.other op) op
  | close (r : Reception) : Yields (.receive r) (.close r.slot)
  | handshake (r : Reception) : Yields (.receive r) (.handshake r.slot)
  | message (r : Reception) {nmsg : List Byte} {json : JsonValue} {cursor : Cursor} :
      (fmsg r.buffer).out = .done 1 (some nmsg) → parseString r.heap (textOf nmsg) = some (.done json cursor) →
      Yields (.receive r) (.message r.slot json r.now r.time r.rand)

theorem fmsg_one {msg : ℕ → Byte} {nmsg : Option (List Byte)} (h : (fmsg msg).out = .done 1 nmsg) :
    ∃ bytes, nmsg = some bytes := by
  unfold fmsg at h
  split_ifs at h
  · cases h
  · cases h
  · cases h
  · unfold fmsgBody at h
    split_ifs at h
    cases h
    exact ⟨_, rfl⟩

theorem serverStep_close {signKey : CStr → ℤ} {s : Server} {i : Slot} (hexited : s.exited = false)
    (hsocket : (s.slot i).socket ≠ 0) : serverStep signKey s (.close i) = some (s.drop i) := by
  simp [serverStep, hexited, hsocket]

theorem serverStep_message {signKey : CStr → ℤ} {s : Server} {i : Slot} (hexited : s.exited = false)
    (hopen : s.connected i = true) (hhack : (s.slot i).hack = true) (hclosing : s.closeing = false)
    (json : JsonValue) (now : ℤ) (time : ℚ) (rand : ℕ → ℕ) :
    serverStep signKey s (.message i json now time rand) = Entry.dispatch s i json now time rand := by
  simp [serverStep, hexited, hopen, hhack, hclosing]

theorem serverStep_handshake {signKey : CStr → ℤ} {s : Server} {i : Slot} (hexited : s.exited = false)
    (hopen : s.connected i = true) :
    serverStep signKey s (.handshake i) = some (s.setSlot i { s.slot i with hack := true }) := by
  simp [serverStep, hexited, hopen]

theorem onmessage_step (signKey : CStr → ℤ) {s t : Server} {r : Reception} (hexited : s.exited = false)
    (hopen : s.connected r.slot = true) (hhack : (s.slot r.slot).hack = true)
    (h : WebSocket.onmessage s r = some t) :
    t = s ∨ ∃ op, (WireOp.receive r).Yields op ∧ serverStep signKey s op = some t := by
  unfold WebSocket.onmessage at h
  cases hclosing : s.closeing with
  | true =>
    rw [hclosing, if_pos rfl] at h
    exact .inl (Option.some.inj h).symm
  | false =>
    rw [hclosing, if_neg (by decide)] at h
    cases hout : (fmsg r.buffer).out with
    | crash =>
      rw [hout] at h
      cases h
    | done code nmsg =>
      rw [hout] at h
      dsimp only at h
      by_cases hone : code = 1
      · subst hone
        obtain ⟨bytes, rfl⟩ := fmsg_one hout
        rw [if_pos rfl, if_neg (by decide), Option.getD_some] at h
        cases hparse : parseString r.heap (textOf bytes) with
        | none =>
          rw [hparse] at h
          cases h
        | some p =>
          cases p with
          | overRead =>
            rw [hparse] at h
            cases h
          | done json cursor =>
            rw [hparse] at h
            cases json with
            | null => cases h
            | node key value child next =>
              refine .inr ⟨_, .message r hout hparse, ?_⟩
              rw [serverStep_message hexited hopen hhack hclosing]
              exact h
      · rw [if_neg hone] at h
        by_cases hminus : code = -1
        · rw [if_pos hminus] at h
          have hsocket : (s.slot r.slot).socket ≠ 0 := by
            unfold Server.connected at hopen
            simp only [Bool.and_eq_true, decide_eq_true_eq] at hopen
            exact hopen.1
          exact .inr ⟨_, .close r, (serverStep_close hexited hsocket).trans h⟩
        · rw [if_neg hminus] at h
          exact .inl (Option.some.inj h).symm

theorem hack_step (signKey : CStr → ℤ) {s t : Server} {r : Reception} (hexited : s.exited = false)
    (hopen : s.connected r.slot = true) (h : WebSocket.hack s r = some t) :
    t = s ∨ ∃ op, (WireOp.receive r).Yields op ∧ serverStep signKey s op = some t := by
  unfold WebSocket.hack at h
  cases hout : hack r.stack (received r.buffer 1024) with
  | silent =>
    rw [hout] at h
    exact .inl (Option.some.inj h).symm
  | pastEnd =>
    rw [hout] at h
    cases h
  | overflow =>
    rw [hout] at h
    cases h
  | answer accept upgrade =>
    rw [hout] at h
    exact .inr ⟨_, .handshake r, (serverStep_handshake hexited hopen).trans h⟩

theorem receive_step (signKey : CStr → ℤ) {s t : Server} {r : Reception} (h : WebSocket.receive s r = some t) :
    t = s ∨ ∃ op, (WireOp.receive r).Yields op ∧ serverStep signKey s op = some t := by
  unfold WebSocket.receive at h
  split_ifs at h with hgone hshort hclosed hhack
  · simp only [not_or, Bool.not_eq_true] at hgone
    exact .inr ⟨_, .close r, (serverStep_close hgone.1 hgone.2).trans h⟩
  · simp only [not_or, Bool.not_eq_true] at hgone
    have hopen : s.connected r.slot = true := by simp [Server.connected, hgone.2, hclosed]
    exact onmessage_step signKey hgone.1 hopen hhack h
  · simp only [not_or, Bool.not_eq_true] at hgone
    have hopen : s.connected r.slot = true := by simp [Server.connected, hgone.2, hclosed]
    exact hack_step signKey hgone.1 hopen h

/-- Whatever bytes the connections bring, as long as no step reads outside its data the server goes through steps of the
message level only. -/
theorem bytes_refine_messages {signKey : CStr → ℤ} {okw : Server → WireOp → Prop} {ok : Server → Op → Prop}
    {s₀ s : Server} (hok : ∀ s w op, okw s w → w.Yields op → ok s op) (hrun : Reach (wireStep signKey) okw s₀ s) :
    Reach (serverStep signKey) ok s₀ s := by
  refine hrun.invariant .start ?_
  intro s w t hs hw ht
  cases w with
  | receive r =>
    rcases receive_step signKey ht with rfl | ⟨op, hyields, hstep⟩
    · exact hs
    · exact hs.step (hok s _ op hw hyields) hstep
  | other op =>
    simp only [wireStep] at ht
    split_ifs at ht
    exact hs.step (hok s _ op hw (.other op)) ht

structure Spoken where
  slot : Slot
  fin : Bool
  opcode : BitVec 4
  mask : ℕ → Byte
  tree : Members
  stack : ℕ → Byte
  more : Bool
  heap : ℕ → Option Char
  now : ℤ
  time : ℚ
  rand : ℕ → ℕ

def Spoken.reception (m : Spoken) : Reception where
  slot := m.slot
  chunk := clientFrame m.fin m.opcode m.mask m.tree.printed.encoded
  stack := m.stack
  more := m.more
  heap := m.heap
  now := m.now
  time := m.time
  rand := m.rand

structure Spoken.Sayable (m : Spoken) : Prop where
  opcode : m.opcode ≠ 8
  key : m.tree ≠ .nil
  reads : m.tree.Reads false 0
  plain : CStr.Plain m.tree.printed
  short : m.tree.printed.length < 256
  not_long : m.tree.printed.length ≠ 127

theorem textOf_encoded {s : CStr} (h : CStr.Plain s) : textOf (s.encoded ++ [0]) = s := by
  unfold textOf
  rw [cString_append h.encoded, CStr.encoded, List.map_map]
  have hback : ∀ c ∈ s, ((fun b : Byte => Char.ofNat b.toNat) ∘ fun c : Char => BitVec.ofNat 8 c.toNat) c = c := by
    intro c hc
    have hlt := (CStr.plain_iff.mp h c hc).2
    rw [Function.comp_apply, BitVec.toNat_ofNat, Nat.mod_eq_of_lt (by omega), Char.ofNat_toNat]
  exact (List.map_congr_left hback).trans (List.map_id s)

theorem runBuffer_holds {stack : ℕ → Byte} {chunk : List Byte} {more : Bool} (h : chunk.length < 1023) :
    Holds (runBuffer stack chunk more) chunk := by
  intro i hi
  unfold runBuffer
  rw [if_neg (by omega), if_neg (by omega), List.getElem?_eq_getElem hi, Option.getD_some]

theorem Spoken.Sayable.chunk {m : Spoken} (h : m.Sayable) :
    6 ≤ m.reception.chunk.length ∧ m.reception.chunk.length < 1023 := by
  have hlen : m.tree.printed.encoded.length = m.tree.printed.length := List.length_map _
  have hshort := h.short
  simp only [Spoken.reception, clientFrame_length, hlen]
  unfold frameLength
  split_ifs
  · simp only [List.length_singleton]
    have hbraces : 2 ≤ m.tree.printed.length := by simp [Members.printed]
    omega
  · simp only [List.length_cons, List.length_nil]
    omega

theorem decoded_below {fin : Bool} {opcode : BitVec 4} {mask : ℕ → Byte} {payload : List Byte} {msg : ℕ → Byte}
    (hpos : 1 ≤ payload.length) (hlt : payload.length < 256) (hne : payload.length ≠ 127) (hop : opcode ≠ 8)
    (hmsg : Holds msg (clientFrame fin opcode mask payload)) : (fmsg msg).out = .done 1 (some (payload ++ [0])) := by
  obtain ⟨hat, hlen⟩ := frameAt_of_holds hmsg
  by_cases hn : payload.length < 126
  · have h1 := frameLength_short hn hlen
    have hone : (frameLength payload.length).length = 1 := by simp [frameLength, hn]
    have hstart : (lenStart msg).len.toNat = payload.length := by
      rw [lenStart_toNat, h1]
      omega
    rw [fmsg_body hat hop (by omega), len16_short (by omega), len64_short (by omega)]
    rw [hone] at hat
    exact decode_short hat rfl hstart (by omega)
  · obtain ⟨h1, h2, h3⟩ := frameLength_long hn (by omega) hlen
    have hthree : (frameLength payload.length).length = 3 := by simp [frameLength, hn]
    rw [hthree] at hat
    obtain ⟨hlen16, hpos16, -⟩ := len16_start (show (msg 1).toNat % 128 = 126 by omega)
    rw [show signPart (msg 2) 0xff00 = 0 from if_pos (by omega), h3, zero_add] at hlen16
    rw [fmsg_body hat hop (by omega), len64_short (by omega)]
    exact decode_short hat hpos16 (by omega) (by omega)

theorem Spoken.Sayable.decoded {m : Spoken} (h : m.Sayable) :
    (fmsg m.reception.buffer).out = .done 1 (some (m.tree.printed.encoded ++ [0])) := by
  have hlen : m.tree.printed.encoded.length = m.tree.printed.length := List.length_map _
  have hbraces : 2 ≤ m.tree.printed.length := by simp [Members.printed]
  have hshort := h.short
  have hnot : m.tree.printed.encoded.length ≠ 127 := fun h127 => h.not_long (hlen.symm.trans h127)
  exact decoded_below (by omega) (by omega) hnot h.opcode (runBuffer_holds h.chunk.2)

theorem Spoken.Sayable.dispatched {m : Spoken} (h : m.Sayable) {s : Server} (hexited : s.exited = false)
    (hopen : s.connected m.slot = true) (hhack : (s.slot m.slot).hack = true) (hclosing : s.closeing = false) :
    WebSocket.receive s m.reception = Entry.dispatch s m.slot m.tree.tree m.now m.time m.rand := by
  obtain ⟨cursor, hparse⟩ := reads_builds m.heap h.reads
  simp only [Server.connected, Bool.and_eq_true, decide_eq_true_eq] at hopen
  have hsix := h.chunk.1
  unfold WebSocket.receive
  rw [if_neg (by simp [hexited, Spoken.reception, hopen.1]), if_neg (by omega),
    if_neg (by simpa [Spoken.reception] using hopen.2), if_pos (by simpa [Spoken.reception] using hhack)]
  unfold WebSocket.onmessage
  rw [hclosing, if_neg (by decide), h.decoded]
  simp only [Option.getD_some, textOf_encoded h.plain, if_true]
  have hheap : m.reception.heap = m.heap := rfl
  rw [hheap, hparse]
  have hkey := h.key
  revert hkey
  cases m.tree with
  | nil => exact fun hkey => absurd rfl hkey
  | leaf => exact fun _ => rfl
  | object => exact fun _ => rfl

/-- What a client or a thread does next: a handshake, a message, or a step that no client's bytes are behind. -/
inductive Said
  | greeting (r : Reception)
  | message (m : Spoken)
  | other (op : Op)

def Said.wire : Said → WireOp
  | .greeting r => .receive r
  | .message m => .receive m.reception
  | .other op => .other op

def Said.op : Said → Op
  | .greeting r => .handshake r.slot
  | .message m => .message m.slot m.tree.tree m.now m.time m.rand
  | .other op => op

def Said.Sayable : Said → Prop
  | .greeting r => 6 ≤ r.chunk.length ∧ ∃ accept upgrade, hack r.stack (received r.buffer 1024) = .answer accept upgrade
  | .message m => m.Sayable
  | .other op => op.fromClient = false

/-- A handshake is the first thing on its connection. -/
def firstGreeting (s : Server) : Op → Bool
  | .handshake i => !(s.slot i).hack
  | _ => true

theorem said_step {signKey : CStr → ℤ} {x : Said} (h : x.Sayable) {s t : Server}
    (hfirst : firstGreeting s x.op = true) (ht : serverStep signKey s x.op = some t) :
    wireStep signKey s x.wire = some t := by
  have hexited : s.exited = false := by
    unfold serverStep at ht
    split_ifs at ht with hexited
    simpa using hexited
  cases x with
  | greeting r =>
    obtain ⟨hsix, accept, upgrade, hanswer⟩ := h
    simp only [Said.op, serverStep, hexited, Bool.false_eq_true, if_false] at ht
    split_ifs at ht with hopen
    simp only [Server.connected, Bool.and_eq_true, decide_eq_true_eq] at hopen
    have hhack : (s.slot r.slot).hack = false := by simpa [Said.op, firstGreeting] using hfirst
    simp only [Said.wire, wireStep, WebSocket.receive]
    rw [if_neg (by simp [hexited, hopen.1]), if_neg (by omega), if_neg (by simpa using hopen.2),
      if_neg (by simp [hhack])]
    unfold WebSocket.hack
    rw [hanswer]
    exact ht
  | message m =>
    simp only [Said.op, serverStep, hexited, Bool.false_eq_true, if_false] at ht
    split_ifs at ht with hopen
    exact (Spoken.Sayable.dispatched h hexited hopen.1 hopen.2.1 hopen.2.2).trans ht
  | other op =>
    have hother : op.fromClient = false := h
    simp only [Said.wire, wireStep, hother, Bool.false_eq_true, if_false]
    exact ht

theorem said_run {signKey : CStr → ℤ} {l : List Said} (h : ∀ x ∈ l, x.Sayable) {s t : Server}
    (hrun : runIf (serverStep signKey) firstGreeting s (l.map Said.op) = some t) :
    runIf (wireStep signKey) (fun _ _ => true) s (l.map Said.wire) = some t := by
  induction l generalizing s with
  | nil => exact hrun
  | cons x l ih =>
    rw [List.map_cons, runIf] at hrun ⊢
    split_ifs at hrun with hfirst
    obtain ⟨u, hu, hrest⟩ := Option.bind_eq_some_iff.mp hrun
    rw [if_pos rfl, said_step (h x List.mem_cons_self) hfirst hu, Option.bind_some]
    exact ih (fun y hy => h y (List.mem_cons_of_mem x hy)) hrest

theorem op_unquoted : ∀ q ∈ (none : Option Char), isQuote q = true := by
  intro q hq
  cases hq

theorem op_ne : ['o', 'p'] ≠ [] := List.cons_ne_nil _ _

theorem op_plain : ∀ c ∈ ['o', 'p'], isQuote c = false ∧ c ≠ ' ' ∧ c ≠ ':' ∧ c ≠ '\\' := by
  intro c hc
  rcases List.mem_pair.mp hc with rfl | rfl
  · decide
  · decide

theorem hi_ne : ['h', 'i'] ≠ [] := List.cons_ne_nil _ _

theorem single_quoted : isQuote '\'' = true := rfl

def helloTree : Members :=
  .leaf {
    before := 0
    quote := none
    key := ['o', 'p']
    afterKey := 0
    afterColon := 0
    quote_mark := op_unquoted
    key_ne := op_ne
    key_plain := op_plain } (.str '\'' ['h', 'i'] single_quoted hi_ne) 0 .nil

def hello (i : Slot) : Spoken := ⟨i, true, 1, fun _ => 7, helloTree, fun _ => 0, false, fun _ => none, 0, 0, fun _ => 0⟩

def greeted : Server :=
  { Server.start 1 (fun _ => Room.zero) [] (fun _ => ⟨0, 0, [], [], ⟨false, false, false⟩⟩) with
    slot := fun _ => { Player.zero with socket := 5, hack := true }
    sockets := [5] }

theorem hello_sayable : (hello 0).Sayable where
  opcode := by decide
  key := fun h => by cases h
  reads := ⟨by simp [Head.opens], by simp [Leaf.closes], trivial⟩
  plain := by decide
  short := by decide
  not_long := by decide

theorem hello_dispatched (signKey : CStr → ℤ) : serverStep signKey greeted (.message 0 helloTree.tree 0 0 fun _ => 0) =
    some greeted := by
  have hopen : greeted.connected 0 = true := by decide
  have hop : helloTree.tree.value "op".toList = some ['h', 'i'] := by decide
  rw [serverStep_message rfl hopen rfl rfl]
  unfold Entry.dispatch
  rw [hop]
  rfl

theorem hello_said : runIf (wireStep fun _ => 0) (fun _ _ => true) greeted ([.message (hello 0)].map Said.wire) =
    some greeted :=
  said_run (fun x hx => by
    obtain rfl := List.mem_singleton.mp hx
    exact hello_sayable) (by
    have hstep : serverStep (fun _ => 0) greeted (Said.op (.message (hello 0))) = some greeted := hello_dispatched _
    have hfirst : firstGreeting greeted (Said.op (.message (hello 0))) = true := rfl
    rw [List.map_singleton, runIf, if_pos hfirst, hstep]
    rfl)

theorem hello_refined : Reach (serverStep fun _ => 0) (fun _ _ => True) greeted greeted := by
  have hstep : wireStep (fun _ => 0) greeted (.receive (hello 0).reception) = some greeted :=
    (hello_sayable.dispatched rfl (by decide) rfl rfl).trans
      ((serverStep_message rfl (by decide) rfl rfl _ _ _ _).symm.trans (hello_dispatched fun _ => 0))
  have hrun : Reach (wireStep fun _ => 0) (fun _ _ => True) greeted greeted := .step .start trivial hstep
  exact bytes_refine_messages (fun _ _ _ _ _ => trivial) hrun

end FishServer
