import FishServer.Lib.WsFrame
import FishServer.Lib.Interleave

namespace WsFrame

open Interleave

/-! Messages in one or more frames, as a client puts them together. -/

structure Message where
  opcode : BitVec 4
  text : List Byte
deriving DecidableEq

def accept (pending : Option Message) (f : Frame) : Option (List Message × Option Message) :=
  if f.rsv ≠ 0 ∨ f.mask ≠ none then none
  else if 8 ≤ f.opcode.toNat then
    if f.fin = true ∧ f.payload.length ≤ 125 then some ([], pending) else none
  else
    match pending with
    | none =>
      if f.opcode = 0 then none
      else if f.fin then some ([⟨f.opcode, f.payload⟩], none)
      else some ([], some ⟨f.opcode, f.payload⟩)
    | some m =>
      if f.opcode ≠ 0 then none
      else if f.fin then some ([⟨m.opcode, m.text ++ f.payload⟩], none)
      else some ([], some ⟨m.opcode, m.text ++ f.payload⟩)

def receive : Option Message → List Frame → Option (List Message × Option Message)
  | pending, [] => some ([], pending)
  | pending, f :: fs =>
    (accept pending f).bind (fun r => (receive r.2 fs).map (fun q => (r.1 ++ q.1, q.2)))

def decodeAll : ℕ → List Byte → Option (List Frame)
  | _, [] => some []
  | 0, _ :: _ => none
  | n + 1, b :: l => (decode (b :: l)).bind (fun r => (decodeAll n r.2).map (fun fs => r.1 :: fs))

def decodeStream (l : List Byte) : Option (List Frame) := decodeAll l.length l

def plain (fin : Bool) (opcode : BitVec 4) (payload : List Byte) : Frame := ⟨fin, 0, opcode, none, payload⟩

/-- A message of a data opcode, cut into the pieces that its frames carry. -/
structure Pieces where
  opcode : BitVec 4
  first : List Byte
  rest : List (List Byte)
  isData : opcode ≠ 0 ∧ opcode.toNat < 8

def continued : List (List Byte) → List Frame
  | [] => []
  | c :: cs => plain cs.isEmpty 0 c :: continued cs

def Pieces.frames (m : Pieces) : List Frame := plain m.rest.isEmpty m.opcode m.first :: continued m.rest

def Pieces.message (m : Pieces) : Message := ⟨m.opcode, m.first ++ m.rest.flatten⟩

theorem accept_first (m : Pieces) : accept none (plain m.rest.isEmpty m.opcode m.first) =
    some (if m.rest = [] then ([⟨m.opcode, m.first⟩], none) else ([], some ⟨m.opcode, m.first⟩)) := by
  have hop : ¬ m.opcode = 0#4 := m.isData.1
  have hlow : ¬ 8 ≤ m.opcode.toNat := Nat.not_le.mpr m.isData.2
  unfold accept plain
  cases hrest : m.rest with
  | nil => simp [hlow, hop]
  | cons c cs => simp [hlow, hop]

theorem accept_next (p : Message) (c : List Byte) (cs : List (List Byte)) :
    accept (some p) (plain cs.isEmpty 0 c) =
      some (if cs = [] then ([⟨p.opcode, p.text ++ c⟩], none) else ([], some ⟨p.opcode, p.text ++ c⟩)) := by
  unfold accept plain
  cases cs with
  | nil => simp
  | cons c' cs => simp

theorem accept_other (p : Message) (m : Pieces) : accept (some p) (plain m.rest.isEmpty m.opcode m.first) = none := by
  have hop : ¬ m.opcode = 0#4 := m.isData.1
  have hlow : ¬ 8 ≤ m.opcode.toNat := Nat.not_le.mpr m.isData.2
  simp [accept, plain, hlow, hop]

theorem receive_continued (p : Message) (c : List Byte) (cs : List (List Byte)) (l : List Frame) :
    receive (some p) (continued (c :: cs) ++ l) =
      (receive none l).map (fun q => (⟨p.opcode, p.text ++ (c :: cs).flatten⟩ :: q.1, q.2)) := by
  induction cs generalizing p c with
  | nil =>
    have hflat : [c].flatten = c := by simp
    rw [continued, continued, List.cons_append, List.nil_append, receive, accept_next, if_pos rfl, Option.bind_some,
      hflat]
    rfl
  | cons c' cs ih =>
    have hne : ¬ c' :: cs = [] := List.cons_ne_nil c' cs
    rw [continued, List.cons_append, receive, accept_next, if_neg hne, Option.bind_some, ih, Option.map_map]
    congr 1
    funext q
    simp [List.append_assoc]

theorem receive_frames (m : Pieces) (l : List Frame) :
    receive none (m.frames ++ l) = (receive none l).map (fun q => (m.message :: q.1, q.2)) := by
  rw [Pieces.frames, List.cons_append, receive, accept_first]
  cases hrest : m.rest with
  | nil =>
    have hmsg : m.message = ⟨m.opcode, m.first⟩ := by simp [Pieces.message, hrest]
    rw [if_pos rfl, Option.bind_some, hmsg]
    rfl
  | cons c cs =>
    have hne : ¬ c :: cs = [] := List.cons_ne_nil c cs
    rw [if_neg hne, Option.bind_some, receive_continued, Option.map_map]
    congr 1
    funext q
    simp [Pieces.message, hrest]

theorem receive_all (ms : List Pieces) :
    receive none (ms.flatMap Pieces.frames) = some (ms.map Pieces.message, none) := by
  induction ms with
  | nil => rfl
  | cons m ms ih =>
    rw [List.flatMap_cons, receive_frames, ih]
    rfl

theorem decodeAll_encode {fs : List (Bool × BitVec 4 × List Byte)} {n : ℕ} (hn : fs.length ≤ n)
    (hfs : ∀ f ∈ fs, f.2.2.length < 2 ^ 63) :
    decodeAll n (fs.flatMap (fun f => encode f.1 f.2.1 f.2.2)) = some (fs.map (fun f => plain f.1 f.2.1 f.2.2)) := by
  induction fs generalizing n with
  | nil => cases n <;> rfl
  | cons f fs ih =>
    cases n with
    | zero => simp at hn
    | succ n =>
      have hrest := ih (n := n) (by simpa using hn) (fun g hg => hfs g (List.mem_cons_of_mem f hg))
      have hdecode := decode_encode f.1 f.2.1 (hfs f List.mem_cons_self)
        (fs.flatMap (fun f => encode f.1 f.2.1 f.2.2))
      rw [List.flatMap_cons]
      obtain ⟨b, l, hbytes⟩ : ∃ b l, encode f.1 f.2.1 f.2.2 ++ fs.flatMap (fun f => encode f.1 f.2.1 f.2.2) = b :: l :=
        ⟨_, _, rfl⟩
      rw [hbytes] at hdecode ⊢
      rw [decodeAll, hdecode, Option.bind_some, hrest]
      rfl

theorem length_le_encode (fs : List (Bool × BitVec 4 × List Byte)) :
    fs.length ≤ (fs.flatMap (fun f => encode f.1 f.2.1 f.2.2)).length := by
  induction fs with
  | nil => rfl
  | cons f fs ih =>
    have hone : 1 ≤ (encode f.1 f.2.1 f.2.2).length := by
      rw [encode, List.length_cons]
      omega
    rw [List.flatMap_cons, List.length_append, List.length_cons]
    omega

theorem decodeStream_encode {fs : List (Bool × BitVec 4 × List Byte)} (hfs : ∀ f ∈ fs, f.2.2.length < 2 ^ 63) :
    decodeStream (fs.flatMap (fun f => encode f.1 f.2.1 f.2.2)) = some (fs.map (fun f => plain f.1 f.2.1 f.2.2)) :=
  decodeAll_encode (length_le_encode fs) hfs

variable {ι : Type*} [DecidableEq ι]

theorem flatMap_frames_nil {ms : List Pieces} (h : ms.flatMap Pieces.frames = []) : ms = [] := by
  cases ms with
  | nil => rfl
  | cons m ms => cases h

theorem rest_comes_next {senders : ι → List Pieces} {i : ι} {ms : List Pieces} {cs : List (List Byte)} {p : Message}
    {l : List Frame} {r : List Message × Option Message} (hr : r.2 = none)
    (hl : Interleaves (Function.update (fun j => (senders j).flatMap Pieces.frames) i
      (continued cs ++ ms.flatMap Pieces.frames)) l)
    (hreceive : receive (if cs = [] then none else some p) l = some r) :
    ∃ l' r', l = continued cs ++ l' ∧ r'.2 = none ∧ receive none l' = some r' ∧
      Interleaves (fun j => (Function.update senders i ms j).flatMap Pieces.frames) l' := by
  induction cs generalizing p l r with
  | nil =>
    rw [update_apply (fun k => k.flatMap Pieces.frames)]
    exact ⟨l, r, rfl, hr, hreceive, hl⟩
  | cons c cs ih =>
    cases l with
    | nil =>
      have hempty := nil_iff.mp hl i
      rw [Function.update_self] at hempty
      cases hempty
    | cons g l =>
      rw [if_neg (List.cons_ne_nil c cs), receive] at hreceive
      obtain ⟨a, haccept, hreceive⟩ := Option.bind_eq_some_iff.mp hreceive
      obtain ⟨q, hq, rfl⟩ := Option.map_eq_some_iff.mp hreceive
      obtain ⟨j, rest, hj, hl⟩ := cons_iff.mp hl
      by_cases hij : j = i
      · subst hij
        rw [Function.update_self, continued, List.cons_append] at hj
        obtain ⟨rfl, rfl⟩ := List.cons.inj hj
        rw [accept_next] at haccept
        rw [Function.update_idem] at hl
        obtain rfl := Option.some.inj haccept
        obtain ⟨l', r', rfl, hr', hreceive', hl'⟩ := ih (p := ⟨p.opcode, p.text ++ c⟩) (r := q) hr hl (by
          split_ifs at hq ⊢ with hcs
          · exact hq
          · exact hq)
        exact ⟨l', r', rfl, hr', hreceive', hl'⟩
      · rw [Function.update_of_ne hij] at hj
        cases hs : senders j with
        | nil =>
          rw [hs] at hj
          cases hj
        | cons m rest' =>
          rw [hs, List.flatMap_cons, Pieces.frames, List.cons_append] at hj
          obtain ⟨rfl, -⟩ := List.cons.inj hj
          rw [accept_other] at haccept
          cases haccept

/-- However the frames of several senders are interleaved, a client puts messages together exactly when whole messages
are. -/
theorem receive_interleaved {senders : ι → List Pieces} {l : List Frame}
    (hl : Interleaves (fun i => (senders i).flatMap Pieces.frames) l) :
    (∃ got, receive none l = some (got, none)) ↔
      ∃ ms, Interleaves senders ms ∧ ms.flatMap Pieces.frames = l := by
  constructor
  · rintro ⟨got, hgot⟩
    induction hn : l.length using Nat.strong_induction_on generalizing senders l got with
    | _ n ih =>
      cases l with
      | nil =>
        refine ⟨[], .nil ?_, rfl⟩
        intro i
        exact flatMap_frames_nil (nil_iff.mp hl i)
      | cons f l =>
        obtain ⟨i, rest, hi, hl⟩ := cons_iff.mp hl
        cases hs : senders i with
        | nil =>
          rw [hs] at hi
          cases hi
        | cons m ms =>
          rw [hs, List.flatMap_cons, Pieces.frames, List.cons_append] at hi
          obtain ⟨rfl, rfl⟩ := List.cons.inj hi
          rw [receive] at hgot
          obtain ⟨a, haccept, hgot⟩ := Option.bind_eq_some_iff.mp hgot
          obtain ⟨q, hq, heq⟩ := Option.map_eq_some_iff.mp hgot
          rw [accept_first] at haccept
          obtain rfl := Option.some.inj haccept
          obtain ⟨l', r', rfl, hr', hreceive', hl'⟩ := rest_comes_next (p := ⟨m.opcode, m.first⟩) (r := q)
            (congrArg Prod.snd heq) hl (by
              split_ifs at hq ⊢ with hrest
              · exact hq
              · exact hq)
          have hshort : l'.length < n := by
            rw [← hn, List.length_cons, List.length_append]
            omega
          obtain ⟨ks, hks, rfl⟩ := ih l'.length hshort hl' r'.1 (by rw [hreceive', ← hr']) rfl
          refine ⟨m :: ks, .cons hs hks, ?_⟩
          rw [List.flatMap_cons, Pieces.frames, List.cons_append]
  · rintro ⟨ms, -, rfl⟩
    exact ⟨_, receive_all ms⟩

end WsFrame
