import FishServer.ForcedLogin
import FishServer.IdleTimeout
import FishServer.Receive
import FishServer.Winnings

namespace FishServer

open Transition

/-! `WebSocket::run` with its two loops over the slots. The other threads may act between any two of their steps. -/

/-- What the second loop makes of a connection. One that was ready has `gone` when another thread has closed it before
the loop came to it. -/
inductive Treatment
  | gone
  | unread
  | hungUp
  | broken
  | short
  | answered
deriving DecidableEq

-- none is for an error, nothing for a connection that was closed
def recvRet (answer : Option (List Byte)) : ℤ := answer.elim (-1) (fun chunk => chunk.length)

def treatmentOf (ret : ℤ) : Treatment :=
  if ret = 0 then .hungUp else if ret = -1 then .broken else if ret < 6 then .short else .answered

/-- What one `select` leads to, which no function reads: its answer, the slots that were ready, and the slots that the
second loop came to, the last one first. -/
structure Turn where
  selected : ℤ
  ready : Slot → Bool
  visits : List (Slot × Treatment)

/-- In the first loop, or in the second one, where `ret` is what `select` or the last `recv` returned. -/
inductive RunPlace
  | asking (cursor : ℕ)
  | serving (cursor : ℕ) (ret : ℤ)

structure RunLoop where
  server : Server
  place : RunPlace
  fdread : List ℕ
  turn : Turn
  turns : List Turn

inductive LoopOp
  | onread (i : Slot) (o : Timeouts) (now : ℤ)
  | select (ret : ℤ) (ready : List ℕ)
  | visit (r : Reception) (answer : Option (List Byte)) (reset : Bool)
  | again
  | other (op : Op)

def Op.elsewhere : Op → Bool
  | .handshake _ => false
  | .message .. => false
  | .close _ => false
  | _ => true

def Reception.answering (r : Reception) (answer : Option (List Byte)) : Reception := { r with chunk := answer.getD [] }

namespace RunLoop

def start (s : Server) : RunLoop := ⟨s, .asking 0, [], ⟨0, fun _ => false, []⟩, []⟩

def note (l : RunLoop) (i : Slot) (x : Treatment) : RunLoop :=
  { l with turn := { l.turn with visits := (i, x) :: l.turn.visits } }

-- after the second loop, or where it is left, `fdread` is made anew
def done (l : RunLoop) : RunLoop := { l with place := .asking 0, fdread := [], turns := l.turn :: l.turns }

def isSet (l : RunLoop) (i : Slot) : Bool :=
  decide ((l.server.slot i).socket ≠ 0) && decide ((l.server.slot i).socket ∈ l.fdread)

def visit (l : RunLoop) (cursor : ℕ) (ret : ℤ) (r : Reception) (answer : Option (List Byte)) (reset : Bool) :
    Option RunLoop :=
  if l.isSet r.slot = false then
    let next := { l with place := .serving (cursor + 1) ret }
    some (if l.turn.ready r.slot then next.note r.slot .gone else next)
  else if ret = 0 ∨ (ret = -1 ∧ reset = true) then
    some ({ l with server := l.server.drop r.slot, place := .serving (cursor + 1) ret }.note r.slot .unread)
  else (WebSocket.receive l.server (r.answering answer)).map (fun server =>
    if recvRet answer < 6 then
      { l with server, place := .serving (cursor + 1) (recvRet answer) }.note r.slot (treatmentOf (recvRet answer))
    else ({ l with server }.note r.slot .answered).done)

/-- None is for a step that cannot be taken, or that ends the program. -/
def step (signKey : CStr → ℤ) (l : RunLoop) : LoopOp → Option RunLoop
  | .onread i o now =>
    match l.place with
    | .asking cursor =>
      if i.val ≠ cursor ∨ l.server.exited then none
      else if (l.server.slot i).socket = 0 then some { l with place := .asking (cursor + 1) }
      else if onread o now (l.server.slot i) then
        some { l with place := .asking (cursor + 1), fdread := (l.server.slot i).socket :: l.fdread }
      else some { l with server := l.server.drop i, place := .asking (cursor + 1) }
    | .serving .. => none
  | .select ret ready =>
    match l.place with
    | .asking cursor =>
      if cursor = 1024 ∧ ∀ x ∈ ready, x ∈ l.fdread then
        if ret = 0 then some { l with place := .asking 0, fdread := [] }
        else
          some { l with
            place := .serving 0 ret
            fdread := ready
            turn := ⟨ret, { l with fdread := ready }.isSet, []⟩ }
      else none
    | .serving .. => none
  | .visit r answer reset =>
    match l.place with
    | .asking _ => none
    | .serving cursor ret =>
      if r.slot.val ≠ cursor ∨ l.server.exited then none else l.visit cursor ret r answer reset
  | .again =>
    match l.place with
    | .asking _ => none
    | .serving cursor _ => if cursor = 1024 then some l.done else none
  | .other op =>
    if op.elsewhere then (serverStep signKey l.server op).map (fun server => { l with server }) else none

end RunLoop

inductive LoopOp.Yields : LoopOp → WireOp → Prop
  | onread (i : Slot) (o : Timeouts) (now : ℤ) : Yields (.onread i o now) (.other (.close i))
  | visit (r : Reception) (answer : Option (List Byte)) (reset : Bool) :
      Yields (.visit r answer reset) (.receive (r.answering answer))
  | unread (r : Reception) (answer : Option (List Byte)) (reset : Bool) :
      Yields (.visit r answer reset) (.other (.close r.slot))
  | other (op : Op) : Yields (.other op) (.other op)

structure Turn.Fair (t : Turn) : Prop where
  order : t.visits.Pairwise (fun v w => w.1 < v.1)
  met : ∀ i, t.ready i = true → (∃ x, (i, x) ∈ t.visits) ∨ ∃ j < i, (j, Treatment.answered) ∈ t.visits
  last : ∀ j, (j, Treatment.answered) ∈ t.visits → ∀ v ∈ t.visits, v.1 ≤ j
  unread : ∀ j, (j, Treatment.unread) ∈ t.visits →
    t.selected = -1 ∨ ∃ i < j, (i, Treatment.hungUp) ∈ t.visits ∨ (i, Treatment.broken) ∈ t.visits
  after : ∀ i j x, (i, Treatment.hungUp) ∈ t.visits → (j, x) ∈ t.visits → i < j → x = .unread ∨ x = .gone

structure Turn.Going (t : Turn) (cursor : ℕ) (ret : ℤ) : Prop where
  below : ∀ v ∈ t.visits, v.1.val < cursor
  order : t.visits.Pairwise (fun v w => w.1 < v.1)
  met : ∀ i, t.ready i = true → i.val < cursor → ∃ x, (i, x) ∈ t.visits
  unanswered : ∀ v ∈ t.visits, v.2 ≠ .answered
  hung : (∃ i, (i, Treatment.hungUp) ∈ t.visits) ↔ ret = 0
  broke : ret = -1 → t.selected = -1 ∨ ∃ i, (i, Treatment.broken) ∈ t.visits
  unread : ∀ j, (j, Treatment.unread) ∈ t.visits →
    t.selected = -1 ∨ ∃ i < j, (i, Treatment.hungUp) ∈ t.visits ∨ (i, Treatment.broken) ∈ t.visits
  after : ∀ i j x, (i, Treatment.hungUp) ∈ t.visits → (j, x) ∈ t.visits → i < j → x = .unread ∨ x = .gone

structure RunLoop.Sound (l : RunLoop) : Prop where
  going : ∀ cursor ret, l.place = .serving cursor ret → l.turn.Going cursor ret
  fair : ∀ t ∈ l.turns, t.Fair

section

variable {t : Turn} {cursor : ℕ} {ret ret' : ℤ} {i : Slot} {x : Treatment}

theorem going_start (ready : Slot → Bool) (h : ret ≠ 0) : Turn.Going ⟨ret, ready, []⟩ 0 ret where
  below := fun _ hv => absurd hv List.not_mem_nil
  order := List.Pairwise.nil
  met := fun _ _ hi => absurd hi (Nat.not_lt_zero _)
  unanswered := fun _ hv => absurd hv List.not_mem_nil
  hung := iff_of_false (fun ⟨_, hi⟩ => absurd hi List.not_mem_nil) h
  broke := fun hret => .inl hret
  unread := fun _ hj => absurd hj List.not_mem_nil
  after := fun _ _ _ hi => absurd hi List.not_mem_nil

theorem Turn.Going.pass (h : t.Going cursor ret) (hi : i.val = cursor) (hr : t.ready i = false) :
    t.Going (cursor + 1) ret where
  below := fun v hv => Nat.lt_succ_of_lt (h.below v hv)
  order := h.order
  met := by
    intro j hj hlt
    apply h.met j hj
    have hne : j.val ≠ cursor := by
      intro he
      rw [Fin.ext (he.trans hi.symm), hr] at hj
      cases hj
    omega
  unanswered := h.unanswered
  hung := h.hung
  broke := h.broke
  unread := h.unread
  after := h.after

theorem Turn.Going.order_cons (h : t.Going cursor ret) (hi : i.val = cursor) :
    ((i, x) :: t.visits).Pairwise (fun v w => w.1 < v.1) := by
  refine List.pairwise_cons.mpr ⟨?_, h.order⟩
  intro v hv
  exact Fin.lt_def.mpr (hi ▸ h.below v hv)

theorem Turn.Going.unread_cons (h : t.Going cursor ret) (hi : i.val = cursor)
    (hx : x = .unread → ret = 0 ∨ ret = -1) (j : Slot) (hj : (j, Treatment.unread) ∈ (i, x) :: t.visits) :
    t.selected = -1 ∨ ∃ k < j, (k, Treatment.hungUp) ∈ (i, x) :: t.visits ∨
      (k, Treatment.broken) ∈ (i, x) :: t.visits := by
  have hbelow : ∀ k y, (k, y) ∈ t.visits → k < i := fun k y hk => Fin.lt_def.mpr (hi ▸ h.below (k, y) hk)
  rcases List.mem_cons.mp hj with heq | hold
  · obtain ⟨rfl, hxu⟩ := Prod.mk.inj heq
    rcases hx hxu.symm with hzero | hminus
    · obtain ⟨k, hk⟩ := h.hung.mpr hzero
      exact .inr ⟨k, hbelow k _ hk, .inl (List.mem_cons_of_mem _ hk)⟩
    · rcases h.broke hminus with hsel | ⟨k, hk⟩
      · exact .inl hsel
      · exact .inr ⟨k, hbelow k _ hk, .inr (List.mem_cons_of_mem _ hk)⟩
  · rcases h.unread j hold with hsel | ⟨k, hlt, hk⟩
    · exact .inl hsel
    · exact .inr ⟨k, hlt, hk.imp (List.mem_cons_of_mem _) (List.mem_cons_of_mem _)⟩

theorem Turn.Going.after_cons (h : t.Going cursor ret) (hi : i.val = cursor)
    (hx : ret = 0 → x = .unread ∨ x = .gone) (k j : Slot) (y : Treatment)
    (hk : (k, Treatment.hungUp) ∈ (i, x) :: t.visits) (hj : (j, y) ∈ (i, x) :: t.visits) (hlt : k < j) :
    y = .unread ∨ y = .gone := by
  rcases List.mem_cons.mp hj with heq | hold
  · obtain ⟨rfl, rfl⟩ := Prod.mk.inj heq
    rcases List.mem_cons.mp hk with hsame | hk
    · rw [(Prod.mk.inj hsame).1] at hlt
      exact absurd hlt (lt_irrefl _)
    · exact hx (h.hung.mp ⟨k, hk⟩)
  · rcases List.mem_cons.mp hk with hsame | hk
    · have hb := h.below _ hold
      rw [(Prod.mk.inj hsame).1, Fin.lt_def] at hlt
      simp only at hb
      omega
    · exact h.after k j y hk hold hlt

theorem Turn.Going.note (h : t.Going cursor ret) (hi : i.val = cursor) (hx : x ≠ .answered)
    (hret : ret' = 0 ↔ x = .hungUp ∨ ret = 0) (hbroke : ret' = -1 → ret = -1 ∨ x = .broken)
    (hunread : x = .unread → ret = 0 ∨ ret = -1) (hafter : ret = 0 → x = .unread ∨ x = .gone) :
    Turn.Going { t with visits := (i, x) :: t.visits } (cursor + 1) ret' where
  below := by
    intro v hv
    rcases List.mem_cons.mp hv with rfl | hv
    · exact Nat.lt_succ_of_le hi.le
    · exact Nat.lt_succ_of_lt (h.below v hv)
  order := h.order_cons hi
  met := by
    intro j hj hlt
    by_cases hij : j = i
    · exact ⟨x, hij ▸ List.mem_cons_self⟩
    · have hne : j.val ≠ cursor := fun he => hij (Fin.ext (he.trans hi.symm))
      obtain ⟨y, hy⟩ := h.met j hj (by omega)
      exact ⟨y, List.mem_cons_of_mem _ hy⟩
  unanswered := by
    intro v hv
    rcases List.mem_cons.mp hv with rfl | hv
    · exact hx
    · exact h.unanswered v hv
  hung := by
    rw [hret, ← h.hung]
    constructor
    · rintro ⟨j, hj⟩
      rcases List.mem_cons.mp hj with heq | hj
      · exact .inl (Prod.mk.inj heq).2.symm
      · exact .inr ⟨j, hj⟩
    · rintro (rfl | ⟨j, hj⟩)
      · exact ⟨i, List.mem_cons_self⟩
      · exact ⟨j, List.mem_cons_of_mem _ hj⟩
  broke := by
    intro hminus
    rcases hbroke hminus with hold | rfl
    · exact (h.broke hold).imp_right fun ⟨j, hj⟩ => ⟨j, List.mem_cons_of_mem _ hj⟩
    · exact .inr ⟨i, List.mem_cons_self⟩
  unread := h.unread_cons hi hunread
  after := h.after_cons hi hafter

theorem Turn.Going.finish (h : t.Going 1024 ret) : t.Fair where
  order := h.order
  met := fun i hi => .inl (h.met i hi i.isLt)
  last := fun _ hj => absurd rfl (h.unanswered _ hj)
  unread := h.unread
  after := h.after

theorem Turn.Going.answer (h : t.Going cursor ret) (hi : i.val = cursor) (hret : ret ≠ 0) :
    Turn.Fair { t with visits := (i, .answered) :: t.visits } where
  order := h.order_cons hi
  met := by
    intro j hj
    rcases lt_trichotomy j i with hlt | rfl | hlt
    · obtain ⟨y, hy⟩ := h.met j hj (hi ▸ Fin.lt_def.mp hlt)
      exact .inl ⟨y, List.mem_cons_of_mem _ hy⟩
    · exact .inl ⟨_, List.mem_cons_self⟩
    · exact .inr ⟨i, hlt, List.mem_cons_self⟩
  last := by
    intro j hj v hv
    have hij : j = i := by
      rcases List.mem_cons.mp hj with heq | hj
      · exact (Prod.mk.inj heq).1
      · exact absurd rfl (h.unanswered _ hj)
    rcases List.mem_cons.mp hv with rfl | hv
    · exact hij.ge
    · exact Fin.le_def.mpr (hij ▸ hi ▸ (h.below v hv).le)
  unread := h.unread_cons hi (fun hx => by cases hx)
  after := h.after_cons hi (fun hzero => absurd hzero hret)

end

section

variable {signKey : CStr → ℤ} {l m : RunLoop} {cursor : ℕ} {ret : ℤ} {r : Reception} {answer : Option (List Byte)}
  {reset : Bool} {op : LoopOp}

theorem treatmentOf_hungUp : treatmentOf ret = .hungUp ↔ ret = 0 := by
  unfold treatmentOf
  split_ifs <;> simp_all

theorem treatmentOf_ne (h : ret < 6) : treatmentOf ret ≠ .answered ∧ treatmentOf ret ≠ .unread := by
  unfold treatmentOf
  split_ifs <;> simp

theorem treatmentOf_minus : treatmentOf (-1) = .broken := rfl

theorem RunLoop.Sound.visit (h : l.Sound) (hplace : l.place = .serving cursor ret) (hi : r.slot.val = cursor)
    (hm : l.visit cursor ret r answer reset = some m) : m.Sound := by
  have hg := h.going cursor ret hplace
  unfold RunLoop.visit at hm
  split_ifs at hm with hgone hready hunread hshort
  · cases hm
    refine ⟨?_, h.fair⟩
    rintro _ _ ⟨⟩
    exact hg.note hi (by simp) (by simp) (fun hr => .inl hr) (by simp) (fun _ => .inr rfl)
  · cases hm
    refine ⟨?_, h.fair⟩
    rintro _ _ ⟨⟩
    exact hg.pass hi (by simpa using hready)
  · cases hm
    refine ⟨?_, h.fair⟩
    rintro _ _ ⟨⟩
    exact hg.note hi (by simp) (by simp) (fun hr => .inl hr) (fun _ => hunread.imp_right And.left) (fun _ => .inl rfl)
  · obtain ⟨server, -, rfl⟩ := Option.map_eq_some_iff.mp hm
    have hret : ret ≠ 0 := fun hzero => hunread (.inl hzero)
    refine ⟨?_, h.fair⟩
    rintro _ _ ⟨⟩
    refine hg.note hi (treatmentOf_ne hshort).1 ?_ ?_ (fun hx => absurd hx (treatmentOf_ne hshort).2)
      (fun hzero => absurd hzero hret)
    · rw [treatmentOf_hungUp, or_iff_left hret]
    · intro hminus
      rw [hminus]
      exact .inr treatmentOf_minus
  · obtain ⟨server, -, rfl⟩ := Option.map_eq_some_iff.mp hm
    refine ⟨fun _ _ hp => (by cases hp), ?_⟩
    intro t ht
    rcases List.mem_cons.mp ht with rfl | ht
    · exact hg.answer hi (fun hzero => hunread (.inl hzero))
    · exact h.fair t ht

theorem RunLoop.Sound.step (h : l.Sound) (hm : l.step signKey op = some m) : m.Sound := by
  cases op with
  | onread i o now =>
    rw [RunLoop.step] at hm
    split at hm
    · split_ifs at hm <;> cases hm <;> exact ⟨fun _ _ hp => (by cases hp), h.fair⟩
    · cases hm
  | select ret ready =>
    rw [RunLoop.step] at hm
    split at hm
    · split_ifs at hm with hok hret
      · cases hm
        exact ⟨fun _ _ hp => (by cases hp), h.fair⟩
      · cases hm
        refine ⟨?_, h.fair⟩
        rintro _ _ ⟨⟩
        exact going_start _ hret
    · cases hm
  | visit r answer reset =>
    rw [RunLoop.step] at hm
    split at hm
    · cases hm
    · next cursor ret hplace =>
      split_ifs at hm with hno
      simp only [not_or, not_not] at hno
      exact h.visit hplace hno.1 hm
  | again =>
    rw [RunLoop.step] at hm
    split at hm
    · cases hm
    · next cursor ret hplace =>
      split_ifs at hm with hend
      cases hm
      refine ⟨fun _ _ hp => (by cases hp), ?_⟩
      intro t ht
      rcases List.mem_cons.mp ht with rfl | ht
      · exact (h.going 1024 ret (hend ▸ hplace)).finish
      · exact h.fair t ht
  | other op =>
    rw [RunLoop.step] at hm
    split_ifs at hm
    obtain ⟨server, -, rfl⟩ := Option.map_eq_some_iff.mp hm
    exact ⟨h.going, h.fair⟩

theorem RunLoop.isSet_socket (l : RunLoop) {i : Slot} (h : ¬l.isSet i = false) : (l.server.slot i).socket ≠ 0 := by
  simp only [RunLoop.isSet, Bool.not_eq_false, Bool.and_eq_true, decide_eq_true_eq] at h
  exact h.1

theorem RunLoop.visit_refines (hexited : l.server.exited = false) (hm : l.visit cursor ret r answer reset = some m) :
    m.server = l.server ∨
      ∃ w, (LoopOp.visit r answer reset).Yields w ∧ wireStep signKey l.server w = some m.server := by
  unfold RunLoop.visit at hm
  split_ifs at hm with hgone hready hunread hshort
  · cases hm
    exact .inl rfl
  · cases hm
    exact .inl rfl
  · cases hm
    exact .inr ⟨_, .unread r answer reset, @serverStep_close signKey _ _ hexited (l.isSet_socket hgone)⟩
  · obtain ⟨server, hserver, rfl⟩ := Option.map_eq_some_iff.mp hm
    exact .inr ⟨_, .visit r answer reset, hserver⟩
  · obtain ⟨server, hserver, rfl⟩ := Option.map_eq_some_iff.mp hm
    exact .inr ⟨_, .visit r answer reset, hserver⟩

theorem RunLoop.step_refines (hm : l.step signKey op = some m) :
    m.server = l.server ∨ ∃ w, op.Yields w ∧ wireStep signKey l.server w = some m.server := by
  cases op with
  | onread i o now =>
    rw [RunLoop.step] at hm
    split at hm
    · split_ifs at hm with hno hfree hon
      · cases hm
        exact .inl rfl
      · cases hm
        exact .inl rfl
      · cases hm
        simp only [not_or, Bool.not_eq_true] at hno
        exact .inr ⟨_, .onread i o now, @serverStep_close signKey _ _ hno.2 hfree⟩
    · cases hm
  | select ret ready =>
    rw [RunLoop.step] at hm
    split at hm
    · split_ifs at hm
      · cases hm
        exact .inl rfl
      · cases hm
        exact .inl rfl
    · cases hm
  | visit r answer reset =>
    rw [RunLoop.step] at hm
    split at hm
    · cases hm
    · split_ifs at hm with hno
      simp only [not_or, Bool.not_eq_true] at hno
      exact RunLoop.visit_refines hno.2 hm
  | again =>
    rw [RunLoop.step] at hm
    split at hm
    · cases hm
    · split_ifs at hm
      cases hm
      exact .inl rfl
  | other op =>
    rw [RunLoop.step] at hm
    split_ifs at hm with helse
    obtain ⟨server, hserver, rfl⟩ := Option.map_eq_some_iff.mp hm
    refine .inr ⟨_, .other op, ?_⟩
    have hclient : op.fromClient = false := by
      cases op <;> first | rfl | cases helse
    rw [wireStep, hclient, if_neg Bool.false_ne_true]
    exact hserver

end

def noTimeouts : Timeouts := ⟨0, 0, 0⟩

theorem noTimeouts_ask (now : ℤ) (p : Player) : onread noTimeouts now p = true := by
  simp [onread, noTimeouts]

theorem asking_to {signKey : CStr → ℤ} {l : RunLoop} (hexited : l.server.exited = false) (hplace : l.place = .asking 0)
    {k : ℕ} (hk : k ≤ 1024) : ∃ fdread, (∀ i : Slot, i.val < k → (l.server.slot i).socket ≠ 0 →
      (l.server.slot i).socket ∈ fdread) ∧
        Reach (RunLoop.step signKey) (fun _ _ => True) l { l with place := .asking k, fdread } := by
  induction k with
  | zero =>
    refine ⟨l.fdread, fun i hi => absurd hi (Nat.not_lt_zero _), ?_⟩
    rw [← hplace]
    exact .start
  | succ k ih =>
    obtain ⟨fdread, hset, hrun⟩ := ih (Nat.le_of_succ_le hk)
    have hsame : ∀ i : Slot, i.val < k + 1 → i.val < k ∨ i = ⟨k, hk⟩ := by
      intro i hi
      rcases Nat.lt_succ_iff_lt_or_eq.mp hi with hlt | heq
      · exact .inl hlt
      · exact .inr (Fin.ext heq)
    by_cases hfree : (l.server.slot ⟨k, hk⟩).socket = 0
    · refine ⟨fdread, ?_, hrun.step (a := .onread ⟨k, hk⟩ noTimeouts 0) trivial ?_⟩
      · intro i hi hsocket
        rcases hsame i hi with hlt | rfl
        · exact hset i hlt hsocket
        · exact absurd hfree hsocket
      · simp [RunLoop.step, hexited, hfree]
    · refine ⟨(l.server.slot ⟨k, hk⟩).socket :: fdread, ?_,
        hrun.step (a := .onread ⟨k, hk⟩ noTimeouts 0) trivial ?_⟩
      · intro i hi hsocket
        rcases hsame i hi with hlt | rfl
        · exact List.mem_cons_of_mem _ (hset i hlt hsocket)
        · exact List.mem_cons_self
      · simp [RunLoop.step, hexited, hfree, noTimeouts_ask]

def twoGreeted : Server :=
  { Server.start 1 (fun _ => Room.zero) [] (fun _ => ⟨0, 0, [], [], ⟨false, false, false⟩⟩) with
    slot := fun i => if i.val < 2 then { Player.zero with socket := 5 + i.val, hack := true } else Player.zero
    sockets := [5, 6] }

theorem chatter_received : WebSocket.receive twoGreeted (hello 0).reception = some twoGreeted := by
  have hopen : twoGreeted.connected 0 = true := by decide
  have hop : helloTree.tree.value "op".toList = some ['h', 'i'] := by decide
  have hdispatch : Entry.dispatch twoGreeted 0 helloTree.tree 0 0 (fun _ => 0) = some twoGreeted := by
    unfold Entry.dispatch
    rw [hop]
    rfl
  exact (hello_sayable.dispatched rfl hopen rfl rfl).trans hdispatch

theorem RunLoop.visit_answered {l : RunLoop} {r : Reception} {chunk : List Byte} {server : Server} {ret : ℤ}
    (hset : l.isSet r.slot = true) (hret : 0 < ret) (hsix : 6 ≤ chunk.length)
    (hserver : WebSocket.receive l.server (r.answering (some chunk)) = some server) (cursor : ℕ) (reset : Bool) :
    l.visit cursor ret r (some chunk) reset = some ({ l with server }.note r.slot .answered).done := by
  have hlength : ¬recvRet (some chunk) < 6 := by
    change ¬(chunk.length : ℤ) < 6
    omega
  unfold RunLoop.visit
  rw [if_neg (by rw [hset]; decide), if_neg (by omega), hserver, Option.map_some, if_neg hlength]

theorem RunLoop.visit_hangUp {l : RunLoop} {r : Reception} {ret : ℤ} (hset : l.isSet r.slot = true) (hret : 0 < ret)
    (hexited : l.server.exited = false) (cursor : ℕ) (reset : Bool) : l.visit cursor ret r (some []) reset =
      some ({ l with server := l.server.drop r.slot, place := .serving (cursor + 1) 0 }.note r.slot .hungUp) := by
  have hsocket : (l.server.slot r.slot).socket ≠ 0 := l.isSet_socket (by rw [hset]; decide)
  have hreceived : WebSocket.receive l.server (r.answering (some [])) = some (l.server.drop r.slot) := by
    unfold WebSocket.receive
    rw [if_neg (by simp [hexited, Reception.answering, hsocket]), if_pos (by simp [Reception.answering])]
    rfl
  unfold RunLoop.visit
  rw [if_neg (by rw [hset]; decide), if_neg (by omega), hreceived, Option.map_some, if_pos (by decide)]
  rfl

theorem RunLoop.visit_unread {l : RunLoop} {r : Reception} (hset : l.isSet r.slot = true) (cursor : ℕ)
    (answer : Option (List Byte)) (reset : Bool) : l.visit cursor 0 r answer reset =
      some ({ l with server := l.server.drop r.slot, place := .serving (cursor + 1) 0 }.note r.slot .unread) := by
  unfold RunLoop.visit
  rw [if_neg (by rw [hset]; decide), if_pos (.inl rfl)]

theorem RunLoop.reach_other {signKey : CStr → ℤ} {l₀ l : RunLoop} {op : Op} {server : Server}
    (h : Reach (RunLoop.step signKey) (fun _ _ => True) l₀ l) (helse : op.elsewhere = true)
    (hserver : serverStep signKey l.server op = some server) :
    Reach (RunLoop.step signKey) (fun _ _ => True) l₀ { l with server } := by
  refine h.step (a := .other op) trivial ?_
  rw [RunLoop.step, if_pos helse, hserver, Option.map_some]

theorem Server.drop_exited (s : Server) (i : Slot) : (s.drop i).exited = s.exited := by
  unfold Server.drop Server.removeSlot Server.leaveRoom Players.remove
  simp only
  split_ifs <;> rfl

theorem chatter_round (signKey : CStr → ℤ) {l : RunLoop} (hserver : l.server = twoGreeted)
    (hplace : l.place = .asking 0) : ∃ m t, Reach (RunLoop.step signKey) (fun _ _ => True) l m ∧
      m.server = twoGreeted ∧ m.place = .asking 0 ∧ m.turns = t :: l.turns ∧ t.ready 1 = true ∧
        t.visits = [(0, .answered)] := by
  obtain ⟨fdread, hset, hrun⟩ := @asking_to signKey l (by rw [hserver]; rfl) hplace 1024 le_rfl
  have hfive : 5 ∈ fdread := by
    have h := hset 0 (by decide)
    rw [hserver] at h
    exact h (by decide)
  have hsix : 6 ∈ fdread := by
    have h := hset 1 (by decide)
    rw [hserver] at h
    exact h (by decide)
  let asked : RunLoop := ⟨l.server, .asking 1024, fdread, l.turn, l.turns⟩
  let served : RunLoop := ⟨l.server, .serving 0 2, [5, 6], ⟨2, { asked with fdread := [5, 6] }.isSet, []⟩, l.turns⟩
  have hisSet : ∀ i : Slot, i.val < 2 → served.isSet i = true := by
    intro i hi
    simp only [served, RunLoop.isSet, hserver]
    simp only [twoGreeted, if_pos hi]
    interval_cases hv : i.val <;> decide
  have hselect : RunLoop.step signKey asked (.select 2 [5, 6]) = some served := by
    simp [RunLoop.step, asked, served, hfive, hsix]
  have hvisit : RunLoop.step signKey served (.visit (hello 0).reception (some (hello 0).reception.chunk) false) =
      some ({ served with server := twoGreeted }.note 0 .answered).done := by
    have hreceived : WebSocket.receive served.server (hello 0).reception = some twoGreeted := by
      simp only [served, hserver]
      exact chatter_received
    have hopen : ¬((hello 0).reception.slot.val ≠ 0 ∨ served.server.exited = true) := by
      simp only [served, hserver]
      decide
    exact (if_neg hopen).trans
      (RunLoop.visit_answered (hisSet 0 (by decide)) (by decide) hello_sayable.chunk.1 hreceived 0 false)
  refine ⟨_, _, (hrun.step trivial hselect).step trivial hvisit, rfl, rfl, rfl, ?_, rfl⟩
  exact hisSet 1 (by decide)

/-- Whatever `select` and `recv` answer and whoever acts in between, the loop takes the server through receptions and
closings only. -/
theorem loop_refines_receptions {signKey : CStr → ℤ} {okl : RunLoop → LoopOp → Prop} {okw : Server → WireOp → Prop}
    {s₀ : Server} {l : RunLoop} (hok : ∀ l op w, okl l op → op.Yields w → okw l.server w)
    (h : Reach (RunLoop.step signKey) okl (RunLoop.start s₀) l) : Reach (wireStep signKey) okw s₀ l.server := by
  refine h.invariant (P := fun l => Reach (wireStep signKey) okw s₀ l.server) .start ?_
  intro l op m hl hop hm
  rcases RunLoop.step_refines hm with hsame | ⟨w, hyields, hw⟩
  · rw [hsame]
    exact hl
  · exact hl.step (hok l op w hop hyields) hw

theorem greeting_refined : ∃ l : RunLoop, l.turns.length = 1 ∧
    Reach (wireStep fun _ => 0) (fun _ _ => True) twoGreeted l.server := by
  obtain ⟨l, t, hl, -, -, hturns, -⟩ := @chatter_round (fun _ => 0) (RunLoop.start twoGreeted) rfl rfl
  exact ⟨l, congrArg List.length hturns, loop_refines_receptions (fun _ _ _ _ _ => trivial) hl⟩

def Turn.waits (t : Turn) (i : Slot) : Bool := t.ready i && t.visits.all (fun v => decide (v.1 ≠ i))

def Turn.answersBelow (t : Turn) (i : Slot) : Bool :=
  t.visits.any (fun v => decide (v.1 < i) && decide (v.2 = .answered))

theorem Turn.Fair.waits_iff {t : Turn} (h : t.Fair) (i : Slot) :
    t.waits i = true ↔ t.ready i = true ∧ t.answersBelow i = true := by
  have hbelow : t.answersBelow i = true ↔ ∃ j < i, (j, Treatment.answered) ∈ t.visits := by
    unfold Turn.answersBelow
    rw [List.any_eq_true]
    constructor
    · rintro ⟨⟨j, x⟩, hv, hj⟩
      simp only [Bool.and_eq_true, decide_eq_true_eq] at hj
      obtain ⟨hlt, rfl⟩ := hj
      exact ⟨j, hlt, hv⟩
    · rintro ⟨j, hlt, hv⟩
      exact ⟨_, hv, by simp [hlt]⟩
  have hmissed : t.visits.all (fun v => decide (v.1 ≠ i)) = true ↔ ∀ x, (i, x) ∉ t.visits := by
    rw [List.all_eq_true]
    constructor
    · intro hall x hx
      exact absurd rfl (of_decide_eq_true (hall _ hx))
    · rintro hnone ⟨j, x⟩ hv
      apply decide_eq_true
      rintro rfl
      exact hnone x hv
  rw [hbelow, Turn.waits, Bool.and_eq_true, hmissed]
  constructor
  · rintro ⟨hready, hnone⟩
    refine ⟨hready, (h.met i hready).resolve_left ?_⟩
    rintro ⟨x, hx⟩
    exact hnone x hx
  · rintro ⟨hready, j, hlt, hj⟩
    refine ⟨hready, ?_⟩
    intro x hx
    exact absurd (h.last j hj _ hx) (not_le_of_gt hlt)

/-- Of the connections that are ready, the loop answers one message at most and takes the slots in order. One is closed
unread only where another was found closed or broken before, and once one was found closed all that come after it are.
A connection waits just when a message of a lower slot is answered. -/
theorem turns_fair {signKey : CStr → ℤ} {s₀ : Server} {l : RunLoop}
    (h : Reach (RunLoop.step signKey) (fun _ _ => True) (RunLoop.start s₀) l) : (∀ t ∈ l.turns, t.Fair) ∧
      ∀ i, l.turns.countP (fun t => t.waits i) = l.turns.countP (fun t => t.ready i && t.answersBelow i) := by
  have hsound : l.Sound := by
    apply h.invariant (P := RunLoop.Sound)
    · exact ⟨fun _ _ hp => (by cases hp), fun _ ht => absurd ht List.not_mem_nil⟩
    · exact fun l op m hl _ hm => hl.step hm
  refine ⟨hsound.fair, ?_⟩
  intro i
  apply List.countP_congr
  intro t ht
  rw [(hsound.fair t ht).waits_iff i, Bool.and_eq_true]

theorem second_connection_waits : ∃ l : RunLoop, l.turns.countP (fun t => t.waits 1) = 1 ∧ (∀ t ∈ l.turns, t.Fair) ∧
    ∀ i, l.turns.countP (fun t => t.waits i) = l.turns.countP (fun t => t.ready i && t.answersBelow i) := by
  obtain ⟨l, t, hl, -, -, hturns, hready, hvisits⟩ := @chatter_round (fun _ => 0) (RunLoop.start twoGreeted) rfl rfl
  refine ⟨l, ?_, turns_fair hl⟩
  rw [hturns, List.countP_cons, Turn.waits, hready, hvisits]
  rfl

theorem chatter_starves (signKey : CStr → ℤ) (n : ℕ) : ∃ l,
    Reach (RunLoop.step signKey) (fun _ _ => True) (RunLoop.start twoGreeted) l ∧ l.turns.length = n ∧
      ∀ t ∈ l.turns, t.ready 1 = true ∧ t.visits = [(0, .answered)] := by
  have hrun : ∃ l, Reach (RunLoop.step signKey) (fun _ _ => True) (RunLoop.start twoGreeted) l ∧
      l.server = twoGreeted ∧ l.place = .asking 0 ∧ l.turns.length = n ∧
        ∀ t ∈ l.turns, t.ready 1 = true ∧ t.visits = [(0, .answered)] := by
    induction n with
    | zero => exact ⟨_, .start, rfl, rfl, rfl, fun _ ht => absurd ht List.not_mem_nil⟩
    | succ n ih =>
      obtain ⟨l, hl, hserver, hplace, hlength, hturns⟩ := ih
      obtain ⟨m, t, hm, hserver', hplace', hnew, ht⟩ := chatter_round signKey hserver hplace
      refine ⟨m, hl.trans hm, hserver', hplace', ?_, ?_⟩
      · rw [hnew, List.length_cons, hlength]
      · rw [hnew]
        intro t' ht'
        rcases List.mem_cons.mp ht' with rfl | hold
        · exact ht
        · exact hturns t' hold
  obtain ⟨l, hl, -, -, hlength, hturns⟩ := hrun
  exact ⟨l, hl, hlength, hturns⟩

def LoopOp.isVisit : LoopOp → Bool
  | .visit .. => true
  | _ => false

structure RunLoop.SweptTo (l m : RunLoop) (cursor place : ℕ) : Prop where
  serving : m.place = .serving place 0
  later : cursor ≤ place
  fdread : m.fdread = l.fdread
  turns : m.turns = l.turns
  slots : ∀ k : Slot, m.server.slot k =
    if (cursor ≤ k.val ∧ k.val < place) ∧ l.isSet k = true then Player.zero else l.server.slot k

section

variable {signKey : CStr → ℤ} {l m n : RunLoop} {cursor place : ℕ} {r : Reception} {answer : Option (List Byte)}
  {reset : Bool}

theorem RunLoop.SweptTo.here (h : l.SweptTo m cursor place) {k : Slot} (hk : k.val = place) :
    m.server.slot k = l.server.slot k := by
  rw [h.slots k, if_neg]
  rintro ⟨⟨-, hlt⟩, -⟩
  omega

theorem RunLoop.SweptTo.isSet (h : l.SweptTo m cursor place) {k : Slot} (hk : k.val = place) :
    m.isSet k = l.isSet k := by
  rw [RunLoop.isSet, RunLoop.isSet, h.here hk, h.fdread]

-- what is below the next place is below this one, or here
theorem swept_next (cursor : ℕ) {k i : Slot} (hi : i.val = place) (hne : k ≠ i) :
    (cursor ≤ k.val ∧ k.val < place + 1 ↔ cursor ≤ k.val ∧ k.val < place) := by
  have hval : k.val ≠ place := fun he => hne (Fin.ext (he.trans hi.symm))
  omega

theorem RunLoop.SweptTo.pass (h : l.SweptTo m cursor place) {i : Slot} (hi : i.val = place)
    (hgone : m.isSet i = false) (hserving : n.place = .serving (place + 1) 0) (hserver : n.server = m.server)
    (hfdread : n.fdread = m.fdread) (hturns : n.turns = m.turns) : l.SweptTo n cursor (place + 1) := by
  refine ⟨hserving, Nat.le_succ_of_le h.later, hfdread.trans h.fdread, hturns.trans h.turns, ?_⟩
  intro k
  rw [hserver]
  by_cases hk : k = i
  · rw [hk]
    refine (h.here hi).trans (if_neg ?_).symm
    rw [← h.isSet hi, hgone]
    exact fun hset => Bool.false_ne_true hset.2
  · simp only [swept_next cursor hi hk]
    exact h.slots k

theorem RunLoop.SweptTo.close (h : l.SweptTo m cursor place) (hclosing : ∀ k, (l.server.slot k).closeing = false)
    {i : Slot} (hi : i.val = place) (hset : m.isSet i = true) (hserving : n.place = .serving (place + 1) 0)
    (hserver : n.server = m.server.drop i) (hfdread : n.fdread = m.fdread) (hturns : n.turns = m.turns) :
    l.SweptTo n cursor (place + 1) := by
  refine ⟨hserving, Nat.le_succ_of_le h.later, hfdread.trans h.fdread, hturns.trans h.turns, ?_⟩
  intro k
  rw [hserver]
  by_cases hk : k = i
  · have hlater := h.later
    rw [hk, if_pos ⟨by omega, (h.isSet hi).symm.trans hset⟩]
    refine Server.drop_self ?_ (m.isSet_socket (Bool.not_eq_false _ ▸ hset))
    rw [h.here hi]
    exact hclosing i
  · simp only [swept_next cursor hi hk]
    exact (Server.drop_other m.server hk).trans (h.slots k)

theorem RunLoop.SweptTo.visit (h : l.SweptTo m cursor place) (hclosing : ∀ k, (l.server.slot k).closeing = false)
    (hi : r.slot.val = place) (hn : m.visit place 0 r answer reset = some n) : l.SweptTo n cursor (place + 1) := by
  unfold RunLoop.visit at hn
  simp only [true_or, if_true] at hn
  split_ifs at hn with hgone hready
  · cases hn
    exact h.pass hi hgone rfl rfl rfl rfl
  · cases hn
    exact h.pass hi hgone rfl rfl rfl rfl
  · cases hn
    exact h.close hclosing hi (Bool.not_eq_false _ ▸ hgone) rfl rfl rfl rfl

end

theorem Session.Tidy.loop {signKey : CStr → ℤ} {l m : RunLoop} {op : LoopOp} (h : l.server.session.Tidy)
    (hm : l.step signKey op = some m) : m.server.session.Tidy := by
  have hstep : ∀ op t, serverStep signKey l.server op = some t → t.session.Tidy := by
    intro op t ht
    obtain ⟨he, hs⟩ := serverStep_session ht
    rw [hs]
    exact h.step _ he
  rcases RunLoop.step_refines hm with hsame | ⟨w, -, hw⟩
  · rw [hsame]
    exact h
  · cases w with
    | receive r =>
      rcases receive_step signKey hw with hsame | ⟨op, -, ht⟩
      · rw [hsame]
        exact h
      · exact hstep op _ ht
    | other op =>
      rw [wireStep] at hw
      split_ifs at hw
      exact hstep op _ hw

/-- When one connection was found closed, the loop goes on to close all the ready ones that come after it, with what
they have sent unread, and answers nobody. -/
theorem hang_up_closes_ready {signKey : CStr → ℤ} {maxRoom : ℕ} {outside : ℕ → Room} {fish : List SettingFish}
    {users : ℕ → User} {l m : RunLoop} {cursor : ℕ}
    (hl : Reach (RunLoop.step signKey) (fun _ _ => True) (RunLoop.start (Server.start maxRoom outside fish users)) l)
    (hplace : l.place = .serving cursor 0) (h : Reach (RunLoop.step signKey) (fun _ op => op.isVisit = true) l m) :
    ∃ place, m.place = .serving place 0 ∧ m.turns = l.turns ∧ ∀ k : Slot, m.server.slot k =
      if (cursor ≤ k.val ∧ k.val < place) ∧ l.isSet k = true then Player.zero else l.server.slot k := by
  have htidy : l.server.session.Tidy := by
    apply hl.invariant (P := fun l => l.server.session.Tidy) (tidy_start maxRoom outside fish users)
    exact fun l op m htidy _ hm => htidy.loop hm
  have hswept : ∃ place, l.SweptTo m cursor place := by
    apply h.invariant (P := fun m => ∃ place, l.SweptTo m cursor place)
    · refine ⟨cursor, hplace, le_rfl, rfl, rfl, ?_⟩
      intro k
      rw [if_neg]
      rintro ⟨⟨hle, hlt⟩, -⟩
      omega
    · rintro m op n ⟨place, hm⟩ hop hn
      cases op with
      | visit r answer reset =>
        rw [RunLoop.step, hm.serving] at hn
        simp only at hn
        split_ifs at hn with hno
        simp only [not_or, not_not] at hno
        exact ⟨place + 1, hm.visit htidy.closeing hno.1 hn⟩
      | _ => cases hop
  obtain ⟨place, hm⟩ := hswept
  exact ⟨place, hm.serving, hm.turns, hm.slots⟩

def emptyServer : Server := Server.start 1 (fun _ => Room.zero) [] (fun _ => ⟨0, 0, [], [], ⟨false, false, false⟩⟩)

def twoConnected : Option Server :=
  (serverStep (fun _ => 0) emptyServer (.connect 5 0 0)).bind (fun s => serverStep (fun _ => 0) s (.connect 6 0 0))

theorem unread_and_closed : ∃ l m : RunLoop, l.isSet 1 = true ∧ m.server.slot 1 = Player.zero ∧ ∃ place,
    m.place = .serving place 0 ∧ m.turns = l.turns ∧ ∀ k : Slot, m.server.slot k =
      if (1 ≤ k.val ∧ k.val < place) ∧ l.isSet k = true then Player.zero else l.server.slot k := by
  have htwo : twoConnected.map (fun s => (s.exited, (s.slot 0).socket, (s.slot 1).socket)) = some (false, 5, 6) := by
    decide +kernel
  obtain ⟨s, hs, hfields⟩ := Option.map_eq_some_iff.mp htwo
  obtain ⟨hexited, hsockets⟩ := Prod.mk.inj hfields
  obtain ⟨hfive, hsix⟩ := Prod.mk.inj hsockets
  obtain ⟨s', hs', hs⟩ := Option.bind_eq_some_iff.mp hs
  obtain ⟨fdread, hset, hask⟩ := @asking_to (fun _ => 0) ⟨s, .asking 0, [], ⟨0, fun _ => false, []⟩, []⟩ hexited rfl
    1024 le_rfl
  have hmem : 5 ∈ fdread ∧ 6 ∈ fdread := by
    have h0 := hset 0 (by decide)
    have h1 := hset 1 (by decide)
    simp only [hfive, hsix] at h0 h1
    exact ⟨h0 (by decide), h1 (by decide)⟩
  let asked : RunLoop := ⟨s, .asking 1024, fdread, ⟨0, fun _ => false, []⟩, []⟩
  let served : RunLoop := ⟨s, .serving 0 2, [5, 6], ⟨2, { asked with fdread := [5, 6] }.isSet, []⟩, []⟩
  let l : RunLoop := { served with server := s.drop 0, place := .serving 1 0 }.note 0 .hungUp
  let m : RunLoop := { l with server := (s.drop 0).drop 1, place := .serving 2 0 }.note 1 .unread
  have hselect : RunLoop.step (fun _ => 0) asked (.select 2 [5, 6]) = some served := by
    simp [RunLoop.step, asked, served, hmem]
  have hfirst : served.isSet 0 = true := by
    simp [served, RunLoop.isSet, hfive]
  have hsecond : l.isSet 1 = true := by
    simp [l, served, RunLoop.isSet, RunLoop.note, Server.drop_other s (i := 0) (k := 1) (by decide), hsix]
  have hclosed : RunLoop.step (fun _ => 0) served (.visit (hello 0).reception (some []) false) = some l :=
    (if_neg (by simp [served, hexited, hello, Spoken.reception])).trans
      (RunLoop.visit_hangUp hfirst (by decide) hexited 0 false)
  have hlost : RunLoop.step (fun _ => 0) l (.visit (hello 1).reception none false) = some m := by
    refine (if_neg ?_).trans (RunLoop.visit_unread hsecond 1 none false)
    rintro (hne | hexit)
    · exact hne rfl
    · exact Bool.false_ne_true (((s.drop_exited 0).trans hexited).symm.trans hexit)
  have hconnect : Reach (RunLoop.step fun _ => 0) (fun _ _ => True) (RunLoop.start emptyServer)
      ⟨s, .asking 0, [], ⟨0, fun _ => false, []⟩, []⟩ := by
    exact RunLoop.reach_other (RunLoop.reach_other .start rfl hs') rfl hs
  have hl := ((hconnect.trans hask).step trivial hselect).step trivial hclosed
  obtain ⟨place, hplace, hrest⟩ := hang_up_closes_ready hl rfl (.step .start rfl hlost)
  refine ⟨l, m, hsecond, ?_, place, hplace, hrest⟩
  cases hplace
  rw [hrest.2 1, if_pos ⟨by decide, hsecond⟩]

end FishServer
