import FishServer.JsonLists
import FishServer.Entry
import FishServer.Lib.Transition

namespace FishServer

open BlockHeap Transition

/-! The handling of messages on the thread of `WebSocket::run`, in the steps parse, dispatch and clear, and
between them the steps of the threads that `Entry::verifyAccount` spawned. -/

/-- A thread in `Thread::verifyAccount`. It loads `tmp` for the loop over the key and once more for
`checkSignKey`, and reads through the pointer that it loaded last until it is done with it. -/
structure Verification where
  slot : Slot
  conn : ℕ
  message : ℕ
  key : ℕ
  text : CStr
  signing : Bool
  loaded : Option (Option ℕ × ℕ)
deriving DecidableEq

structure Message where
  id : ℕ
  slot : Slot
  phead : Option (Option ℕ)
  dispatched : Bool
deriving DecidableEq

/-- `conn` counts how often a slot was emptied, `count` the messages. -/
structure Keys where
  heap : Heap JsonBlock
  tmp : Slot → Option ℕ
  conn : Slot → ℕ
  threads : List Verification
  current : Option Message
  count : ℕ

def Keys.start (h : Heap JsonBlock) : Keys := ⟨h, fun _ => none, fun _ => 0, [], none, 0⟩

inductive KeyEvent
  | parse (i : Slot) (old : ℕ → Option Char) (text : CStr) (beyond : Texts)
  | dispatch
  | clear
  | remove (i : Slot)
  | load (n : ℕ)
  | finish (n : ℕ) (plain : Bool)

def Keys.json (s : Keys) (m : Message) : Json := ⟨s.heap, m.phead⟩

def Keys.parse (s : Keys) (i : Slot) (old : ℕ → Option Char) (text : CStr) (beyond : Texts) :
    Option Keys :=
  match (Json.new s.heap).parseString old text beyond with
  | some (.done j _) =>
    some { s with heap := j.heap, current := some ⟨s.count, i, j.phead, false⟩, count := s.count + 1 }
  | _ => none

def Keys.verifyAccount (s : Keys) (m : Message) : Option Keys :=
  match (s.json m).value "key".toList with
  | none => none
  | some none => some s
  | some (some k) =>
    (textAt s.heap k).map (fun text =>
      { s with
        tmp := Function.update s.tmp m.slot (some k)
        threads := s.threads ++ [⟨m.slot, s.conn m.slot, m.id, k, text, false, none⟩] })

-- the other handlers leave `tmp` alone
def Keys.dispatch (s : Keys) (m : Message) : Option Keys :=
  let t := { s with current := some { m with dispatched := true } }
  match (s.json m).value "op".toList with
  | none => none
  | some none => some t
  | some (some o) =>
    (textAt s.heap o).bind (fun op => if op = "verify account".toList then t.verifyAccount m else some t)

def Keys.clear (s : Keys) (m : Message) : Option Keys :=
  (s.json m).clear.map (fun j => { s with heap := j.heap, current := none })

-- `Players::remove` of a slot that has a socket sets the whole slot to zero
def Keys.remove (s : Keys) (i : Slot) : Keys :=
  { s with tmp := Function.update s.tmp i none, conn := Function.update s.conn i (s.conn i + 1) }

def Keys.load (s : Keys) (n : ℕ) (v : Verification) : Keys :=
  { s with threads := s.threads.set n { v with loaded := some (s.tmp v.slot, s.conn v.slot) } }

-- a quote in the key ends the thread
def Keys.finish (s : Keys) (n : ℕ) (v : Verification) (plain : Bool) : Keys :=
  if plain && !v.signing then
    { s with threads := s.threads.set n { v with signing := true, loaded := none } }
  else { s with threads := s.threads.eraseIdx n }

def keyStep (s : Keys) : KeyEvent → Option Keys
  | .parse i old text beyond => if s.current = none then s.parse i old text beyond else none
  | .dispatch => s.current.bind (fun m => if m.dispatched then none else s.dispatch m)
  | .clear => s.current.bind (fun m => if m.dispatched then s.clear m else none)
  | .remove i => some (s.remove i)
  | .load n =>
    s.threads[n]?.bind (fun v => if v.loaded = none then some (s.load n v) else none)
  | .finish n plain =>
    s.threads[n]?.bind (fun v => if v.loaded = none then none else some (s.finish n v plain))

/-- A read through `p` is of the key of the message that spawned the thread, and of a block that was not
freed since. -/
def Keys.ReadsKey (s : Keys) (v : Verification) (p : Option ℕ) : Prop :=
  p = some v.key ∧ s.heap.block v.key = some (.text v.text)

def Keys.Handled (s : Keys) (v : Verification) : Prop := ∃ m, s.current = some m ∧ m.id = v.message

theorem findKey_tree {h : Heap JsonBlock} (key : CStr) (tree : JsonValue) (n : ℕ) (p : Option ℕ)
    (bs : List ℕ) (ho : Owns h.block p tree bs) (q : Option ℕ) (hf : findKey h key n p = some q) :
    (q = none ∧ tree.value key = none) ∨
      ∃ r f, q = some r ∧ fieldsAt h r = some f ∧ OwnsText h.block f.value (tree.value key) ∧
        ∀ b ∈ f.value.toList, b ∈ bs := by
  induction tree generalizing n p bs with
  | null =>
    cases ho
    cases n with
    | zero => cases hf
    | succ n =>
      cases hf
      exact .inl ⟨rfl, rfl⟩
  | node k value child next ihc ihn =>
    cases ho with
    | node fields text content below after =>
      cases n with
      | zero => cases hf
      | succ n =>
        rw [findKey, fieldsAt_eq fields] at hf
        simp only [Option.bind_eq_bind, Option.bind_some, textAt_eq text] at hf
        by_cases hk : k = key
        · rw [if_pos hk] at hf
          cases hf
          refine .inr ⟨_, _, rfl, fieldsAt_eq fields, ?_, ?_⟩
          · rw [JsonValue.value, if_pos hk]
            exact content
          · intro b hb
            simp only [List.cons_append, List.append_assoc, List.mem_cons, List.mem_append]
            exact .inr (.inr (.inl hb))
        · rw [if_neg hk] at hf
          rw [JsonValue.value, if_neg hk]
          rcases ihn n _ _ after hf with h' | ⟨r, f, hq, hr, hv, hsub⟩
          · exact .inl h'
          · refine .inr ⟨r, f, hq, hr, hv, ?_⟩
            intro b hb
            simp only [List.mem_append]
            exact .inr (hsub b hb)

theorem value_tree {j : Json} {p v : Option ℕ} {tree : JsonValue} {bs : List ℕ} {key : CStr}
    (hp : j.phead = some p) (ho : Owns j.heap.block p tree bs) (hv : j.value key = some v) :
    OwnsText j.heap.block v (tree.value key) ∧ ∀ b ∈ v.toList, b ∈ bs := by
  rw [Json.value, Json.getJsonValue, hp] at hv
  simp only [Option.bind_eq_bind, Option.bind_some, Option.bind_eq_some_iff] at hv
  obtain ⟨q, hq, hv⟩ := hv
  rcases findKey_tree key tree _ p bs ho q hq with ⟨rfl, hn⟩ | ⟨r, f, rfl, hf, hc, hsub⟩
  · cases hv
    refine ⟨.inl ⟨rfl, hn⟩, ?_⟩
    intro b hb
    cases hb
  · simp only [hf, Option.bind_some, Option.some.injEq] at hv
    subst hv
    exact ⟨hc, hsub⟩

structure Keys.Own (s : Keys) (bs : List ℕ) (v : Verification) : Prop where
  mem : v.key ∈ bs
  live : s.heap.block v.key = some (.text v.text)
  conn : v.conn ≤ s.conn v.slot
  tmp : s.tmp v.slot = if s.conn v.slot = v.conn then some v.key else none
  loaded : ∀ p c, v.loaded = some (p, c) → p = if c = v.conn then some v.key else none

structure Keys.Handling (s : Keys) (m : Message) (bs : List ℕ) : Prop where
  id : m.id + 1 = s.count
  owns : ∃ p tree, m.phead = p.map some ∧ Owns s.heap.block p tree bs
  nodup : bs.Nodup
  length : bs.length < s.heap.fresh + 1
  early : m.dispatched = false → ∀ v ∈ s.threads, v.message ≠ m.id
  own : ∀ v ∈ s.threads, v.message = m.id → s.Own bs v

structure Keys.Sound (s : Keys) : Prop where
  handling : ∀ m, s.current = some m → ∃ bs, s.Handling m bs
  message : ∀ v ∈ s.threads, v.message < s.count
  dead : ∀ v ∈ s.threads, ¬s.Handled v → s.heap.block v.key = none ∧ v.key < s.heap.fresh

theorem parse_sound {s t : Keys} {i : Slot} {old : ℕ → Option Char} {text : CStr} {beyond : Texts}
    (hs : s.Sound) (hc : s.current = none) (ht : s.parse i old text beyond = some t) : t.Sound := by
  unfold Keys.parse at ht
  cases hr : (Json.new s.heap).parseString old text beyond with
  | none => simp [hr] at ht
  | some r =>
    cases r with
    | fault => simp [hr] at ht
    | done j mem =>
      simp only [hr, Option.some.injEq] at ht
      subst ht
      obtain ⟨p, tree, hb, -⟩ := parseString_built hr
      have hdead : ∀ v ∈ s.threads, j.heap.block v.key = none ∧ v.key < j.heap.fresh := by
        intro v hv
        obtain ⟨hn, hlt⟩ := hs.dead v hv (by simp [Keys.Handled, hc])
        have hle : s.heap.fresh ≤ j.heap.fresh := hb.fresh_le
        refine ⟨?_, by omega⟩
        rw [hb.below v.key hlt]
        cases p <;> exact hn
      have hne : ∀ v ∈ s.threads, v.message ≠ s.count := fun v hv => (hs.message v hv).ne
      constructor
      · rintro m ⟨⟩
        refine ⟨_, rfl, ⟨p, tree, new_phead s.heap hb, hb.holds⟩, since_nodup _ _, ?_, ?_, ?_⟩
        · rw [Heap.since, List.length_range']
          exact Nat.lt_succ_of_le (Nat.sub_le _ _)
        · intro _ v hv
          exact hne v hv
        · intro v hv he
          exact absurd he (hne v hv)
      · intro v hv
        exact (hs.message v hv).trans (Nat.lt_succ_self _)
      · intro v hv _
        exact hdead v hv

theorem dispatched_sound {s : Keys} {m : Message} (hs : s.Sound) (hm : s.current = some m) :
    Keys.Sound { s with current := some { m with dispatched := true } } := by
  obtain ⟨bs, h⟩ := hs.handling m hm
  constructor
  · rintro m' ⟨⟩
    refine ⟨bs, h.id, h.owns, h.nodup, h.length, ?_, ?_⟩
    · rintro ⟨⟩
    · intro v hv he
      obtain ⟨hmem, hlive, hconn, htmp, hloaded⟩ := h.own v hv he
      exact ⟨hmem, hlive, hconn, htmp, hloaded⟩
  · exact hs.message
  · intro v hv hh
    apply hs.dead v hv
    rintro ⟨m', hm', he⟩
    rw [hm] at hm'
    cases hm'
    exact hh ⟨_, rfl, he⟩

-- nothing is looked up where `_phead` was not stored to
theorem json_head {s : Keys} {m : Message} {p v : Option ℕ} {key : CStr} (hp : m.phead = p.map some)
    (hv : (s.json m).value key = some v) : ∃ q, p = some q := by
  cases p with
  | none =>
    rw [Json.value, Json.getJsonValue, Keys.json, hp] at hv
    cases hv
  | some q => exact ⟨q, rfl⟩

theorem OwnsText.none {block : ℕ → Option JsonBlock} {value : Option CStr}
    (h : OwnsText block Option.none value) : value = Option.none := by
  rcases h with ⟨-, hv⟩ | ⟨b, s, hb, -⟩
  · exact hv
  · cases hb

theorem OwnsText.some {block : ℕ → Option JsonBlock} {b : ℕ} {value : Option CStr}
    (h : OwnsText block (Option.some b) value) :
    ∃ s, block b = Option.some (.text s) ∧ value = Option.some s := by
  rcases h with ⟨hb, -⟩ | ⟨b, s, hb, hv, hblock⟩
  · cases hb
  · cases hb
    exact ⟨s, hblock, hv⟩

theorem dispatch_cases {s t : Keys} {m : Message} {p : Option ℕ} {tree : JsonValue} {bs : List ℕ}
    (hp : m.phead = p.map some) (ho : Owns s.heap.block p tree bs) (ht : s.dispatch m = some t) :
    (t = { s with current := some { m with dispatched := true } } ∧
      (tree.value "op".toList = some "verify account".toList → tree.value "key".toList = none)) ∨
    ∃ k text, tree.value "op".toList = some "verify account".toList ∧ tree.value "key".toList = some text ∧
      k ∈ bs ∧ s.heap.block k = some (.text text) ∧
      t = { s with
        current := some { m with dispatched := true }
        tmp := Function.update s.tmp m.slot (some k)
        threads := s.threads ++ [⟨m.slot, s.conn m.slot, m.id, k, text, false, none⟩] } := by
  unfold Keys.dispatch at ht
  cases hop : (s.json m).value "op".toList with
  | none =>
    rw [hop] at ht
    cases ht
  | some o =>
    obtain ⟨q, rfl⟩ := json_head hp hop
    have hoptext := (value_tree hp ho hop).1
    rw [hop] at ht
    cases o with
    | none =>
      cases ht
      rw [hoptext.none]
      exact .inl ⟨rfl, fun he => nomatch he⟩
    | some o =>
      obtain ⟨op, hblock, hop'⟩ := hoptext.some
      have hblock : s.heap.block o = some (.text op) := hblock
      simp only [textAt_eq hblock, Option.bind_some] at ht
      by_cases hverify : op = "verify account".toList
      · rw [if_pos hverify] at ht
        unfold Keys.verifyAccount at ht
        have hjson : Keys.json { s with current := some { m with dispatched := true } } m = s.json m := rfl
        rw [hjson] at ht
        cases hk : (s.json m).value "key".toList with
        | none =>
          rw [hk] at ht
          cases ht
        | some k =>
          obtain ⟨hkeytext, hmem⟩ := value_tree hp ho hk
          rw [hk] at ht
          cases k with
          | none =>
            cases ht
            exact .inl ⟨rfl, fun _ => hkeytext.none⟩
          | some k =>
            obtain ⟨text, htext, hk'⟩ := hkeytext.some
            have htext : s.heap.block k = some (.text text) := htext
            simp only [textAt_eq htext, Option.map_some, Option.some.injEq] at ht
            refine .inr ⟨k, text, ?_, hk', hmem k (by simp), htext, ht.symm⟩
            rw [hop', hverify]
      · rw [if_neg hverify] at ht
        cases ht
        refine .inl ⟨rfl, ?_⟩
        intro he
        rw [hop'] at he
        exact absurd (Option.some.inj he) hverify

theorem spawned_sound {s : Keys} {m : Message} {bs : List ℕ} (hs : s.Sound)
    (hm : s.current = some { m with dispatched := true }) (h : s.Handling { m with dispatched := true } bs)
    (hne : ∀ v ∈ s.threads, v.message ≠ m.id) {k : ℕ} {text : CStr} (hk : k ∈ bs)
    (hlive : s.heap.block k = some (.text text)) :
    Keys.Sound { s with
      tmp := Function.update s.tmp m.slot (some k)
      threads := s.threads ++ [⟨m.slot, s.conn m.slot, m.id, k, text, false, none⟩] } := by
  constructor
  · intro m' hm'
    have hm' : s.current = some m' := hm'
    rw [hm] at hm'
    cases hm'
    refine ⟨bs, h.id, h.owns, h.nodup, h.length, ?_, ?_⟩
    · rintro ⟨⟩
    · intro v hv he
      rcases List.mem_append.mp hv with hv | hv
      · exact absurd he (hne v hv)
      · cases List.mem_singleton.mp hv
        refine ⟨hk, hlive, le_rfl, ?_, ?_⟩
        · simp
        · rintro p c ⟨⟩
  · intro v hv
    rcases List.mem_append.mp hv with hv | hv
    · exact hs.message v hv
    · cases List.mem_singleton.mp hv
      have hid : m.id + 1 = s.count := h.id
      change m.id < s.count
      omega
  · intro v hv hh
    rcases List.mem_append.mp hv with hv | hv
    · exact hs.dead v hv hh
    · cases List.mem_singleton.mp hv
      exact absurd ⟨_, hm, rfl⟩ hh

theorem dispatch_sound {s t : Keys} {m : Message} (hs : s.Sound) (hm : s.current = some m)
    (hd : m.dispatched = false) (ht : s.dispatch m = some t) : t.Sound := by
  have hsound := dispatched_sound hs hm
  obtain ⟨bs, h⟩ := hs.handling m hm
  obtain ⟨p, tree, hp, ho⟩ := h.owns
  rcases dispatch_cases hp ho ht with ⟨rfl, -⟩ | ⟨k, text, -, -, hk, hlive, rfl⟩
  · exact hsound
  · apply spawned_sound hsound rfl _ (h.early hd) hk hlive
    refine ⟨h.id, h.owns, h.nodup, h.length, ?_, ?_⟩
    · rintro ⟨⟩
    · intro v hv he
      exact absurd he (h.early hd v hv)

theorem clear_sound {s t : Keys} {m : Message} (hs : s.Sound) (hm : s.current = some m)
    (ht : s.clear m = some t) : t.Sound := by
  obtain ⟨bs, h⟩ := hs.handling m hm
  obtain ⟨p, tree, hp, ho⟩ := h.owns
  obtain ⟨h', bs', hc, hr, hperm⟩ := clearFrom_released tree _ s.heap p bs ho h.nodup h.length
  obtain ⟨j, hj, rfl⟩ := Option.map_eq_some_iff.mp ht
  rw [Json.clear, Keys.json, hp] at hj
  cases p with
  | none => cases hj
  | some q =>
    simp only [Option.map_some, Option.bind_eq_bind, Option.bind_some, hc, Option.some.injEq] at hj
    subst hj
    constructor
    · rintro m' ⟨⟩
    · exact hs.message
    · intro v hv _
      change h'.block v.key = none ∧ v.key < h'.fresh
      rw [hr.fresh]
      by_cases he : v.message = m.id
      · have hown := h.own v hv he
        exact ⟨hr.gone v.key (hperm.mem_iff.mpr hown.mem), lt_fresh s.heap hown.live⟩
      · have hdead : ¬s.Handled v := by
          rintro ⟨m', hm', he'⟩
          rw [hm] at hm'
          cases hm'
          exact he he'.symm
        obtain ⟨hn, hlt⟩ := hs.dead v hv hdead
        refine ⟨?_, hlt⟩
        by_cases hb : v.key ∈ bs'
        · exact hr.gone v.key hb
        · rw [hr.kept v.key hb, hn]

theorem remove_sound {s : Keys} (hs : s.Sound) (i : Slot) : (s.remove i).Sound := by
  constructor
  · intro m hm
    obtain ⟨bs, h⟩ := hs.handling m hm
    refine ⟨bs, h.id, h.owns, h.nodup, h.length, h.early, ?_⟩
    intro v hv he
    obtain ⟨hmem, hlive, hconn, htmp, hloaded⟩ := h.own v hv he
    by_cases hi : v.slot = i
    · subst hi
      refine ⟨hmem, hlive, ?_, ?_, hloaded⟩
      · simp only [Keys.remove, Function.update_self]
        omega
      · simp only [Keys.remove, Function.update_self]
        rw [if_neg (by omega)]
    · refine ⟨hmem, hlive, ?_, ?_, hloaded⟩
      · simpa only [Keys.remove, Function.update_of_ne hi] using hconn
      · simpa only [Keys.remove, Function.update_of_ne hi] using htmp
  · exact hs.message
  · exact hs.dead

theorem threads_sound {s : Keys} (hs : s.Sound) (threads : List Verification)
    (hold : ∀ w ∈ threads, ∃ v ∈ s.threads, w.slot = v.slot ∧ w.conn = v.conn ∧ w.message = v.message ∧
      w.key = v.key ∧ w.text = v.text ∧
      ∀ p c, w.loaded = some (p, c) → v.loaded = some (p, c) ∨ (p = s.tmp v.slot ∧ c = s.conn v.slot)) :
    Keys.Sound { s with threads := threads } := by
  constructor
  · intro m hm
    obtain ⟨bs, h⟩ := hs.handling m hm
    refine ⟨bs, h.id, h.owns, h.nodup, h.length, ?_, ?_⟩
    · intro hd w hw
      obtain ⟨v, hv, -, -, hmessage, -⟩ := hold w hw
      rw [hmessage]
      exact h.early hd v hv
    · intro w hw he
      obtain ⟨v, hv, hslot, hconn, hmessage, hkey, htext, hload⟩ := hold w hw
      rw [hmessage] at he
      obtain ⟨hmem, hlive, hle, htmp, hloaded⟩ := h.own v hv he
      constructor
      · rwa [hkey]
      · rwa [hkey, htext]
      · rwa [hconn, hslot]
      · rw [hslot, hconn, hkey]
        exact htmp
      · intro p c hl
        rw [hconn, hkey]
        rcases hload p c hl with hl | ⟨rfl, rfl⟩
        · exact hloaded p c hl
        · exact htmp
  · intro w hw
    obtain ⟨v, hv, -, -, hmessage, -⟩ := hold w hw
    rw [hmessage]
    exact hs.message v hv
  · intro w hw hh
    obtain ⟨v, hv, -, -, hmessage, hkey, -⟩ := hold w hw
    rw [hkey]
    apply hs.dead v hv
    rintro ⟨m, hm, he⟩
    exact hh ⟨m, hm, he.trans hmessage.symm⟩

theorem load_sound {s : Keys} (hs : s.Sound) {n : ℕ} {v : Verification} (hv : s.threads[n]? = some v) :
    (s.load n v).Sound := by
  apply threads_sound hs
  intro w hw
  rcases List.mem_or_eq_of_mem_set hw with hw | rfl
  · exact ⟨w, hw, rfl, rfl, rfl, rfl, rfl, fun p c hl => .inl hl⟩
  · refine ⟨v, List.mem_of_getElem? hv, rfl, rfl, rfl, rfl, rfl, ?_⟩
    rintro p c ⟨⟩
    exact .inr ⟨rfl, rfl⟩

theorem finish_sound {s : Keys} (hs : s.Sound) {n : ℕ} {v : Verification} (hv : s.threads[n]? = some v)
    (plain : Bool) : (s.finish n v plain).Sound := by
  unfold Keys.finish
  split_ifs
  · apply threads_sound hs
    intro w hw
    rcases List.mem_or_eq_of_mem_set hw with hw | rfl
    · exact ⟨w, hw, rfl, rfl, rfl, rfl, rfl, fun p c hl => .inl hl⟩
    · refine ⟨v, List.mem_of_getElem? hv, rfl, rfl, rfl, rfl, rfl, ?_⟩
      rintro p c ⟨⟩
  · apply threads_sound hs
    intro w hw
    exact ⟨w, List.mem_of_mem_eraseIdx hw, rfl, rfl, rfl, rfl, rfl, fun p c hl => .inl hl⟩

theorem keyStep_sound {s t : Keys} {e : KeyEvent} (hs : s.Sound) (ht : keyStep s e = some t) : t.Sound := by
  cases e with
  | parse i old text beyond =>
    rw [keyStep] at ht
    split_ifs at ht with hc
    exact parse_sound hs hc ht
  | dispatch =>
    obtain ⟨m, hm, ht⟩ := Option.bind_eq_some_iff.mp ht
    split_ifs at ht with hd
    exact dispatch_sound hs hm (by simpa using hd) ht
  | clear =>
    obtain ⟨m, hm, ht⟩ := Option.bind_eq_some_iff.mp ht
    split_ifs at ht with hd
    exact clear_sound hs hm ht
  | remove i =>
    cases ht
    exact remove_sound hs i
  | load n =>
    obtain ⟨v, hv, ht⟩ := Option.bind_eq_some_iff.mp ht
    split_ifs at ht with hl
    cases ht
    exact load_sound hs hv
  | finish n plain =>
    obtain ⟨v, hv, ht⟩ := Option.bind_eq_some_iff.mp ht
    split_ifs at ht with hl
    cases ht
    exact finish_sound hs hv plain

theorem start_sound (h : Heap JsonBlock) : (Keys.start h).Sound := by
  constructor
  · rintro m ⟨⟩
  · intro v hv
    cases hv
  · intro v hv
    cases hv

theorem reach_sound {h : Heap JsonBlock} {s : Keys}
    (hr : Reach keyStep (fun _ _ => True) (Keys.start h) s) : s.Sound :=
  hr.invariant (start_sound h) (fun _ _ _ hs _ ht => keyStep_sound hs ht)

/-- In every state of every run, a thread that has loaded `tmp` reads the live key of its message if and
only if that message is still in hand, and the slot had its connection when `tmp` was loaded. -/
theorem key_read_iff (h : Heap JsonBlock) (s : Keys)
    (hr : Reach keyStep (fun _ _ => True) (Keys.start h) s) (v : Verification) (hv : v ∈ s.threads)
    (p : Option ℕ) (c : ℕ) (hl : v.loaded = some (p, c)) :
    s.ReadsKey v p ↔ s.Handled v ∧ c = v.conn := by
  have hs := reach_sound hr
  have hown : s.Handled v → s.heap.block v.key = some (.text v.text) ∧
      p = if c = v.conn then some v.key else none := by
    rintro ⟨m, hm, he⟩
    obtain ⟨bs, hb⟩ := hs.handling m hm
    have ho := hb.own v hv he.symm
    exact ⟨ho.live, ho.loaded p c hl⟩
  constructor
  · rintro ⟨hp, hlive⟩
    have hh : s.Handled v := by
      by_contra hn
      rw [(hs.dead v hv hn).1] at hlive
      cases hlive
    refine ⟨hh, ?_⟩
    by_contra hc
    rw [(hown hh).2, if_neg hc] at hp
    cases hp
  · rintro ⟨hh, hc⟩
    obtain ⟨hlive, hp⟩ := hown hh
    rw [if_pos hc] at hp
    exact ⟨hp, hlive⟩

def keyMessage (i : Slot) : List KeyEvent :=
  [.parse i (fun _ => none) "\x7b'op':'verify account','key':'a'\x7d".toList [], .dispatch]

theorem reach_of_events {l : List KeyEvent} {s : Keys}
    (h : runIf keyStep (fun _ _ => true) (Keys.start Heap.empty) l = some s) :
    Reach keyStep (fun _ _ => True) (Keys.start Heap.empty) s :=
  (Reach.of_runIf h).mono (fun _ _ _ => trivial)

theorem early_read_live :
    ∃ s v p c, runIf keyStep (fun _ _ => true) (Keys.start Heap.empty) (keyMessage 0 ++ [.load 0]) = some s ∧
      v ∈ s.threads ∧ v.loaded = some (p, c) ∧ s.ReadsKey v p := by
  have hrun : (runIf keyStep (fun _ _ => true) (Keys.start Heap.empty) (keyMessage 0 ++ [.load 0])).bind
      (fun s => s.threads.head?.map (fun v => (v, s.current.map Message.id))) =
        some (⟨0, 0, 0, 5, ['a'], false, some (some 5, 0)⟩, some 0) := by
    decide +kernel
  obtain ⟨s, hs, hv⟩ := Option.bind_eq_some_iff.mp hrun
  obtain ⟨v, hhead, hpair⟩ := Option.map_eq_some_iff.mp hv
  simp only [Prod.mk.injEq, Option.map_eq_some_iff] at hpair
  obtain ⟨rfl, m, hm, hid⟩ := hpair
  have hmem := List.mem_of_mem_head? hhead
  refine ⟨s, _, some 5, 0, hs, hmem, rfl, ?_⟩
  exact (key_read_iff Heap.empty s (reach_of_events hs) _ hmem (some 5) 0 rfl).mpr ⟨⟨m, hm, hid⟩, rfl⟩

theorem late_read_freed :
    ¬ ∀ (h : Heap JsonBlock) (s : Keys), Reach keyStep (fun _ _ => True) (Keys.start h) s →
      ∀ v ∈ s.threads, ∀ p c, v.loaded = some (p, c) → s.ReadsKey v p := by
  intro hall
  have hrun : (runIf keyStep (fun _ _ => true) (Keys.start Heap.empty) (keyMessage 0 ++ [.clear, .load 0])).bind
      (fun s => s.threads.head?.map (fun v => (v, s.current))) =
        some (⟨0, 0, 0, 5, ['a'], false, some (some 5, 0)⟩, none) := by
    decide +kernel
  obtain ⟨s, hs, hv⟩ := Option.bind_eq_some_iff.mp hrun
  obtain ⟨v, hhead, hpair⟩ := Option.map_eq_some_iff.mp hv
  simp only [Prod.mk.injEq] at hpair
  obtain ⟨rfl, hc⟩ := hpair
  have hmem := List.mem_of_mem_head? hhead
  have hreach := reach_of_events hs
  obtain ⟨-, hlive⟩ := hall Heap.empty s hreach _ hmem (some 5) 0 rfl
  have hdead := (reach_sound hreach).dead _ hmem (by simp [Keys.Handled, hc])
  rw [hdead.1] at hlive
  cases hlive

end FishServer
