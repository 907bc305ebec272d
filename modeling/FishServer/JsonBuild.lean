import FishServer.JsonHeap

namespace FishServer

open BlockHeap

def OwnsText (block : ℕ → Option JsonBlock) (v : Option ℕ) (value : Option CStr) : Prop :=
  (v = none ∧ value = none) ∨ ∃ b s, v = some b ∧ value = some s ∧ block b = some (.text s)

/-- The list that starts at `p` is `tree`, on the blocks of the last argument and no others. -/
inductive Owns (block : ℕ → Option JsonBlock) : Option ℕ → JsonValue → List ℕ → Prop
  | null : Owns block none .null []
  | node {p k : ℕ} {v c n : Option ℕ} {key : CStr} {value : Option CStr} {child next : JsonValue}
      {cs ns : List ℕ} (fields : block p = some (.fields ⟨some k, v, c, n⟩))
      (text : block k = some (.text key)) (content : OwnsText block v value)
      (below : Owns block c child cs) (after : Owns block n next ns) :
      Owns block (some p) (.node key value child next) (p :: k :: (v.toList ++ cs) ++ ns)

theorem OwnsText.congr {block block' : ℕ → Option JsonBlock} {v : Option ℕ} {value : Option CStr}
    (h : OwnsText block v value) (he : ∀ b ∈ v.toList, block' b = block b) :
    OwnsText block' v value := by
  rcases h with h | ⟨b, s, rfl, rfl, hb⟩
  · exact .inl h
  · refine .inr ⟨b, s, rfl, rfl, ?_⟩
    rw [he b (by simp), hb]

theorem Owns.congr {block block' : ℕ → Option JsonBlock} {p : Option ℕ} {tree : JsonValue}
    {bs : List ℕ} (h : Owns block p tree bs) (he : ∀ b ∈ bs, block' b = block b) :
    Owns block' p tree bs := by
  induction h with
  | null => exact .null
  | node fields text content below after ihb iha =>
    apply Owns.node
    · rw [he _ (by simp)]
      exact fields
    · rw [he _ (by simp)]
      exact text
    · apply content.congr
      intro b hb
      apply he
      simp [hb]
    · apply ihb
      intro b hb
      apply he
      simp [hb]
    · apply iha
      intro b hb
      apply he
      simp [hb]

def Json.storeAll (j : Json) (l : Link) : Option ℕ → Json
  | none => j
  | some p => j.store p l

def Link.Below (n : ℕ) : Link → Prop
  | .head => True
  | .next q => q < n
  | .child q => q < n

@[simp] theorem store_fresh (j : Json) (p : ℕ) (l : Link) : (j.store p l).heap.fresh = j.heap.fresh := by
  cases l <;> rfl

@[simp] theorem store_freed (j : Json) (p : ℕ) (l : Link) : (j.store p l).heap.freed = j.heap.freed := by
  cases l <;> rfl

@[simp] theorem addKey_fresh (j : Json) (l : Link) (key : CStr) :
    (j.addKey l key).heap.fresh = j.heap.fresh + 2 := by
  simp [Json.addKey]

@[simp] theorem addKey_freed (j : Json) (l : Link) (key : CStr) :
    (j.addKey l key).heap.freed = j.heap.freed := by
  simp [Json.addKey]

/-- What a run of the loop that stores at `l` makes of the heap: a new list `tree` at `p`. -/
structure Built (j : Json) (l : Link) (p : Option ℕ) (tree : JsonValue) (j' : Json) : Prop where
  fresh_le : j.heap.fresh ≤ j'.heap.fresh
  holds : Owns j'.heap.block p tree (j.heap.since j'.heap)
  below : ∀ b < j.heap.fresh, j'.heap.block b = (j.storeAll l p).heap.block b
  phead : j'.phead = (j.storeAll l p).phead
  freed : j'.heap.freed = j.heap.freed

theorem Built.nil (j : Json) (l : Link) : Built j l none .null j := by
  constructor
  · exact le_rfl
  · rw [since_self]
    exact .null
  · intro b hb
    rfl
  · rfl
  · rfl

theorem store_block (j : Json) (p : ℕ) {l : Link} {n b : ℕ} (hl : l.Below n) (hb : n ≤ b) :
    (j.store p l).heap.block b = j.heap.block b := by
  cases l with
  | head => rfl
  | next q => exact modify_block _ _ (Nat.lt_of_lt_of_le hl hb).ne'
  | child q => exact modify_block _ _ (Nat.lt_of_lt_of_le hl hb).ne'

theorem storeAll_next_block (j : Json) (q : ℕ) (p : Option ℕ) {b : ℕ} (hb : b ≠ q) :
    (j.storeAll (.next q) p).heap.block b = j.heap.block b := by
  cases p with
  | none => rfl
  | some p => exact modify_block _ _ hb

theorem storeAll_child_block (j : Json) (q : ℕ) (p : Option ℕ) {b : ℕ} (hb : b ≠ q) :
    (j.storeAll (.child q) p).heap.block b = j.heap.block b := by
  cases p with
  | none => rfl
  | some p => exact modify_block _ _ hb

theorem storeAll_next_self (j : Json) (q : ℕ) (p : Option ℕ) {k v c : Option ℕ}
    (h : j.heap.block q = some (.fields ⟨k, v, c, none⟩)) :
    (j.storeAll (.next q) p).heap.block q = some (.fields ⟨k, v, c, p⟩) := by
  cases p with
  | none => exact h
  | some p =>
    rw [Json.storeAll, Json.store, modify_self, h]
    rfl

theorem storeAll_child_self (j : Json) (q : ℕ) (p : Option ℕ) {k v n : Option ℕ}
    (h : j.heap.block q = some (.fields ⟨k, v, none, n⟩)) :
    (j.storeAll (.child q) p).heap.block q = some (.fields ⟨k, v, p, n⟩) := by
  cases p with
  | none => exact h
  | some p =>
    rw [Json.storeAll, Json.store, modify_self, h]
    rfl

theorem storeAll_next_phead (j : Json) (q : ℕ) (p : Option ℕ) :
    (j.storeAll (.next q) p).phead = j.phead := by
  cases p <;> rfl

theorem storeAll_child_phead (j : Json) (q : ℕ) (p : Option ℕ) :
    (j.storeAll (.child q) p).phead = j.phead := by
  cases p <;> rfl

structure Added (j : Json) (l : Link) (key : CStr) (value : Option CStr) (child : JsonValue)
    (j' : Json) : Prop where
  fresh_le : j.heap.fresh + 2 ≤ j'.heap.fresh
  fields : ∃ v c cs,
    j'.heap.block j.heap.fresh = some (.fields ⟨some (j.heap.fresh + 1), v, c, none⟩) ∧
    OwnsText j'.heap.block v value ∧ Owns j'.heap.block c child cs ∧
    j.heap.since j'.heap = j.heap.fresh :: (j.heap.fresh + 1) :: (v.toList ++ cs)
  text : j'.heap.block (j.heap.fresh + 1) = some (.text key)
  below : ∀ b < j.heap.fresh, j'.heap.block b = (j.store j.heap.fresh l).heap.block b
  phead : j'.phead = (j.store j.heap.fresh l).phead
  freed : j'.heap.freed = j.heap.freed

theorem since_two {h h' : Heap JsonBlock} (hf : h'.fresh = h.fresh + 2) :
    h.since h' = [h.fresh, h.fresh + 1] := by
  rw [Heap.since, hf, Nat.add_sub_cancel_left]
  rfl

theorem addKey_fields (j : Json) {l : Link} (key : CStr) (hl : l.Below j.heap.fresh) :
    (j.addKey l key).heap.block j.heap.fresh =
      some (.fields ⟨some (j.heap.fresh + 1), none, none, none⟩) := by
  rw [Json.addKey, store_block _ _ hl le_rfl, modify_self, malloc_block _ _ (by simp), malloc_new]
  rfl

theorem addKey_added (j : Json) {l : Link} (key : CStr) (hl : l.Below j.heap.fresh) :
    Added j l key none .null (j.addKey l key) := by
  have hp := addKey_fields j key hl
  have hk : (j.addKey l key).heap.block (j.heap.fresh + 1) = some (.text key) := by
    rw [Json.addKey, store_block _ _ hl (by omega), modify_block _ _ (by omega)]
    exact malloc_new _ _
  constructor
  · rw [addKey_fresh]
  · exact ⟨none, none, [], hp, .inl ⟨rfl, rfl⟩, .null, since_two (addKey_fresh j l key)⟩
  · exact hk
  · intro b hb
    have hm : ∀ f : JsonBlock → JsonBlock,
        (((j.heap.malloc (.fields ⟨none, none, none, none⟩)).malloc (.text key)).modify f
          j.heap.fresh).block b = j.heap.block b := by
      intro f
      rw [modify_block _ _ hb.ne, malloc_block _ _ (by rw [malloc_fresh]; omega), malloc_block _ _ hb]
    cases l with
    | head => exact hm _
    | next q =>
      by_cases hq : b = q
      · subst hq
        simp only [Json.addKey, Json.store, modify_self, hm]
      · simp only [Json.addKey, Json.store, modify_block _ _ hq, hm]
    | child q =>
      by_cases hq : b = q
      · subst hq
        simp only [Json.addKey, Json.store, modify_self, hm]
      · simp only [Json.addKey, Json.store, modify_block _ _ hq, hm]
  · cases l <;> rfl
  · exact addKey_freed j l key

theorem copyValue_added (j : Json) {l : Link} (key : CStr) (value : Option CStr)
    (hl : l.Below j.heap.fresh) :
    Added j l key value .null ((j.addKey l key).copyValue j.heap.fresh value) := by
  cases value with
  | none => exact addKey_added j key hl
  | some s =>
    have ha := addKey_added j key hl
    have hf := addKey_fresh j l key
    have hne : j.heap.fresh + 2 ≠ j.heap.fresh := by omega
    constructor
    · simp [Json.copyValue]
    · refine ⟨some (j.heap.fresh + 2), none, [], ?_, .inr ⟨_, s, rfl, rfl, ?_⟩, .null, ?_⟩
      · rw [Json.copyValue, modify_self, malloc_block _ _ (by rw [hf]; omega), addKey_fields j key hl, hf]
        rfl
      · rw [Json.copyValue, modify_block _ _ hne, ← hf, malloc_new]
      · rw [Heap.since, Json.copyValue, modify_fresh, malloc_fresh, hf, Nat.add_assoc,
          Nat.add_sub_cancel_left]
        rfl
    · rw [Json.copyValue, modify_block _ _ (by omega), malloc_block _ _ (by rw [hf]; omega)]
      exact ha.text
    · intro b hb
      rw [Json.copyValue, modify_block _ _ hb.ne, malloc_block _ _ (by rw [hf]; omega)]
      exact ha.below b hb
    · exact ha.phead
    · exact ha.freed

theorem child_added (j : Json) {l : Link} (key : CStr) (hl : l.Below j.heap.fresh) {p : Option ℕ}
    {child : JsonValue} {j' : Json} (h : Built (j.addKey l key) (.child j.heap.fresh) p child j') :
    Added j l key none child j' := by
  have ha := addKey_added j key hl
  have hf := addKey_fresh j l key
  have hle := h.fresh_le
  constructor
  · rwa [hf] at hle
  · refine ⟨none, p, (j.addKey l key).heap.since j'.heap, ?_, .inl ⟨rfl, rfl⟩, h.holds, ?_⟩
    · rw [h.below _ (by omega)]
      exact storeAll_child_self _ _ p (addKey_fields j key hl)
    · rw [← since_append (by omega : j.heap.fresh ≤ (j.addKey l key).heap.fresh) hle, since_two hf]
      rfl
  · rw [h.below _ (by omega), storeAll_child_block _ _ _ (by omega)]
    exact ha.text
  · intro b hb
    rw [h.below b (by omega), storeAll_child_block _ _ _ hb.ne]
    exact ha.below b hb
  · rw [h.phead, storeAll_child_phead]
    exact ha.phead
  · rw [h.freed]
    exact ha.freed

theorem Added.built {j j' j'' : Json} {l : Link} {key : CStr} {value : Option CStr}
    {child next : JsonValue} {p : Option ℕ} (ha : Added j l key value child j')
    (hb : Built j' (.next j.heap.fresh) p next j'') :
    Built j l (some j.heap.fresh) (.node key value child next) j'' := by
  obtain ⟨v, c, cs, hfields, hvalue, hchild, hsince⟩ := ha.fields
  have hle := ha.fresh_le
  have hle' := hb.fresh_le
  have hkept : ∀ b ∈ j.heap.since j'.heap, b ≠ j.heap.fresh → j''.heap.block b = j'.heap.block b := by
    intro b hm hne
    rw [hb.below b (mem_since.mp hm).2]
    exact storeAll_next_block _ _ _ hne
  have hnodup := since_nodup j.heap j'.heap
  rw [hsince] at hnodup
  have hmem : ∀ b ∈ v.toList ++ cs, j''.heap.block b = j'.heap.block b := by
    intro b hm
    apply hkept
    · rw [hsince]
      exact List.mem_cons_of_mem _ (List.mem_cons_of_mem _ hm)
    · rintro rfl
      exact (List.nodup_cons.mp hnodup).1 (List.mem_cons_of_mem _ hm)
  constructor
  · omega
  · rw [← since_append (by omega) hle', hsince]
    apply Owns.node
    · rw [hb.below _ (by omega)]
      exact storeAll_next_self _ _ p hfields
    · rw [hb.below _ (by omega), storeAll_next_block _ _ _ (by omega)]
      exact ha.text
    · exact hvalue.congr (fun b hm => hmem b (List.mem_append_left _ hm))
    · exact hchild.congr (fun b hm => hmem b (List.mem_append_right _ hm))
    · exact hb.holds
  · intro b hlt
    rw [hb.below b (by omega), storeAll_next_block _ _ _ hlt.ne]
    exact ha.below b hlt
  · rw [hb.phead, storeAll_next_phead]
    exact ha.phead
  · rw [hb.freed]
    exact ha.freed

def Run (j : Json) (l : Link) (p : Option ℕ) (ends : Prop) (q : Option Parse) : HeapParse → Prop
  | .fault => ends → q = some .overRead
  | .done j' mem => ∃ tree, Built j l p tree j' ∧
      (ends → mem.length ≤ 1 ∧ q = some (.done tree mem.head?))

theorem Run.imp {j : Json} {l : Link} {p : Option ℕ} {e e' : Prop} {q q' : Option Parse} {r : HeapParse}
    (h : Run j l p e q r) (he : e' → e ∧ q' = q) : Run j l p e' q' r := by
  cases r with
  | fault =>
    intro hends
    rw [(he hends).2]
    exact h (he hends).1
  | done j' mem =>
    obtain ⟨tree, hb, hp⟩ := h
    refine ⟨tree, hb, ?_⟩
    intro hends
    rw [(he hends).2]
    exact hp (he hends).1

theorem afterValue_run {loop : HeapLoop} {pure : Option Parse} {isChild : Bool} {j j' : Json} {l : Link}
    {key m : CStr} {value : Option CStr} {child : JsonValue} {beyond : Texts} {r : HeapParse}
    (hloop : ∀ r, loop isChild j' (.next j.heap.fresh) m beyond = some r →
      ∃ p, Run j' (.next j.heap.fresh) p (beyond = []) pure r)
    (ha : Added j l key value child j')
    (h : j'.afterValue loop isChild j.heap.fresh m beyond = some r) :
    Run j l (some j.heap.fresh) (beyond = []) (afterValue isChild key value child m pure) r := by
  unfold Json.afterValue at h
  by_cases hc : atClose isChild m = true
  · rw [if_pos hc] at h
    cases h
    refine ⟨_, ha.built (Built.nil j' _), ?_⟩
    rintro rfl
    refine ⟨le_rfl, ?_⟩
    rw [afterValue, if_pos hc]
    rfl
  · rw [if_neg hc] at h
    obtain ⟨p, hr⟩ := hloop r h
    cases r with
    | fault =>
      intro he
      rw [afterValue, if_neg hc, hr he]
      rfl
    | done j'' mem =>
      obtain ⟨tree, hb, hp⟩ := hr
      refine ⟨_, ha.built hb, ?_⟩
      intro he
      obtain ⟨hm, hq⟩ := hp he
      refine ⟨hm, ?_⟩
      rw [afterValue, if_neg hc, hq]
      rfl

theorem next_cursor {mem : Texts} (h : mem.length ≤ 1) :
    Cursor.next mem.head? = mem.next.head? ∧ mem.next.length ≤ 1 := by
  rcases mem with _ | ⟨_ | ⟨c, m⟩, _ | ⟨b, mem⟩⟩
  · exact ⟨rfl, h⟩
  · exact ⟨rfl, Nat.zero_le 1⟩
  · simp at h
  · exact ⟨rfl, h⟩
  · simp at h

theorem parseValue_run {old : ℕ → Option Char} {loop : HeapLoop} {pure : Bool → CStr → Option Parse}
    {isChild : Bool} {j : Json} {l : Link} {key m : CStr} {beyond : Texts} {r : HeapParse}
    (hl : l.Below j.heap.fresh)
    (hloop : ∀ isChild j l m beyond r, l.Below j.heap.fresh → loop isChild j l m beyond = some r →
      ∃ p, Run j l p (beyond = []) (pure isChild m) r)
    (h : (j.addKey l key).parseValue old loop isChild j.heap.fresh m beyond = some r) :
    Run j l (some j.heap.fresh) (beyond = []) (parseValue old pure isChild key m) r := by
  have hf := addKey_fresh j l key
  unfold Json.parseValue at h
  unfold parseValue
  by_cases ho : m.head? = some '{'
  · rw [if_pos ho] at h ⊢
    cases hc : loop true (j.addKey l key) (.child j.heap.fresh) m beyond with
    | none =>
      rw [hc] at h
      cases h
    | some rc =>
      obtain ⟨p, hrun⟩ := hloop _ _ _ _ _ rc (by rw [Link.Below, hf]; omega) hc
      rw [hc] at h
      cases rc with
      | fault =>
        cases h
        intro he
        rw [hrun he]
      | done j' mem =>
        obtain ⟨child, hb, hp⟩ := hrun
        have ha := child_added j key hl hb
        have hle := ha.fresh_le
        simp only at h
        cases hn : mem.next with
        | nil =>
          rw [hn] at h
          cases h
          intro he
          obtain ⟨hm, hq⟩ := hp he
          rw [hq]
          simp only [(next_cursor hm).1, hn, List.head?_nil]
        | cons m' beyond' =>
          rw [hn] at h
          have hr := afterValue_run
            (fun r => hloop isChild j' (.next j.heap.fresh) m' beyond' r (by rw [Link.Below]; omega)) ha h
          apply hr.imp
          intro he
          obtain ⟨hm, hq⟩ := hp he
          obtain ⟨hcur, hlen⟩ := next_cursor hm
          rw [hn] at hcur hlen
          simp only [hq, hcur, List.head?_cons]
          exact ⟨List.length_eq_zero_iff.mp (by simpa using hlen), trivial⟩
  · rw [if_neg ho] at h ⊢
    cases hv : readValue m with
    | error m' =>
      rw [hv] at h
      cases h
      refine ⟨_, (addKey_added j key hl).built (Built.nil _ _), ?_⟩
      rintro rfl
      exact ⟨le_rfl, rfl⟩
    | done value m' =>
      rw [hv] at h
      have ha := copyValue_added j key (valueCopy (old (m' :: beyond).flatten.length) value) hl
      have hle := ha.fresh_le
      have hr := afterValue_run
        (fun r => hloop isChild _ (.next j.heap.fresh) m' beyond r (by rw [Link.Below]; omega)) ha h
      apply hr.imp
      rintro rfl
      refine ⟨rfl, ?_⟩
      simp

theorem parseLoop_run (old : ℕ → Option Char) (n : ℕ) (isChild : Bool) (j : Json) (l : Link) (m : CStr)
    (beyond : Texts) (r : HeapParse) (hl : l.Below j.heap.fresh)
    (h : Json.parseLoop old n isChild j l m beyond = some r) :
    ∃ p, Run j l p (beyond = []) (parseLoop old n isChild m) r := by
  induction n generalizing isChild j l m beyond r with
  | zero => cases h
  | succ n ih =>
    cases m with
    | nil =>
      cases h
      refine ⟨none, .null, Built.nil j l, ?_⟩
      rintro rfl
      exact ⟨Nat.zero_le 1, rfl⟩
    | cons c m =>
      rw [Json.parseLoop] at h
      rw [parseLoop]
      by_cases hc : atClose isChild m = true
      · rw [if_pos hc] at h ⊢
        cases h
        refine ⟨none, .null, Built.nil j l, ?_⟩
        rintro rfl
        exact ⟨le_rfl, rfl⟩
      rw [if_neg hc] at h ⊢
      cases hk : readKey m with
      | error m' =>
        rw [hk] at h
        cases h
        refine ⟨none, .null, Built.nil j l, ?_⟩
        rintro rfl
        exact ⟨le_rfl, rfl⟩
      | found key m' =>
        rw [hk] at h
        refine ⟨_, (parseValue_run hl ih h).imp ?_⟩
        rintro rfl
        refine ⟨rfl, ?_⟩
        simp

/-! The parse ends: each round leaves less of the memory. -/

theorem size_cons (m : CStr) (beyond : Texts) :
    Texts.size (m :: beyond) = m.length + 1 + Texts.size beyond := by
  simp [Texts.size]

theorem size_suffix {m m' : CStr} (beyond : Texts) (h : m' <:+ m) :
    Texts.size (m' :: beyond) ≤ Texts.size (m :: beyond) := by
  have hl := h.length_le
  rw [size_cons, size_cons]
  omega

theorem size_next {mem : Texts} {m : CStr} {beyond : Texts} (h : mem.next = m :: beyond) :
    Texts.size (m :: beyond) < mem.size := by
  rcases mem with _ | ⟨_ | ⟨c, m'⟩, mem⟩
  · cases h
  · rw [Texts.next] at h
    rw [h, size_cons [] (m :: beyond)]
    omega
  · rw [Texts.next] at h
    cases h
    rw [size_cons (c :: m), size_cons m, List.length_cons]
    omega

def Ends (n : ℕ) : Option HeapParse → Prop
  | none => False
  | some .fault => True
  | some (.done _ mem) => mem.size ≤ n

theorem Ends.mono {n n' : ℕ} (h : n ≤ n') {r : Option HeapParse} (hr : Ends n r) : Ends n' r := by
  rcases r with _ | _ | ⟨j, mem⟩
  · exact hr
  · exact hr
  · exact le_trans hr h

theorem afterValue_ends {loop : HeapLoop} (isChild : Bool) (j : Json) (p : ℕ) {m : CStr} {beyond : Texts}
    {n : ℕ} (hloop : ∀ isChild j l, Ends n (loop isChild j l m beyond))
    (hm : Texts.size (m :: beyond) ≤ n) : Ends n (j.afterValue loop isChild p m beyond) := by
  unfold Json.afterValue
  split_ifs
  · exact hm
  · exact hloop isChild j _

theorem parseValue_ends (old : ℕ → Option Char) {loop : HeapLoop} (isChild : Bool) (j : Json) (p : ℕ)
    {m : CStr} {beyond : Texts} {n : ℕ}
    (hloop : ∀ isChild j l m beyond, Texts.size (m :: beyond) ≤ n →
      Ends (Texts.size (m :: beyond)) (loop isChild j l m beyond))
    (hm : Texts.size (m :: beyond) ≤ n) :
    Ends (Texts.size (m :: beyond)) (j.parseValue old loop isChild p m beyond) := by
  have hafter : ∀ (j : Json) m' beyond', Texts.size (m' :: beyond') ≤ Texts.size (m :: beyond) →
      Ends (Texts.size (m :: beyond)) (j.afterValue loop isChild p m' beyond') := by
    intro j m' beyond' hle
    apply afterValue_ends isChild j p _ hle
    intro isChild j l
    exact (hloop isChild j l m' beyond' (hle.trans hm)).mono hle
  unfold Json.parseValue
  by_cases ho : m.head? = some '{'
  · rw [if_pos ho]
    have hc := hloop true j (.child p) m beyond hm
    cases hr : loop true j (.child p) m beyond with
    | none =>
      rw [hr] at hc
      exact hc
    | some r =>
      rw [hr] at hc
      cases r with
      | fault => exact hc
      | done j' mem =>
        cases hn : mem.next with
        | nil =>
          simp only [hn]
          trivial
        | cons m' beyond' =>
          simp only [hn]
          exact hafter j' m' beyond' ((size_next hn).le.trans hc)
  · rw [if_neg ho]
    have hs := readValue_suffix m
    cases hv : readValue m with
    | error m' =>
      rw [hv] at hs
      exact size_suffix beyond hs
    | done value m' =>
      rw [hv] at hs
      exact hafter _ m' beyond (size_suffix beyond hs)

theorem parseLoop_ends (old : ℕ → Option Char) (n : ℕ) (isChild : Bool) (j : Json) (l : Link) (m : CStr)
    (beyond : Texts) (h : Texts.size (m :: beyond) ≤ n) :
    Ends (Texts.size (m :: beyond)) (Json.parseLoop old n isChild j l m beyond) := by
  induction n generalizing isChild j l m beyond with
  | zero =>
    rw [size_cons] at h
    omega
  | succ n ih =>
    cases m with
    | nil =>
      rw [Json.parseLoop, Ends, size_cons]
      omega
    | cons c m =>
      have hlt : Texts.size (m :: beyond) + 1 = Texts.size ((c :: m) :: beyond) := by
        rw [size_cons, size_cons, List.length_cons]
        omega
      rw [Json.parseLoop]
      by_cases hc : atClose isChild m = true
      · rw [if_pos hc, Ends]
        omega
      rw [if_neg hc]
      have hs := readKey_suffix m
      cases hk : readKey m with
      | error m' =>
        rw [hk] at hs
        have hle := size_suffix beyond hs
        simp only [Ends, KeyScan.cursor] at hle ⊢
        omega
      | found key m' =>
        rw [hk] at hs
        have hv : skipBlanks m'.tail <:+ m :=
          ((skipBlanks_suffix m'.tail).trans (List.tail_suffix m')).trans hs
        have hle := size_suffix beyond hv
        refine Ends.mono (by omega) (parseValue_ends old isChild _ _ ih ?_)
        omega

theorem parseString_returns (old : ℕ → Option Char) (j : Json) (text : CStr) (beyond : Texts) :
    ∃ r, j.parseString old text beyond = some r := by
  have he := parseLoop_ends old _ false j .head text beyond le_rfl
  cases h : j.parseString old text beyond with
  | none =>
    rw [Json.parseString] at h
    rw [h] at he
    exact he.elim
  | some r => exact ⟨r, rfl⟩

theorem parseString_refines {old : ℕ → Option Char} {j : Json} {text : CStr} {r : HeapParse}
    (h : j.parseString old text [] = some r) : ∃ p, Run j .head p True (parseString old text) r := by
  have hsize : Texts.size [text] = text.length + 1 := by simp [Texts.size]
  rw [Json.parseString, hsize] at h
  have hl : Link.Below j.heap.fresh .head := trivial
  obtain ⟨p, hr⟩ := parseLoop_run old _ false j .head text [] r hl h
  exact ⟨p, hr.imp (fun _ => ⟨rfl, rfl⟩)⟩

def AcceptsKey (text : CStr) : Prop := ∃ key m, readKey text.tail = .found key m

theorem parseString_built {old : ℕ → Option Char} {j j' : Json} {text : CStr} {beyond mem : Texts}
    (h : j.parseString old text beyond = some (.done j' mem)) :
    ∃ p tree, Built j .head p tree j' ∧ (p ≠ none ↔ AcceptsKey text) := by
  rw [Json.parseString, size_cons, Nat.add_right_comm] at h
  cases text with
  | nil =>
    cases h
    refine ⟨none, .null, Built.nil j _, ?_⟩
    constructor
    · intro hn
      exact absurd rfl hn
    · rintro ⟨key, m, hk⟩
      cases hk
  | cons c m =>
    rw [Json.parseLoop] at h
    have hc : ¬atClose false m = true := by simp [atClose]
    rw [if_neg hc] at h
    cases hk : readKey m with
    | error m' =>
      rw [hk] at h
      cases h
      refine ⟨none, .null, Built.nil j _, ?_⟩
      constructor
      · intro hn
        exact absurd rfl hn
      · rintro ⟨key, m'', hk'⟩
        rw [List.tail_cons, hk] at hk'
        cases hk'
    | found key m' =>
      rw [hk] at h
      have hl : Link.Below j.heap.fresh .head := trivial
      obtain ⟨tree, hb, -⟩ := parseValue_run hl
        (fun isChild j l m beyond r => parseLoop_run old _ isChild j l m beyond r) h
      refine ⟨_, tree, hb, ?_⟩
      constructor
      · intro _
        exact ⟨key, m', hk⟩
      · intro _
        exact Option.some_ne_none _

theorem new_phead (h : Heap JsonBlock) {p : Option ℕ} {tree : JsonValue} {j : Json}
    (hb : Built (Json.new h) .head p tree j) : j.phead = p.map some := by
  rw [hb.phead]
  cases p <;> rfl

end FishServer
