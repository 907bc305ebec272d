import FishServer.JsonClear

namespace FishServer

open BlockHeap

/-! The texts that begin with a key. -/

/-- A key, in quotes or bare, and a colon, with blanks before either. -/
inductive KeyAhead : CStr → Prop
  | bare (n i : ℕ) (k r : CStr) (ne : k ≠ []) (plain : ∀ c ∈ k, c ≠ ' ' ∧ c ≠ ':')
      (unquoted : ∀ c ∈ k.head?, isQuote c = false) : KeyAhead (blanks n ++ (k ++ (blanks i ++ ':' :: r)))
  | quoted (n i : ℕ) (q : Char) (k r : CStr) (quote : isQuote q = true) (ne : k ≠ [])
      (plain : ∀ c ∈ k, c ≠ ' ' ∧ c ≠ q) : KeyAhead (blanks n ++ (q :: (k ++ q :: (blanks i ++ ':' :: r))))

-- the first character is skipped, whatever it is
def FirstKey (text : CStr) : Prop := ∃ c r, text = c :: r ∧ KeyAhead r

theorem blanks_skipBlanks (m : CStr) : ∃ n, m = blanks n ++ skipBlanks m := by
  induction m with
  | nil => exact ⟨0, rfl⟩
  | cons c m ih =>
    by_cases hc : c = ' '
    · obtain ⟨n, hn⟩ := ih
      refine ⟨n + 1, ?_⟩
      subst hc
      exact congrArg (' ' :: ·) hn
    · refine ⟨0, ?_⟩
      rw [skipBlanks_cons c m hc]
      rfl

theorem colonAfter_found {key m key' m' : CStr} (h : colonAfter key m = .found key' m') :
    ∃ i r, m = blanks i ++ ':' :: r ∧ key' = key := by
  obtain ⟨i, hi⟩ := blanks_skipBlanks m
  unfold colonAfter at h
  split at h
  · rename_i r hs
    rw [hs] at hi
    cases h
    exact ⟨i, r, hi, rfl⟩
  · cases h

theorem keyScan_none_found {m key key' m' : CStr} (h : keyScan none key m = .found key' m') :
    ∃ k i r, m = k ++ (blanks i ++ ':' :: r) ∧ key' = key ++ k ∧ ∀ c ∈ k, c ≠ ' ' ∧ c ≠ ':' := by
  induction m generalizing key with
  | nil => cases h
  | cons c m ih =>
    rw [keyScan_none] at h
    by_cases hc : c = ':'
    · rw [if_pos hc] at h
      cases h
      exact ⟨[], 0, m, by rw [hc]; rfl, (List.append_nil _).symm, by simp⟩
    rw [if_neg hc] at h
    by_cases hb : c = ' '
    · rw [if_pos hb] at h
      obtain ⟨i, r, hm, hk⟩ := colonAfter_found h
      exact ⟨[], i, r, hm, by rw [hk, List.append_nil], by simp⟩
    · rw [if_neg hb] at h
      obtain ⟨k, i, r, hm, hk, hp⟩ := ih h
      refine ⟨c :: k, i, r, ?_, ?_, ?_⟩
      · rw [hm]
        rfl
      · rw [hk, List.append_assoc]
        rfl
      · intro d hd
        rcases List.mem_cons.mp hd with rfl | hd
        · exact ⟨hb, hc⟩
        · exact hp d hd

theorem keyScan_some_found {q : Char} {m key key' m' : CStr}
    (h : keyScan (some q) key m = .found key' m') :
    ∃ k i r, m = k ++ q :: (blanks i ++ ':' :: r) ∧ key' = key ++ k ∧ ∀ c ∈ k, c ≠ ' ' ∧ c ≠ q := by
  induction m generalizing key with
  | nil => cases h
  | cons c m ih =>
    rw [keyScan_some] at h
    by_cases hc : c = q
    · rw [if_pos hc] at h
      obtain ⟨i, r, hm, hk⟩ := colonAfter_found h
      exact ⟨[], i, r, by rw [hc, hm]; rfl, by rw [hk, List.append_nil], by simp⟩
    rw [if_neg hc] at h
    by_cases hb : c = ' '
    · rw [if_pos hb] at h
      cases h
    · rw [if_neg hb] at h
      obtain ⟨k, i, r, hm, hk, hp⟩ := ih h
      refine ⟨c :: k, i, r, ?_, ?_, ?_⟩
      · rw [hm]
        rfl
      · rw [hk, List.append_assoc]
        rfl
      · intro d hd
        rcases List.mem_cons.mp hd with rfl | hd
        · exact ⟨hb, hc⟩
        · exact hp d hd

theorem readKey_ahead {m key m' : CStr} (h : readKey m = .found key m') : KeyAhead m := by
  have hne := readKey_found m key m' h
  obtain ⟨n, hn⟩ := blanks_skipBlanks m
  rw [hn]
  have hscan : keyScan (quoteSign (skipBlanks m)).1 [] (quoteSign (skipBlanks m)).2 = .found key m' := by
    unfold readKey at h
    cases hk : keyScan (quoteSign (skipBlanks m)).1 [] (quoteSign (skipBlanks m)).2 with
    | error m'' => simp [hk] at h
    | found k m'' =>
      cases k with
      | nil => simp [hk] at h
      | cons d k => simpa [hk] using h
  cases hs : skipBlanks m with
  | nil =>
    rw [hs] at hscan
    cases hscan
  | cons c r =>
    rw [hs, quoteSign] at hscan
    by_cases hq : isQuote c = true
    · rw [if_pos hq] at hscan
      obtain ⟨k, i, r', hr, rfl, hp⟩ := keyScan_some_found hscan
      have hr : r = key ++ c :: (blanks i ++ ':' :: r') := hr
      rw [hr]
      exact .quoted n i c key r' hq hne hp
    · rw [if_neg hq] at hscan
      obtain ⟨k, i, r', hr, rfl, hp⟩ := keyScan_none_found hscan
      have hr : c :: r = key ++ (blanks i ++ ':' :: r') := hr
      rw [hr]
      apply KeyAhead.bare n i key r' hne hp
      intro d hd
      cases key with
      | nil => cases hd
      | cons e key =>
        cases hr
        cases hd
        simpa using hq

theorem KeyAhead.read {m : CStr} (h : KeyAhead m) : ∃ key m', readKey m = .found key m' := by
  cases h with
  | bare n i k r ne plain unquoted =>
    obtain ⟨c, k, rfl⟩ := List.exists_cons_of_ne_nil ne
    have hc := plain c (by simp)
    have hq := unquoted c rfl
    refine ⟨c :: k, ':' :: r, ?_⟩
    have hs : quoteSign (c :: k ++ (blanks i ++ ':' :: r)) = (none, c :: k ++ (blanks i ++ ':' :: r)) := by
      rw [List.cons_append, quoteSign, if_neg (by simp [hq])]
    have hscan := keyScan_bare_append (c :: k) [] (blanks i ++ ':' :: r) plain
    rw [keyScan_none_blanks] at hscan
    rw [readKey, skipBlanks_blanks, List.cons_append, skipBlanks_cons _ _ hc.1, ← List.cons_append, hs]
    simp only [hscan, List.nil_append]
  | quoted n i q k r quote ne plain =>
    obtain ⟨c, k, rfl⟩ := List.exists_cons_of_ne_nil ne
    have hq : q ≠ ' ' := quote_ne quote (by decide)
    refine ⟨c :: k, ':' :: r, ?_⟩
    have hscan := keyScan_quoted_append q (c :: k) [] (q :: (blanks i ++ ':' :: r)) plain
    rw [keyScan_some, if_pos rfl, colonAfter_blanks] at hscan
    rw [readKey, skipBlanks_blanks, skipBlanks_cons _ _ hq, quoteSign, if_pos quote]
    simp only [hscan, List.nil_append]

theorem acceptsKey_iff (text : CStr) : AcceptsKey text ↔ FirstKey text := by
  constructor
  · rintro ⟨key, m, h⟩
    cases text with
    | nil => cases h
    | cons c r => exact ⟨c, r, rfl, readKey_ahead h⟩
  · rintro ⟨c, r, rfl, h⟩
    exact h.read

inductive Walk (h : Heap JsonBlock) (head : Option ℕ) : ℕ → Prop
  | head {p : ℕ} (hp : head = some p) : Walk h head p
  | next {p q : ℕ} {f : ValueFields} (hw : Walk h head p) (hf : fieldsAt h p = some f)
      (hq : f.next = some q) : Walk h head q
  | child {p q : ℕ} {f : ValueFields} (hw : Walk h head p) (hf : fieldsAt h p = some f)
      (hq : f.child = some q) : Walk h head q

theorem Owns.walk {h : Heap JsonBlock} {head : Option ℕ} {tree : JsonValue} {bs : List ℕ}
    (ho : Owns h.block head tree bs) {p : ℕ} (hw : Walk h head p) :
    ∃ tree' bs', Owns h.block (some p) tree' bs' ∧ ∀ b ∈ bs', b ∈ bs := by
  induction hw with
  | head hp =>
    rw [hp] at ho
    exact ⟨tree, bs, ho, fun b hb => hb⟩
  | next hw hf hq ih =>
    obtain ⟨tree', bs', ho', hsub⟩ := ih
    cases ho' with
    | node fields text content below after =>
      rw [fieldsAt_eq fields] at hf
      cases hf
      cases hq
      refine ⟨_, _, after, ?_⟩
      intro b hb
      apply hsub
      simp [hb]
  | child hw hf hq ih =>
    obtain ⟨tree', bs', ho', hsub⟩ := ih
    cases ho' with
    | node fields text content below after =>
      rw [fieldsAt_eq fields] at hf
      cases hf
      cases hq
      refine ⟨_, _, below, ?_⟩
      intro b hb
      apply hsub
      simp [hb]

theorem walk_cons {h : Heap JsonBlock} {p q : ℕ} {f : ValueFields} (hf : fieldsAt h p = some f)
    (hw : Walk h f.next q) : Walk h (some p) q := by
  induction hw with
  | head hp => exact .next (.head rfl) hf hp
  | next _ hf' hq ih => exact .next ih hf' hq
  | child _ hf' hq ih => exact .child ih hf' hq

theorem findKey_returns {h : Heap JsonBlock} (key : CStr) (tree : JsonValue) (n : ℕ) (p : Option ℕ)
    (bs : List ℕ) (ho : Owns h.block p tree bs) (hn : bs.length < n) :
    ∃ r, findKey h key n p = some r ∧ ∀ q, r = some q → Walk h p q := by
  induction tree generalizing n p bs with
  | null =>
    cases ho
    obtain ⟨n, rfl⟩ := Nat.exists_eq_add_of_lt hn
    exact ⟨none, by simp [findKey], by simp⟩
  | node k value child next ihc ihn =>
    cases ho with
    | node fields text content below after =>
      rename_i p k v c nx cs ns
      cases n with
      | zero => omega
      | succ n =>
        simp only [List.cons_append, List.append_assoc, List.length_cons, List.length_append] at hn
        obtain ⟨r, hr, hw⟩ := ihn n nx ns after (by omega)
        rw [findKey, fieldsAt_eq fields]
        simp only [Option.bind_eq_bind, Option.bind_some, textAt_eq text]
        split_ifs
        · refine ⟨some p, rfl, ?_⟩
          rintro q ⟨⟩
          exact .head rfl
        · refine ⟨r, hr, ?_⟩
          intro q hq
          exact walk_cons (fieldsAt_eq fields) (hw q hq)

theorem Owns.fields {h : Heap JsonBlock} {p : ℕ} {tree : JsonValue} {bs : List ℕ}
    (ho : Owns h.block (some p) tree bs) :
    p ∈ bs ∧ ∃ f k s, fieldsAt h p = some f ∧ f.key = some k ∧ textAt h k = some s := by
  cases ho with
  | node fields text content below after =>
    exact ⟨by simp, _, _, _, fieldsAt_eq fields, rfl, textAt_eq text⟩

/-- The list that a call leaves: the walks over it follow pointers to the new `JsonValue`s only, each with
a key, they come to an end, and they find nothing where no `JsonValue` was allocated. -/
structure Json.Defined (j j' : Json) (head : Option ℕ) : Prop where
  phead : j'.phead = some head
  walk : ∀ p, Walk j'.heap head p → p ∈ j.heap.since j'.heap ∧
    ∃ f k s, fieldsAt j'.heap p = some f ∧ f.key = some k ∧ textAt j'.heap k = some s
  getJsonValue : ∀ key, ∃ r, j'.getJsonValue key = some r
  value : ∀ key, ∃ v, j'.value key = some v
  clear : ∃ j'', j'.clear = some j''
  empty : j'.heap.fresh = j.heap.fresh → head = none

theorem Built.defined {j j' : Json} {p : Option ℕ} {tree : JsonValue} (hb : Built j .head p tree j')
    (hp : j'.phead = some p) : Json.Defined j j' p := by
  have hlen : (j.heap.since j'.heap).length < j'.heap.fresh + 1 := by
    rw [Heap.since, List.length_range']
    omega
  have hwalk : ∀ q, Walk j'.heap p q → q ∈ j.heap.since j'.heap ∧
      ∃ f k s, fieldsAt j'.heap q = some f ∧ f.key = some k ∧ textAt j'.heap k = some s := by
    intro q hw
    obtain ⟨tree', bs', ho, hsub⟩ := hb.holds.walk hw
    exact ⟨hsub q ho.fields.1, ho.fields.2⟩
  have hget : ∀ key, ∃ r, j'.getJsonValue key = some r ∧ ∀ q, r = some q → Walk j'.heap p q := by
    intro key
    obtain ⟨r, hr, hw⟩ := findKey_returns key tree _ p _ hb.holds hlen
    refine ⟨r, ?_, hw⟩
    rw [Json.getJsonValue, hp]
    exact hr
  constructor
  · exact hp
  · exact hwalk
  · intro key
    obtain ⟨r, hr, -⟩ := hget key
    exact ⟨r, hr⟩
  · intro key
    obtain ⟨r, hr, hw⟩ := hget key
    cases r with
    | none => exact ⟨none, by rw [Json.value, hr]; rfl⟩
    | some q =>
      obtain ⟨-, f, k, s, hf, -⟩ := hwalk q (hw q rfl)
      refine ⟨f.value, ?_⟩
      rw [Json.value, hr]
      simp only [Option.bind_eq_bind, Option.bind_some, hf]
  · obtain ⟨h', bs, hc, -⟩ :=
      clearFrom_released tree _ j'.heap p _ hb.holds (since_nodup j.heap j'.heap) hlen
    refine ⟨{ j' with heap := h' }, ?_⟩
    rw [Json.clear, hp]
    simp only [Option.bind_eq_bind, Option.bind_some, hc]
  · intro he
    cases p with
    | none => rfl
    | some p =>
      have hm := (hwalk p (.head rfl)).1
      rw [mem_since] at hm
      omega

/-- A parse into a new object leaves a defined list if and only if the text begins with a key: the
constructor leaves `_phead` as it was. -/
theorem parse_defined_iff (old : ℕ → Option Char) (h : Heap JsonBlock) (text : CStr) (beyond : Texts) :
    ∃ r, (Json.new h).parseString old text beyond = some r ∧
      ∀ j mem, r = .done j mem → ((∃ head, Json.Defined (Json.new h) j head) ↔ FirstKey text) := by
  obtain ⟨r, hr⟩ := parseString_returns old (Json.new h) text beyond
  refine ⟨r, hr, ?_⟩
  rintro j mem rfl
  obtain ⟨p, tree, hb, hp⟩ := parseString_built hr
  have hhead := new_phead h hb
  rw [← acceptsKey_iff, ← hp]
  constructor
  · rintro ⟨head, hd⟩ rfl
    rw [hd.phead] at hhead
    cases hhead
  · intro hne
    obtain ⟨q, rfl⟩ := Option.ne_none_iff_exists'.mp hne
    exact ⟨some q, hb.defined hhead⟩

theorem empty_text_undefined :
    ¬ ∀ (old : ℕ → Option Char) (h : Heap JsonBlock) (text : CStr) (beyond : Texts) (j : Json) (mem : Texts),
      (Json.new h).parseString old text beyond = some (.done j mem) →
        ∃ head, Json.Defined (Json.new h) j head := by
  intro h
  obtain ⟨head, hd⟩ := h (fun _ => none) Heap.empty [] [] _ _ rfl
  have hp := hd.phead
  cases hp

end FishServer
