import FishServer.JsonTokens

namespace FishServer

def Builds (tree : JsonValue) (p : Option Parse) : Prop := ∃ cursor, p = some (.done tree cursor)

theorem builds_null_node {key : CStr} {value : Option CStr} {child next : JsonValue} {cursor : Cursor} :
    ¬Builds (.node key value child next) (some (.done .null cursor)) := by
  rintro ⟨c, he⟩
  cases he

/-! What a member adds to the tree. -/

theorem afterValue_builds {isChild : Bool} {key key' : CStr} {value value' : Option CStr}
    {child child' next : JsonValue} {m : CStr} {rest : Option Parse}
    (h : Builds (.node key value child next) (afterValue isChild key' value' child' m rest)) :
    key' = key ∧ value' = value ∧ child' = child ∧
      (atClose isChild m = false → Builds next rest) ∧ (atClose isChild m = true → next = .null) := by
  obtain ⟨cursor, h⟩ := h
  unfold afterValue at h
  split_ifs at h with hc
  · cases h
    exact ⟨rfl, rfl, rfl, fun hf => absurd (hc.symm.trans hf) (by decide), fun _ => rfl⟩
  · cases rest with
    | none => cases h
    | some p =>
      cases p with
      | overRead => cases h
      | done tree m' =>
        cases h
        exact ⟨rfl, rfl, rfl, fun _ => ⟨_, rfl⟩, fun ht => absurd ht hc⟩

theorem afterValue_done {isChild : Bool} {key : CStr} {value : Option CStr} {child next : JsonValue}
    {m : CStr} {rest : Option Parse} {cursor : Cursor} (hc : atClose isChild m = false)
    (h : rest = some (.done next cursor)) :
    afterValue isChild key value child m rest = some (.done (.node key value child next) cursor) := by
  rw [afterValue, hc, h]
  rfl

theorem Leaf.text_cons (v : Leaf) : ∃ c w, v.text = c :: w ∧ c ≠ ' ' ∧ c ≠ '{' := by
  cases v with
  | str q s mark ne => exact ⟨q, _, rfl, quote_ne mark (by decide), quote_ne mark (by decide)⟩
  | num neg digits ne digit =>
    obtain ⟨c, ds, rfl⟩ := List.exists_cons_of_ne_nil ne
    obtain ⟨_, _, ho, hb, _⟩ := digit_plain (digit c (by simp))
    cases neg with
    | false => exact ⟨c, ds, rfl, hb, ho⟩
    | true => exact ⟨'-', c :: ds, rfl, by decide, by decide⟩

theorem Leaf.skipBlanks_text (v : Leaf) (m : CStr) : skipBlanks (v.text ++ m) = v.text ++ m := by
  obtain ⟨c, w, hv, hb, _⟩ := v.text_cons
  rw [hv]
  exact skipBlanks_cons c (w ++ m) hb

section

variable (heap : ℕ → Option Char) (loop : Bool → CStr → Option Parse) (isChild : Bool)

theorem parseValue_leaf (key : CStr) (v : Leaf) (m : CStr) :
    parseValue heap loop isChild key (v.text ++ m) =
      match readValue (v.text ++ m) with
      | .error m => some (.done (.node key none .null .null) (some m))
      | .done value m =>
        afterValue isChild key (valueCopy (heap m.length) value) .null m (loop isChild m) := by
  obtain ⟨c, w, hv, _, ho⟩ := v.text_cons
  unfold parseValue
  apply if_neg
  simpa [hv] using ho

theorem parseValue_key {key key' : CStr} {m : CStr} {value : Option CStr} {child next : JsonValue}
    (h : Builds (.node key value child next) (parseValue heap loop isChild key' m)) : key' = key := by
  unfold parseValue at h
  split_ifs at h
  · cases hl : loop true m with
    | none => obtain ⟨c, he⟩ := h; simp [hl] at he
    | some p =>
      cases p with
      | overRead => obtain ⟨c, he⟩ := h; simp [hl] at he
      | done child' cursor =>
        simp only [hl] at h
        cases hn : cursor.next with
        | none => obtain ⟨c, he⟩ := h; simp [hn] at he
        | some m' =>
          simp only [hn] at h
          exact (afterValue_builds h).1
  · cases hr : readValue m with
    | error m' =>
      obtain ⟨c, he⟩ := h
      simp only [hr] at he
      cases he
      rfl
    | done value' m' =>
      simp only [hr] at h
      exact (afterValue_builds h).1

end

theorem blanks_append (m n : ℕ) (r : CStr) : blanks m ++ (blanks n ++ r) = blanks (m + n) ++ r := by
  rw [← List.append_assoc, blanks, blanks, blanks, List.replicate_append_replicate]

theorem blanks_head (n : ℕ) (m : CStr) :
    (blanks n ++ m).head? = if n = 0 then m.head? else some ' ' := by
  cases n <;> rfl

theorem Head.text_append (h : Head) (lead : ℕ) (r : CStr) :
    blanks lead ++ (h.text ++ r) = blanks (lead + h.before) ++
      (h.keyText ++ (blanks h.afterKey ++ ':' :: (blanks h.afterColon ++ r))) := by
  rw [← blanks_append, Head.text]
  simp only [List.append_assoc, List.cons_append]

theorem Head.atClose_iff (h : Head) (isChild : Bool) (lead : ℕ) (r : CStr) :
    atClose isChild (blanks lead ++ (h.text ++ r)) = false ↔ h.opens isChild lead := by
  obtain ⟨c, k, hk, _⟩ := h.keyText_cons
  have hc : (h.keyText ++ (blanks h.afterKey ++ ':' :: (blanks h.afterColon ++ r))).head? =
      h.keyText.head? := by
    rw [hk]
    rfl
  rw [h.text_append, atClose, blanks_head, hc, Head.opens]
  by_cases hz : lead + h.before = 0
  · cases isChild <;> simp [hz]
  · rw [if_neg hz]
    constructor
    · intro _ _ h0
      exact absurd h0 hz
    · intro _
      simp

theorem parseLoop_head (heap : ℕ → Option Char) (n : ℕ) (isChild : Bool) (c : Char) (lead : ℕ)
    (h : Head) (r : CStr) (hb : skipBlanks r = r) (ho : h.opens isChild lead) :
    parseLoop heap (n + 1) isChild (c :: (blanks lead ++ (h.text ++ r))) =
      parseValue heap (parseLoop heap n) isChild h.key r := by
  have hkey : ∀ old, copyStr old h.key = h.key :=
    fun old => copyStr_plain old h.key (fun c hc => (h.key_plain c hc).2.2.2)
  rw [parseLoop, (h.atClose_iff isChild lead r).mpr ho, h.text_append, readKey_keyText]
  simp only [Bool.false_eq_true, if_false, List.tail_cons, hkey, skipBlanks_blanks, hb]

-- the closing brace of the outermost object is taken for a key
theorem parseLoop_end (heap : ℕ → Option Char) (n a : ℕ) :
    parseLoop heap (n + 1) false (blanks a ++ ['}']) = some (.done .null (some [])) := by
  cases a with
  | zero => rfl
  | succ a =>
    have hb : blanks (a + 1) ++ ['}'] = ' ' :: (blanks a ++ ['}']) := rfl
    have hr : readKey (blanks a ++ ['}']) = .error [] := by
      unfold readKey
      rw [skipBlanks_blanks]
      rfl
    rw [hb, parseLoop, hr]
    rfl

def Members.behind (next : Members) (a : ℕ) (tail : CStr) : CStr :=
  blanks a ++ (next.comma ++ (next.text ++ '}' :: tail))

theorem Members.leaf_text (h : Head) (v : Leaf) (a : ℕ) (next : Members) (tail : CStr) :
    (Members.leaf h v a next).text ++ '}' :: tail = h.text ++ (v.text ++ next.behind a tail) := by
  simp only [Members.text, Members.behind, List.append_assoc]

theorem Members.object_text (h : Head) (p : ℕ) (inner : Members) (a : ℕ) (next : Members) (tail : CStr) :
    (Members.object h p inner a next).text ++ '}' :: tail =
      h.text ++ '{' :: (blanks p ++ (inner.text ++ '}' :: next.behind a tail)) := by
  simp only [Members.text, Members.behind, List.append_assoc, List.cons_append]

theorem Members.behind_nil (a : ℕ) (tail : CStr) :
    Members.nil.behind a tail = blanks a ++ '}' :: tail := rfl

theorem Members.behind_comma (next : Members) (h : next ≠ .nil) (a : ℕ) (tail : CStr) :
    next.behind a tail = blanks a ++ ',' :: (next.text ++ '}' :: tail) := by
  cases next with
  | nil => exact absurd rfl h
  | leaf => rfl
  | object => rfl

theorem Members.behind_zero (next : Members) (tail : CStr) :
    ∃ c r, (c = ',' ∨ c = '}') ∧ next.behind 0 tail = c :: r := by
  by_cases h : next = .nil
  · subst h
    exact ⟨'}', tail, .inr rfl, rfl⟩
  · exact ⟨',', next.text ++ '}' :: tail, .inl rfl, next.behind_comma h 0 tail⟩

section

variable (heap : ℕ → Option Char) (n : ℕ) (isChild : Bool) (key : CStr) (value : Option CStr)
  (child : JsonValue) (next : Members) (a : ℕ) (tail : CStr)

theorem behind_done (ht : isChild = false → tail = []) (hn : 0 < n)
    (ha : next ≠ .nil → a = 0) (hc : next = .nil → isChild = true → a ≤ 1)
    (ih : next ≠ .nil → ∃ cursor,
      parseLoop heap n isChild (',' :: (next.text ++ '}' :: tail)) = some (.done next.tree cursor) ∧
        (isChild = true → cursor = some ('}' :: tail))) :
    ∃ cursor, afterValue isChild key value child (next.behind a tail)
        (parseLoop heap n isChild (next.behind a tail)) =
          some (.done (.node key value child next.tree) cursor) ∧
      (isChild = true → cursor = some ('}' :: tail)) := by
  obtain ⟨n, rfl⟩ : ∃ k, n = k + 1 := ⟨n - 1, by omega⟩
  by_cases hnext : next = .nil
  · subst hnext
    rw [Members.behind_nil]
    cases isChild with
    | false =>
      rw [ht rfl]
      refine ⟨some [], afterValue_done ?_ (parseLoop_end heap n a), fun h => nomatch h⟩
      rfl
    | true =>
      refine ⟨some ('}' :: tail), ?_, fun _ => rfl⟩
      obtain rfl | rfl : a = 0 ∨ a = 1 := by have := hc rfl rfl; omega
      · rfl
      · exact afterValue_done rfl rfl
  · rw [next.behind_comma hnext, ha hnext]
    obtain ⟨cursor, hp, hcur⟩ := ih hnext
    refine ⟨cursor, afterValue_done ?_ hp, hcur⟩
    cases isChild <;> rfl

end

theorem behind_length (next : Members) (hne : next ≠ .nil) (a : ℕ) (tail : CStr) :
    (',' :: (blanks 0 ++ (next.text ++ '}' :: tail))).length ≤ (next.behind a tail).length := by
  rw [next.behind_comma hne]
  simp only [List.length_append, List.length_cons, blanks, List.length_replicate]
  omega

theorem inner_parse (heap : ℕ → Option Char) (inner : Members) (p n : ℕ) (tail : CStr) (hn : 0 < n)
    (hp : inner = .nil → p = 0)
    (h : inner ≠ .nil → ∃ cursor,
      parseLoop heap n true ('{' :: (blanks p ++ (inner.text ++ '}' :: tail))) =
        some (.done inner.tree cursor) ∧ (true = true → cursor = some ('}' :: tail))) :
    parseLoop heap n true ('{' :: (blanks p ++ (inner.text ++ '}' :: tail))) =
      some (.done inner.tree (some ('}' :: tail))) := by
  by_cases hi : inner = .nil
  · obtain ⟨n, rfl⟩ : ∃ k, n = k + 1 := ⟨n - 1, by omega⟩
    rw [hi, hp hi]
    rfl
  · obtain ⟨cursor, hparse, hcur⟩ := h hi
    rw [hparse, hcur rfl]

theorem reads_parse (heap : ℕ → Option Char) (t : Members) (isChild : Bool) (lead : ℕ) (c : Char)
    (tail : CStr) (n : ℕ) (hr : t.Reads isChild lead) (ht : isChild = false → tail = []) (hne : t ≠ .nil)
    (hn : (c :: (blanks lead ++ (t.text ++ '}' :: tail))).length < n) :
    ∃ cursor, parseLoop heap n isChild (c :: (blanks lead ++ (t.text ++ '}' :: tail))) =
        some (.done t.tree cursor) ∧ (isChild = true → cursor = some ('}' :: tail)) := by
  induction t generalizing isChild lead c tail n with
  | nil => exact absurd rfl hne
  | leaf h v a next ih =>
    obtain ⟨ho, hv, hnext⟩ := hr
    obtain ⟨n, rfl⟩ : ∃ k, n = k + 1 := ⟨n - 1, by omega⟩
    obtain ⟨e, r, he, hbehind⟩ := next.behind_zero tail
    have ha : next.behind a tail = blanks a ++ e :: r := by
      rw [← hbehind]
      rfl
    obtain ⟨raw, hraw, hcopy⟩ := readValue_closes v hv a e r he
    rw [Members.leaf_text] at hn ⊢
    simp only [List.length_cons, List.length_append] at hn
    rw [parseLoop_head heap n isChild c lead h _ (v.skipBlanks_text _) ho, parseValue_leaf, ha, hraw]
    simp only [hcopy]
    rw [← hbehind]
    apply behind_done heap n isChild h.key _ .null next 0 tail ht
    · omega
    · exact fun _ => rfl
    · exact fun _ _ => Nat.zero_le 1
    · intro hne'
      apply ih isChild 0 ',' tail n hnext ht hne'
      have hlen := behind_length next hne' a tail
      omega
  | object h p inner a next ihInner ih =>
    obtain ⟨ho, hp, hinner, ha, hc, hnext⟩ := hr
    obtain ⟨n, rfl⟩ : ∃ k, n = k + 1 := ⟨n - 1, by omega⟩
    rw [Members.object_text] at hn ⊢
    have hlen : ('{' :: (blanks p ++ (inner.text ++ '}' :: next.behind a tail))).length < n := by
      simp only [List.length_cons, List.length_append] at hn ⊢
      omega
    rw [parseLoop_head heap n isChild c lead h _ (skipBlanks_cons '{' _ (by decide)) ho]
    have hchild := inner_parse heap inner p n (next.behind a tail) (by omega) hp (fun hi =>
      ihInner true p '{' (next.behind a tail) n hinner (fun hf => nomatch hf) hi hlen)
    simp only [parseValue, List.head?_cons, if_true, hchild, Cursor.next]
    simp only [List.length_cons, List.length_append] at hlen
    apply behind_done heap n isChild h.key _ inner.tree next a tail ht
    · omega
    · exact ha
    · exact hc
    · intro hne'
      apply ih isChild 0 ',' tail n hnext ht hne'
      have := behind_length next hne' a tail
      omega

/-! Conversely, what builds the tree was written so, but for the spread braces. -/

theorem Members.text_head (t : Members) (hne : t ≠ .nil) :
    ∃ h w value child next, t.text = h.text ++ w ∧ t.tree = .node (Head.key h) value child next := by
  cases t with
  | nil => exact absurd rfl hne
  | leaf h v a next => exact ⟨h, _, _, _, _, rfl, rfl⟩
  | object h p inner a next => exact ⟨h, _, _, _, _, rfl, rfl⟩

theorem Head.keyText_plain (h : Head) : ∀ c ∈ h.keyText, c ≠ ' ' ∧ c ≠ ':' ∧ c ≠ '\\' := by
  intro c hc
  simp only [Head.keyText, List.append_assoc, List.mem_append, Option.mem_toList] at hc
  rcases hc with hq | hk | hq
  · have hm := h.quote_mark c hq
    exact ⟨quote_ne hm (by decide), quote_ne hm (by decide), quote_ne hm (by decide)⟩
  · exact (h.key_plain c hk).2
  · have hm := h.quote_mark c hq
    exact ⟨quote_ne hm (by decide), quote_ne hm (by decide), quote_ne hm (by decide)⟩

-- a comma that is not consumed is read as part of the next key
theorem readKey_comma (h : Head) (a : ℕ) (r : CStr) :
    readKey (blanks a ++ ',' :: (h.text ++ r)) =
        .found (',' :: h.keyText) (':' :: (blanks h.afterColon ++ r)) ∨
      ∃ m, readKey (blanks a ++ ',' :: (h.text ++ r)) = .error m := by
  have htext := h.text_append 0 r
  rw [Nat.zero_add] at htext
  have hsign : quoteSign (',' :: (h.text ++ r)) = (none, ',' :: (h.text ++ r)) := rfl
  have hcomma : keyScan none [] (',' :: (h.text ++ r)) = keyScan none [','] (h.text ++ r) := rfl
  unfold readKey
  rw [skipBlanks_blanks, skipBlanks_cons ',' _ (by decide), hsign]
  simp only [hcomma]
  rw [show h.text ++ r = _ from htext]
  cases h.before with
  | zero =>
    left
    have hplain : ∀ c ∈ h.keyText, c ≠ ' ' ∧ c ≠ ':' :=
      fun c hc => ⟨(h.keyText_plain c hc).1, (h.keyText_plain c hc).2.1⟩
    have hk := keyScan_bare_append h.keyText [','] (blanks h.afterKey ++ ':' :: (blanks h.afterColon ++ r))
      hplain
    rw [keyScan_none_blanks] at hk
    simp only [blanks, List.replicate_zero, List.nil_append] at hk ⊢
    rw [hk]
    rfl
  | succ k =>
    right
    obtain ⟨c, w, hc, hb, hn⟩ := h.keyText_cons
    have hskip : skipBlanks (blanks (k + 1) ++
        (h.keyText ++ (blanks h.afterKey ++ ':' :: (blanks h.afterColon ++ r)))) =
          c :: (w ++ (blanks h.afterKey ++ ':' :: (blanks h.afterColon ++ r))) := by
      rw [skipBlanks_blanks, hc, List.cons_append, skipBlanks_cons c _ hb]
    have hblank : keyScan none [','] (blanks (k + 1) ++
        (h.keyText ++ (blanks h.afterKey ++ ':' :: (blanks h.afterColon ++ r)))) =
          colonAfter [','] (blanks (k + 1) ++
            (h.keyText ++ (blanks h.afterKey ++ ':' :: (blanks h.afterColon ++ r)))) := by
      have hs : ∀ m, blanks (k + 1) ++ m = ' ' :: (blanks k ++ m) := fun m => rfl
      rw [hs, keyScan_none, if_neg (by decide), if_pos rfl]
    rw [hblank, colonAfter, hskip]
    refine ⟨c :: (w ++ (blanks h.afterKey ++ ':' :: (blanks h.afterColon ++ r))), ?_⟩
    split
    · rename_i heq
      split at heq
      · rename_i he
        exact absurd (List.cons.inj he).1 hn
      · cases heq
    · split
      · rename_i he
        exact absurd (List.cons.inj he).1 hn
      · rfl

theorem comma_behind_blank (heap : ℕ → Option Char) (next : Members) (hne : next ≠ .nil) (n : ℕ)
    (isChild : Bool) (c : Char) (a : ℕ) (tail : CStr) :
    ¬Builds next.tree (parseLoop heap n isChild (c :: next.behind a tail)) := by
  obtain ⟨h, w, value, child, rest, htext, htree⟩ := next.text_head hne
  rw [next.behind_comma hne, htext, htree, List.append_assoc]
  cases n with
  | zero =>
    rintro ⟨cursor, he⟩
    cases he
  | succ n =>
    have hc : atClose isChild (blanks a ++ ',' :: (h.text ++ (w ++ '}' :: tail))) = false := by
      rw [atClose, blanks_head]
      split_ifs <;> simp
    rw [parseLoop, hc]
    rcases readKey_comma h a (w ++ '}' :: tail) with hr | ⟨m, hr⟩
    · rw [hr]
      intro hb
      have hkey := parseValue_key heap (parseLoop heap n) isChild hb
      rw [copyStr_plain] at hkey
      · have hlen := congrArg List.length hkey
        simp only [Head.keyText, List.length_cons, List.length_append] at hlen
        omega
      · intro c hc
        rcases List.mem_cons.mp hc with rfl | hc
        · decide
        · exact (h.keyText_plain c hc).2.2
    · rw [hr]
      exact builds_null_node

section

variable (heap : ℕ → Option Char) (n : ℕ) (isChild : Bool) (key key' : CStr) (value value' : Option CStr)
  (child child' : JsonValue) (next : Members) (a : ℕ) (tail : CStr)

theorem builds_behind
    (h : Builds (.node key value child next.tree) (afterValue isChild key' value' child'
      (next.behind a tail) (parseLoop heap n isChild (next.behind a tail)))) :
    next ≠ .nil → a = 0 ∧ Builds next.tree (parseLoop heap n isChild (',' :: (next.text ++ '}' :: tail))) := by
  intro hne
  rw [next.behind_comma hne] at h
  obtain ⟨_, _, _, hopen, _⟩ := afterValue_builds h
  cases a with
  | zero =>
    refine ⟨rfl, hopen ?_⟩
    cases isChild <;> rfl
  | succ a =>
    have hb := hopen (by cases isChild <;> rfl)
    have hbehind : blanks (a + 1) ++ ',' :: (next.text ++ '}' :: tail) = ' ' :: next.behind a tail := by
      rw [next.behind_comma hne]
      rfl
    rw [hbehind] at hb
    exact absurd hb (comma_behind_blank heap next hne n isChild ' ' a tail)

end

theorem builds_opens {heap : ℕ → Option Char} {n : ℕ} {isChild : Bool} {c : Char} {lead : ℕ} {h : Head}
    {r : CStr} {value : Option CStr} {child next : JsonValue}
    (hb : Builds (.node h.key value child next)
      (parseLoop heap (n + 1) isChild (c :: (blanks lead ++ (h.text ++ r))))) : h.opens isChild lead := by
  rw [← h.atClose_iff isChild lead r]
  cases hc : atClose isChild (blanks lead ++ (h.text ++ r)) with
  | false => rfl
  | true =>
    rw [parseLoop, hc] at hb
    exact absurd hb builds_null_node

theorem builds_leaf {heap : ℕ → Option Char} {loop : Bool → CStr → Option Parse} {isChild : Bool}
    {key : CStr} {v : Leaf} {m : CStr} {child next : JsonValue}
    (hb : Builds (.node key (some v.value) child next) (parseValue heap loop isChild key (v.text ++ m))) :
    v.closes := by
  rw [parseValue_leaf] at hb
  by_contra hv
  cases hr : readValue (v.text ++ m) with
  | error m' =>
    rw [hr] at hb
    obtain ⟨cursor, he⟩ := hb
    cases he
  | done value m' =>
    rw [hr] at hb
    exact readValue_open v hv m _ value m' hr (afterValue_builds hb).2.1

theorem builds_object {heap : ℕ → Option Char} {loop : Bool → CStr → Option Parse} {isChild : Bool}
    {key key' m : CStr} {value : Option CStr} {child next : JsonValue}
    (hb : Builds (.node key' value child next) (parseValue heap loop isChild key ('{' :: m))) :
    Builds child (loop true ('{' :: m)) := by
  simp only [parseValue, List.head?_cons, if_true] at hb
  obtain ⟨c, he⟩ := hb
  cases hl : loop true ('{' :: m) with
  | none => simp [hl] at he
  | some p =>
    cases p with
    | overRead => simp [hl] at he
    | done child' cursor =>
      simp only [hl] at he
      cases hn : cursor.next with
      | none => simp [hn] at he
      | some m' =>
        simp only [hn] at he
        have hc := (afterValue_builds ⟨c, he⟩).2.2.1
        exact ⟨cursor, by rw [hc]⟩

theorem builds_reads (heap : ℕ → Option Char) (t : Members) (isChild : Bool) (lead : ℕ) (c : Char)
    (tail : CStr) (n : ℕ) (hs : ¬t.Spread isChild) (hne : t ≠ .nil)
    (hn : (c :: (blanks lead ++ (t.text ++ '}' :: tail))).length < n)
    (hb : Builds t.tree (parseLoop heap n isChild (c :: (blanks lead ++ (t.text ++ '}' :: tail))))) :
    t.Reads isChild lead := by
  induction t generalizing isChild lead c tail n with
  | nil => exact absurd rfl hne
  | leaf h v a next ih =>
    obtain ⟨n, rfl⟩ : ∃ k, n = k + 1 := ⟨n - 1, by omega⟩
    rw [Members.leaf_text] at hn hb
    simp only [List.length_cons, List.length_append] at hn
    have ho := builds_opens hb
    rw [parseLoop_head heap n isChild c lead h _ (v.skipBlanks_text _) ho] at hb
    have hv := builds_leaf hb
    refine ⟨ho, hv, ?_⟩
    by_cases hnext : next = .nil
    · rw [hnext]
      trivial
    obtain ⟨e, r, he, hbehind⟩ := next.behind_zero tail
    have ha : next.behind a tail = blanks a ++ e :: r := by
      rw [← hbehind]
      rfl
    obtain ⟨raw, hraw, _⟩ := readValue_closes v hv a e r he
    rw [parseValue_leaf, ha, hraw] at hb
    rw [← hbehind] at hb
    obtain ⟨_, hrest⟩ := builds_behind heap n isChild _ _ _ _ _ _ next 0 tail hb hnext
    apply ih isChild 0 ',' tail n hs hnext _ hrest
    have := behind_length next hnext a tail
    omega
  | object h p inner a next ihInner ih =>
    simp only [Members.Spread, not_or] at hs
    obtain ⟨hpad, hinner, hgap, hnexts⟩ := hs
    obtain ⟨n, rfl⟩ : ∃ k, n = k + 1 := ⟨n - 1, by omega⟩
    rw [Members.object_text] at hn hb
    have hlen : ('{' :: (blanks p ++ (inner.text ++ '}' :: next.behind a tail))).length < n := by
      simp only [List.length_cons, List.length_append] at hn ⊢
      omega
    have ho := builds_opens hb
    rw [parseLoop_head heap n isChild c lead h _ (skipBlanks_cons '{' _ (by decide)) ho] at hb
    have hchild := builds_object hb
    have hp : inner = .nil → p = 0 := by
      intro hi
      by_contra hz
      exact hpad ⟨hi, by omega⟩
    have hri : inner.Reads true p := by
      by_cases hi : inner = .nil
      · rw [hi]
        trivial
      · exact ihInner true p '{' (next.behind a tail) n hinner hi hlen hchild
    rw [parseValue] at hb
    have hparse := inner_parse heap inner p n (next.behind a tail) (by omega) hp (fun hi =>
      reads_parse heap inner true p '{' (next.behind a tail) n hri (fun hf => nomatch hf) hi hlen)
    simp only [List.head?_cons, if_true, hparse, Cursor.next] at hb
    have hrest := builds_behind heap n isChild _ _ _ _ _ _ next a tail hb
    refine ⟨ho, hp, hri, fun hnext => (hrest hnext).1, ?_, ?_⟩
    · intro hnext hc
      by_contra hz
      exact hgap ⟨hnext, hc, by omega⟩
    · by_cases hnext : next = .nil
      · rw [hnext]
        trivial
      · apply ih isChild 0 ',' tail n hnexts hnext _ (hrest hnext).2
        have := behind_length next hnext a tail
        simp only [List.length_cons, List.length_append] at hlen
        omega

theorem parseString_printed (heap : ℕ → Option Char) (t : Members) :
    parseString heap t.printed =
      parseLoop heap (t.printed.length + 1) false ('{' :: (blanks 0 ++ (t.text ++ ['}']))) := rfl

theorem reads_builds (heap : ℕ → Option Char) {t : Members} (hr : t.Reads false 0) :
    Builds t.tree (parseString heap t.printed) := by
  rw [parseString_printed]
  by_cases hne : t = .nil
  · subst hne
    exact ⟨some [], rfl⟩
  · obtain ⟨cursor, hp, -⟩ := reads_parse heap t false 0 '{' [] _ hr (fun _ => rfl) hne (Nat.lt_succ_self _)
    exact ⟨cursor, hp⟩

theorem parse_printed (heap : ℕ → Option Char) (t : Members) :
    (t.Reads false 0 → Builds t.tree (parseString heap t.printed)) ∧
      (Builds t.tree (parseString heap t.printed) → t.Reads false 0 ∨ t.Spread false) := by
  refine ⟨reads_builds heap, ?_⟩
  intro hb
  by_cases hne : t = .nil
  · subst hne
    exact .inl trivial
  by_cases hs : t.Spread false
  · exact .inr hs
  · rw [parseString_printed] at hb
    exact .inl (builds_reads heap t false 0 '{' [] _ hs hne (Nat.lt_succ_self _) hb)

def trailingBackslash : Members :=
  .leaf {
    before := 0
    quote := none
    key := ['k']
    afterKey := 0
    afterColon := 0
    quote_mark := fun _ h => nomatch h
    key_ne := List.cons_ne_nil _ _
    key_plain := by
      intro c hc
      rw [List.mem_singleton.mp hc]
      decide } (.str '\'' ['a', '\\'] rfl (List.cons_ne_nil _ _)) 0 .nil

theorem parse_trailingBackslash :
    ¬ ∀ heap t, Builds (Members.tree t) (parseString heap t.printed) := by
  intro h
  obtain ⟨cursor, he⟩ := h (fun _ => none) trailingBackslash
  have hp : parseString (fun _ => none) trailingBackslash.printed =
      some (.done (.node ['k'] none .null .null) none) := by decide
  rw [hp] at he
  cases he

end FishServer
