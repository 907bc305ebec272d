import FishServer.JsonParts
import FishServer.JsonRoundTrip
import FishServer.Lib.Printf

namespace FishServer

/-! What is built without lists, as keys and values, and the text that is printed for it. -/

structure AlnumKey where
  text : CStr
  ne : text ≠ []
  alnum : ∀ c ∈ text, c.isAlphanum = true

structure TextValue where
  text : CStr
  ne : text ≠ []
  noNul : '\x00' ∉ text

inductive Content
  | nil
  | string (key : AlnumKey) (value : TextValue) (next : Content)
  | inter (key : AlnumKey) (n : ℤ) (next : Content)
  | object (key : AlnumKey) (inner next : Content)

def Content.tree : Content → JsonValue
  | .nil => .null
  | .string key value next => .node key.text (some value.text) .null next.tree
  | .inter key n next => .node key.text (some (Printf.decimal n)) .null next.tree
  | .object key inner next => .node key.text none inner.tree next.tree

-- the lengths are kept in a `u_int`
def cut (s : CStr) : CStr := s.take (s.length % 2 ^ 32)

def AlnumKey.printed (key : AlnumKey) : CStr :=
  if 0 < key.text.length % 2 ^ 32 then '"' :: (cut key.text ++ ['"', ':']) else []

def Content.comma : Content → CStr
  | .nil => []
  | _ => [',']

def Content.text : Content → CStr
  | .nil => []
  | .string key value next => key.printed ++ ('"' :: (cut value.text ++ '"' :: (next.comma ++ next.text)))
  | .inter key n next => key.printed ++ (Printf.decimal n ++ (next.comma ++ next.text))
  | .object key inner next => key.printed ++ ('{' :: (inner.text ++ '}' :: (next.comma ++ next.text)))

-- without a node the opening brace is written over
def Content.printed : Content → CStr
  | .nil => ['}']
  | c => '{' :: (c.text ++ ['}'])

def Content.Short : Content → Prop
  | .nil => True
  | .string key value next => key.text.length < 2 ^ 32 ∧ value.text.length < 2 ^ 32 ∧ next.Short
  | .inter key _ next => key.text.length < 2 ^ 32 ∧ next.Short
  | .object key inner next => key.text.length < 2 ^ 32 ∧ inner.Short ∧ next.Short

def Content.Clean : Content → Prop
  | .nil => True
  | .string _ value next => '"' ∉ value.text ∧ '\\' ∉ value.text ∧ next.Clean
  | .inter _ _ next => next.Clean
  | .object _ inner next => inner.Clean ∧ next.Clean

theorem stringScan_found {sign prev : Char} {value m raw r : CStr}
    (h : stringScan sign prev value m = .done (some raw) r) :
    ∃ s m', m = s ++ sign :: m' ∧ raw = value ++ s ∧ separatorAfter raw m' = .done (some raw) r ∧
      (prev ≠ '\\' → '\\' ∉ s → sign ∉ s) := by
  induction m generalizing prev value with
  | nil => cases h
  | cons c m ih =>
    rw [stringScan] at h
    split_ifs at h with hc
    · obtain rfl := separatorAfter_value h
      refine ⟨[], m, ?_, (List.append_nil _).symm, h, fun _ _ => List.not_mem_nil⟩
      rw [hc.1]
      rfl
    · obtain ⟨s, m', hm, hraw, hsep, hsign⟩ := ih h
      refine ⟨c :: s, m', ?_, ?_, hsep, ?_⟩
      · rw [hm]
        rfl
      · rw [hraw, List.append_assoc]
        rfl
      · intro hp hs
        rw [List.mem_cons, not_or] at hs ⊢
        exact ⟨fun he => hc ⟨he.symm, hp⟩, hsign (Ne.symm hs.1) hs.2⟩

theorem copyStr_shorter (old : Option Char) {s : CStr} (hs : EndsPlain s) (hm : '\\' ∈ s) :
    (copyStr old s).length < s.length := by
  induction s using copyStr.induct with
  | case1 => cases hm
  | case2 => exact absurd rfl hs
  | case3 c hc => exact absurd (List.mem_singleton.mp hm).symm hc
  | case4 c' s ih =>
    rw [copyStr, if_pos rfl]
    have hlen := copyStr_length old s
    simp only [List.length_cons]
    omega
  | case5 c c' s hc ih =>
    rw [copyStr, if_neg hc]
    have hs' : EndsPlain (c' :: s) := by simpa [EndsPlain] using hs
    have hlen := ih hs' ((List.mem_cons.mp hm).resolve_left (Ne.symm hc))
    simp only [List.length_cons] at hlen ⊢
    omega

-- once a backslash was dropped, the copy stays behind by backslashes only, and the quote ends that
theorem copyStr_behind (old : Option Char) (n : ℕ) (v r : CStr) :
    copyStr old (v ++ '"' :: r) ≠ List.replicate (n + 1) '\\' ++ v := by
  induction v using copyStr.induct generalizing n with
  | case1 =>
    rw [List.nil_append, copyStr_cons old '"' r (by decide), List.replicate_succ]
    intro h
    cases (List.cons.inj h).1
  | case2 =>
    intro h
    simp only [List.cons_append, List.nil_append, copyStr, if_true, List.replicate_succ] at h
    cases (List.cons.inj h).1
  | case3 c hc =>
    rw [List.cons_append, copyStr_cons old c _ hc, List.replicate_succ]
    intro h
    exact hc (List.cons.inj h).1
  | case4 c' s ih =>
    simp only [List.cons_append, copyStr, if_true, List.replicate_succ]
    intro h
    obtain ⟨hc, h⟩ := List.cons.inj h
    subst hc
    apply ih (n + 1)
    rw [h]
    simp only [List.replicate_succ', List.append_assoc, List.cons_append, List.nil_append]
  | case5 c c' s hc ih =>
    rw [List.cons_append, copyStr_cons old c _ hc, List.replicate_succ]
    intro h
    exact hc (List.cons.inj h).1

theorem copyStr_longer (old : Option Char) (v r : CStr) : copyStr old (v ++ '"' :: r) ≠ v := by
  induction v using copyStr.induct with
  | case1 =>
    rw [List.nil_append, copyStr_cons old '"' r (by decide)]
    exact List.cons_ne_nil _ _
  | case2 =>
    intro h
    simp only [List.cons_append, List.nil_append, copyStr, if_true] at h
    cases (List.cons.inj h).1
  | case3 c hc =>
    rw [List.cons_append, copyStr_cons old c _ hc, List.nil_append, copyStr_cons old '"' r (by decide)]
    intro h
    exact List.cons_ne_nil _ _ (List.cons.inj h).2
  | case4 c' s ih =>
    simp only [List.cons_append, copyStr, if_true]
    intro h
    obtain ⟨hc, h⟩ := List.cons.inj h
    subst hc
    exact copyStr_behind old 0 s r h
  | case5 c c' s hc ih =>
    rw [List.cons_append, copyStr_cons old c _ hc]
    intro h
    exact ih (List.cons.inj h).2

theorem stringScan_exact {old : Option Char} {v r raw m : CStr}
    (h : stringScan '"' '"' [] (v ++ '"' :: r) = .done (some raw) m) (hcopy : copyStr old raw = v) :
    ('"' ∉ v ∧ '\\' ∉ v) ∧ separatorAfter v r = .done (some v) m := by
  have hends := stringScan_endsPlain (fun hn => absurd rfl hn) h
  obtain ⟨s, m', hm, hraw, hsep, hsign⟩ := stringScan_found h
  rw [List.nil_append] at hraw
  subst hraw
  have hsame : raw = v ∧ m' = r := by
    rcases List.append_eq_append_iff.mp hm with ⟨a, rfl, ha⟩ | ⟨a, rfl, ha⟩
    · cases a with
      | nil => exact ⟨List.append_nil v, (List.cons.inj ha).2.symm⟩
      | cons c a =>
        obtain ⟨rfl, -⟩ := List.cons.inj ha
        exact absurd hcopy (copyStr_longer old v a)
    · cases a with
      | nil => exact ⟨(List.append_nil raw).symm, (List.cons.inj ha).2⟩
      | cons c a =>
        have hlen := copyStr_length old raw
        rw [hcopy, List.length_append, List.length_cons] at hlen
        omega
  obtain ⟨rfl, rfl⟩ := hsame
  have hback : '\\' ∉ raw := by
    intro hb
    have hlt := copyStr_shorter old hends hb
    rw [hcopy] at hlt
    omega
  exact ⟨⟨hsign (by decide) hback, hback⟩, hsep⟩

theorem alnum_plain {c : Char} (h : c.isAlphanum = true) : isQuote c = false ∧ c ≠ ' ' ∧ c ≠ ':' ∧ c ≠ '\\' := by
  refine ⟨?_, ?_, ?_, ?_⟩
  · by_contra hq
    simp only [isQuote, Bool.not_eq_false, Bool.or_eq_true, decide_eq_true_eq] at hq
    rcases hq with rfl | rfl <;> revert h <;> decide
  all_goals rintro rfl; revert h; decide

def AlnumKey.head (key : AlnumKey) : Head where
  before := 0
  quote := some '"'
  key := key.text
  afterKey := 0
  afterColon := 0
  quote_mark := by
    rintro q ⟨⟩
    rfl
  key_ne := key.ne
  key_plain := fun c hc => alnum_plain (key.alnum c hc)

def numberLeaf (n : ℤ) : Leaf :=
  .num (decide (n < 0)) (Nat.toDigits 10 n.natAbs) Nat.toDigits_ne_nil
    (fun _ hc => .inl (Nat.isDigit_of_mem_toDigits (by decide) (by decide) hc))

def Content.members : Content → Members
  | .nil => .nil
  | .string key value next => .leaf key.head (.str '"' value.text rfl value.ne) 0 next.members
  | .inter key n next => .leaf key.head (numberLeaf n) 0 next.members
  | .object key inner next => .object key.head 0 inner.members 0 next.members

theorem numberLeaf_text (n : ℤ) : (numberLeaf n).text = Printf.decimal n := by
  simp only [numberLeaf, Leaf.text, Printf.decimal, decide_eq_true_eq]
  split_ifs <;> rfl

theorem numberLeaf_value (n : ℤ) : (numberLeaf n).value = Printf.decimal n := numberLeaf_text n

theorem AlnumKey.opens (key : AlnumKey) (isChild : Bool) (lead : ℕ) : key.head.opens isChild lead := by
  intro _ _ h
  cases h

theorem cut_short {s : CStr} (h : s.length < 2 ^ 32) : cut s = s := by
  rw [cut, Nat.mod_eq_of_lt h, List.take_length]

theorem AlnumKey.printed_short (key : AlnumKey) (h : key.text.length < 2 ^ 32) : key.printed = key.head.text := by
  have hpos := List.length_pos_iff.mpr key.ne
  rw [AlnumKey.printed, Nat.mod_eq_of_lt h, if_pos hpos, cut_short h]
  simp [AlnumKey.head, Head.text, Head.keyText, blanks]

theorem escape_clean {s : CStr} (hq : '"' ∉ s) (hb : '\\' ∉ s) : escape '"' s = s := by
  induction s with
  | nil => rfl
  | cons c s ih =>
    rw [List.mem_cons, not_or] at hq hb
    rw [escape, if_neg, ih hq.2 hb.2]
    rintro (rfl | rfl)
    · exact hq.1 rfl
    · exact hb.1 rfl

theorem members_comma (c : Content) : c.members.comma = c.comma := by
  cases c <;> rfl

theorem members_tree (c : Content) : c.members.tree = c.tree := by
  induction c with
  | nil => rfl
  | string key value next ih => simp only [Content.members, Members.tree, Content.tree, ih, Leaf.value, AlnumKey.head]
  | inter key n next ih =>
    simp only [Content.members, Members.tree, Content.tree, ih, numberLeaf_value, AlnumKey.head]
  | object key inner next ihi ih => simp only [Content.members, Members.tree, Content.tree, ihi, ih, AlnumKey.head]

theorem members_text {c : Content} (hs : c.Short) (hc : c.Clean) : c.members.text = c.text := by
  induction c with
  | nil => rfl
  | string key value next ih =>
    obtain ⟨hk, hv, hn⟩ := hs
    obtain ⟨hq, hb, hcn⟩ := hc
    simp only [Content.members, Members.text, Content.text, Leaf.text, ih hn hcn, escape_clean hq hb, members_comma,
      key.printed_short hk, cut_short hv, blanks, List.replicate_zero, List.nil_append, List.cons_append,
      List.append_assoc]
  | inter key n next ih =>
    simp only [Content.members, Members.text, Content.text, numberLeaf_text, ih hs.2 hc, members_comma,
      key.printed_short hs.1, blanks, List.replicate_zero, List.nil_append]
  | object key inner next ihi ih =>
    obtain ⟨hk, hi, hn⟩ := hs
    simp only [Content.members, Members.text, Content.text, ihi hi hc.1, ih hn hc.2, members_comma,
      key.printed_short hk, blanks, List.replicate_zero, List.nil_append]

theorem members_reads {c : Content} (hc : c.Clean) (isChild : Bool) : c.members.Reads isChild 0 := by
  induction c generalizing isChild with
  | nil => trivial
  | string key value next ih =>
    obtain ⟨hq, hb, hn⟩ := hc
    refine ⟨key.opens isChild 0, ?_, ih hn isChild⟩
    intro hl
    exact hb (List.mem_of_getLast? hl)
  | inter key n next ih => exact ⟨key.opens isChild 0, trivial, ih hc isChild⟩
  | object key inner next ihi ih =>
    exact ⟨key.opens isChild 0, fun _ => rfl, ihi hc.1 true, fun _ => rfl, fun _ _ => Nat.zero_le 1, ih hc.2 isChild⟩

theorem printed_builds (heap : ℕ → Option Char) {c : Content} (hs : c.Short) (hc : c.Clean) :
    Builds c.tree (parseString heap c.printed) := by
  by_cases hn : c = .nil
  · subst hn
    exact ⟨some [], rfl⟩
  · have hb := reads_builds heap (members_reads hc false)
    rw [members_tree, Members.printed, members_text hs hc] at hb
    cases c with
    | nil => exact absurd rfl hn
    | string | inter | object => exact hb

/-! Conversely, what is read back as it was built is clean. -/

def Content.after (next : Content) (tail : CStr) : CStr := next.comma ++ (next.text ++ '}' :: tail)

theorem after_comma {next : Content} (h : next ≠ .nil) (tail : CStr) :
    next.after tail = ',' :: (next.text ++ '}' :: tail) := by
  cases next with
  | nil => exact absurd rfl h
  | string | inter | object => rfl

theorem after_cons (next : Content) (tail : CStr) :
    ∃ c r, (c = ',' ∨ c = '}') ∧ next.after tail = c :: r := by
  by_cases h : next = .nil
  · subst h
    exact ⟨'}', tail, .inr rfl, rfl⟩
  · exact ⟨',', _, .inl rfl, after_comma h tail⟩

theorem separatorAfter_after (value : CStr) (next : Content) (tail : CStr) :
    separatorAfter value (next.after tail) = .done (some value) (next.after tail) := by
  obtain ⟨c, r, hc, he⟩ := after_cons next tail
  rw [he]
  exact separatorAfter_blanks value 0 c r hc

theorem after_builds {heap : ℕ → Option Char} {n : ℕ} {isChild : Bool} {key key' : CStr}
    {value value' : Option CStr} {child child' : JsonValue} {next : Content} {tail : CStr}
    (h : Builds (.node key value child next.tree) (afterValue isChild key' value' child' (next.after tail)
      (parseLoop heap n isChild (next.after tail)))) (hne : next ≠ .nil) :
    Builds next.tree (parseLoop heap n isChild (',' :: (next.text ++ '}' :: tail))) := by
  rw [after_comma hne] at h
  apply (afterValue_builds h).2.2.2.1
  cases isChild <;> rfl

theorem string_text {key : AlnumKey} (hk : key.text.length < 2 ^ 32) (value : TextValue)
    (hv : value.text.length < 2 ^ 32) (next : Content) (tail : CStr) :
    (Content.string key value next).text ++ '}' :: tail =
      blanks 0 ++ (key.head.text ++ ('"' :: (value.text ++ '"' :: next.after tail))) := by
  simp only [Content.text, key.printed_short hk, cut_short hv, Content.after, blanks, List.replicate_zero,
    List.nil_append, List.append_assoc, List.cons_append]

theorem inter_text {key : AlnumKey} (hk : key.text.length < 2 ^ 32) (n : ℤ) (next : Content) (tail : CStr) :
    (Content.inter key n next).text ++ '}' :: tail =
      blanks 0 ++ (key.head.text ++ ((numberLeaf n).text ++ next.after tail)) := by
  simp only [Content.text, key.printed_short hk, numberLeaf_text, Content.after, blanks, List.replicate_zero,
    List.nil_append, List.append_assoc]

theorem object_text {key : AlnumKey} (hk : key.text.length < 2 ^ 32) (inner next : Content) (tail : CStr) :
    (Content.object key inner next).text ++ '}' :: tail =
      blanks 0 ++ (key.head.text ++ ('{' :: (inner.text ++ '}' :: next.after tail))) := by
  simp only [Content.text, key.printed_short hk, Content.after, blanks, List.replicate_zero, List.nil_append,
    List.append_assoc, List.cons_append]

theorem string_builds {heap : ℕ → Option Char} {loop : Bool → CStr → Option Parse} {isChild : Bool} {key v : CStr}
    {child next : JsonValue} {rest : Content} {tail : CStr}
    (h : Builds (.node key (some v) child next)
      (parseValue heap loop isChild key ('"' :: (v ++ '"' :: rest.after tail)))) :
    ('"' ∉ v ∧ '\\' ∉ v) ∧ Builds (.node key (some v) child next)
      (afterValue isChild key (some v) .null (rest.after tail) (loop isChild (rest.after tail))) := by
  have hread : readValue ('"' :: (v ++ '"' :: rest.after tail)) = stringScan '"' '"' [] (v ++ '"' :: rest.after tail) :=
    rfl
  unfold parseValue at h
  rw [if_neg (by simp), hread] at h
  cases hr : stringScan '"' '"' [] (v ++ '"' :: rest.after tail) with
  | error m =>
    rw [hr] at h
    obtain ⟨cursor, he⟩ := h
    cases he
  | done value m =>
    rw [hr] at h
    simp only at h
    have hvalue := (afterValue_builds h).2.1
    cases value with
    | none => cases hvalue
    | some raw =>
      obtain ⟨hclean, hsep⟩ := stringScan_exact hr (copyStr_of_valueCopy hvalue)
      rw [separatorAfter_after] at hsep
      cases hsep
      rw [hvalue] at h
      exact ⟨hclean, h⟩

theorem inter_builds {heap : ℕ → Option Char} {loop : Bool → CStr → Option Parse} {isChild : Bool} {key : CStr}
    {tree : JsonValue} {n : ℤ} {rest : Content} {tail : CStr}
    (h : Builds tree (parseValue heap loop isChild key ((numberLeaf n).text ++ rest.after tail))) :
    Builds tree (afterValue isChild key (some (Printf.decimal n)) .null (rest.after tail)
      (loop isChild (rest.after tail))) := by
  obtain ⟨c, r, hc, he⟩ := after_cons rest tail
  obtain ⟨raw, hraw, hcopy⟩ := readValue_closes (numberLeaf n) trivial 0 c r hc
  have hblank : blanks 0 ++ c :: r = c :: r := rfl
  rw [hblank, ← he] at hraw
  rw [parseValue_leaf, hraw] at h
  simp only [hcopy, numberLeaf_value] at h
  exact h

theorem inner_done (heap : ℕ → Option Char) {inner : Content} (hs : inner.Short) (hc : inner.Clean) {n : ℕ}
    {tail : CStr} (hn : ('{' :: (inner.text ++ '}' :: tail)).length < n) :
    parseLoop heap n true ('{' :: (inner.text ++ '}' :: tail)) = some (.done inner.tree (some ('}' :: tail))) := by
  have hblank : '{' :: (inner.text ++ '}' :: tail) = '{' :: (blanks 0 ++ (inner.members.text ++ '}' :: tail)) := by
    rw [members_text hs hc]
    rfl
  rw [hblank] at hn ⊢
  rw [← members_tree]
  apply inner_parse heap inner.members 0 n tail
  · omega
  · exact fun _ => rfl
  · intro hne
    exact reads_parse heap inner.members true 0 '{' tail n (members_reads hc true) (fun hf => nomatch hf) hne hn

theorem builds_clean (heap : ℕ → Option Char) (c : Content) (n : ℕ) (isChild : Bool) (d : Char) (tail : CStr)
    (hs : c.Short) (hne : c ≠ .nil) (hn : (d :: (c.text ++ '}' :: tail)).length < n)
    (hb : Builds c.tree (parseLoop heap n isChild (d :: (c.text ++ '}' :: tail)))) : c.Clean := by
  induction c generalizing n isChild d tail with
  | nil => exact absurd rfl hne
  | string key value next ih =>
    obtain ⟨hk, hv, hsn⟩ := hs
    obtain ⟨n, rfl⟩ : ∃ k, n = k + 1 := ⟨n - 1, by omega⟩
    rw [string_text hk value hv] at hn hb
    rw [parseLoop_head heap n isChild d 0 key.head _ (skipBlanks_cons '"' _ (by decide)) (key.opens isChild 0)] at hb
    obtain ⟨⟨hq, hback⟩, hafter⟩ := string_builds hb
    refine ⟨hq, hback, ?_⟩
    by_cases hnext : next = .nil
    · rw [hnext]
      trivial
    · apply ih n isChild ',' tail hsn hnext _ (after_builds hafter hnext)
      rw [after_comma hnext] at hn
      simp only [List.length_cons, List.length_append] at hn ⊢
      omega
  | inter key m next ih =>
    obtain ⟨hk, hsn⟩ := hs
    obtain ⟨n, rfl⟩ : ∃ k, n = k + 1 := ⟨n - 1, by omega⟩
    rw [inter_text hk] at hn hb
    rw [parseLoop_head heap n isChild d 0 key.head _ ((numberLeaf m).skipBlanks_text _) (key.opens isChild 0)] at hb
    have hafter := inter_builds hb
    by_cases hnext : next = .nil
    · rw [hnext]
      trivial
    · apply ih n isChild ',' tail hsn hnext _ (after_builds hafter hnext)
      rw [after_comma hnext] at hn
      simp only [List.length_cons, List.length_append] at hn ⊢
      omega
  | object key inner next ihi ih =>
    obtain ⟨hk, hsi, hsn⟩ := hs
    obtain ⟨n, rfl⟩ : ∃ k, n = k + 1 := ⟨n - 1, by omega⟩
    rw [object_text hk] at hn hb
    have hlen : ('{' :: (inner.text ++ '}' :: next.after tail)).length < n := by
      simp only [List.length_cons, List.length_append] at hn ⊢
      omega
    rw [parseLoop_head heap n isChild d 0 key.head _ (skipBlanks_cons '{' _ (by decide)) (key.opens isChild 0)] at hb
    have hinner : inner.Clean := by
      by_cases hi : inner = .nil
      · rw [hi]
        trivial
      · exact ihi n true '{' (next.after tail) hsi hi hlen (builds_object hb)
    have hdone := inner_done heap hsi hinner hlen
    rw [parseValue] at hb
    simp only [List.head?_cons, if_true, hdone, Cursor.next] at hb
    refine ⟨hinner, ?_⟩
    by_cases hnext : next = .nil
    · rw [hnext]
      trivial
    · apply ih n isChild ',' tail hsn hnext _ (after_builds hb hnext)
      rw [after_comma hnext] at hlen
      simp only [List.length_cons, List.length_append] at hlen ⊢
      omega

theorem content_short {N : ℕ} (hN : N < 2 ^ 32) {c : Content}
    (h : c.tree.All (fun k => k.length ≤ N) (fun v => v.length ≤ N)) : c.Short := by
  induction c with
  | nil => trivial
  | string key value next ih =>
    obtain ⟨hk, hv, -, hn⟩ := h
    exact ⟨Nat.lt_of_le_of_lt hk hN, Nat.lt_of_le_of_lt (hv _ rfl) hN, ih hn⟩
  | inter key n next ih =>
    obtain ⟨hk, -, -, hn⟩ := h
    exact ⟨Nat.lt_of_le_of_lt hk hN, ih hn⟩
  | object key inner next ihi ih =>
    obtain ⟨hk, -, hi, hn⟩ := h
    exact ⟨Nat.lt_of_le_of_lt hk hN, ihi hi, ih hn⟩

theorem printed_builds_iff (heap : ℕ → Option Char) {c : Content} (hlen : c.printed.length < 2 ^ 32) :
    Builds c.tree (parseString heap c.printed) ↔ c.Short ∧ c.Clean := by
  constructor
  · intro hb
    have hs : c.Short := by
      obtain ⟨cursor, hp⟩ := hb
      exact content_short hlen (parse_within heap hp)
    refine ⟨hs, ?_⟩
    by_cases hn : c = .nil
    · rw [hn]
      trivial
    · have hp : c.printed = '{' :: (c.text ++ ['}']) := by
        cases c with
        | nil => exact absurd rfl hn
        | string | inter | object => rfl
      rw [hp] at hb
      exact builds_clean heap c _ false '{' [] hs hn (Nat.lt_succ_self _) hb
  · rintro ⟨hs, hc⟩
    exact printed_builds heap hs hc

end FishServer
