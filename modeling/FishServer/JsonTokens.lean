import FishServer.JsonBounds
import FishServer.JsonText

namespace FishServer

theorem skipBlanks_blanks (n : ℕ) (m : CStr) : skipBlanks (blanks n ++ m) = skipBlanks m := by
  induction n with
  | zero => rfl
  | succ n ih => exact ih

theorem skipBlanks_cons (c : Char) (m : CStr) (h : c ≠ ' ') : skipBlanks (c :: m) = c :: m := by
  apply List.dropWhile_cons_of_neg
  simpa using h

theorem copyStr_cons (old : Option Char) (c : Char) (s : CStr) (h : c ≠ '\\') :
    copyStr old (c :: s) = c :: copyStr old s := by
  cases s <;> simp [copyStr, h]

theorem copyStr_plain (old : Option Char) (s : CStr) (h : ∀ c ∈ s, c ≠ '\\') : copyStr old s = s := by
  induction s with
  | nil => rfl
  | cons c s ih =>
    rw [copyStr_cons old c s (h c (by simp)), ih (fun c hc => h c (by simp [hc]))]

theorem copyStr_escape (old : Option Char) (q : Char) (s r : CStr) :
    copyStr old (escape q s ++ r) = s ++ copyStr old r := by
  induction s with
  | nil => rfl
  | cons c s ih =>
    rw [escape]
    split_ifs with h
    · simp only [List.cons_append, copyStr, if_true, ih]
    · push Not at h
      rw [List.cons_append, copyStr_cons old c _ h.2, ih]
      rfl

/-! Keys. -/

theorem keyScan_bare_append (k key r : CStr) (h : ∀ c ∈ k, c ≠ ' ' ∧ c ≠ ':') :
    keyScan none key (k ++ r) = keyScan none (key ++ k) r := by
  induction k generalizing key with
  | nil => rw [List.append_nil, List.nil_append]
  | cons c k ih =>
    obtain ⟨hb, hc⟩ := h c (by simp)
    rw [List.cons_append, keyScan_none, if_neg hc, if_neg hb, ih _ (fun c hc => h c (by simp [hc])),
      List.append_assoc, List.singleton_append]

theorem keyScan_quoted_append (q : Char) (k key r : CStr) (h : ∀ c ∈ k, c ≠ ' ' ∧ c ≠ q) :
    keyScan (some q) key (k ++ r) = keyScan (some q) (key ++ k) r := by
  induction k generalizing key with
  | nil => rw [List.append_nil, List.nil_append]
  | cons c k ih =>
    obtain ⟨hb, hc⟩ := h c (by simp)
    rw [List.cons_append, keyScan_some, if_neg hc, if_neg hb, ih _ (fun c hc => h c (by simp [hc])),
      List.append_assoc, List.singleton_append]

theorem colonAfter_blanks (key : CStr) (n : ℕ) (r : CStr) :
    colonAfter key (blanks n ++ ':' :: r) = .found key (':' :: r) := by
  unfold colonAfter
  rw [skipBlanks_blanks, skipBlanks_cons ':' r (by decide)]
  rfl

theorem keyScan_none_blanks (key : CStr) (n : ℕ) (r : CStr) :
    keyScan none key (blanks n ++ ':' :: r) = .found key (':' :: r) := by
  cases n with
  | zero => simp [blanks, keyScan_none]
  | succ n =>
    have hb : blanks (n + 1) ++ ':' :: r = ' ' :: (blanks n ++ ':' :: r) := rfl
    rw [hb, keyScan_none, if_neg (by decide), if_pos rfl, ← hb]
    exact colonAfter_blanks key (n + 1) r

theorem quote_ne {q c : Char} (hq : isQuote q = true) (hc : isQuote c = false) : q ≠ c := by
  rintro rfl
  rw [hq] at hc
  cases hc

theorem Head.key_cons (h : Head) : ∃ c k, h.key = c :: k ∧ isQuote c = false ∧ c ≠ ' ' := by
  obtain ⟨c, k, hk⟩ := List.exists_cons_of_ne_nil h.key_ne
  have hp := h.key_plain c (by simp [hk])
  exact ⟨c, k, hk, hp.1, hp.2.1⟩

theorem Head.keyText_cons (h : Head) : ∃ c k, h.keyText = c :: k ∧ c ≠ ' ' ∧ c ≠ ':' := by
  unfold Head.keyText
  cases hq : h.quote with
  | none =>
    obtain ⟨c, k, hk⟩ := List.exists_cons_of_ne_nil h.key_ne
    have hp := h.key_plain c (by simp [hk])
    exact ⟨c, k, by simp [hk], hp.2.1, hp.2.2.1⟩
  | some q =>
    have hm := h.quote_mark q (by simp [hq])
    exact ⟨q, h.key ++ [q], by simp, quote_ne hm (by decide), quote_ne hm (by decide)⟩

theorem readKey_keyText (h : Head) (n : ℕ) (r : CStr) :
    readKey (blanks n ++ (h.keyText ++ (blanks h.afterKey ++ ':' :: r))) = .found h.key (':' :: r) := by
  have hscan : keyScan (quoteSign (h.keyText ++ (blanks h.afterKey ++ ':' :: r))).1 []
      (quoteSign (h.keyText ++ (blanks h.afterKey ++ ':' :: r))).2 = .found h.key (':' :: r) := by
    unfold Head.keyText
    cases hq : h.quote with
    | none =>
      obtain ⟨c, k, hk, hm, hb⟩ := h.key_cons
      have hplain : ∀ c ∈ h.key, c ≠ ' ' ∧ c ≠ ':' :=
        fun c hc => ⟨(h.key_plain c hc).2.1, (h.key_plain c hc).2.2.1⟩
      have hs : quoteSign (h.key ++ (blanks h.afterKey ++ ':' :: r)) =
          (none, h.key ++ (blanks h.afterKey ++ ':' :: r)) := by
        rw [hk, List.cons_append, quoteSign, hm]
        rfl
      simp only [Option.toList_none, List.nil_append, List.append_nil, hs]
      rw [keyScan_bare_append h.key [] _ hplain]
      exact keyScan_none_blanks h.key h.afterKey r
    | some q =>
      have hm := h.quote_mark q (by simp [hq])
      have hplain : ∀ c ∈ h.key, c ≠ ' ' ∧ c ≠ q := by
        intro c hc
        have hp := h.key_plain c hc
        exact ⟨hp.2.1, (quote_ne hm hp.1).symm⟩
      simp only [Option.toList_some, List.cons_append, List.nil_append, List.append_assoc, quoteSign, hm,
        if_true]
      rw [keyScan_quoted_append q h.key [] _ hplain, keyScan_some, if_pos rfl]
      exact colonAfter_blanks h.key h.afterKey r
  obtain ⟨c, k, hk, hb, hc⟩ := h.keyText_cons
  have hskip : skipBlanks (blanks n ++ (h.keyText ++ (blanks h.afterKey ++ ':' :: r))) =
      h.keyText ++ (blanks h.afterKey ++ ':' :: r) := by
    rw [skipBlanks_blanks, hk, List.cons_append, skipBlanks_cons _ _ hb]
  unfold readKey
  obtain ⟨c', k', hk', _⟩ := h.key_cons
  simp only [hskip, hscan, hk']

theorem separatorAfter_blanks (value : CStr) (n : ℕ) (c : Char) (r : CStr) (h : c = ',' ∨ c = '}') :
    separatorAfter value (blanks n ++ c :: r) = .done (some value) (c :: r) := by
  have hb : c ≠ ' ' := by rcases h with rfl | rfl <;> decide
  unfold separatorAfter
  rw [skipBlanks_blanks, skipBlanks_cons c r hb]
  exact if_pos h

theorem numberScan_append (digits value r : CStr) (h : ∀ c ∈ digits, c.isDigit ∨ c = '.') :
    numberScan value (digits ++ r) = numberScan (value ++ digits) r := by
  induction digits generalizing value with
  | nil => rw [List.append_nil, List.nil_append]
  | cons c digits ih =>
    have hr := ih (value ++ [c]) (fun c hc => h c (by simp [hc]))
    rw [List.append_assoc, List.singleton_append] at hr
    rw [List.cons_append, numberScan, ← hr]
    rcases h c (by simp) with hd | rfl
    · rw [if_pos hd]
    · rfl

theorem numberScan_blanks (value : CStr) (n : ℕ) (c : Char) (r : CStr) (h : c = ',' ∨ c = '}') :
    numberScan value (blanks n ++ c :: r) = .done (some value) (c :: r) := by
  cases n with
  | zero =>
    rcases h with rfl | rfl <;> rfl
  | succ n => exact separatorAfter_blanks value (n + 1) c r h

theorem stringScan_escape (q prev : Char) (value s r : CStr) (hq : q ≠ '\\') :
    stringScan q prev value (escape q s ++ r) =
      stringScan q (s.getLastD prev) (value ++ escape q s) r := by
  induction s generalizing prev value with
  | nil => simp [escape]
  | cons c s ih =>
    rw [escape, List.getLastD_cons]
    split_ifs with h
    · rw [List.cons_append, List.cons_append, stringScan, if_neg (by simp [Ne.symm hq]), stringScan,
        if_neg (by simp), ih]
      simp
    · push Not at h
      rw [List.cons_append, stringScan, if_neg (by simp [h.1]), ih]
      simp

theorem stringScan_prefix (q prev : Char) (value r : CStr) (v m : CStr)
    (h : stringScan q prev value r = .done (some v) m) : value <+: v := by
  induction r generalizing prev value with
  | nil => cases h
  | cons c r ih =>
    rw [stringScan] at h
    split_ifs at h
    · unfold separatorAfter at h
      split at h
      · cases h
      · split_ifs at h
        cases h
        exact List.prefix_refl _
    · exact (List.prefix_append value [c]).trans (ih c (value ++ [c]) h)

theorem getLastD_of_getLast? (s : CStr) (d : Char) (hs : s ≠ []) : s.getLast? = some (s.getLastD d) := by
  cases s with
  | nil => exact absurd rfl hs
  | cons c s => rw [List.getLastD_cons, List.getLast?_cons, List.getLastD_eq_getLast?]

theorem digit_plain {c : Char} (h : c.isDigit ∨ c = '.') :
    isQuote c = false ∧ c ≠ '-' ∧ c ≠ '{' ∧ c ≠ ' ' ∧ c ≠ '\\' := by
  rcases h with h | rfl
  · refine ⟨?_, ?_, ?_, ?_, ?_⟩
    · by_contra hq
      simp only [isQuote, Bool.not_eq_false, Bool.or_eq_true, decide_eq_true_eq] at hq
      rcases hq with rfl | rfl <;> revert h <;> decide
    all_goals rintro rfl; revert h; decide
  · decide

theorem readValue_minus (r : CStr) : readValue ('-' :: r) = numberScan ['-'] r := rfl

theorem readValue_digit (c : Char) (r : CStr) (h : c.isDigit ∨ c = '.') :
    readValue (c :: r) = numberScan [] (c :: r) := by
  obtain ⟨hq, hm, _⟩ := digit_plain h
  simp only [readValue, quoteSign, hq]
  split
  · rename_i heq
    simp at heq
  · rename_i heq
    simp only [Bool.false_eq_true, if_false, Prod.mk.injEq, List.cons.injEq, true_and] at heq
    exact absurd heq.1 hm
  · rename_i heq
    cases heq
    rfl

theorem readValue_num (neg : Bool) (digits r : CStr) (ne : digits ≠ [])
    (digit : ∀ c ∈ digits, c.isDigit ∨ c = '.') :
    readValue ((if neg then ['-'] else []) ++ (digits ++ r)) =
      numberScan ((if neg then ['-'] else []) ++ digits) r := by
  cases neg with
  | false =>
    obtain ⟨c, ds, hd⟩ := List.exists_cons_of_ne_nil ne
    have hc := readValue_digit c (ds ++ r) (digit c (by simp [hd]))
    rw [← List.cons_append, ← hd] at hc
    exact hc.trans (numberScan_append digits [] r digit)
  | true => exact (readValue_minus (digits ++ r)).trans (numberScan_append digits ['-'] r digit)

theorem valueCopy_of_copyStr {old : Option Char} {raw s : CStr} (hs : s ≠ [])
    (h : copyStr old raw = s) : valueCopy old (some raw) = some s := by
  cases raw with
  | nil => exact absurd h.symm hs
  | cons c raw => exact congrArg some h

theorem copyStr_of_valueCopy {old : Option Char} {raw s : CStr}
    (h : valueCopy old (some raw) = some s) : copyStr old raw = s := by
  cases raw with
  | nil => cases h
  | cons c raw => exact Option.some.inj h

theorem readValue_closes (v : Leaf) (hv : v.closes) (n : ℕ) (c : Char) (r : CStr)
    (h : c = ',' ∨ c = '}') :
    ∃ raw, readValue (v.text ++ (blanks n ++ c :: r)) = .done (some raw) (c :: r) ∧
      ∀ old, valueCopy old (some raw) = some v.value := by
  cases v with
  | str q s mark ne =>
    have hq : q ≠ '\\' := quote_ne mark (by decide)
    have hl : s.getLastD q ≠ '\\' := by
      intro he
      apply hv
      rw [getLastD_of_getLast? s q ne, he]
    refine ⟨escape q s, ?_, ?_⟩
    · simp only [Leaf.text, List.cons_append, List.append_assoc, List.nil_append, readValue, quoteSign, mark,
        if_true]
      rw [stringScan_escape q q [] s _ hq, stringScan, if_pos ⟨rfl, hl⟩]
      exact separatorAfter_blanks _ n c r h
    · intro old
      apply valueCopy_of_copyStr ne
      have hcopy := copyStr_escape old q s []
      rwa [List.append_nil, copyStr, List.append_nil] at hcopy
  | num neg digits ne digit =>
    refine ⟨(if neg then ['-'] else []) ++ digits, ?_, ?_⟩
    · rw [Leaf.text, List.append_assoc, readValue_num neg digits _ ne digit]
      exact numberScan_blanks _ n c r h
    · intro old
      apply valueCopy_of_copyStr
      · exact List.append_ne_nil_of_right_ne_nil _ ne
      apply copyStr_plain
      intro c hc
      rcases List.mem_append.mp hc with hc | hc
      · cases neg <;> simp at hc
        rw [hc]
        decide
      · exact (digit_plain (digit c hc)).2.2.2.2

-- behind a final backslash the closing quote counts as text
theorem readValue_open (v : Leaf) (hv : ¬v.closes) (r : CStr) (old : Option Char) (value : Option CStr)
    (m : CStr) (h : readValue (v.text ++ r) = .done value m) : valueCopy old value ≠ some v.value := by
  cases v with
  | num neg digits ne digit => exact absurd trivial hv
  | str q s mark ne =>
    have hq : q ≠ '\\' := quote_ne mark (by decide)
    have hl : s.getLastD q = '\\' := by
      have he := not_not.mp hv
      rw [getLastD_of_getLast? s q ne] at he
      exact Option.some.inj he
    simp only [Leaf.text, List.cons_append, List.append_assoc, List.nil_append, readValue, quoteSign, mark,
      if_true] at h
    rw [stringScan_escape q q [] s _ hq, stringScan, if_neg (fun hc => hc.2 hl)] at h
    cases value with
    | none => simp [valueCopy]
    | some v =>
      obtain ⟨w, rfl⟩ := stringScan_prefix _ _ _ _ _ _ h
      intro hcopy
      have hv := copyStr_of_valueCopy hcopy
      rw [List.nil_append, List.append_assoc, List.singleton_append] at hv
      rw [copyStr_escape, copyStr_cons old q w hq] at hv
      have hlen := congrArg List.length hv
      simp [Leaf.value] at hlen

end FishServer
