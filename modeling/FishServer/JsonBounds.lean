import FishServer.JsonDepth

namespace FishServer

/-! Every scan leaves the cursor at a suffix of the text that it got. -/

def KeyScan.cursor : KeyScan → CStr
  | .error m => m
  | .found _ m => m

def ValueScan.cursor : ValueScan → CStr
  | .error m => m
  | .done _ m => m

theorem skipBlanks_suffix (m : CStr) : skipBlanks m <:+ m := List.dropWhile_suffix _

theorem colonAfter_suffix (key m : CStr) : (colonAfter key m).cursor <:+ m := by
  have hs := skipBlanks_suffix m
  unfold colonAfter
  split
  · rename_i r h
    rw [h] at hs
    exact hs
  · exact hs

theorem keyScan_suffix (sign : Option Char) (m key : CStr) : (keyScan sign key m).cursor <:+ m := by
  induction m generalizing key with
  | nil => simp [keyScan, KeyScan.cursor]
  | cons c r ih =>
    have hc : r <:+ c :: r := List.suffix_cons c r
    rw [keyScan]
    split_ifs
    · exact (colonAfter_suffix key r).trans hc
    · exact List.suffix_refl _
    · exact colonAfter_suffix key (c :: r)
    · exact List.suffix_refl _
    · exact (ih (key ++ [c])).trans hc

theorem quoteSign_suffix (m : CStr) : (quoteSign m).2 <:+ m := by
  cases m with
  | nil => exact List.suffix_refl _
  | cons c r =>
    simp only [quoteSign]
    split_ifs
    · exact List.suffix_cons c r
    · exact List.suffix_refl _

theorem readKey_suffix (m : CStr) : (readKey m).cursor <:+ m := by
  have hq := (quoteSign_suffix (skipBlanks m)).trans (skipBlanks_suffix m)
  have hk := (keyScan_suffix (quoteSign (skipBlanks m)).1 (quoteSign (skipBlanks m)).2 []).trans hq
  unfold readKey
  cases h : keyScan (quoteSign (skipBlanks m)).1 [] (quoteSign (skipBlanks m)).2 with
  | error m' => simpa only [h, KeyScan.cursor] using hk
  | found key m' => cases key <;> simpa [h, KeyScan.cursor] using hk

theorem separatorAfter_suffix (value m : CStr) : (separatorAfter value m).cursor <:+ m := by
  have hs := skipBlanks_suffix m
  unfold separatorAfter
  cases h : skipBlanks m with
  | nil => exact List.nil_suffix
  | cons c r =>
    rw [h] at hs
    simp only
    split_ifs <;> exact hs

theorem numberScan_suffix (m value : CStr) : (numberScan value m).cursor <:+ m := by
  induction m generalizing value with
  | nil => simp [numberScan, ValueScan.cursor]
  | cons c r ih =>
    have hc : r <:+ c :: r := List.suffix_cons c r
    rw [numberScan]
    split_ifs
    · exact (ih _).trans hc
    · exact separatorAfter_suffix value (c :: r)
    · exact List.suffix_refl _
    · exact (ih _).trans hc
    · exact List.suffix_refl _

theorem stringScan_suffix (sign : Char) (m : CStr) (prev : Char) (value : CStr) :
    (stringScan sign prev value m).cursor <:+ m := by
  induction m generalizing prev value with
  | nil => simp [stringScan, ValueScan.cursor]
  | cons c r ih =>
    have hc : r <:+ c :: r := List.suffix_cons c r
    rw [stringScan]
    split_ifs
    · exact (separatorAfter_suffix value r).trans hc
    · exact (ih _ _).trans hc

theorem readValue_suffix (m : CStr) : (readValue m).cursor <:+ m := by
  have hq := quoteSign_suffix m
  unfold readValue
  split
  · rename_i sign start h
    rw [h] at hq
    exact (stringScan_suffix sign start sign []).trans hq
  · rename_i r h
    rw [h] at hq
    exact (numberScan_suffix r ['-']).trans ((List.suffix_cons '-' r).trans hq)
  · rename_i start _ h
    rw [h] at hq
    exact (numberScan_suffix start []).trans hq

def loopScan (d : ℕ) : CStr → ℕ
  | [] => d
  | _ :: r => scan .start d r

def Parse.Agrees (d : ℕ) (m : CStr) : Parse → Prop
  | .overRead => loopScan d m ≠ 0
  | .done _ cursor => loopScan d m = cursor.rest d ∧ ∀ r, cursor = some r → r <:+ m.tail

theorem Parse.agrees_link {d : ℕ} {m m' : CStr} {p : Parse} (h : p.Agrees d m')
    (hm : loopScan d m = loopScan d m') (hs : m'.tail <:+ m.tail)
    (key : CStr) (value : Option CStr) (child : JsonValue) :
    (p.link key value child).Agrees d m := by
  cases p with
  | overRead =>
    simp only [Parse.Agrees, Parse.link] at h ⊢
    rw [hm]
    exact h
  | done tree cursor =>
    obtain ⟨hl, hc⟩ := h
    exact ⟨hm.trans hl, fun r hr => (hc r hr).trans hs⟩

theorem atClose_iff (d : ℕ) (m : CStr) :
    atClose (decide (0 < d)) m = true ↔ 0 < d ∧ ∃ r, m = '}' :: r := by
  cases m with
  | nil => simp [atClose]
  | cons c r =>
    simp only [atClose, Bool.and_eq_true, decide_eq_true_eq, List.head?_cons, Option.some.injEq,
      List.cons.injEq]
    constructor
    · rintro ⟨hd, rfl⟩
      exact ⟨hd, r, rfl, rfl⟩
    · rintro ⟨hd, r, rfl, rfl⟩
      exact ⟨hd, rfl⟩

theorem scan_after_loop (d : ℕ) (m : CStr) (h : ¬atClose (decide (0 < d)) m = true) :
    scan .after d m = loopScan d m := by
  cases m with
  | nil => rfl
  | cons c r =>
    have hc : ¬(c = '}' ∧ 0 < d) := by
      rintro ⟨rfl, hd⟩
      exact h ((atClose_iff d _).mpr ⟨hd, r, rfl⟩)
    rw [scan, Mode.step, Mode.close, if_neg hc]
    rfl

theorem scan_close (d : ℕ) (m : CStr) (h : atClose (decide (0 < d)) m = true) (s : Mode)
    (hs : s = .after ∨ s = .start) : scan s d m = Cursor.rest d (some m) := by
  obtain ⟨hd, r, rfl⟩ := (atClose_iff d m).mp h
  rcases hs with rfl | rfl
  · rw [scan, Mode.step, Mode.close, if_pos ⟨rfl, hd⟩, Cursor.rest, if_pos hd]
    rfl
  · rw [scan, Mode.step, if_pos ⟨rfl, hd⟩, Cursor.rest, if_pos hd]
    rfl

theorem scan_start (d : ℕ) (m : CStr) (h : ¬atClose (decide (0 < d)) m = true) :
    scan .start d m = scan .blanks d m := by
  cases m with
  | nil => rfl
  | cons c r =>
    have hc : ¬(c = '}' ∧ 0 < d) := by
      rintro ⟨rfl, hd⟩
      exact h ((atClose_iff d _).mpr ⟨hd, r, rfl⟩)
    rw [scan, Mode.step, if_neg hc]
    rfl

theorem afterValue_agrees {d : ℕ} {m m' : CStr} {rest : Option Parse} (key : CStr)
    (value : Option CStr) (child : JsonValue) (hm : loopScan d m = scan .after d m')
    (hs : m' <:+ m.tail) (hr : ∃ p, rest = some p ∧ p.Agrees d m') :
    ∃ p, afterValue (decide (0 < d)) key value child m' rest = some p ∧ p.Agrees d m := by
  unfold afterValue
  by_cases hc : atClose (decide (0 < d)) m' = true
  · rw [if_pos hc]
    refine ⟨_, rfl, hm.trans (scan_close d m' hc .after (.inl rfl)), ?_⟩
    intro r he
    cases he
    exact hs
  · rw [if_neg hc]
    obtain ⟨p, rfl, hp⟩ := hr
    refine ⟨_, rfl, Parse.agrees_link hp (hm.trans (scan_after_loop d m' hc)) ?_ key value child⟩
    exact (List.tail_suffix m').trans hs

theorem scan_value_open (d : ℕ) (m : CStr) (h : m.head? = some '{') :
    scan .value d m = loopScan (d + 1) m := by
  cases m with
  | nil => cases h
  | cons c r =>
    have hc : c = '{' := by simpa using h
    subst hc
    rfl

theorem readKey_found (m key m' : CStr) (h : readKey m = .found key m') : key ≠ [] := by
  unfold readKey at h
  cases hk : keyScan (quoteSign (skipBlanks m)).1 [] (quoteSign (skipBlanks m)).2 with
  | error m'' => simp [hk] at h
  | found k m'' =>
    cases k with
    | nil => simp [hk] at h
    | cons c k =>
      simp only [hk, KeyScan.found.injEq] at h
      rw [← h.1]
      exact List.cons_ne_nil c k

theorem readKey_value (d : ℕ) (m key m' : CStr) (h : readKey m = .found key m') :
    scan .blanks d m = scan .value d (skipBlanks m'.tail) := by
  rw [readKey_scan, h, KeyScan.rest, if_neg (readKey_found m key m' h)]
  exact scan_skipBlanks .value d rfl m'.tail

theorem skipBlanks_head (m : CStr) : (skipBlanks m).head? ≠ some ' ' := by
  cases h : skipBlanks m with
  | nil => simp
  | cons c r => simpa using skipBlanks_ne m c r h

theorem parseValue_agrees (heap : ℕ → Option Char) (loop : Bool → CStr → Option Parse) {d : ℕ}
    {m v : CStr} (key : CStr) (hb : v.head? ≠ some ' ') (hv : loopScan d m = scan .value d v)
    (hs : v <:+ m.tail)
    (hl : ∀ d r, r <:+ v → ∃ p, loop (decide (0 < d)) r = some p ∧ p.Agrees d r) :
    ∃ p, parseValue heap loop (decide (0 < d)) key v = some p ∧ p.Agrees d m := by
  unfold parseValue
  by_cases ho : v.head? = some '{'
  · rw [if_pos ho]
    rw [scan_value_open d v ho] at hv
    obtain ⟨p, hp, ha⟩ := hl (d + 1) v (List.suffix_refl v)
    rw [decide_eq_true (Nat.succ_pos d)] at hp
    rw [hp]
    cases p with
    | overRead => exact ⟨_, rfl, by rw [Parse.Agrees, hv]; exact ha⟩
    | done child cursor =>
      obtain ⟨hc, hcur⟩ := ha
      rw [hc] at hv
      rcases cursor with _ | _ | ⟨c, r⟩
      · exact ⟨_, rfl, by rw [Parse.Agrees, hv]; exact Nat.succ_ne_zero d⟩
      · exact ⟨_, rfl, by rw [Parse.Agrees, hv]; exact Nat.succ_ne_zero d⟩
      · rw [Cursor.rest, if_pos (Nat.succ_pos d), Nat.add_sub_cancel] at hv
        have hr : r <:+ v :=
          (List.suffix_cons c r).trans ((hcur _ rfl).trans (List.tail_suffix v))
        exact afterValue_agrees _ none child hv (hr.trans hs) (hl d r hr)
  · rw [if_neg ho]
    rw [readValue_scan d v hb ho] at hv
    have hvs := readValue_suffix v
    cases hr : readValue v with
    | error m' =>
      rw [hr] at hv hvs
      refine ⟨_, rfl, hv, ?_⟩
      intro r he
      cases he
      exact hvs.trans hs
    | done value m' =>
      rw [hr] at hv hvs
      exact afterValue_agrees _ _ _ hv (hvs.trans hs) (hl d m' hvs)

theorem parseLoop_agrees (heap : ℕ → Option Char) (n d : ℕ) (m : CStr) (h : m.length < n) :
    ∃ p, parseLoop heap n (decide (0 < d)) m = some p ∧ p.Agrees d m := by
  induction n generalizing d m with
  | zero => omega
  | succ n ih =>
    cases m with
    | nil => exact ⟨_, rfl, rfl, fun r he => nomatch he⟩
    | cons c m =>
      rw [parseLoop]
      by_cases hc : atClose (decide (0 < d)) m = true
      · rw [if_pos hc]
        refine ⟨_, rfl, scan_close d m hc .start (.inr rfl), ?_⟩
        intro r he
        cases he
        exact List.suffix_refl m
      rw [if_neg hc]
      have hk := scan_start d m hc
      have hks := readKey_suffix m
      cases hr : readKey m with
      | error m' =>
        rw [readKey_scan, hr] at hk
        rw [hr] at hks
        refine ⟨_, rfl, hk, ?_⟩
        intro r he
        cases he
        exact hks
      | found key m' =>
        rw [hr] at hks
        have hs : skipBlanks m'.tail <:+ m :=
          ((skipBlanks_suffix m'.tail).trans (List.tail_suffix m')).trans hks
        apply parseValue_agrees heap (parseLoop heap n)
        · exact skipBlanks_head m'.tail
        · exact hk.trans (readKey_value d m key m' hr)
        · exact hs
        · intro d' r hr'
          apply ih
          have hlen := (hr'.trans hs).length_le
          simp only [List.length_cons] at h
          omega

theorem openAtEnd_eq (text : CStr) : openAtEnd text = loopScan 0 text := by
  cases text <;> rfl

theorem parseString_inside_iff (heap : ℕ → Option Char) (text : CStr) :
    (∃ tree cursor, parseString heap text = some (.done tree cursor)) ↔ openAtEnd text = 0 := by
  obtain ⟨p, hp, ha⟩ := parseLoop_agrees heap (text.length + 1) 0 text (by omega)
  have hs : parseString heap text = some p := hp
  rw [hs, openAtEnd_eq]
  cases p with
  | overRead =>
    constructor
    · rintro ⟨tree, cursor, he⟩
      cases he
    · intro he
      exact absurd he ha
  | done tree cursor =>
    constructor
    · intro _
      rw [ha.1]
      rcases cursor with _ | _ | ⟨c, r⟩ <;> rfl
    · intro _
      exact ⟨tree, cursor, rfl⟩

theorem parseString_overReads :
    ¬ ∀ heap text, ∃ tree cursor, parseString heap text = some (.done tree cursor) := by
  intro h
  obtain ⟨tree, cursor, he⟩ := h (fun _ => none) ['{', 'a', ':', '{']
  have ho : parseString (fun _ => none) ['{', 'a', ':', '{'] = some .overRead := by decide
  rw [ho] at he
  cases he

end FishServer
