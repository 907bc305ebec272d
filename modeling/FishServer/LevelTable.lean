import FishServer.Decimal
import FishServer.Lib.BubbleSort
import FishServer.Setting

namespace FishServer

/-! What the lines of a level table stand for. -/

def spelled (text : CStr) : ℤ := Nat.ofDigitChars 10 (text.filter Char.isDigit) 0

def lineEntry (l : CStr) : Option Line :=
  if ':' ∈ l then some ⟨spelled (l.takeWhile (· ≠ ':')), spelled (l.dropWhile (· ≠ ':')).tail⟩ else none

def levelLines (text : CStr) : List CStr := text.splitOn '\n'

def levelEntries (text : CStr) : List Line := (levelLines text).filterMap lineEntry

def BlanksLast (lines : List CStr) : Prop := ∀ after, [] :: after <:+ lines → ∀ l ∈ after, ':' ∉ l

theorem ofDigitChars_acc (ds : CStr) (acc : ℕ) : acc ≤ Nat.ofDigitChars 10 ds acc := by
  induction ds generalizing acc with
  | nil => rw [Nat.ofDigitChars_nil]
  | cons c ds ih =>
    rw [Nat.ofDigitChars_cons]
    have hrest := ih (10 * acc + (c.toNat - '0'.toNat))
    omega

theorem lineNumber_acc (text : CStr) (acc : ℕ)
    (h : ((Nat.ofDigitChars 10 (text.filter Char.isDigit) acc : ℕ) : ℤ) < 2 ^ 31) :
    text.foldl (fun n c => if c.isDigit then i32 (n * 10 + (c.toNat - 48)) else n) (acc : ℤ) =
      Nat.ofDigitChars 10 (text.filter Char.isDigit) acc := by
  induction text generalizing acc with
  | nil => rw [List.filter_nil, Nat.ofDigitChars_nil, List.foldl_nil]
  | cons c text ih =>
    rw [List.foldl_cons]
    by_cases hc : c.isDigit = true
    · rw [List.filter_cons_of_pos hc, Nat.ofDigitChars_cons] at h ⊢
      have hle := ofDigitChars_acc (text.filter Char.isDigit) (10 * acc + (c.toNat - '0'.toNat))
      obtain ⟨hlo, -⟩ := digit_bounds hc
      have hnext : (acc : ℤ) * 10 + ((c.toNat : ℤ) - 48) = ((10 * acc + (c.toNat - '0'.toNat) : ℕ) : ℤ) := by
        have h0 : '0'.toNat = 48 := rfl
        omega
      rw [if_pos hc, hnext, i32_of_bounds (by omega) (by omega)]
      exact ih _ h
    · rw [List.filter_cons_of_neg hc] at h ⊢
      rw [if_neg hc]
      exact ih acc h

theorem lineNumber_eq {text : CStr} (h : isInt (spelled text) = true) : lineNumber text = spelled text := by
  simp only [isInt, Bool.and_eq_true, decide_eq_true_eq] at h
  exact lineNumber_acc text 0 h.2

theorem strposFrom_first {c : Char} {stop pos : ℕ} {a b : CStr} (ha : c ∉ a)
    (hstop : stop = 0 ∨ pos + a.length ≤ stop) :
    strposFrom [c] stop pos (a ++ c :: b) = some (pos + a.length) := by
  induction a generalizing pos with
  | nil =>
    have hin : ¬(0 < stop ∧ stop + 1 < pos + [c].length) := by
      rw [List.length_nil] at hstop
      rw [List.length_singleton]
      omega
    rw [List.nil_append, strposFrom, if_neg hin]
    simp
  | cons d a ih =>
    have hin : ¬(0 < stop ∧ stop + 1 < pos + [c].length) := by
      rw [List.length_cons] at hstop
      rw [List.length_singleton]
      omega
    have hd : c ≠ d := fun hd => ha (hd ▸ List.mem_cons_self)
    have hrest := @ih (pos + 1) (fun hm => ha (List.mem_cons_of_mem d hm)) (by
      rw [List.length_cons] at hstop
      omega)
    rw [List.cons_append, strposFrom, if_neg hin, if_neg (by simpa using hd), hrest, List.length_cons]
    congr 1
    omega

theorem strposFrom_missed {c : Char} {stop pos : ℕ} {s : CStr} (hstop : 0 < stop)
    (h : c ∉ s.take (stop + 1 - pos)) : strposFrom [c] stop pos s = none := by
  induction s generalizing pos with
  | nil => rfl
  | cons d s ih =>
    rw [strposFrom, List.length_singleton]
    split_ifs with hs hd
    · rfl
    · rw [show stop + 1 - pos = stop + 1 - (pos + 1) + 1 by omega, List.take_succ_cons] at h
      rw [List.isPrefixOf_cons_cons, Bool.and_eq_true] at hd
      exact absurd (eq_of_beq hd.1 ▸ List.mem_cons_self) h
    · rw [show stop + 1 - pos = stop + 1 - (pos + 1) + 1 by omega, List.take_succ_cons] at h
      exact ih (fun hm => h (List.mem_cons_of_mem d hm))

theorem levelLines_last {l : CStr} (h : '\n' ∉ l) : levelLines l = [l] := by
  apply List.splitOnP_eq_singleton
  intro c hc
  simpa using fun he : c = '\n' => h (he ▸ hc)

theorem levelLines_cons {l rest : CStr} (h : '\n' ∉ l) : levelLines (l ++ '\n' :: rest) = l :: levelLines rest := by
  apply List.splitOnP_append_cons_of_forall_mem
  · intro c hc
    simpa using fun he : c = '\n' => h (he ▸ hc)
  · exact beq_self_eq_true '\n'

theorem mem_levelLines {c : Char} (hc : c ≠ '\n') (text : CStr) : c ∈ text ↔ ∃ l ∈ levelLines text, c ∈ l := by
  induction text with
  | nil => simp [levelLines, List.splitOn]
  | cons d s ih =>
    have hcons : levelLines (d :: s) =
        if d = '\n' then [] :: levelLines s else (levelLines s).modifyHead (List.cons d) := by
      simpa [levelLines, List.splitOn] using List.splitOnP_cons_eq_if_modifyHead (p := (· == '\n')) d s
    obtain ⟨l, ls, hl⟩ := List.exists_cons_of_ne_nil (List.splitOnP_ne_nil (· == '\n') s)
    change levelLines s = l :: ls at hl
    rw [hcons, List.mem_cons, ih, hl]
    by_cases hd : d = '\n'
    · simp [hd, hc]
    · simp [hd, or_assoc]

theorem levelEntries_nil {text : CStr} (h : ':' ∉ text) : levelEntries text = [] := by
  apply List.filterMap_eq_nil_iff.mpr
  intro l hl
  exact if_neg (fun hm => h ((mem_levelLines (by decide) text).mpr ⟨l, hl, hm⟩))

theorem blanksLast_nil {text : CStr} (h : ':' ∉ text) : BlanksLast (levelLines text) := by
  intro after hs l hl hm
  exact h ((mem_levelLines (by decide) text).mpr ⟨l, hs.subset (List.mem_cons_of_mem _ hl), hm⟩)

theorem blanksLast_cons {l : CStr} {lines : List CStr} (h : l ≠ []) : BlanksLast (l :: lines) ↔ BlanksLast lines := by
  constructor
  · exact fun hb after hs => hb after (List.suffix_cons_iff.mpr (.inr hs))
  · intro hb after hs
    rcases List.suffix_cons_iff.mp hs with he | hs
    · exact absurd (List.cons.inj he).1.symm h
    · exact hb after hs

section

variable {n : ℕ} {a b l rest : CStr}

theorem strpos_none {c : Char} {s : CStr} (h : c ∉ s) : strpos s [c] 0 = none := by
  cases hp : strpos s [c] 0 with
  | none => rfl
  | some p => exact absurd (strposFrom_mem hp) h

theorem strpos_first {c : Char} {stop : ℕ} (ha : c ∉ a) (hstop : stop = 0 ∨ a.length ≤ stop) :
    strpos (a ++ c :: b) [c] stop = some a.length := by
  have h := @strposFrom_first c stop 0 a b ha (by rwa [Nat.zero_add])
  rwa [Nat.zero_add] at h

theorem formatLines_succ {ptr : CStr} (h : ptr ≠ []) : formatLines (n + 1) ptr =
    match strpos ptr [':'] ((strpos ptr ['\n'] 0).getD 0) with
    | none => formatLines n (ptr.drop ((strpos ptr ['\n'] 0).getD 0 + 1))
    | some maohaoPos =>
      match strpos ptr ['\n'] 0 with
      | none => some [⟨lineNumber (ptr.take maohaoPos), lineNumber (ptr.drop (maohaoPos + 1))⟩]
      | some endPos =>
        if maohaoPos < endPos then
          (formatLines n (ptr.drop (endPos + 1))).map (⟨lineNumber (ptr.take maohaoPos),
            lineNumber ((ptr.drop (maohaoPos + 1)).take (endPos - (maohaoPos + 1)))⟩ :: ·)
        else none := by
  cases ptr with
  | nil => exact absurd rfl h
  | cons c s => rfl

theorem drop_colon (a b : CStr) : (a ++ ':' :: b).drop (a.length + 1) = b := by
  rw [← List.drop_drop, List.drop_left]
  rfl

theorem formatLines_last (ha : ':' ∉ a) (hl : '\n' ∉ a ++ ':' :: b) :
    formatLines (n + 1) (a ++ ':' :: b) = some [⟨lineNumber a, lineNumber b⟩] := by
  rw [formatLines_succ (by simp), strpos_none hl, Option.getD_none, strpos_first ha (.inl rfl)]
  simp only [List.take_left, drop_colon]

theorem formatLines_line (ha : ':' ∉ a) (hl : '\n' ∉ a ++ ':' :: b) :
    formatLines (n + 1) (a ++ ':' :: b ++ '\n' :: rest) =
      (formatLines n rest).map (⟨lineNumber a, lineNumber b⟩ :: ·) := by
  have hlen : (a ++ ':' :: b).length = a.length + 1 + b.length := by
    rw [List.length_append, List.length_cons]
    omega
  have hcolon : strpos (a ++ ':' :: b ++ '\n' :: rest) [':'] (a ++ ':' :: b).length = some a.length := by
    rw [List.append_assoc, List.cons_append]
    exact strpos_first ha (.inr (by omega))
  have hright : (a ++ ':' :: b ++ '\n' :: rest).drop (a.length + 1) = b ++ '\n' :: rest := by
    rw [List.append_assoc, List.cons_append, drop_colon]
  have hleft : (a ++ ':' :: b ++ '\n' :: rest).take a.length = a := by
    rw [List.append_assoc, List.take_left]
  have hrest : (a ++ ':' :: b ++ '\n' :: rest).drop ((a ++ ':' :: b).length + 1) = rest := by
    rw [← List.drop_drop, List.drop_left]
    rfl
  have hend : (a ++ ':' :: b).length - (a.length + 1) = b.length := by omega
  rw [formatLines_succ (by simp), strpos_first hl (.inl rfl), Option.getD_some, hcolon]
  simp only [hright, hleft, hrest, hend, List.take_left]
  exact if_pos (by omega)

theorem formatLines_plain (hl : '\n' ∉ l) (hc : ':' ∉ l) (hne : l ≠ []) :
    formatLines (n + 1) (l ++ '\n' :: rest) = formatLines n rest := by
  have hpos := List.length_pos_iff.mpr hne
  have hcolon : strpos (l ++ '\n' :: rest) [':'] l.length = none := by
    apply strposFrom_missed hpos
    rw [Nat.sub_zero, List.take_length_add_append]
    simpa using hc
  have hrest : (l ++ '\n' :: rest).drop (l.length + 1) = rest := by
    rw [← List.drop_drop, List.drop_left]
    rfl
  rw [formatLines_succ (by simp), strpos_first hl (.inl rfl), Option.getD_some, hcolon]
  simp only [hrest]

-- the colon of a later line is taken, and then the cursor passes the end of the text
theorem formatLines_blank (hc : ':' ∈ rest) : formatLines (n + 1) ('\n' :: rest) = none := by
  obtain ⟨a, b, rfl, ha⟩ := List.eq_append_cons_of_mem hc
  have hnl : strpos ('\n' :: (a ++ ':' :: b)) ['\n'] 0 = some 0 := rfl
  have hcolon : strpos ('\n' :: (a ++ ':' :: b)) [':'] 0 = some (a.length + 1) := by
    rw [← List.cons_append]
    exact strpos_first (a := '\n' :: a) (by simpa using ha) (.inl rfl)
  rw [formatLines_succ (by simp), hnl, Option.getD_some, hcolon]
  exact if_neg (Nat.not_lt_zero _)

end

theorem lineEntry_colon {a b : CStr} (ha : ':' ∉ a) :
    lineEntry (a ++ ':' :: b) = some ⟨spelled a, spelled b⟩ := by
  have hin : ':' ∈ a ++ ':' :: b := List.mem_append_right a List.mem_cons_self
  have hall : ∀ c ∈ a, decide (c ≠ ':') = true := fun c hc => decide_eq_true (fun he => ha (he ▸ hc))
  rw [lineEntry, if_pos hin, List.takeWhile_append_of_pos hall, List.dropWhile_append_of_pos hall]
  simp

theorem formatLines_cases {n : ℕ} {ptr : CStr} (hn : ptr.length ≤ n)
    (hfit : ∀ l ∈ levelLines ptr, ∀ p ∈ lineEntry l, isInt p.left = true ∧ isInt p.right = true) :
    (BlanksLast (levelLines ptr) ∧ formatLines n ptr = some (levelEntries ptr)) ∨
      (¬BlanksLast (levelLines ptr) ∧ formatLines n ptr = none) := by
  induction n generalizing ptr with
  | zero =>
    obtain rfl := List.length_eq_zero_iff.mp (Nat.le_zero.mp hn)
    exact .inl ⟨blanksLast_nil List.not_mem_nil, rfl⟩
  | succ n ih =>
    by_cases hcolon : ':' ∉ ptr
    · rw [(formatLines_nil hn).mpr hcolon, levelEntries_nil hcolon]
      exact .inl ⟨blanksLast_nil hcolon, rfl⟩
    rw [not_not] at hcolon
    by_cases hnl : '\n' ∈ ptr
    · obtain ⟨l, rest, rfl, hl⟩ := List.eq_append_cons_of_mem hnl
      unfold levelEntries
      rw [levelLines_cons hl] at hfit ⊢
      rw [List.length_append, List.length_cons] at hn
      have hrest := @ih rest (by omega) (fun l' hl' => hfit l' (List.mem_cons_of_mem l hl'))
      by_cases hc : ':' ∈ l
      · obtain ⟨a, b, rfl, ha⟩ := List.eq_append_cons_of_mem hc
        have hentry := @lineEntry_colon a b ha
        obtain ⟨hleft, hright⟩ := hfit _ List.mem_cons_self _ hentry
        rw [formatLines_line ha hl, blanksLast_cons (List.ne_nil_of_mem hc), List.filterMap_cons_some hentry,
          lineNumber_eq hleft, lineNumber_eq hright]
        rcases hrest with ⟨hb, he⟩ | ⟨hb, he⟩
        · exact .inl ⟨hb, by rw [he]; rfl⟩
        · exact .inr ⟨hb, by rw [he]; rfl⟩
      · by_cases hne : l = []
        · subst hne
          have hin : ':' ∈ rest := by simpa using hcolon
          refine .inr ⟨?_, formatLines_blank hin⟩
          intro hb
          obtain ⟨l', hl', hm⟩ := (mem_levelLines (by decide) rest).mp hin
          exact hb _ (List.suffix_refl _) l' hl' hm
        · have hnone : lineEntry l = none := if_neg hc
          rw [formatLines_plain hl hc hne, blanksLast_cons hne, List.filterMap_cons_none hnone]
          exact hrest
    · obtain ⟨a, b, rfl, ha⟩ := List.eq_append_cons_of_mem hcolon
      unfold levelEntries
      rw [levelLines_last hnl] at hfit ⊢
      have hentry := @lineEntry_colon a b ha
      obtain ⟨hleft, hright⟩ := hfit _ List.mem_cons_self _ hentry
      refine .inl ⟨?_, ?_⟩
      · exact (blanksLast_cons (List.ne_nil_of_mem hcolon)).mpr (fun after hs => by simp at hs)
      · rw [formatLines_last ha hnl, List.filterMap_cons_some hentry, lineNumber_eq hleft, lineNumber_eq hright]
        rfl

theorem lines_appended_iff (text : CStr) (dst : List Line)
    (hfit : ∀ l ∈ levelLines text, ∀ p ∈ lineEntry l, isInt p.left = true ∧ isInt p.right = true) :
    formatLine text dst = some (dst ++ levelEntries text) ↔
      BlanksLast (levelLines text) ∧ (dst = [] ∨ ':' ∉ text) := by
  rcases formatLines_cases (le_refl text.length) hfit with ⟨hb, he⟩ | ⟨hb, he⟩
  · have hnil := (formatLines_nil (le_refl text.length)).symm
    rw [he, Option.some_inj] at hnil
    unfold formatLine
    rw [he, Option.map_some, Option.some_inj]
    change (if levelEntries text = [] then dst else levelEntries text) = dst ++ levelEntries text ↔ _
    rw [hnil]
    by_cases hempty : levelEntries text = []
    · rw [hempty, if_pos rfl, List.append_nil]
      exact iff_of_true rfl ⟨hb, .inr rfl⟩
    · rw [if_neg hempty, List.self_eq_append_left]
      exact ⟨fun h => ⟨hb, .inl h⟩, fun h => h.2.resolve_right hempty⟩
  · unfold formatLine
    rw [he]
    refine iff_of_false ?_ (fun h => hb h.1)
    rintro ⟨⟩

theorem two_levels_appended :
    formatLine ['1', ':', '2', '\n', '3', ':', '4'] [] =
      some ([] ++ levelEntries ['1', ':', '2', '\n', '3', ':', '4']) :=
  (lines_appended_iff ['1', ':', '2', '\n', '3', ':', '4'] [] (by decide)).mpr
    ⟨(blanksLast_cons (by decide)).mpr ((blanksLast_cons (by decide)).mpr (fun after hs => by simp at hs)), .inl rfl⟩

theorem blank_line_read_past : ¬ ∀ (text : CStr) (dst : List Line),
    (∀ l ∈ levelLines text, ∀ p ∈ lineEntry l, isInt p.left = true ∧ isInt p.right = true) →
      formatLine text dst = some (dst ++ levelEntries text) := by
  intro h
  have hnone : formatLine ['\n', '1', ':', '2'] [] = none := by decide
  have hsome := h ['\n', '1', ':', '2'] [] (by decide)
  rw [hnone] at hsome
  cases hsome

def Line.field (dir : ℤ) (p : Line) : ℤ := if dir = 2 then p.right else p.left

structure Ordered (dir desc : ℤ) (l l' : List Line) : Prop where
  perm : l'.Perm l
  sorted : l'.Pairwise (fun p q => if desc = 0 then p.field dir ≤ q.field dir else q.field dir ≤ p.field dir)
  stable : ∀ k, l'.filter (fun p => decide (p.field dir = k)) = l.filter (fun p => decide (p.field dir = k))

theorem orderPass_eq {β : Type} [LinearOrder β] (swap : Line → Line → Bool) (key : Line → β)
    (h : ∀ p q, swap p q = true ↔ key q < key p) : orderPass swap = BubbleSort.pass key := by
  funext l
  fun_induction BubbleSort.pass key l with
  | case1 => rw [orderPass]
  | case2 p => rw [orderPass]
  | case3 p q l hlt ih => rw [orderPass, if_pos ((h p q).mpr hlt), ih]
  | case4 p q l hlt ih => rw [orderPass, if_neg (fun hs => hlt ((h p q).mp hs)), ih]

theorem order_up (l : List Line) (dir : ℤ) : order l dir 0 = (BubbleSort.pass (Line.field dir))^[l.length - 1] l :=
  congrArg (fun pass => pass^[l.length - 1] l) (orderPass_eq _ _ (fun _ _ => decide_eq_true_iff))

theorem order_down (l : List Line) (dir : ℤ) {desc : ℤ} (hd : desc ≠ 0) :
    order l dir desc = (BubbleSort.pass (fun p => OrderDual.toDual (p.field dir)))^[l.length - 1] l := by
  unfold order
  simp only [if_neg hd]
  exact congrArg (fun pass => pass^[l.length - 1] l) (orderPass_eq _ _ (fun _ _ => decide_eq_true_iff))

theorem order_ordered (l : List Line) (dir desc : ℤ) : Ordered dir desc l (order l dir desc) := by
  have hlen : l.length ≤ l.length - 1 + 1 := by omega
  by_cases hd : desc = 0
  · subst hd
    rw [order_up]
    refine ⟨BubbleSort.passes_perm _ l, ?_, fun k => BubbleSort.passes_filter _ k l⟩
    simp only [if_true]
    exact BubbleSort.passes_sorted hlen
  · have hsorted := @BubbleSort.passes_sorted _ _ _ (fun p : Line => OrderDual.toDual (p.field dir)) _ l hlen
    rw [order_down l dir hd]
    refine ⟨BubbleSort.passes_perm _ l, ?_, fun k => BubbleSort.passes_filter _ (OrderDual.toDual k) l⟩
    simp only [if_neg hd]
    exact hsorted

end FishServer
