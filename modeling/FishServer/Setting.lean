import FishServer.Entry

namespace FishServer

/-! The settings: the table `setting`, and what the program keeps of it. The flag `closeing` is with `Server`. -/

structure Line where
  left : ℤ
  right : ℤ
deriving DecidableEq

/-- A field that nothing has been written to is none. -/
structure Values where
  noVerifyAccountTimout : Option ℤ
  noGameTimeout : Option ℤ
  noOpTimeout : Option ℤ
deriving DecidableEq

structure Setting where
  value : Values
  list : List (CStr × Option CStr)
  levelList : List Line
  vipLevelList : List Line
deriving DecidableEq

abbrev Row := CStr × CStr

def strposFrom (need : CStr) (stop pos : ℕ) : CStr → Option ℕ
  | [] => none
  | c :: s =>
    if 0 < stop ∧ stop + 1 < pos + need.length then none
    else if need.isPrefixOf (c :: s) then some pos
    else strposFrom need stop (pos + 1) s

-- `stop` is 0 for a search up to the end of the text
def strpos (text need : CStr) (stop : ℕ) : Option ℕ := strposFrom need stop 0 text

theorem strposFrom_mem {c : Char} {stop pos p : ℕ} {s : CStr} (h : strposFrom [c] stop pos s = some p) :
    c ∈ s := by
  induction s generalizing pos with
  | nil => cases h
  | cons d s ih =>
    rw [strposFrom] at h
    split_ifs at h with _ hd
    · rw [List.isPrefixOf_cons_cons, Bool.and_eq_true] at hd
      rw [eq_of_beq hd.1]
      exact List.mem_cons_self
    · exact List.mem_cons_of_mem _ (ih h)

theorem strposFrom_none {c : Char} {stop pos : ℕ} {s : CStr} (h : strposFrom [c] stop pos s = none) :
    c ∉ if stop = 0 then s else s.take (stop + 1 - pos) := by
  induction s generalizing pos with
  | nil => simp
  | cons d s ih =>
    rw [strposFrom, List.length_singleton] at h
    by_cases hs : 0 < stop ∧ stop + 1 < pos + 1
    · rw [if_neg hs.1.ne', show stop + 1 - pos = 0 by omega]
      exact List.not_mem_nil
    · rw [if_neg hs] at h
      split_ifs at h with hd
      have hi := ih h
      have hc : c ≠ d := by
        rintro rfl
        simp at hd
      by_cases h0 : stop = 0
      · rw [if_pos h0] at hi ⊢
        exact List.not_mem_cons_of_ne_of_not_mem hc hi
      · rw [if_neg h0] at hi ⊢
        rw [show stop + 1 - pos = stop + 1 - (pos + 1) + 1 by omega, List.take_succ_cons]
        exact List.not_mem_cons_of_ne_of_not_mem hc hi

def lineNumber (text : CStr) : ℤ :=
  text.foldl (fun n c => if c.isDigit then i32 (n * 10 + (c.toNat - 48)) else n) 0

/-- The loop of `formatLine`. None is for a cursor that has passed the end of the text: a blank line before
a line with a colon takes the first colon for its own. -/
def formatLines : ℕ → CStr → Option (List Line)
  | 0, _ => some []
  | _, [] => some []
  | n + 1, ptr =>
    let linePos := strpos ptr ['\n'] 0
    match strpos ptr [':'] (linePos.getD 0) with
    | none => formatLines n (ptr.drop (linePos.getD 0 + 1))
    | some maohaoPos =>
      let right := ptr.drop (maohaoPos + 1)
      match linePos with
      | none => some [⟨lineNumber (ptr.take maohaoPos), lineNumber right⟩]
      | some endPos =>
        if maohaoPos < endPos then
          (formatLines n (ptr.drop (endPos + 1))).map
            (⟨lineNumber (ptr.take maohaoPos), lineNumber (right.take (endPos - (maohaoPos + 1)))⟩ :: ·)
        else none

/-- Every colon is the start of a line, if only of one that the cursor overruns. -/
theorem formatLines_nil {n : ℕ} {ptr : CStr} (h : ptr.length ≤ n) : formatLines n ptr = some [] ↔ ':' ∉ ptr := by
  induction n generalizing ptr with
  | zero =>
    rw [List.length_eq_zero_iff.mp (Nat.le_zero.mp h)]
    exact ⟨fun _ => List.not_mem_nil, fun _ => rfl⟩
  | succ n ih =>
    cases ptr with
    | nil => exact ⟨fun _ => List.not_mem_nil, fun _ => rfl⟩
    | cons c s =>
      unfold formatLines
      simp only
      cases hm : strpos (c :: s) [':'] ((strpos (c :: s) ['\n'] 0).getD 0) with
      | some p =>
        have hin : ':' ∈ c :: s := strposFrom_mem hm
        refine iff_of_false ?_ (not_not.mpr hin)
        simp only
        split
        · simp
        · split_ifs <;> simp
      | none =>
        simp only
        generalize (strpos (c :: s) ['\n'] 0).getD 0 = k at hm ⊢
        have hlen : (c :: s).length ≤ n + 1 := h
        rw [ih (by rw [List.length_drop]; omega)]
        have hnot := strposFrom_none hm
        split_ifs at hnot with hk
        · exact ⟨fun _ => hnot, fun _ hd => hnot (List.mem_of_mem_drop hd)⟩
        · rw [Nat.sub_zero] at hnot
          rw [← List.take_append_drop (k + 1) (c :: s), List.mem_append, not_or, List.take_append_drop]
          exact ⟨fun hd => ⟨hnot, hd⟩, fun hd => hd.2⟩

-- without a line to add, what `dst` points to stays
def formatLine (text : CStr) (dst : List Line) : Option (List Line) :=
  (formatLines text.length text).map (fun lines => if lines = [] then dst else lines)

theorem formatLine_eq_nil (text : CStr) : formatLine text [] = some [] ↔ ':' ∉ text := by
  rw [← formatLines_nil (le_refl text.length)]
  unfold formatLine
  cases formatLines text.length text with
  | none => simp
  | some l => simp

def orderPass (swap : Line → Line → Bool) : List Line → List Line
  | [] => []
  | [p] => [p]
  | p :: q :: l => if swap p q then q :: orderPass swap (p :: l) else p :: orderPass swap (q :: l)

def order (l : List Line) (dir desc : ℤ) : List Line :=
  let field (p : Line) : ℤ := if dir = 2 then p.right else p.left
  (orderPass (fun p q => if desc = 0 then decide (field q < field p) else decide (field p < field q)))^[l.length - 1] l

theorem orderPass_length (swap : Line → Line → Bool) (l : List Line) : (orderPass swap l).length = l.length := by
  fun_induction orderPass swap l with
  | case1 => rfl
  | case2 => rfl
  | case3 p q l _ ih => simp only [List.length_cons, ih]
  | case4 p q l _ ih => simp only [List.length_cons, ih]

theorem order_length (l : List Line) (dir desc : ℤ) : (order l dir desc).length = l.length := by
  unfold order
  simp only
  generalize l.length - 1 = n
  induction n with
  | zero => rfl
  | succ n ih => rw [Function.iterate_succ_apply', orderPass_length, ih]

namespace Setting

def empty : Setting := ⟨⟨none, none, none⟩, [], [], []⟩

def system (st : Setting) (key : CStr) : Option CStr := (st.list.find? (fun e => e.1 = key)).bind Prod.snd

def filled (value : CStr) : Option CStr := if value = [] then none else some value

def readRow (st : Setting) (row : Row) : Option Setting :=
  if row.1 = "no_verify_account_timout".toList then
    some { st with value := { st.value with noVerifyAccountTimout := some (atoi row.2) } }
  else if row.1 = "no_game_timeout".toList then
    some { st with value := { st.value with noGameTimeout := some (atoi row.2) } }
  else if row.1 = "no_op_timeout".toList then
    some { st with value := { st.value with noOpTimeout := some (atoi row.2) } }
  else if row.1 = "user_level".toList then
    (formatLine row.2 st.levelList).map (fun l => { st with levelList := l })
  else if row.1 = "user_vip_level".toList then
    (formatLine row.2 st.vipLevelList).map (fun l => { st with vipLevelList := l })
  else some st

def loadRow (st : Setting) (row : Row) : Option Setting :=
  if row.1 = [] then some st
  else (st.readRow row).map (fun t => { t with list := t.list ++ [(row.1, filled row.2)] })

def loadSystem (rows : List Row) : Option Setting :=
  (rows.foldlM loadRow empty).map
    (fun st => { st with levelList := order st.levelList 1 1, vipLevelList := order st.vipLevelList 1 1 })

def checkKey (key : CStr) : Bool :=
  key = "no_verify_account_timeout".toList || key = "no_game_timeout".toList || key = "no_op_timeout".toList ||
    key = "user_level".toList || key = "user_vip_level".toList

def setEntry (key value : CStr) : List (CStr × Option CStr) → List (CStr × Option CStr)
  | [] => []
  | e :: l => if e.1 = key then (e.1, filled value) :: l else e :: setEntry key value l

/-- The answer is none for a value that is a null pointer. An entry for a new key is built, and belongs to
no list. -/
def setValue (st : Setting) (key : CStr) (value : Option CStr) : Option (Setting × Bool) :=
  if checkKey key = false then some (st, false)
  else do
    let value ← value
    if key = [] then some (st, false)
    else
      let st := { st with list := setEntry key value st.list }
      if key = "user_level".toList then
        (formatLine key []).map (fun l => ({ st with levelList := l }, true))
      else if key = "user_vip_level".toList then
        (formatLine key []).map (fun l => ({ st with vipLevelList := l }, true))
      else some (st, true)

end Setting

/-! The message that changes settings. -/

def JsonValue.childOf (key : CStr) : JsonValue → JsonValue
  | .null => .null
  | .node k _ child next => if k = key then child else next.childOf key

-- the counts of the keys that were refused and of those that were set
def Setting.setAll (st : Setting) (errors successes : ℕ) : JsonValue → Option (Setting × ℕ × ℕ)
  | .null => some (st, errors, successes)
  | .node key value _ next => do
    let (st, ok) ← st.setValue key value
    if ok then st.setAll errors (successes + 1) next else st.setAll (errors + 1) successes next

def Entry.setSetting (st : Setting) (s : Server) (i : Slot) (json : JsonValue) : Option (Setting × Server) := do
  let (st, errors, successes) ← st.setAll 0 0 (json.childOf "data".toList)
  some (st, s.send (s.slot i) (.text ("\x7b'op':'set setting', 'error':".toList ++ (toString errors).toList ++
    ", 'success':".toList ++ (toString successes).toList ++ "\x7d".toList)))

def Entry.entry (st : Setting) (s : Server) (i : Slot) (json : JsonValue) (now : ℤ) (time : ℚ) (rand : ℕ → ℕ) :
    Option (Setting × Server) :=
  if json.value "op".toList = some "set setting".toList ∧ Entry.allowed s i Privilege.exit then
    Entry.setSetting st s i json
  else (Entry.dispatch s i json now time rand).map (fun t => (st, t))

end FishServer
