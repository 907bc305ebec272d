import FishServer.JsonParse

namespace FishServer

/-!
A scanner over the text alone, one character at a time, with a counter for the nested objects that are
open. It builds no tree and knows no end of text.
-/

inductive Mode
  | after
  | start
  | blanks
  | key (empty : Bool)
  | quotedKey (sign : Char) (empty : Bool)
  | colon (empty : Bool)
  | value
  | number
  | string (sign prev : Char)
  | separator
deriving DecidableEq

-- `c` ends a value, or stands behind a nested object
def Mode.close (d : ℕ) (c : Char) : Option (Mode × ℕ) :=
  if c = '}' ∧ 0 < d then some (.after, d - 1) else some (.start, d)

-- a syntax error gives up the innermost object; outside all nested objects it ends the scan
def Mode.fail (d : ℕ) : Option (Mode × ℕ) := if 0 < d then some (.after, d - 1) else none

def Mode.number? (d : ℕ) (c : Char) : Option (Mode × ℕ) :=
  if c.isDigit then some (.number, d)
  else if c = ' ' then some (.separator, d)
  else if c = ',' ∨ c = '}' then close d c
  else if c = '.' then some (.number, d)
  else fail d

def Mode.bareKey (empty : Bool) (d : ℕ) (c : Char) : Option (Mode × ℕ) :=
  if c = ':' then (if empty then fail d else some (.value, d))
  else if c = ' ' then some (.colon empty, d)
  else some (.key false, d)

def Mode.keyStart (d : ℕ) (c : Char) : Option (Mode × ℕ) :=
  if c = ' ' then some (.blanks, d)
  else if isQuote c then some (.quotedKey c true, d)
  else bareKey true d c

def Mode.step (d : ℕ) (c : Char) : Mode → Option (Mode × ℕ)
  | .after => close d c
  | .start => if c = '}' ∧ 0 < d then some (.after, d - 1) else keyStart d c
  | .blanks => keyStart d c
  | .key empty => bareKey empty d c
  | .quotedKey sign empty =>
    if c = sign then some (.colon empty, d)
    else if c = ' ' then fail d
    else some (.quotedKey sign false, d)
  | .colon empty =>
    if c = ' ' then some (.colon empty, d)
    else if c = ':' ∧ empty = false then some (.value, d)
    else fail d
  | .value =>
    if c = ' ' then some (.value, d)
    else if c = '{' then some (.start, d + 1)
    else if isQuote c then some (.string c c, d)
    else if c = '-' then some (.number, d)
    else number? d c
  | .number => number? d c
  | .string sign prev =>
    if c = sign ∧ prev ≠ '\\' then some (.separator, d) else some (.string sign c, d)
  | .separator =>
    if c = ' ' then some (.separator, d) else if c = ',' ∨ c = '}' then close d c else fail d

def scan : Mode → ℕ → CStr → ℕ
  | _, d, [] => d
  | s, d, c :: r => (s.step d c).elim 0 (fun t => scan t.1 t.2 r)

def openAtEnd : CStr → ℕ
  | [] => 0
  | _ :: r => scan .start 0 r

def Cursor.rest (d : ℕ) : Cursor → ℕ
  | none => d
  | some [] => d
  | some (_ :: r) => if 0 < d then scan .after (d - 1) r else 0

def KeyScan.rest (d : ℕ) : KeyScan → ℕ
  | .error m => Cursor.rest d (some m)
  | .found key m => if key = [] then Cursor.rest d (some m) else scan .value d m.tail

def ValueScan.rest (d : ℕ) : ValueScan → ℕ
  | .error m => Cursor.rest d (some m)
  | .done _ m => scan .after d m

theorem fail_rest (d : ℕ) (c : Char) (r : CStr) :
    (Mode.fail d).elim 0 (fun t => scan t.1 t.2 r) = Cursor.rest d (some (c :: r)) := by
  unfold Mode.fail Cursor.rest
  split <;> rfl

theorem scan_skipBlanks (s : Mode) (d : ℕ) (h : s.step d ' ' = some (s, d)) (m : CStr) :
    scan s d m = scan s d (skipBlanks m) := by
  induction m with
  | nil => rfl
  | cons c r ih =>
    unfold skipBlanks
    by_cases hc : c = ' '
    · rw [List.dropWhile_cons_of_pos (by simp [hc]), hc, scan, h]
      exact ih
    · rw [List.dropWhile_cons_of_neg (by simp [hc])]

theorem skipBlanks_ne (m : CStr) (c : Char) (r : CStr) (h : skipBlanks m = c :: r) : c ≠ ' ' := by
  have hd := List.head?_dropWhile_not (fun c => decide (c = ' ')) m
  unfold skipBlanks at h
  rw [h] at hd
  simpa using hd

theorem colonAfter_scan (key : CStr) (d : ℕ) (m : CStr) :
    scan (.colon (decide (key = []))) d m = (colonAfter key m).rest d := by
  rw [scan_skipBlanks _ d rfl]
  unfold colonAfter
  cases h : skipBlanks m with
  | nil => rfl
  | cons c r =>
    have hb := skipBlanks_ne m c r h
    rw [scan, Mode.step, if_neg hb]
    by_cases hc : c = ':'
    · subst hc
      by_cases hk : key = []
      · simp only [hk, decide_true, Bool.true_eq_false, and_false, if_false, fail_rest d ':', KeyScan.rest,
          if_true]
      · simp [hk, KeyScan.rest]
    · rw [if_neg (by simp [hc]), fail_rest d c]
      split
      · rename_i heq
        cases heq
        exact absurd rfl hc
      · rfl

theorem keyScan_some (sign c : Char) (key r : CStr) :
    keyScan (some sign) key (c :: r) =
      if c = sign then colonAfter key r
      else if c = ' ' then .error (c :: r)
      else keyScan (some sign) (key ++ [c]) r := by
  simp [keyScan, eq_comm]

theorem keyScan_none (c : Char) (key r : CStr) :
    keyScan none key (c :: r) =
      if c = ':' then .found key (c :: r)
      else if c = ' ' then colonAfter key (c :: r)
      else keyScan none (key ++ [c]) r := by
  simp [keyScan]

theorem keyScan_quoted (sign : Char) (d : ℕ) (m key : CStr) :
    scan (.quotedKey sign (decide (key = []))) d m = (keyScan (some sign) key m).rest d := by
  induction m generalizing key with
  | nil => rfl
  | cons c r ih =>
    rw [scan, Mode.step, keyScan_some]
    by_cases hs : c = sign
    · rw [if_pos hs, if_pos hs]
      exact colonAfter_scan key d r
    rw [if_neg hs, if_neg hs]
    by_cases hb : c = ' '
    · rw [if_pos hb, if_pos hb]
      exact fail_rest d c r
    · rw [if_neg hb, if_neg hb, ← ih]
      simp

theorem keyScan_bare (d : ℕ) (m key : CStr) :
    scan (.key (decide (key = []))) d m = (keyScan none key m).rest d := by
  induction m generalizing key with
  | nil => rfl
  | cons c r ih =>
    rw [scan, Mode.step, Mode.bareKey, keyScan_none]
    by_cases hc : c = ':'
    · subst hc
      rw [if_pos rfl, if_pos rfl]
      by_cases hk : key = []
      · simp only [hk, decide_true, if_true, fail_rest d ':', KeyScan.rest]
      · simp [hk, KeyScan.rest]
    rw [if_neg hc, if_neg hc]
    by_cases hb : c = ' '
    · rw [if_pos hb, if_pos hb, ← colonAfter_scan, hb]
      rfl
    · rw [if_neg hb, if_neg hb, ← ih]
      simp

theorem readKey_rest (d : ℕ) (m : CStr) :
    (readKey m).rest d =
      (keyScan (quoteSign (skipBlanks m)).1 [] (quoteSign (skipBlanks m)).2).rest d := by
  unfold readKey
  cases h : keyScan (quoteSign (skipBlanks m)).1 [] (quoteSign (skipBlanks m)).2 with
  | error m => simp only [h]
  | found key m => cases key <;> simp [h, KeyScan.rest]

theorem readKey_scan (d : ℕ) (m : CStr) : scan .blanks d m = (readKey m).rest d := by
  rw [scan_skipBlanks .blanks d rfl, readKey_rest]
  cases h : skipBlanks m with
  | nil => rfl
  | cons c r =>
    have hb := skipBlanks_ne m c r h
    rw [scan, Mode.step, Mode.keyStart, if_neg hb]
    by_cases hq : isQuote c
    · simp only [quoteSign, if_pos hq]
      exact keyScan_quoted c d r []
    · simp only [quoteSign, if_neg hq]
      exact keyScan_bare d (c :: r) []

theorem separatorAfter_scan (d : ℕ) (value m : CStr) :
    scan .separator d m = (separatorAfter value m).rest d := by
  rw [scan_skipBlanks _ d rfl]
  unfold separatorAfter
  cases h : skipBlanks m with
  | nil => rfl
  | cons c r =>
    have hb := skipBlanks_ne m c r h
    rw [scan, Mode.step, if_neg hb]
    by_cases hc : c = ',' ∨ c = '}'
    · simp only [if_pos hc]
      rfl
    · simp only [if_neg hc]
      exact fail_rest d c r

theorem numberScan_scan (d : ℕ) (m value : CStr) :
    scan .number d m = (numberScan value m).rest d := by
  induction m generalizing value with
  | nil => rfl
  | cons c r ih =>
    rw [scan, Mode.step, Mode.number?, numberScan]
    by_cases hn : c.isDigit
    · rw [if_pos hn, if_pos hn]
      exact ih (value ++ [c])
    rw [if_neg hn, if_neg hn]
    by_cases hb : c = ' '
    · rw [if_pos hb, if_pos hb, ← separatorAfter_scan, hb]
      rfl
    rw [if_neg hb, if_neg hb]
    by_cases hc : c = ',' ∨ c = '}'
    · rw [if_pos hc, if_pos hc]
      rfl
    rw [if_neg hc, if_neg hc]
    by_cases hp : c = '.'
    · rw [if_pos hp, if_pos hp]
      exact ih (value ++ [c])
    · rw [if_neg hp, if_neg hp]
      exact fail_rest d c r

theorem stringScan_scan (sign : Char) (d : ℕ) (m : CStr) (prev : Char) (value : CStr) :
    scan (.string sign prev) d m = (stringScan sign prev value m).rest d := by
  induction m generalizing prev value with
  | nil => rfl
  | cons c r ih =>
    rw [scan, Mode.step, stringScan]
    by_cases hs : c = sign ∧ prev ≠ '\\'
    · rw [if_pos hs, if_pos hs]
      exact separatorAfter_scan d value r
    · rw [if_neg hs, if_neg hs]
      exact ih c (value ++ [c])

theorem readValue_scan (d : ℕ) (m : CStr) (hb : m.head? ≠ some ' ') (ho : m.head? ≠ some '{') :
    scan .value d m = (readValue m).rest d := by
  cases m with
  | nil => rfl
  | cons c r =>
    have hb : c ≠ ' ' := by simpa using hb
    have ho : c ≠ '{' := by simpa using ho
    rw [scan, Mode.step, if_neg hb, if_neg ho]
    by_cases hq : isQuote c
    · simp only [readValue, quoteSign, if_pos hq]
      exact stringScan_scan c d r c []
    · simp only [readValue, quoteSign, if_neg hq]
      by_cases hm : c = '-'
      · subst hm
        exact numberScan_scan d r ['-']
      · rw [if_neg hm]
        have hv : readValue (c :: r) = numberScan [] (c :: r) := by
          simp [readValue, quoteSign, hq, hm]
        split
        · rename_i heq
          simp_all
        · rename_i heq
          simp_all
        · rename_i heq
          cases heq
          exact numberScan_scan d (c :: r) []

end FishServer
