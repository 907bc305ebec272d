import FishServer.JsonParse

namespace FishServer

/-! The configuration file, a text without NUL, of which `fgets` gives at most 49 characters at a time. -/

def fgets : ℕ → CStr → CStr × CStr
  | 0, file => ([], file)
  | _ + 1, [] => ([], [])
  | n + 1, c :: file => if c = '\n' then ([c], file) else (c :: (fgets n file).1, (fgets n file).2)

theorem fgets_rest (n : ℕ) (file : CStr) : (fgets n file).2.length ≤ file.length := by
  induction n generalizing file with
  | zero => exact le_refl _
  | succ n ih =>
    cases file with
    | nil => exact le_refl _
    | cons c file =>
      rw [fgets]
      split_ifs
      · exact Nat.le_succ _
      · exact (ih file).trans (Nat.le_succ _)

theorem fgets_shorter {n : ℕ} {file : CStr} (h : file ≠ []) : (fgets (n + 1) file).2.length < file.length := by
  obtain ⟨c, file, rfl⟩ := List.exists_cons_of_ne_nil h
  rw [fgets]
  split_ifs
  · exact Nat.lt_succ_self _
  · exact Nat.lt_succ_of_le (fgets_rest n file)

def isComment (c : Char) : Bool := c = ';' || c = '#' || c = '[' || c = ' '

def endsKey (c : Char) : Bool := c = ' ' || c = '=' || c = ';' || c = '\r' || c = '\n'

def separates (c : Char) : Bool := c = ' ' || c = '='

def endsValue (c : Char) : Bool := c = ' ' || c = ';' || c = '\r' || c = '\n'

def readEntry (line : CStr) : CStr × CStr :=
  let key := (line.takeWhile (fun c => !endsKey c)).take 49
  let tmp := (line.drop key.length).dropWhile separates
  (key, (tmp.takeWhile (fun c => !endsValue c)).take 49)

/-- The loop of `parse`. At the end of the file `line` is what it was before, with a semicolon in front, and nothing
is stored. -/
def parseConf (file : CStr) (i : ℕ) (entries : List (CStr × CStr)) : List (CStr × CStr) :=
  if entries.length = 49 then entries
  else if _h : file = [] then entries
  else
    let line := (fgets 49 file).1
    let ended := line.getLast? = some '\n'
    if line.head?.any isComment then parseConf (fgets 49 file).2 (if ended then 0 else i + 1) entries
    else if i = 0 then parseConf (fgets 49 file).2 (if ended then 0 else i + 1) (entries ++ [readEntry line])
    else parseConf (fgets 49 file).2 (if ended then 0 else i) entries
termination_by file.length
decreasing_by all_goals exact fgets_shorter _h

structure Conf where
  entries : List (CStr × CStr)

-- none is for a file that is not there
def Conf.parse : Option CStr → Bool × Conf
  | none => (false, ⟨[]⟩)
  | some file => (true, ⟨parseConf file 0 []⟩)

def Conf.get (conf : Conf) (key : CStr) : Option CStr := (conf.entries.find? (fun e => e.1 = key)).map Prod.snd

structure Returns where
  text : CStr
  chars : ∀ c ∈ text, c = '\r'

structure KeyLine where
  key : CStr
  separators : CStr
  value : CStr
  returns : Returns
  key_length : key.length ≤ 48
  value_length : value.length ≤ 48
  key_chars : ∀ c ∈ key, endsKey c = false
  value_chars : ∀ c ∈ value, endsKey c = false
  separators_ne : separators ≠ []
  separators_chars : ∀ c ∈ separators, separates c = true
  plain : ∀ c ∈ (key ++ separators).head?, isComment c = false

structure Comment where
  text : CStr
  chars : '\n' ∉ text
  mark : ∃ c ∈ text.head?, isComment c = true

inductive ConfLine
  | blank (returns : Returns)
  | comment (c : Comment)
  | key (k : KeyLine)

def ConfLine.text : ConfLine → CStr
  | .blank returns => returns.text
  | .comment c => c.text
  | .key k => k.key ++ (k.separators ++ (k.value ++ k.returns.text))

def ConfLine.keyLine : ConfLine → Option KeyLine
  | .key k => some k
  | _ => none

def ConfLine.name : ConfLine → Option CStr
  | .blank _ => some []
  | .comment _ => none
  | .key k => some k.key

-- a value goes no further than the first 49 characters of its line
def ConfLine.read : ConfLine → CStr
  | .key k => k.value.take (49 - (k.key.length + k.separators.length))
  | _ => []

def ConfLine.entry (line : ConfLine) : Option (CStr × CStr) := line.name.map (fun key => (key, line.read))

def fileText (ended : Bool) : List ConfLine → CStr
  | [] => []
  | [line] => line.text ++ if ended then ['\n'] else []
  | line :: lines => line.text ++ '\n' :: fileText ended lines

structure ConfFile where
  lines : List ConfLine
  ended : Bool
  last : ended = false → ∀ line ∈ lines.getLast?, line.text ≠ []
  keys : (lines.filterMap ConfLine.keyLine).length ≤ 49

def ConfFile.text (file : ConfFile) : CStr := fileText file.ended file.lines

def ConfFile.lookup (file : ConfFile) (key : CStr) : Option CStr :=
  ((file.lines.filterMap ConfLine.keyLine).find? (fun k => k.key = key)).map KeyLine.value

section

variable {text tail : CStr} (htext : '\n' ∉ text) (htail : ∀ c ∈ tail.head?, c = '\n')

include htext htail

theorem fgets_line (n : ℕ) (hn : text.length < n) : fgets n (text ++ tail) = (text ++ tail.take 1, tail.drop 1) := by
  induction text generalizing n with
  | nil =>
    obtain ⟨n, rfl⟩ : ∃ m, n = m + 1 := ⟨n - 1, by simp at hn; omega⟩
    cases tail with
    | nil => rfl
    | cons c tail => simp [fgets, htail c rfl]
  | cons c text ih =>
    obtain ⟨n, rfl⟩ : ∃ m, n = m + 1 := ⟨n - 1, by simp at hn; omega⟩
    have hc : c ≠ '\n' := fun h => htext (h ▸ List.mem_cons_self)
    rw [List.cons_append, fgets, if_neg hc, ih (fun h => htext (List.mem_cons_of_mem _ h)) n (by simpa using hn)]
    rfl

omit htail in
theorem fgets_chunk (n : ℕ) (hn : n ≤ text.length) : fgets n (text ++ tail) = (text.take n, text.drop n ++ tail) := by
  induction n generalizing text with
  | zero => rfl
  | succ n ih =>
    cases text with
    | nil => exact absurd hn (Nat.not_succ_le_zero n)
    | cons c text =>
      have hc : c ≠ '\n' := fun h => htext (h ▸ List.mem_cons_self)
      rw [List.cons_append, fgets, if_neg hc,
        ih (fun h => htext (List.mem_cons_of_mem _ h)) (Nat.le_of_succ_le_succ hn)]
      rfl

end

theorem parseConf_full {entries : List (CStr × CStr)} (h : entries.length = 49) (file : CStr) (i : ℕ) :
    parseConf file i entries = entries := by
  rw [parseConf, if_pos h]

theorem parseConf_nil (i : ℕ) (entries : List (CStr × CStr)) : parseConf [] i entries = entries := by
  rw [parseConf]
  simp

def stored (chunk : CStr) (i : ℕ) : List (CStr × CStr) :=
  if chunk.head?.any isComment ∨ i ≠ 0 then [] else [readEntry chunk]

theorem stored_within {i : ℕ} (hi : i ≠ 0) (chunk : CStr) : stored chunk i = [] := if_pos (Or.inr hi)

theorem parseConf_step {file : CStr} (hfile : file ≠ []) (i : ℕ) {entries : List (CStr × CStr)}
    (h : entries.length ≠ 49) : ∃ j, j ≠ 0 ∧ parseConf file i entries = parseConf (fgets 49 file).2
      (if (fgets 49 file).1.getLast? = some '\n' then 0 else j) (entries ++ stored (fgets 49 file).1 i) := by
  rw [parseConf, if_neg h, dif_neg hfile]
  by_cases hcomment : (fgets 49 file).1.head?.any isComment
  · exact ⟨i + 1, Nat.succ_ne_zero i, by simp [hcomment, stored]⟩
  · by_cases hi : i = 0
    · exact ⟨i + 1, Nat.succ_ne_zero i, by simp [hcomment, hi, stored]⟩
    · exact ⟨i, hi, by simp [hcomment, hi, stored]⟩

section

variable {text tail : CStr} (htext : '\n' ∉ text) (htail : ∀ c ∈ tail.head?, c = '\n')

include htext htail

theorem parseConf_end (hne : text ++ tail ≠ []) (hn : text.length < 49) (i : ℕ) {entries : List (CStr × CStr)}
    (h : entries.length ≠ 49) : parseConf (text ++ tail) i entries =
      parseConf (tail.drop 1) 0 (entries ++ stored (text ++ tail.take 1) i) := by
  obtain ⟨j, -, hstep⟩ := parseConf_step hne i h
  rw [hstep, fgets_line htext htail 49 hn]
  cases tail with
  | nil => simp [parseConf_nil]
  | cons c tail => simp [htail c rfl]

omit htail in
theorem parseConf_chunk (hn : 49 ≤ text.length) (i : ℕ) {entries : List (CStr × CStr)} (h : entries.length ≠ 49) :
    ∃ j, j ≠ 0 ∧ parseConf (text ++ tail) i entries =
      parseConf (text.drop 49 ++ tail) j (entries ++ stored (text.take 49) i) := by
  have hne : text ++ tail ≠ [] := by
    intro hnil
    simp [(List.append_eq_nil_iff.mp hnil).1] at hn
  have hlast : (text.take 49).getLast? ≠ some '\n' :=
    fun hlast => htext (List.mem_of_mem_take (List.mem_of_getLast? hlast))
  obtain ⟨j, hj, hstep⟩ := parseConf_step hne i h
  rw [fgets_chunk htext 49 hn, if_neg hlast] at hstep
  exact ⟨j, hj, hstep⟩

theorem parseConf_skips {i : ℕ} (hi : i ≠ 0) (entries : List (CStr × CStr)) :
    parseConf (text ++ tail) i entries = parseConf (tail.drop 1) 0 entries := by
  by_cases hfull : entries.length = 49
  · rw [parseConf_full hfull, parseConf_full hfull]
  induction hn : text.length using Nat.strong_induction_on generalizing text i with
  | _ n ih =>
    by_cases hne : text ++ tail = []
    · rw [hne, (List.append_eq_nil_iff.mp hne).2, List.drop_nil, parseConf_nil, parseConf_nil]
    by_cases hshort : text.length < 49
    · rw [parseConf_end htext htail hne hshort i hfull, stored_within hi, List.append_nil]
    · obtain ⟨j, hj, hchunk⟩ := @parseConf_chunk text tail htext (by omega) i entries hfull
      rw [hchunk, stored_within hi, List.append_nil]
      refine ih (text.drop 49).length ?_ (fun h => htext (List.mem_of_mem_drop h)) hj rfl
      rw [List.length_drop]
      omega

theorem parseConf_line (hne : text ++ tail ≠ []) {entries : List (CStr × CStr)} (h : entries.length ≠ 49) :
    parseConf (text ++ tail) 0 entries =
      parseConf (tail.drop 1) 0 (entries ++ stored ((text ++ tail.take 1).take 49) 0) := by
  by_cases hshort : text.length < 49
  · have hlength : (text ++ tail.take 1).length ≤ 49 := by
      rw [List.length_append, List.length_take]
      omega
    rw [parseConf_end htext htail hne hshort 0 h, List.take_of_length_le hlength]
  · obtain ⟨j, hj, hchunk⟩ := @parseConf_chunk text tail htext (by omega) 0 entries h
    rw [hchunk, parseConf_skips (fun h => htext (List.mem_of_mem_drop h)) htail hj,
      List.take_append_of_le_length (by omega)]

end

theorem takeWhile_eq_left {α : Type} {p : α → Bool} {l r : List α} (hl : ∀ a ∈ l, p a = true)
    (hr : ∀ a ∈ r.head?, p a = false) : (l ++ r).takeWhile p = l := by
  rw [List.takeWhile_append_of_pos hl]
  cases r with
  | nil => simp
  | cons a r => simp [hr a rfl]

theorem dropWhile_eq_self {α : Type} {p : α → Bool} {l : List α} (h : ∀ a ∈ l, p a = false) : l.dropWhile p = l := by
  cases l with
  | nil => rfl
  | cons a l => simp [h a List.mem_cons_self]

theorem endsKey_of_separates {c : Char} (h : separates c = true) : endsKey c = true := by
  simp only [separates, endsKey, Bool.or_eq_true, decide_eq_true_eq] at h ⊢
  tauto

theorem endsKey_of_endsValue {c : Char} (h : endsValue c = true) : endsKey c = true := by
  simp only [endsValue, endsKey, Bool.or_eq_true, decide_eq_true_eq] at h ⊢
  tauto

theorem line_end {returns : Returns} {tail : CStr} (htail : ∀ c ∈ tail.head?, c = '\n') :
    ∀ c ∈ returns.text ++ tail.take 1, c = '\r' ∨ c = '\n' := by
  intro c hc
  rcases List.mem_append.mp hc with hc | hc
  · exact Or.inl (returns.chars c hc)
  · cases tail with
    | nil => cases hc
    | cons d tail =>
      rw [List.take_succ_cons, List.take_zero, List.mem_singleton] at hc
      exact Or.inr (hc.trans (htail d rfl))

section

variable {c : Char} (h : c = '\r' ∨ c = '\n')

include h

theorem isComment_end : isComment c = false := by
  rcases h with rfl | rfl <;> decide

theorem separates_end : separates c = false := by
  rcases h with rfl | rfl <;> decide

theorem endsValue_end : endsValue c = true := by
  rcases h with rfl | rfl <;> decide

end

theorem readEntry_blank {l : CStr} (h : ∀ c ∈ l, c = '\r' ∨ c = '\n') : readEntry l = ([], []) := by
  have hends : ∀ c ∈ l.head?, endsValue c = true := fun c hc => endsValue_end (h c (List.mem_of_mem_head? hc))
  have hkey : l.takeWhile (fun c => !endsKey c) = [] :=
    @takeWhile_eq_left _ _ [] l (by simp) fun c hc => by simp [endsKey_of_endsValue (hends c hc)]
  have hvalue : l.takeWhile (fun c => !endsValue c) = [] :=
    @takeWhile_eq_left _ _ [] l (by simp) fun c hc => by simp [hends c hc]
  simp only [readEntry, hkey, List.take_nil, List.length_nil, List.drop_zero,
    dropWhile_eq_self (fun c hc => separates_end (h c hc)), hvalue]

theorem readEntry_key (κ : KeyLine) {rest : CStr} (hrest : ∀ c ∈ rest, c = '\r' ∨ c = '\n') :
    readEntry ((κ.key ++ (κ.separators ++ (κ.value ++ rest))).take 49) =
      (κ.key, κ.value.take (49 - (κ.key.length + κ.separators.length))) := by
  obtain ⟨n, hn⟩ : ∃ n, 49 = κ.key.length + (n + 1) := ⟨48 - κ.key.length, by have := κ.key_length; omega⟩
  have htake : (κ.key ++ (κ.separators ++ (κ.value ++ rest))).take 49 =
      κ.key ++ (κ.separators ++ (κ.value ++ rest)).take (n + 1) := by
    rw [hn, List.take_length_add_append]
  have hkey : (κ.key ++ (κ.separators ++ (κ.value ++ rest)).take (n + 1)).takeWhile (fun c => !endsKey c) = κ.key := by
    refine takeWhile_eq_left (fun c hc => by simp [κ.key_chars c hc]) fun c hc => ?_
    obtain ⟨d, separators, hd⟩ := List.exists_cons_of_ne_nil κ.separators_ne
    rw [hd, List.cons_append, List.take_succ_cons, List.head?_cons, Option.mem_some_iff] at hc
    have hsep := κ.separators_chars d (hd ▸ List.mem_cons_self)
    simp [← hc, endsKey_of_separates hsep]
  have hnot : ∀ c ∈ (κ.value ++ rest).take (n + 1 - κ.separators.length), separates c = false := by
    intro c hc
    rcases List.mem_append.mp (List.mem_of_mem_take hc) with hc | hc
    · by_contra hsep
      have := endsKey_of_separates (Bool.not_eq_false _ ▸ hsep)
      rw [κ.value_chars c hc] at this
      cases this
    · exact separates_end (hrest c hc)
  have htmp : ((κ.separators ++ (κ.value ++ rest)).take (n + 1)).dropWhile separates =
      (κ.value ++ rest).take (n + 1 - κ.separators.length) := by
    rw [List.take_append, List.dropWhile_append_of_pos fun c hc => κ.separators_chars c (List.mem_of_mem_take hc)]
    exact dropWhile_eq_self hnot
  have hvalue : (κ.value ++ rest).takeWhile (fun c => !endsValue c) = κ.value := by
    refine takeWhile_eq_left (fun c hc => ?_) fun c hc => ?_
    · by_contra hends
      have := endsKey_of_endsValue (by simpa using hends)
      rw [κ.value_chars c hc] at this
      cases this
    · simp [endsValue_end (hrest c (List.mem_of_mem_head? hc))]
  have hlength : κ.key.take 49 = κ.key := List.take_of_length_le (κ.key_length.trans (by decide))
  simp only [readEntry, htake, hkey, hlength, List.drop_left, htmp, ← List.take_takeWhile, hvalue, List.take_take]
  congr 2
  omega

theorem ConfLine.newline_notin : ∀ line : ConfLine, '\n' ∉ line.text
  | .blank returns => fun h => absurd (returns.chars _ h) (by decide)
  | .comment c => c.chars
  | .key k => by
    intro h
    simp only [text, List.mem_append] at h
    rcases h with h | h | h | h
    · exact absurd (k.key_chars _ h) (by decide)
    · exact absurd (k.separators_chars _ h) (by decide)
    · exact absurd (k.value_chars _ h) (by decide)
    · exact absurd (k.returns.chars _ h) (by decide)

theorem stored_line (line : ConfLine) {tail : CStr} (htail : ∀ c ∈ tail.head?, c = '\n') :
    stored ((line.text ++ tail.take 1).take 49) 0 = line.entry.toList := by
  cases line with
  | blank returns =>
    have hrest : ∀ c ∈ (returns.text ++ tail.take 1).take 49, c = '\r' ∨ c = '\n' :=
      fun c hc => line_end htail c (List.mem_of_mem_take hc)
    have hhead : ¬((returns.text ++ tail.take 1).take 49).head?.any isComment := by
      cases hl : ((returns.text ++ tail.take 1).take 49).head? with
      | none => simp
      | some c => simp [isComment_end (hrest c (List.mem_of_mem_head? hl))]
    rw [ConfLine.text, stored, if_neg (by simp [hhead]), readEntry_blank hrest]
    rfl
  | comment c =>
    obtain ⟨d, hd, hmark⟩ := c.mark
    obtain ⟨text, htext⟩ : ∃ text, c.text = d :: text := by
      cases htext : c.text with
      | nil => simp [htext] at hd
      | cons e text => exact ⟨text, by simpa [htext] using hd⟩
    rw [ConfLine.text, htext, stored, if_pos (by simp [hmark])]
    rfl
  | key k =>
    have hhead : ¬((k.key ++ (k.separators ++ (k.value ++ (k.returns.text ++ tail.take 1)))).take 49).head?.any
        isComment := by
      rw [List.head?_take, if_neg (by decide), ← List.append_assoc, List.head?_append_of_ne_nil]
      · cases hl : (k.key ++ k.separators).head? with
        | none => simp
        | some c => simp [k.plain c hl]
      · simp [k.separators_ne]
    rw [ConfLine.text, List.append_assoc, List.append_assoc, List.append_assoc, stored, if_neg (by simp [hhead]),
      readEntry_key k (line_end htail)]
    rfl

theorem fileText_cons (ended : Bool) (line : ConfLine) (lines : List ConfLine)
    (hlast : ended = false → ∀ l ∈ (line :: lines).getLast?, l.text ≠ []) :
    ∃ tail, fileText ended (line :: lines) = line.text ++ tail ∧ line.text ++ tail ≠ [] ∧
      (∀ c ∈ tail.head?, c = '\n') ∧ tail.drop 1 = fileText ended lines := by
  cases lines with
  | nil =>
    refine ⟨if ended then ['\n'] else [], rfl, ?_, ?_, ?_⟩
    · cases ended with
      | true => simp
      | false => simpa using hlast rfl line rfl
    · cases ended <;> simp
    · cases ended <;> rfl
  | cons next lines => exact ⟨'\n' :: fileText ended (next :: lines), rfl, by simp, by simp, rfl⟩

theorem parseConf_lines {ended : Bool} {lines : List ConfLine}
    (hlast : ended = false → ∀ l ∈ lines.getLast?, l.text ≠ []) {entries : List (CStr × CStr)}
    (h : entries.length ≤ 49) :
    parseConf (fileText ended lines) 0 entries = (entries ++ lines.filterMap ConfLine.entry).take 49 := by
  induction lines generalizing entries with
  | nil => rw [fileText, parseConf_nil, List.filterMap_nil, List.append_nil, List.take_of_length_le h]
  | cons line lines ih =>
    by_cases hfull : entries.length = 49
    · rw [parseConf_full hfull, ← hfull, List.take_left]
    · obtain ⟨tail, htext, hne, htail, hrest⟩ := fileText_cons ended line lines hlast
      have hlength : (entries ++ line.entry.toList).length ≤ 49 := by
        have : line.entry.toList.length ≤ 1 := by cases line.entry <;> simp
        rw [List.length_append]
        omega
      rw [htext, parseConf_line line.newline_notin htail hne hfull, hrest, stored_line line htail,
        ih ?_ hlength, List.filterMap_cons]
      · cases line.entry <;> simp
      · intro hended l hl
        refine hlast hended l ?_
        cases lines with
        | nil => cases hl
        | cons next lines => rwa [List.getLast?_cons_cons]

theorem ConfFile.parse_entries (file : ConfFile) :
    (Conf.parse (some file.text)).2.entries = (file.lines.filterMap ConfLine.entry).take 49 :=
  parseConf_lines file.last (Nat.zero_le 49)

end FishServer
