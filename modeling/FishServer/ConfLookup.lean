import FishServer.Conf

namespace FishServer

/-! Looking a key up after a file was read. -/

theorem find_first {α : Type} {p : α → Bool} {l r : List α} {a : α} (hl : ∀ b ∈ l, p b = false) (ha : p a = true)
    (n : ℕ) : ((l ++ a :: r).take n).find? p = if l.length < n then some a else none := by
  have hnone : ∀ m, (l.take m).find? p = none :=
    fun m => List.find?_eq_none.mpr fun b hb => by simp [hl b (List.mem_of_mem_take hb)]
  rw [List.take_append, List.find?_append, hnone, Option.none_or]
  split_ifs with hn
  · obtain ⟨m, hm⟩ : ∃ m, n - l.length = m + 1 := ⟨n - l.length - 1, by omega⟩
    rw [hm, List.take_succ_cons, List.find?_cons_of_pos ha]
  · rw [Nat.sub_eq_zero_of_le (not_lt.mp hn), List.take_zero, List.find?_nil]

theorem ConfLine.entry_length (lines : List ConfLine) :
    (lines.filterMap entry).length = (lines.filterMap name).length := by
  induction lines with
  | nil => rfl
  | cons line lines ih =>
    rw [List.filterMap_cons, List.filterMap_cons, entry]
    cases line.name with
    | none => exact ih
    | some key => exact congrArg Nat.succ ih

theorem ConfLine.entry_ne {lines : List ConfLine} {key : CStr} (h : some key ∉ lines.map name) :
    ∀ e ∈ lines.filterMap entry, decide (e.1 = key) = false := by
  intro e he
  obtain ⟨line, hline, hentry⟩ := List.mem_filterMap.mp he
  obtain ⟨name', hname, rfl⟩ := Option.map_eq_some_iff.mp hentry
  exact decide_eq_false fun hkey => h (List.mem_map.mpr ⟨line, hline, hname.trans (congrArg some hkey)⟩)

namespace ConfFile

variable {file : ConfFile} {before after : List ConfLine} {key : CStr}

def get (file : ConfFile) (key : CStr) : Option CStr := (Conf.parse (some file.text)).2.get key

theorem get_absent (h : some key ∉ file.lines.map ConfLine.name) : file.get key = none := by
  have hnone : ((file.lines.filterMap ConfLine.entry).take 49).find? (fun e => e.1 = key) = none :=
    List.find?_eq_none.mpr fun e he => by simpa using ConfLine.entry_ne h e (List.mem_of_mem_take he)
  rw [get, Conf.get, file.parse_entries, hnone, Option.map_none]

theorem get_first {line : ConfLine} (hlines : file.lines = before ++ line :: after) (hname : line.name = some key)
    (hbefore : some key ∉ before.map ConfLine.name) :
    file.get key = if (before.filterMap ConfLine.name).length < 49 then some line.read else none := by
  have hentries : file.lines.filterMap ConfLine.entry =
      before.filterMap ConfLine.entry ++ (key, line.read) :: after.filterMap ConfLine.entry := by
    rw [hlines, List.filterMap_append, List.filterMap_cons, ConfLine.entry, hname, Option.map_some]
  rw [get, Conf.get, file.parse_entries, hentries, find_first (ConfLine.entry_ne hbefore) (by simp),
    ConfLine.entry_length]
  split_ifs <;> rfl

theorem key_mem {lines : List ConfLine} {k : KeyLine} (h : k ∈ lines.filterMap ConfLine.keyLine) :
    ConfLine.key k ∈ lines := by
  obtain ⟨line, hline, hkey⟩ := List.mem_filterMap.mp h
  cases line with
  | key _ =>
    cases hkey
    exact hline
  | _ => cases hkey

theorem key_ne {lines : List ConfLine} (h : some key ∉ lines.map ConfLine.name) :
    ∀ k ∈ lines.filterMap ConfLine.keyLine, decide (k.key = key) = false :=
  fun _ hk => decide_eq_false fun hkey => h (List.mem_map.mpr ⟨_, key_mem hk, congrArg some hkey⟩)

theorem lookup_absent (h : some key ∉ file.lines.map ConfLine.name) : file.lookup key = none := by
  rw [lookup, List.find?_eq_none.mpr fun k hk => by simpa using key_ne h k hk, Option.map_none]

theorem lookup_first {k : KeyLine} (hlines : file.lines = before ++ .key k :: after)
    (hbefore : some k.key ∉ before.map ConfLine.name) : file.lookup k.key = some k.value := by
  have hkeys : file.lines.filterMap ConfLine.keyLine =
      before.filterMap ConfLine.keyLine ++ k :: after.filterMap ConfLine.keyLine := by
    rw [hlines, List.filterMap_append, List.filterMap_cons, ConfLine.keyLine]
  have hnone := List.find?_eq_none.mpr fun b hb => Bool.not_eq_true _ ▸ key_ne hbefore b hb
  rw [lookup, hkeys, List.find?_append, hnone, Option.none_or, List.find?_cons_of_pos (by simp), Option.map_some]

/-- Every key line that is the first of its key is among the first 49 lines that are no comments, and its value among
the first 49 characters. A blank line among the first 49, with no line of an empty key before it, is followed by one
whose value is empty too. -/
structure Reads (file : ConfFile) : Prop where
  values : ∀ before k after, file.lines = before ++ .key k :: after → some k.key ∉ before.map ConfLine.name →
    (before.filterMap ConfLine.name).length < 49 ∧
      (k.value = [] ∨ k.key.length + k.separators.length + k.value.length ≤ 49)
  blanks : ∀ before returns after, file.lines = before ++ .blank returns :: after →
    some [] ∉ before.map ConfLine.name → (before.filterMap ConfLine.name).length < 49 → file.lookup [] = some []

theorem value_short {k : KeyLine} : k.value.take (49 - (k.key.length + k.separators.length)) = k.value ↔
    k.value = [] ∨ k.key.length + k.separators.length + k.value.length ≤ 49 := by
  rw [List.take_eq_self_iff]
  constructor
  · intro h
    rcases Nat.eq_zero_or_pos k.value.length with hzero | hpos
    · exact Or.inl (List.length_eq_zero_iff.mp hzero)
    · right
      omega
  · rintro (h | h)
    · rw [h]
      exact Nat.zero_le _
    · omega

theorem keys_length {lines : List ConfLine} (h : ∀ returns, ConfLine.blank returns ∉ lines) :
    (lines.filterMap ConfLine.keyLine).length = (lines.filterMap ConfLine.name).length := by
  induction lines with
  | nil => rfl
  | cons line lines ih =>
    have hlines : ∀ returns, ConfLine.blank returns ∉ lines := fun returns hr => h returns (List.mem_cons_of_mem _ hr)
    cases line with
    | blank returns => exact absurd List.mem_cons_self (h returns)
    | comment c => exact ih hlines
    | key k => exact congrArg Nat.succ (ih hlines)

-- where 49 key lines are, there are no more
theorem lookup_full (hlines : file.lines = before ++ after) (hbefore : some [] ∉ before.map ConfLine.name)
    (hfull : 49 ≤ (before.filterMap ConfLine.name).length) : file.lookup [] = none := by
  have hkeys := keys_length fun returns hr => hbefore (List.mem_map_of_mem hr)
  have hafter : after.filterMap ConfLine.keyLine = [] := by
    have := file.keys
    rw [hlines, List.filterMap_append, List.length_append] at this
    exact List.length_eq_zero_iff.mp (by omega)
  rw [lookup, hlines, List.filterMap_append, hafter, List.append_nil,
    List.find?_eq_none.mpr fun k hk => by simpa using key_ne hbefore k hk, Option.map_none]

theorem reads_of_short (hblank : ∀ returns, ConfLine.blank returns ∉ file.lines)
    (hshort : ∀ k, ConfLine.key k ∈ file.lines → k.key.length + k.separators.length + k.value.length ≤ 49) :
    file.Reads where
  values before k after hlines _ := by
    have hmem : ConfLine.key k ∈ file.lines := hlines ▸ List.mem_append_right before List.mem_cons_self
    have hkeys := keys_length fun returns hr => hblank returns (hlines ▸ List.mem_append_left _ hr)
    have hcount := file.keys
    rw [hlines, List.filterMap_append, List.length_append, List.filterMap_cons, ConfLine.keyLine,
      List.length_cons] at hcount
    exact ⟨by omega, Or.inr (hshort k hmem)⟩
  blanks before returns after hlines :=
    absurd (hlines ▸ List.mem_append_right before List.mem_cons_self) (hblank returns)

end ConfFile

theorem conf_reads_iff (file : ConfFile) :
    (∀ key, (Conf.parse (some file.text)).2.get key = file.lookup key) ↔ file.Reads := by
  constructor
  · intro h
    constructor
    · intro before k after hlines hbefore
      have hget : file.get k.key = file.lookup k.key := h k.key
      rw [file.get_first hlines rfl hbefore, file.lookup_first hlines hbefore] at hget
      split_ifs at hget with hcount
      exact ⟨hcount, ConfFile.value_short.mp (Option.some.inj hget)⟩
    · intro before returns after hlines hbefore hcount
      have hget : file.get [] = file.lookup [] := h []
      rw [file.get_first hlines rfl hbefore, if_pos hcount] at hget
      exact hget.symm
  · intro h key
    change file.get key = file.lookup key
    by_cases hmem : some key ∈ file.lines.map ConfLine.name
    · obtain ⟨names, names', hnames, hbefore⟩ := List.eq_append_cons_of_mem hmem
      obtain ⟨before, rest, hlines, rfl, hrest⟩ := List.map_eq_append_iff.mp hnames
      obtain ⟨line, after, rfl, hname, -⟩ := List.map_eq_cons_iff.mp hrest
      cases line with
      | comment c => cases hname
      | blank returns =>
        cases hname
        rw [file.get_first hlines rfl hbefore]
        split_ifs with hcount
        · exact (h.blanks before returns after hlines hbefore hcount).symm
        · exact (file.lookup_full hlines hbefore (not_lt.mp hcount)).symm
      | key k =>
        cases hname
        obtain ⟨hcount, hvalue⟩ := h.values before k after hlines hbefore
        rw [file.get_first hlines rfl hbefore, if_pos hcount, file.lookup_first hlines hbefore]
        exact congrArg some (ConfFile.value_short.mpr hvalue)
    · rw [file.get_absent hmem, file.lookup_absent hmem]

def longLine : KeyLine where
  key := ['k']
  separators := ['=']
  value := List.replicate 48 'v'
  returns := ⟨[], by simp⟩
  key_length := by decide
  value_length := by simp
  key_chars := by simp [endsKey]
  value_chars := by simp [endsKey]
  separators_ne := by decide
  separators_chars := by simp [separates]
  plain := by simp [isComment]

def longFile : ConfFile := ⟨[.key longLine], true, by simp, by simp [ConfLine.keyLine]⟩

theorem long_value_cut : ¬∀ key, (Conf.parse (some longFile.text)).2.get key = longFile.lookup key := by
  intro h
  have hget : longFile.get longLine.key = longFile.lookup longLine.key := h longLine.key
  have hlines : longFile.lines = [] ++ .key longLine :: [] := rfl
  rw [longFile.get_first hlines rfl (by simp), longFile.lookup_first hlines (by simp)] at hget
  simp [ConfLine.read, longLine] at hget

end FishServer
