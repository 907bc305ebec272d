import Mathlib

/-! String literals as the lexer of MySQL reads them, with backslash escapes enabled. -/

namespace SqlText

-- outside of patterns the two wildcards keep their backslash
def unescape (c : Char) : List Char :=
  if c = '0' then ['\x00']
  else if c = 'b' then ['\x08']
  else if c = 'n' then ['\n']
  else if c = 'r' then ['\r']
  else if c = 't' then ['\t']
  else if c = 'Z' then ['\x1a']
  else if c = '%' ∨ c = '_' then ['\\', c]
  else [c]

/-- The rest of a literal behind its opening quote: its value and the text behind its closing quote. None
is a literal that does not end. -/
def readLiteral : List Char → Option (List Char × List Char)
  | [] => none
  | ['\\'] => none
  | '\\' :: c :: s => (readLiteral s).map (fun r => (unescape c ++ r.1, r.2))
  | '\'' :: '\'' :: s => (readLiteral s).map (fun r => ('\'' :: r.1, r.2))
  | '\'' :: s => some ([], s)
  | c :: s => (readLiteral s).map (fun r => (c :: r.1, r.2))

def firstLiteral (text : List Char) : Option (List Char × List Char) :=
  readLiteral (text.dropWhile (fun c => decide (c ≠ '\''))).tail

theorem firstLiteral_append (before s : List Char) (h : '\'' ∉ before) :
    firstLiteral (before ++ '\'' :: s) = readLiteral s := by
  have hb : before.dropWhile (fun c => decide (c ≠ '\'')) = [] := by
    rw [List.dropWhile_eq_nil_iff]
    intro c hc
    apply decide_eq_true
    rintro rfl
    exact h hc
  unfold firstLiteral
  rw [List.dropWhile_append, hb]
  rfl

/-- Every backslash stands before a wildcard. -/
def Plain (s : List Char) : Prop :=
  ∀ a b, s = a ++ '\\' :: b → b.head? = some '%' ∨ b.head? = some '_'

theorem plain_nil : Plain [] := by
  intro a b h
  simp at h

theorem plain_cons {c : Char} {s : List Char} (hc : c ≠ '\\') : Plain (c :: s) ↔ Plain s := by
  constructor
  · intro h a b he
    exact h (c :: a) b (by rw [he, List.cons_append])
  · intro h a b he
    cases a with
    | nil => exact absurd (List.cons.inj he).1 hc
    | cons d a => exact h a b (List.cons.inj he).2

theorem plain_escape {c : Char} {s : List Char} : Plain ('\\' :: c :: s) ↔ (c = '%' ∨ c = '_') ∧ Plain s := by
  constructor
  · intro h
    have hc := h [] (c :: s) rfl
    simp only [List.head?_cons, Option.some.injEq] at hc
    refine ⟨hc, ?_⟩
    intro a b he
    exact h ('\\' :: c :: a) b (by rw [he, List.cons_append, List.cons_append])
  · rintro ⟨hc, h⟩ a b he
    have hne : c ≠ '\\' := by
      rcases hc with rfl | rfl <;> decide
    cases a with
    | nil =>
      obtain rfl := (List.cons.inj he).2
      simpa using hc
    | cons d a =>
      apply (plain_cons hne).mpr h a b
      exact (List.cons.inj he).2

theorem unescape_wildcard {c : Char} (h : c = '%' ∨ c = '_') : unescape c = ['\\', c] := by
  rcases h with rfl | rfl <;> decide

theorem unescape_length {c : Char} (h : ¬(c = '%' ∨ c = '_')) : (unescape c).length = 1 := by
  unfold unescape
  split_ifs <;> rfl

theorem readLiteral_length (m : List Char) {v r : List Char} (h : readLiteral m = some (v, r)) :
    v.length + r.length < m.length := by
  induction m using readLiteral.induct generalizing v r with
  | case1 => cases h
  | case2 => cases h
  | case3 c s ih =>
    rw [readLiteral] at h
    obtain ⟨⟨v', r'⟩, hs, he⟩ := Option.map_eq_some_iff.mp h
    cases he
    have hl := ih hs
    have hu : (unescape c).length ≤ 2 := by
      by_cases hc : c = '%' ∨ c = '_'
      · rw [unescape_wildcard hc]
        exact le_refl 2
      · rw [unescape_length hc]
        exact one_le_two
    simp only [List.length_append, List.length_cons] at hl ⊢
    omega
  | case4 s ih =>
    rw [readLiteral] at h
    obtain ⟨⟨v', r'⟩, hs, he⟩ := Option.map_eq_some_iff.mp h
    cases he
    have hl := ih hs
    simp only [List.length_cons] at hl ⊢
    omega
  | case5 s hne =>
    rw [readLiteral] at h
    · cases h
      simp
    · exact hne
  | case6 c s h₁ h₂ h₃ h₄ ih =>
    rw [readLiteral] at h
    · obtain ⟨⟨v', r'⟩, hs, he⟩ := Option.map_eq_some_iff.mp h
      cases he
      have hl := ih hs
      simp only [List.length_cons] at hl ⊢
      omega
    all_goals assumption

theorem readLiteral_plain (c : Char) (s : List Char) (hq : c ≠ '\'') (hb : c ≠ '\\') :
    readLiteral (c :: s) = (readLiteral s).map (fun r => (c :: r.1, r.2)) := by
  rw [readLiteral]
  all_goals intros; simp_all

/-- A text without quotes that does not end in a backslash stays inside its literal, and is read as it
stands just when all its backslashes are before wildcards. -/
theorem readLiteral_exact (s : List Char) (hq : '\'' ∉ s) (hl : s.getLast? ≠ some '\\') :
    readLiteral (s ++ ['\'']) = some (s, []) ↔ Plain s := by
  induction s using readLiteral.induct with
  | case1 => exact ⟨fun _ => plain_nil, fun _ => rfl⟩
  | case2 => exact absurd rfl hl
  | case3 c s ih =>
    have hqs : '\'' ∉ s := fun h => hq (by simp [h])
    have hls : s.getLast? ≠ some '\\' := by
      cases s with
      | nil => simp
      | cons d s => simpa using hl
    rw [plain_escape, ← ih hqs hls, List.cons_append, List.cons_append, readLiteral, Option.map_eq_some_iff]
    constructor
    · rintro ⟨⟨v, r⟩, hs, he⟩
      have hlen := readLiteral_length _ hs
      obtain ⟨hv, rfl⟩ := Prod.mk.inj he
      have hc : c = '%' ∨ c = '_' := by
        by_contra hc
        have := congrArg List.length hv
        simp only [List.length_append, unescape_length hc, List.length_cons, List.length_nil] at this hlen
        omega
      refine ⟨hc, ?_⟩
      rw [unescape_wildcard hc] at hv
      rw [hs, ← @List.append_cancel_left _ ['\\', c] _ _ hv]
    · rintro ⟨hc, hs⟩
      exact ⟨(s, []), hs, by rw [unescape_wildcard hc]; rfl⟩
  | case4 s ih => exact absurd List.mem_cons_self hq
  | case5 s hne => exact absurd List.mem_cons_self hq
  | case6 c s h₁ h₂ h₃ h₄ ih =>
    have hqs : '\'' ∉ s := fun h => hq (List.mem_cons_of_mem _ h)
    have hqc : c ≠ '\'' := fun h => hq (by simp [h])
    have hbc : c ≠ '\\' := by
      rintro rfl
      cases s with
      | nil => exact hl rfl
      | cons d s => exact h₂ d s rfl rfl
    have hls : s.getLast? ≠ some '\\' := by
      cases s with
      | nil => simp
      | cons d s => simpa using hl
    rw [plain_cons hbc, ← ih hqs hls, List.cons_append, readLiteral_plain c _ hqc hbc,
      Option.map_eq_some_iff]
    constructor
    · rintro ⟨⟨v, r⟩, hs, he⟩
      cases he
      exact hs
    · intro hs
      exact ⟨(s, []), hs, rfl⟩

end SqlText
