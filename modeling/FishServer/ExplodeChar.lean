import FishServer.Decimal
import FishServer.Explode

namespace FishServer

open Printf Split

/-! The constructor of `Explode` for a delimiter that is one character, and what is read from the pieces. -/

def explodeChars (delimiter : Char) : CStr → CStr → List CStr → List CStr
  | start, [], ptrs => if ptrs.length < 9 then ptrs ++ [start] else ptrs
  | start, c :: str, ptrs =>
    if c = delimiter then
      explodeChars delimiter str str (if ptrs.length < 9 then
        ptrs ++ [start.take (start.length - (c :: str).length)] else ptrs)
    else explodeChars delimiter start str ptrs

def Explode.newChar (delimiter : Char) (str : CStr) : Explode :=
  if str ≠ [] then Explode.copy (explodeChars delimiter str str []) else ⟨[], 0⟩

def Explode.get (e : Explode) (index : ℕ) : Option CStr := if e.len ≤ index then none else e.array.getD index none

def Explode.getInt (e : Explode) (index : ℕ) : ℤ := ((e.get index).map atoi).getD 0

theorem modifyHead_append (x : CStr) (l : List CStr) (y : CStr) :
    (l.modifyHead (y ++ ·)).modifyHead (x ++ ·) = l.modifyHead (x ++ y ++ ·) := by
  cases l with
  | nil => rfl
  | cons a l => simp

theorem splitFrom_splitOn (d : Char) (piece s : CStr) :
    splitFrom [d] 0 piece s = (s.splitOn d).modifyHead (piece ++ ·) := by
  induction s generalizing piece with
  | nil => simp [splitFrom, List.splitOn]
  | cons c s ih =>
    rw [splitFrom, List.splitOn_cons_eq_if_modifyHead]
    by_cases hc : c = d
    · have hwhole : splitFrom [d] 0 [] s = s.splitOn d := by
        rw [ih]
        cases s.splitOn d <;> rfl
      rw [if_pos (by simp [List.isPrefixOf, hc]), if_pos (by simp [hc])]
      simp [hwhole]
    · rw [if_neg (by simp [List.isPrefixOf, Ne.symm hc]), if_neg (by simp [hc]), ih]
      exact (modifyHead_append piece (s.splitOn d) [c]).symm

theorem split_splitOn (d : Char) (s : CStr) : split [d] s = s.splitOn d := by
  rw [split, splitFrom_splitOn]
  cases s.splitOn d <;> rfl

theorem explodeChars_pieces (d : Char) (piece str : CStr) {ptrs : List CStr} (hlen : ptrs.length ≤ 9) :
    explodeChars d (piece ++ str) str ptrs = (ptrs ++ splitFrom [d] 0 piece str).take 9 := by
  induction str generalizing piece ptrs with
  | nil =>
    rw [explodeChars, splitFrom, List.append_nil]
    split_ifs with hlt
    · rw [List.take_of_length_le]
      rw [List.length_append, List.length_singleton]
      omega
    · rw [take_full (by omega)]
  | cons c str ih =>
    rw [explodeChars]
    by_cases hc : c = d
    · subst hc
      have hpiece : (piece ++ c :: str).take ((piece ++ c :: str).length - (c :: str).length) = piece := by
        rw [List.length_append, Nat.add_sub_cancel, List.take_left]
      have hsplit : splitFrom [c] 0 piece (c :: str) = piece :: splitFrom [c] 0 [] str :=
        splitFrom_found (List.cons_ne_nil c []) piece str
      rw [if_pos rfl, hpiece, hsplit]
      by_cases hlt : ptrs.length < 9
      · have hone : (ptrs ++ [piece]).length ≤ 9 := by
          rw [List.length_append, List.length_singleton]
          omega
        rw [if_pos hlt]
        exact (ih [] hone).trans (by rw [List.append_assoc]; rfl)
      · rw [if_neg hlt, take_full (by omega)]
        exact (ih [] hlen).trans (take_full (by omega) _)
    · have hstart : piece ++ c :: str = (piece ++ [c]) ++ str := by simp
      rw [if_neg hc, splitFrom, if_neg (by simp [List.isPrefixOf, Ne.symm hc]), hstart]
      exact ih (piece ++ [c]) hlen

theorem newChar_splitOn (d : Char) {text : CStr} (h : text ≠ []) :
    Explode.newChar d text = Explode.copy ((text.splitOn d).take 9) := by
  have hpieces := @explodeChars_pieces d [] text [] (Nat.zero_le 9)
  rw [Explode.newChar, if_pos h, ← split_splitOn]
  exact congrArg Explode.copy hpieces

theorem char_clean (d : Char) (n : ℕ) (s : CStr) : CleanScan [d] n s := by
  induction s generalizing n with
  | nil => exact .done n
  | cons c s ih =>
    by_cases hc : c = d
    · subst hc
      exact .found (List.cons_ne_nil c s) (matchFrom_true.mpr rfl) (ih (n + 1))
    · refine .passed (matchFrom_head (fun he => hc (Option.some.inj he).symm) (List.cons_ne_nil d [])) ?_ (ih n)
      intro _ j hpos hlt
      rw [List.length_cons] at hlt
      omega

theorem new_newChar (d : Char) (text : CStr) : Explode.new [d] text = some (Explode.newChar d text) := by
  by_cases ht : text = []
  · subst ht
    rfl
  · have hstored := (@storesRest_iff [d] (List.cons_ne_nil d []) (text.length + 1) 0 [] text [] (Nat.lt_succ_self _)
      rfl).mpr (char_clean d 0 text)
    change explodeLoop [d] (text.length + 1) text text [] = some ((split [d] text).take 9) at hstored
    rw [Explode.new, if_pos ⟨ht, List.cons_ne_nil d []⟩, hstored, newChar_splitOn d ht, ← split_splitOn]
    rfl

theorem copy_get (ptrs : List CStr) (index : ℕ) :
    (Explode.copy ptrs).get index = if ptrs.getD index [] = [] then none else some (ptrs.getD index []) := by
  unfold Explode.get Explode.copy
  by_cases hi : index < ptrs.length
  · simp only [if_neg (not_le_of_gt hi), List.getD_eq_getElem?_getD, List.getElem?_map, List.getElem?_eq_getElem hi]
    simp
  · simp [not_lt.mp hi]

theorem newChar_get (d : Char) (text : CStr) (index : ℕ) : (Explode.newChar d text).get index =
    if ((text.splitOn d).take 9).getD index [] = [] then none else some (((text.splitOn d).take 9).getD index []) := by
  by_cases ht : text = []
  · subst ht
    have hempty : ((([] : CStr).splitOn d).take 9).getD index [] = [] := by
      cases index <;> rfl
    rw [hempty, if_pos rfl]
    rfl
  · rw [newChar_splitOn d ht]
    exact copy_get _ index

theorem decimal_ne (n : ℤ) : decimal n ≠ [] := by
  unfold decimal
  split_ifs
  · exact List.cons_ne_nil _ _
  · exact Nat.toDigits_ne_nil

theorem decimal_char {d : Char} (hdigit : d.isDigit = false) (hsign : d ≠ '-') (n : ℤ) : d ∉ decimal n := by
  have hdigits : d ∉ Nat.toDigits 10 n.natAbs := by
    intro hin
    rw [Nat.isDigit_of_mem_toDigits (by decide) (by decide) hin] at hdigit
    cases hdigit
  unfold decimal
  split_ifs
  · exact fun hin => (List.mem_cons.mp hin).elim hsign hdigits
  · exact hdigits

theorem getInt_joined {d : Char} (hdigit : d.isDigit = false) (hsign : d ≠ '-') {ns : List ℤ} (hne : ns ≠ [])
    (hlen : ns.length ≤ 9) (hints : ∀ n ∈ ns, isInt n = true) (index : ℕ) :
    (Explode.newChar d ([d].intercalate (ns.map decimal))).getInt index = ns.getD index 0 := by
  have hsplit : ([d].intercalate (ns.map decimal)).splitOn d = ns.map decimal := by
    apply List.splitOn_intercalate
    · intro s hs
      obtain ⟨n, -, rfl⟩ := List.mem_map.mp hs
      exact decimal_char hdigit hsign n
    · exact fun h => hne (List.map_eq_nil_iff.mp h)
  rw [Explode.getInt, newChar_get, hsplit, List.take_of_length_le (by rwa [List.length_map])]
  by_cases hi : index < ns.length
  · have hget : (ns.map decimal).getD index [] = decimal ns[index] := by
      simp [hi]
    rw [hget, if_neg (decimal_ne _), Option.map_some, Option.getD_some, atoi_decimal (hints _ (List.getElem_mem hi))]
    simp [hi]
  · simp [not_lt.mp hi]

/-- Both constructors take a text apart at each place of a character and keep the first nine pieces. Up to nine numbers
that are joined by a character other than a digit and a sign are read back, and behind them zeros. -/
theorem explode_char (d : Char) (text : CStr) : Explode.new [d] text = some (Explode.newChar d text) ∧
    (∀ index, (Explode.newChar d text).get index =
      if ((text.splitOn d).take 9).getD index [] = [] then none else some (((text.splitOn d).take 9).getD index [])) ∧
    ∀ ns : List ℤ, text = [d].intercalate (ns.map decimal) → ns ≠ [] → ns.length ≤ 9 → (∀ n ∈ ns, isInt n = true) →
      d.isDigit = false → d ≠ '-' → ∀ index, (Explode.newChar d text).getInt index = ns.getD index 0 := by
  refine ⟨new_newChar d text, newChar_get d text, ?_⟩
  rintro ns rfl hne hlen hints hdigit hsign index
  exact getInt_joined hdigit hsign hne hlen hints index

theorem three_numbers_read : (Explode.newChar ',' "12,-3,4".toList).getInt 1 = -3 ∧
    (Explode.newChar ',' "12,-3,4".toList).getInt 7 = 0 := by
  have htext : "12,-3,4".toList = [','].intercalate ([12, -3, 4].map decimal) := by decide
  obtain ⟨-, -, hints⟩ := explode_char ',' "12,-3,4".toList
  have hget := hints [12, -3, 4] htext (by decide) (by decide) (by decide) (by decide) (by decide)
  exact ⟨hget 1, hget 7⟩

end FishServer
