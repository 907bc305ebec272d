import FishServer.JsonParse
import FishServer.Lib.Split

namespace FishServer

open Split

/-! The constructor of `Explode` for a delimiter that is a string. -/

/-- The inner loop: whether the whole delimiter was met, and where `str` then stands. -/
def matchFrom : CStr → CStr → Bool × CStr
  | [], str => (true, str)
  | _ :: _, [] => (false, [])
  | d :: dm, c :: str => if c = d then matchFrom dm str else (false, c :: str)

/-- The loop over the text. `start` is the text from the start of the piece on and `ptrs` the pieces so far. None is
for a `str` that has passed the end of the text, or a bound on the turns that is too small. -/
def explodeLoop (delimiter : CStr) : ℕ → CStr → CStr → List CStr → Option (List CStr)
  | 0, _, _, _ => none
  | _ + 1, start, [], ptrs => some (if ptrs.length < 9 then ptrs ++ [start] else ptrs)
  | n + 1, start, c :: str, ptrs =>
    if delimiter.head? = some c then
      match matchFrom delimiter (c :: str) with
      | (true, str) =>
        explodeLoop delimiter n str str (if ptrs.length < 9 then
          ptrs ++ [start.take (start.length - str.length - delimiter.length)] else ptrs)
      | (false, []) => none
      | (false, _ :: str) => explodeLoop delimiter n start str ptrs
    else explodeLoop delimiter n start str ptrs

structure Explode where
  array : List (Option CStr)
  len : ℕ

-- an empty piece is NULL
def Explode.copy (ptrs : List CStr) : Explode := ⟨ptrs.map (fun p => if p = [] then none else some p), ptrs.length⟩

def Explode.new (delimiter str : CStr) : Option Explode :=
  if str ≠ [] ∧ delimiter ≠ [] then (explodeLoop delimiter (str.length + 1) str str []).map Explode.copy
  else some ⟨[], 0⟩

def Explodes (delimiter text : CStr) : Prop :=
  ∃ ps, Leftmost delimiter text ps ∧ Explode.new delimiter text = some (Explode.copy (ps.take 9))

/-- The way of the loop from a place on with `n` pieces found. No part of a delimiter ends the text, and as long as
there are fewer than nine pieces no whole one starts among the characters that a failed comparison passes. -/
inductive CleanScan (delimiter : CStr) : ℕ → CStr → Prop
  | done (n : ℕ) : CleanScan delimiter n []
  | found {n : ℕ} {s rest : CStr} : s ≠ [] → matchFrom delimiter s = (true, rest) → CleanScan delimiter (n + 1) rest →
      CleanScan delimiter n s
  | passed {n : ℕ} {c : Char} {s rest : CStr} : matchFrom delimiter s = (false, c :: rest) →
      (n < 9 → ∀ j, 0 < j → j + rest.length < s.length → ¬delimiter <+: s.drop j) → CleanScan delimiter n rest →
      CleanScan delimiter n s

section

variable {delimiter : CStr}

theorem matchFrom_true {s rest : CStr} : matchFrom delimiter s = (true, rest) ↔ s = delimiter ++ rest := by
  induction delimiter generalizing s with
  | nil => simp [matchFrom]
  | cons d dm ih =>
    cases s with
    | nil => simp [matchFrom]
    | cons c s =>
      rw [matchFrom]
      split_ifs with hc
      · rw [ih, hc, List.cons_append, List.cons_inj_right]
      · simp [hc]

theorem matchFrom_suffix {s rest : CStr} {b : Bool} (h : matchFrom delimiter s = (b, rest)) : ∃ x, s = x ++ rest := by
  induction delimiter generalizing s with
  | nil =>
    cases h
    exact ⟨[], rfl⟩
  | cons d dm ih =>
    cases s with
    | nil =>
      cases h
      exact ⟨[], rfl⟩
    | cons c s =>
      rw [matchFrom] at h
      split_ifs at h with hc
      · obtain ⟨x, rfl⟩ := ih h
        exact ⟨c :: x, rfl⟩
      · cases h
        exact ⟨[], rfl⟩

theorem matchFrom_head {c : Char} {s : CStr} (h : delimiter.head? ≠ some c) (hd : delimiter ≠ []) :
    matchFrom delimiter (c :: s) = (false, c :: s) := by
  obtain ⟨d, dm, rfl⟩ := List.exists_cons_of_ne_nil hd
  rw [matchFrom, if_neg]
  rintro rfl
  exact h rfl

theorem explodeLoop_cons (hd : delimiter ≠ []) (n : ℕ) (start : CStr) (c : Char) (str : CStr) (ptrs : List CStr) :
    explodeLoop delimiter (n + 1) start (c :: str) ptrs =
      match matchFrom delimiter (c :: str) with
      | (true, str) =>
        explodeLoop delimiter n str str (if ptrs.length < 9 then
          ptrs ++ [start.take (start.length - str.length - delimiter.length)] else ptrs)
      | (false, []) => none
      | (false, _ :: str) => explodeLoop delimiter n start str ptrs := by
  rw [explodeLoop]
  by_cases hc : delimiter.head? = some c
  · rw [if_pos hc]
  · rw [if_neg hc, matchFrom_head hc hd]

theorem explodeLoop_extends (hd : delimiter ≠ []) {n : ℕ} {start str : CStr} {ptrs l : List CStr}
    (h : explodeLoop delimiter n start str ptrs = some l) : ptrs <+: l := by
  induction n generalizing start str ptrs with
  | zero => cases h
  | succ n ih =>
    cases str with
    | nil =>
      rw [explodeLoop] at h
      split_ifs at h
      · cases h
        exact List.prefix_append ptrs [start]
      · cases h
        exact List.prefix_refl _
    | cons c str =>
      rw [explodeLoop_cons hd] at h
      rcases hm : matchFrom delimiter (c :: str) with ⟨_ | _, rest⟩
      · cases rest with
        | nil =>
          simp only [hm] at h
          cases h
        | cons c' rest =>
          simp only [hm] at h
          exact ih h
      · simp only [hm] at h
        have hstored := ih h
        split_ifs at hstored
        · exact (List.prefix_append ptrs _).trans hstored
        · exact hstored

theorem piece_found {piece s rest : CStr} (hs : s = delimiter ++ rest) :
    (piece ++ s).take ((piece ++ s).length - rest.length - delimiter.length) = piece := by
  have hl : (piece ++ s).length - rest.length - delimiter.length = piece.length := by
    rw [hs, List.length_append, List.length_append]
    omega
  rw [hl, List.take_left]

theorem explodeLoop_next (hd : delimiter ≠ []) {n : ℕ} {piece str : CStr} {ptrs l : List CStr}
    (h : explodeLoop delimiter n (piece ++ str) str ptrs = some l) (hlen : ptrs.length < 9) :
    ∃ q ls, l = ptrs ++ (piece ++ q) :: ls := by
  induction n generalizing piece str with
  | zero => cases h
  | succ n ih =>
    cases str with
    | nil =>
      rw [explodeLoop, if_pos hlen] at h
      cases h
      exact ⟨[], [], rfl⟩
    | cons c str =>
      rw [explodeLoop_cons hd] at h
      rcases hm : matchFrom delimiter (c :: str) with ⟨_ | _, rest⟩
      · cases rest with
        | nil =>
          simp only [hm] at h
          cases h
        | cons c' rest =>
          simp only [hm] at h
          obtain ⟨x, hx⟩ := matchFrom_suffix hm
          have hstart : piece ++ c :: str = piece ++ (x ++ [c']) ++ rest := by
            rw [hx]
            simp
          rw [hstart] at h
          obtain ⟨q, ls, rfl⟩ := ih h
          exact ⟨x ++ [c'] ++ q, ls, by simp⟩
      · simp only [hm, if_pos hlen] at h
        rw [piece_found (matchFrom_true.mp hm)] at h
        obtain ⟨ls, rfl⟩ := explodeLoop_extends hd h
        exact ⟨[], ls, by simp⟩

theorem take_full {ptrs : List CStr} (h : ptrs.length = 9) (ps : List CStr) : (ptrs ++ ps).take 9 = ptrs := by
  rw [← h, List.take_left]

theorem take_next {ptrs : List CStr} (h : ptrs.length < 9) (p : CStr) (ps : List CStr) :
    ∃ qs, (ptrs ++ p :: ps).take 9 = ptrs ++ p :: qs := by
  obtain ⟨k, hk⟩ := Nat.exists_eq_add_one.mpr (Nat.sub_pos_of_lt h)
  refine ⟨ps.take k, ?_⟩
  rw [List.take_append, List.take_of_length_le h.le, hk, List.take_succ_cons]

theorem passed_delimiter (hd : delimiter ≠ []) {n : ℕ} {piece s x rest : CStr} {ptrs : List CStr}
    (hlen : ptrs.length < 9) (hs : s = x ++ rest) {j : ℕ} (hj : j < x.length) (hp : delimiter <+: s.drop j) :
    explodeLoop delimiter n (piece ++ s) rest ptrs ≠ some ((ptrs ++ splitFrom delimiter 0 piece s).take 9) := by
  intro h
  obtain ⟨k, hk, ps, hps⟩ := @splitFrom_early _ _ delimiter hd s piece j hp
  obtain ⟨qs, hqs⟩ := take_next hlen (piece ++ s.take k) ps
  rw [hps, hqs] at h
  rw [hs, ← List.append_assoc] at h
  obtain ⟨q, ls, hl⟩ := explodeLoop_next hd h hlen
  have hfirst := (List.cons.inj (List.append_cancel_left hl)).1
  have hlengths := congrArg List.length hfirst
  simp only [List.length_append, List.length_take] at hlengths
  omega

theorem cleanScan_ended {m : ℕ} {s : CStr} (hs : s ≠ []) (hmatch : matchFrom delimiter s = (false, [])) :
    ¬CleanScan delimiter m s := by
  intro h
  cases h with
  | done => exact hs rfl
  | found _ hf _ => cases hmatch.symm.trans hf
  | passed hf _ _ => cases hmatch.symm.trans hf

theorem cleanScan_failed {m : ℕ} {c : Char} {s rest : CStr} (hs : s ≠ [])
    (hmatch : matchFrom delimiter s = (false, c :: rest)) : CleanScan delimiter m s ↔
      (m < 9 → ∀ j, 0 < j → j + rest.length < s.length → ¬delimiter <+: s.drop j) ∧ CleanScan delimiter m rest := by
  constructor
  · intro h
    cases h with
    | done => exact absurd rfl hs
    | found _ hf _ => cases hmatch.symm.trans hf
    | passed hf hno hrest =>
      obtain ⟨rfl, rfl⟩ := List.cons.inj (Prod.mk.inj (hmatch.symm.trans hf)).2
      exact ⟨hno, hrest⟩
  · exact fun h => .passed hmatch h.1 h.2

theorem cleanScan_found {m : ℕ} {s rest : CStr} (hs : s ≠ []) (hmatch : matchFrom delimiter s = (true, rest)) :
    CleanScan delimiter m s ↔ CleanScan delimiter (m + 1) rest := by
  constructor
  · intro h
    cases h with
    | done => exact absurd rfl hs
    | found _ hf h =>
      obtain rfl := (Prod.mk.inj (hmatch.symm.trans hf)).2
      exact h
    | passed hf _ _ => cases hmatch.symm.trans hf
  · exact .found hs hmatch

def StoresRest (delimiter : CStr) (n : ℕ) (piece str : CStr) (ptrs : List CStr) : Prop :=
  explodeLoop delimiter n (piece ++ str) str ptrs = some ((ptrs ++ splitFrom delimiter 0 piece str).take 9)

theorem storesRest_nil {n : ℕ} {piece : CStr} {ptrs : List CStr} (hlen : ptrs.length ≤ 9) :
    StoresRest delimiter (n + 1) piece [] ptrs := by
  unfold StoresRest
  rw [explodeLoop, splitFrom, List.append_nil, Option.some_inj]
  split_ifs with hlt
  · rw [List.take_of_length_le]
    rw [List.length_append, List.length_singleton]
    omega
  · rw [take_full (by omega)]

theorem storesRest_ended (hd : delimiter ≠ []) {n : ℕ} {c : Char} {piece str : CStr} {ptrs : List CStr}
    (hmatch : matchFrom delimiter (c :: str) = (false, [])) : ¬StoresRest delimiter (n + 1) piece (c :: str) ptrs := by
  unfold StoresRest
  rw [explodeLoop_cons hd, hmatch]
  exact (Option.some_ne_none _).symm

theorem storesRest_failed (hd : delimiter ≠ []) {n : ℕ} {c : Char} {piece str x rest : CStr} {ptrs : List CStr}
    {c' : Char} (hmatch : matchFrom delimiter (c :: str) = (false, c' :: rest)) (hx : c :: str = x ++ rest)
    (hlen : ptrs.length ≤ 9) : StoresRest delimiter (n + 1) piece (c :: str) ptrs ↔
      (ptrs.length < 9 → ∀ j, 0 < j → j + rest.length < (c :: str).length → ¬delimiter <+: (c :: str).drop j) ∧
        StoresRest delimiter n (piece ++ x) rest ptrs := by
  have hstart : piece ++ c :: str = piece ++ x ++ rest := by rw [hx, List.append_assoc]
  have hlength : (c :: str).length = x.length + rest.length := by rw [hx, List.length_append]
  unfold StoresRest
  rw [explodeLoop_cons hd, hmatch]
  simp only
  by_cases hlt : ptrs.length < 9
  · constructor
    · intro h
      have hno : ∀ j < x.length, ¬delimiter <+: (c :: str).drop j := fun j hj hp => passed_delimiter hd hlt hx hj hp h
      rw [hstart, hx, splitFrom_passed piece (by rwa [← hx])] at h
      exact ⟨fun _ j _ hj => hno j (by omega), h⟩
    · rintro ⟨hno, h⟩
      rw [hstart, hx, splitFrom_passed piece, h]
      intro j hj
      rw [← hx]
      rcases Nat.eq_zero_or_pos j with rfl | hpos
      · rintro ⟨rest', hrest'⟩
        cases hmatch.symm.trans (matchFrom_true.mpr hrest'.symm)
      · exact hno hlt j hpos (by omega)
  · rw [take_full (by omega), take_full (by omega), hstart]
    exact ⟨fun h => ⟨fun h9 => absurd h9 hlt, h⟩, And.right⟩

theorem storesRest_found (hd : delimiter ≠ []) {n : ℕ} {c : Char} {piece str rest : CStr} {ptrs : List CStr}
    (hmatch : matchFrom delimiter (c :: str) = (true, rest)) (hlen : ptrs.length ≤ 9) :
    StoresRest delimiter (n + 1) piece (c :: str) ptrs ↔
      StoresRest delimiter n [] rest (if ptrs.length < 9 then ptrs ++ [piece] else ptrs) := by
  have hs := matchFrom_true.mp hmatch
  unfold StoresRest
  rw [explodeLoop_cons hd, hmatch]
  simp only [piece_found hs]
  rw [hs, splitFrom_found hd]
  split_ifs
  · rw [List.append_assoc]
    rfl
  · rw [take_full (by omega), take_full (by omega)]
    rfl

theorem storesRest_iff (hd : delimiter ≠ []) {n m : ℕ} {piece str : CStr} {ptrs : List CStr} (hn : str.length < n)
    (hm : ptrs.length = min m 9) : StoresRest delimiter n piece str ptrs ↔ CleanScan delimiter m str := by
  induction n generalizing m piece str ptrs with
  | zero => exact absurd hn (Nat.not_lt_zero _)
  | succ n ih =>
    have hlen : ptrs.length ≤ 9 := hm ▸ Nat.min_le_right m 9
    have hlt : ptrs.length < 9 ↔ m < 9 := by omega
    cases str with
    | nil => exact iff_of_true (storesRest_nil hlen) (.done m)
    | cons c str =>
      have hne : c :: str ≠ [] := List.cons_ne_nil c str
      rcases hmatch : matchFrom delimiter (c :: str) with ⟨_ | _, rest⟩
      · cases rest with
        | nil => exact iff_of_false (storesRest_ended hd hmatch) (cleanScan_ended hne hmatch)
        | cons c' rest =>
          obtain ⟨y, hy⟩ := matchFrom_suffix hmatch
          have hx : c :: str = (y ++ [c']) ++ rest := by
            rw [hy]
            simp
          have hrest : rest.length < n := by
            have hlength := congrArg List.length hy
            simp only [List.length_append, List.length_cons] at hlength hn
            omega
          rw [storesRest_failed hd hmatch hx hlen, cleanScan_failed hne hmatch, hlt, ih hrest hm]
      · have hpos := List.length_pos_iff.mpr hd
        have hlength := congrArg List.length (matchFrom_true.mp hmatch)
        rw [List.length_append] at hlength
        rw [storesRest_found hd hmatch hlen, cleanScan_found hne hmatch]
        apply ih (by omega)
        split_ifs
        · rw [List.length_append, List.length_singleton]
          omega
        · omega

end

theorem copy_injective {ptrs ptrs' : List CStr} (h : Explode.copy ptrs = Explode.copy ptrs') : ptrs = ptrs' := by
  have hmap := congrArg Explode.array h
  refine List.map_injective_iff.mpr ?_ hmap
  intro p q hpq
  simp only at hpq
  split_ifs at hpq with hp hq hq
  · rw [hp, hq]
  · exact Option.some.inj hpq

theorem explode_iff (delimiter text : CStr) (hd : delimiter ≠ []) (ht : text ≠ []) :
    Explodes delimiter text ↔ CleanScan delimiter 0 text := by
  have hloop := @storesRest_iff delimiter hd (text.length + 1) 0 [] text [] (Nat.lt_succ_self _) rfl
  rw [StoresRest, List.nil_append, List.nil_append] at hloop
  change _ = some ((split delimiter text).take 9) ↔ _ at hloop
  rw [← hloop]
  unfold Explodes Explode.new
  rw [if_pos ⟨ht, hd⟩]
  constructor
  · rintro ⟨ps, hps, hnew⟩
    obtain ⟨l, hl, hcopy⟩ := Option.map_eq_some_iff.mp hnew
    rw [hl, copy_injective hcopy, hps.unique (split_leftmost hd text)]
  · intro h
    exact ⟨_, split_leftmost hd text, by rw [h, Option.map_some]⟩

theorem two_pieces_stored : Explodes ['|', '|'] ['1', '|', '|', '2'] := by
  apply (explode_iff ['|', '|'] ['1', '|', '|', '2'] (by decide) (by decide)).mpr
  refine .passed rfl ?_ (.found (by decide) rfl (.passed rfl ?_ (.done 1)))
  · intro _ j hpos hlt
    simp only [List.length_cons, List.length_nil] at hlt
    omega
  · intro _ j hpos hlt
    simp only [List.length_cons, List.length_nil] at hlt
    omega

theorem half_delimiter_read_past : ¬ ∀ delimiter text : CStr, delimiter ≠ [] → text ≠ [] → Explodes delimiter text := by
  intro h
  obtain ⟨ps, -, hnew⟩ := h ['|', '|'] ['1', '|'] (by decide) (by decide)
  have hnone : Explode.new ['|', '|'] ['1', '|'] = none := by decide
  rw [hnone] at hnew
  cases hnew

end FishServer
