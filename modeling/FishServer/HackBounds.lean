import FishServer.Handshake

namespace FishServer

/-! What `hack` reads of the header and where it writes to `sec` and `skey`. -/

/-- The indices of `sec` that the loop over the key writes, and the one of the closing NUL; none when it reads
behind the header. -/
def secWrites : ℕ → List Byte → Option (List ℕ)
  | _, [] => none
  | j, c :: s =>
    if c ≠ 0x0D#8 ∧ j < 50 then
      if c ≠ 0x20#8 then (secWrites (j + 1) s).map (j :: ·) else secWrites j s
    else some [j]

-- to `len` bytes that are there `strcat` appends `n` and a NUL
def strcatWrites (len n : ℕ) : List ℕ := List.range' len (n + 1)

def skeyWrites (sec : List Byte) : List ℕ :=
  let n := (sec.takeWhile (· ≠ 0)).length
  0 :: (strcatWrites 0 n ++ strcatWrites n guid.length)

def HackBounded (header : List Byte) : Prop :=
  ∀ key, strstr keyHeader header = some key → ∃ writes sec, secWrites 0 (key.drop 18) = some writes ∧
    scanKey 50 (key.drop 18) = some sec ∧ (∀ i ∈ writes, i < 50) ∧ ∀ i ∈ skeyWrites sec, i < 100

def keyLength (s : List Byte) : ℕ := ((s.takeWhile (· ≠ 0x0D#8)).filter (· ≠ 0x20#8)).length

def KeyFits (s : List Byte) : Prop := 0x0D#8 ∈ s ∧ keyLength s < 50

theorem secWrites_eq (s : List Byte) {j : ℕ} (hj : j ≤ 50) :
    secWrites j s = (scanKey (50 - j) s).map (fun sec => List.range' j (sec.length + 1)) := by
  induction s generalizing j with
  | nil => rfl
  | cons c s ih =>
    rw [secWrites, scanKey]
    by_cases hgo : c ≠ 0x0D#8 ∧ j < 50
    · have hnot : ¬(c = 0x0D#8 ∨ 50 - j = 0) := by
        rintro (hcr | hfull)
        · exact hgo.1 hcr
        · omega
      rw [if_pos hgo, if_neg hnot]
      by_cases hblank : c = 0x20#8
      · rw [if_neg (not_not.mpr hblank), if_pos hblank, ih hj]
      · rw [if_pos hblank, if_neg hblank, ih hgo.2, show 50 - (j + 1) = 50 - j - 1 by omega, Option.map_map,
          Option.map_map]
        rfl
    · have hend : c = 0x0D#8 ∨ 50 - j = 0 := by
        by_cases hcr : c = 0x0D#8
        · exact .inl hcr
        · exact .inr (by have := not_and.mp hgo hcr; omega)
      rw [if_neg hgo, if_pos hend]
      rfl

theorem scanKey_length (s : List Byte) {room : ℕ} {sec : List Byte} (h : scanKey room s = some sec) :
    sec.length ≤ room := by
  induction s generalizing room sec with
  | nil => cases h
  | cons c s ih =>
    rw [scanKey] at h
    split_ifs at h with hend hblank
    · cases h
      exact Nat.zero_le room
    · exact ih h
    · obtain ⟨rest, hrest, rfl⟩ := Option.map_eq_some_iff.mp h
      have := ih hrest
      rw [List.length_cons]
      omega

theorem skeyWrites_bound {sec : List Byte} (h : sec.length ≤ 50) : ∀ i ∈ skeyWrites sec, i < 100 := by
  have hguid : guid.length = 36 := by decide
  have hlen := (List.takeWhile_prefix (fun c : Byte => decide (c ≠ 0)) (l := sec)).length_le
  intro i hi
  simp only [skeyWrites, strcatWrites, hguid, List.mem_cons, List.mem_append, List.mem_range'_1] at hi
  omega

theorem secWrites_iff (s : List Byte) {j : ℕ} (hj : j ≤ 50) :
    (∃ writes, secWrites j (s ++ [0]) = some writes ∧ ∀ i ∈ writes, i < 50) ↔
      0x0D#8 ∈ s ∧ j + keyLength s < 50 := by
  induction s generalizing j with
  | nil =>
    rw [List.nil_append, secWrites]
    by_cases hlt : j < 50
    · simp [hlt, secWrites]
    · simp [hlt]
  | cons c s ih =>
    rw [List.cons_append, secWrites]
    by_cases hcr : c = 0x0D#8
    · simp [hcr, keyLength]
    by_cases hlt : j < 50
    · rw [if_pos ⟨hcr, hlt⟩]
      have hmem : 0x0D#8 ∈ c :: s ↔ 0x0D#8 ∈ s := by
        rw [List.mem_cons]
        exact or_iff_right (Ne.symm hcr)
      have hkey : keyLength (c :: s) = (if c = 0x20#8 then 0 else 1) + keyLength s := by
        unfold keyLength
        rw [List.takeWhile_cons_of_pos (by simpa using hcr), List.filter_cons]
        split_ifs <;> simp_all [Nat.add_comm]
      rw [hmem, hkey]
      by_cases hblank : c = 0x20#8
      · rw [if_neg (not_not.mpr hblank), if_pos hblank, ih hj, zero_add]
      · rw [if_pos hblank, if_neg hblank, ← Nat.add_assoc, ← ih hlt]
        constructor
        · rintro ⟨writes, hw, hb⟩
          obtain ⟨rest, hrest, rfl⟩ := Option.map_eq_some_iff.mp hw
          exact ⟨rest, hrest, fun i hi => hb i (List.mem_cons_of_mem j hi)⟩
        · rintro ⟨rest, hrest, hb⟩
          refine ⟨j :: rest, by rw [hrest]; rfl, ?_⟩
          exact List.forall_mem_cons.mpr ⟨hlt, hb⟩
    · rw [if_neg (fun hgo => hlt hgo.2)]
      constructor
      · rintro ⟨writes, hw, hb⟩
        cases hw
        exact absurd (hb j (List.mem_singleton_self j)) hlt
      · intro h
        omega

theorem strstr_nul {need : List Byte} (hneed : need ≠ []) (h0 : (0 : Byte) ∉ need) (s : List Byte) :
    strstr need (s ++ [0]) = (strstr need s).map (· ++ [0]) := by
  have hpre : ∀ s : List Byte, need <+: s ++ [0] ↔ need <+: s := by
    intro s
    rw [List.prefix_concat_iff]
    apply or_iff_right
    rintro rfl
    exact h0 (List.mem_append_right s (List.mem_singleton_self 0))
  induction s with
  | nil =>
    have hnot : ¬need.isPrefixOf [(0 : Byte)] = true := by
      rw [List.isPrefixOf_iff_prefix]
      exact fun hp => hneed (List.prefix_nil.mp ((hpre []).mp hp))
    have hnil : strstr need [(0 : Byte)] = none := by
      rw [strstr, if_neg hnot, if_pos rfl]
    exact hnil
  | cons c s ih =>
    have hsame : need.isPrefixOf (c :: (s ++ [0])) = need.isPrefixOf (c :: s) := by
      rw [Bool.eq_iff_iff, List.isPrefixOf_iff_prefix, List.isPrefixOf_iff_prefix]
      exact hpre (c :: s)
    rw [List.cons_append, strstr, strstr, hsame]
    split_ifs
    · rfl
    · rfl
    · exact ih

theorem strstr_found {need s : List Byte} (hnul : (0 : Byte) ∉ s) (hneed : need ≠ []) (h : need <:+: s) :
    ∃ rest, strstr need s = some (need ++ rest) := by
  induction s with
  | nil => exact absurd (List.infix_nil.mp h) hneed
  | cons c s ih =>
    rw [List.mem_cons, not_or] at hnul
    rw [strstr]
    by_cases hp : need.isPrefixOf (c :: s) = true
    · obtain ⟨rest, hrest⟩ := List.isPrefixOf_iff_prefix.mp hp
      exact ⟨rest, by rw [if_pos hp, hrest]⟩
    · rw [if_neg hp, if_neg (Ne.symm hnul.1)]
      rcases List.infix_cons_iff.mp h with hpre | hin
      · exact absurd (List.isPrefixOf_iff_prefix.mpr hpre) hp
      · exact ih hnul.2 hin

theorem hack_bounded_iff (text : List Byte) (hnul : (0 : Byte) ∉ text) (hkey : keyHeader <:+: text) :
    HackBounded (text ++ [0]) ↔ ∀ rest, strstr keyHeader text = some (keyHeader ++ rest) → KeyFits rest := by
  have hne : keyHeader ≠ [] := by decide
  obtain ⟨rest, hrest⟩ := strstr_found hnul hne hkey
  have hfound : strstr keyHeader (text ++ [0]) = some (keyHeader ++ (rest ++ [0])) := by
    rw [strstr_nul hne (by decide), hrest, Option.map_some, List.append_assoc]
  have hlen : keyHeader.length = 18 := by decide
  have hdrop : (keyHeader ++ (rest ++ [0])).drop 18 = rest ++ [0] := by
    rw [← hlen, List.drop_left]
  have hwrites := secWrites_iff rest (Nat.zero_le 50)
  rw [zero_add] at hwrites
  constructor
  · intro h rest' hrest'
    obtain rfl := List.append_cancel_left (Option.some.inj (hrest.symm.trans hrest'))
    obtain ⟨writes, sec, hw, -, hb, -⟩ := h _ hfound
    rw [hdrop] at hw
    exact hwrites.mp ⟨writes, hw, hb⟩
  · intro h key hk
    obtain rfl := Option.some.inj (hfound.symm.trans hk)
    obtain ⟨writes, hw, hb⟩ := hwrites.mpr (h rest hrest)
    have hscan := secWrites_eq (rest ++ [0]) (Nat.zero_le 50)
    rw [hw] at hscan
    obtain ⟨sec, hsec, -⟩ := Option.map_eq_some_iff.mp hscan.symm
    rw [hdrop]
    exact ⟨writes, sec, hw, hsec, hb, skeyWrites_bound (scanKey_length _ hsec)⟩

theorem short_key_bounded : HackBounded (charBytes "GET /\r\nSec-WebSocket-Key: abc\r\n" ++ [0]) := by
  apply (hack_bounded_iff (charBytes "GET /\r\nSec-WebSocket-Key: abc\r\n") (by decide) (by decide)).mpr
  intro rest hrest
  have h : strstr keyHeader (charBytes "GET /\r\nSec-WebSocket-Key: abc\r\n") =
      some (keyHeader ++ charBytes " abc\r\n") := by decide
  obtain rfl := List.append_cancel_left (Option.some.inj (h.symm.trans hrest))
  exact ⟨by decide, by decide⟩

theorem cut_header_read_past : ¬ ∀ text : List Byte, (0 : Byte) ∉ text → keyHeader <:+: text → text.length ≤ 1023 →
    HackBounded (text ++ [0]) := by
  intro h
  obtain ⟨writes, sec, hw, -⟩ := h (keyHeader ++ charBytes " abc") (by decide) (by decide) (by decide)
    (keyHeader ++ (charBytes " abc" ++ [0])) (by decide)
  have hnone : secWrites 0 ((keyHeader ++ (charBytes " abc" ++ [0])).drop 18) = none := by decide
  rw [hnone] at hw
  cases hw

end FishServer
