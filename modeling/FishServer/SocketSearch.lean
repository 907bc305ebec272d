import FishServer.PlayerTable

namespace FishServer

/-! `find`, which looks at as many slots as there are players. -/

def Players.find (s : Server) (sk : ℕ) : ℤ :=
  match findSlot (fun i => decide ((i.val : ℤ) < s.len) && decide ((s.slot i).socket = sk)) with
  | some i => i.val
  | none => -1

inductive TableCall
  | add (socket ip : ℕ) (now : ℤ)
  | remove (i : Slot)

def tableCall (s : Server) : TableCall → Server
  | .add socket ip now => Players.add s socket ip now
  | .remove i => s.removeSlot i

def tableCalls (s : Server) (cs : List TableCall) : Server := cs.foldl tableCall s

/-- `find` answers with a slot that has the socket, and with -1 where there is none. -/
structure Server.Finds (s : Server) : Prop where
  found : ∀ i, (s.slot i).socket ≠ 0 →
    ∃ j : Slot, Players.find s (s.slot i).socket = j.val ∧ (s.slot j).socket = (s.slot i).socket
  missing : ∀ sk, sk ≠ 0 → (∀ i, (s.slot i).socket ≠ sk) → Players.find s sk = -1

/-- A slot in use that is freed leaves no player at or behind the new count whose socket is not before it too.
Where the sockets differ, it is the last one in use. -/
def Server.FreesLast (s : Server) : TableCall → Prop
  | .add .. => True
  | .remove i => (s.slot i).socket ≠ 0 → ∀ j ≠ i, (s.slot j).socket ≠ 0 → s.len - 1 ≤ (j.val : ℤ) →
    ∃ k ≠ i, (k.val : ℤ) < s.len - 1 ∧ (s.slot k).socket = (s.slot j).socket

-- the slots that are not looked at have no sockets of their own
def Server.Covered (s : Server) : Prop :=
  ∀ j, (s.slot j).socket ≠ 0 → ∃ k : Slot, (k.val : ℤ) < s.len ∧ (s.slot k).socket = (s.slot j).socket

def Server.used (s : Server) : ℕ := (Finset.univ.filter (fun i => (s.slot i).socket ≠ 0)).card

structure Server.TableCounts (s : Server) : Prop where
  closeing : ∀ i, (s.slot i).closeing = false
  used : (s.used : ℤ) ≤ s.len
  len : s.len ≤ 1024

section

variable {s t : Server} {i : Slot}

theorem find_some {sk : ℕ} {j : Slot} (hlt : (j.val : ℤ) < s.len) (hj : (s.slot j).socket = sk) :
    ∃ k : Slot, Players.find s sk = k.val ∧ (k.val : ℤ) < s.len ∧ (s.slot k).socket = sk := by
  unfold Players.find
  cases hf : findSlot (fun i => decide ((i.val : ℤ) < s.len) && decide ((s.slot i).socket = sk)) with
  | none =>
    have hno := findSlot_none hf j
    simp [hlt, hj] at hno
  | some k =>
    have hk := findSlot_some hf
    simp only [Bool.and_eq_true, decide_eq_true_eq] at hk
    exact ⟨k, rfl, hk.1, hk.2⟩

theorem find_none {sk : ℕ} (h : ∀ j : Slot, (j.val : ℤ) < s.len → (s.slot j).socket ≠ sk) :
    Players.find s sk = -1 := by
  unfold Players.find
  cases hf : findSlot (fun i => decide ((i.val : ℤ) < s.len) && decide ((s.slot i).socket = sk)) with
  | none => rfl
  | some k =>
    have hk := findSlot_some hf
    simp only [Bool.and_eq_true, decide_eq_true_eq] at hk
    exact absurd hk.2 (h k hk.1)

theorem finds_iff_covered : s.Finds ↔ s.Covered := by
  constructor
  · intro h j hj
    obtain ⟨k, hk, -⟩ := h.found j hj
    by_contra hno
    push Not at hno
    rw [find_none hno] at hk
    omega
  · intro h
    constructor
    · intro i hi
      obtain ⟨j, hlt, hj⟩ := h i hi
      obtain ⟨k, hk, -, hsk⟩ := find_some hlt hj
      exact ⟨k, hk, hsk⟩
    · intro sk _ hno
      exact find_none (fun j _ => hno j)

theorem findSlot_first {test : Slot → Bool} (h : findSlot test = some i) {j : Slot} (hj : j < i) : test j = false := by
  obtain ⟨-, n, hn, hget, hbefore⟩ := List.find?_eq_some_iff_getElem.mp h
  rw [List.getElem_finRange] at hget
  have hjn : j.val < n := by
    rw [← hget] at hj
    exact hj
  have hnot := hbefore j.val hjn
  rw [List.getElem_finRange] at hnot
  simpa using hnot

theorem first_free_le (h : ∀ j < i, (s.slot j).socket ≠ 0) : i.val ≤ s.used := by
  have hsub : Finset.Iio i ⊆ Finset.univ.filter (fun j => (s.slot j).socket ≠ 0) := by
    intro j hj
    exact Finset.mem_filter.mpr ⟨Finset.mem_univ j, h j (Finset.mem_Iio.mp hj)⟩
  have hcard := Finset.card_le_card hsub
  rwa [Fin.card_Iio] at hcard

structure Adds (s t : Server) (i : Slot) (x : ℕ) : Prop where
  free : (s.slot i).socket = 0
  first : ∀ j < i, (s.slot j).socket ≠ 0
  room : s.len ≠ 1024
  slot : ∀ j, (t.slot j).socket = Function.update (fun j => (s.slot j).socket) i x j
  closeing : ∀ j, (t.slot j).closeing = (s.slot j).closeing
  len : t.len = u32 (s.len + 1)

theorem add_cases (s : Server) (socket ip : ℕ) (now : ℤ) :
    Players.add s socket ip now = s ∨ ∃ i, Adds s (Players.add s socket ip now) i socket := by
  unfold Players.add
  by_cases hlen : s.len = 1024
  · exact .inl (if_pos hlen)
  rw [if_neg hlen]
  cases hf : findSlot (fun i => decide ((s.slot i).socket = 0)) with
  | none => exact .inl rfl
  | some i =>
    refine .inr ⟨i, ?_, ?_, hlen, ?_, ?_, rfl⟩
    · simpa using findSlot_some hf
    · intro j hj
      simpa using findSlot_first hf hj
    · intro j
      simp only [Server.setSlot]
      by_cases hj : j = i
      · rw [hj, Function.update_self, Function.update_self]
      · rw [Function.update_of_ne hj, Function.update_of_ne hj]
    · intro j
      simp only [Server.setSlot]
      by_cases hj : j = i
      · rw [hj, Function.update_self]
      · rw [Function.update_of_ne hj]

theorem Adds.len_succ {x : ℕ} (ha : Adds s t i x) (h : s.TableCounts) : t.len = s.len + 1 := by
  have hroom := ha.room
  have hused := h.used
  have hlen := h.len
  rw [ha.len]
  exact u32_of_bounds (by omega) (by omega)

theorem Adds.counts {x : ℕ} (ha : Adds s t i x) (h : s.TableCounts) : t.TableCounts := by
  have hroom := ha.room
  have hused := h.used
  have hlen := h.len
  have hone : t.used ≤ s.used + 1 := by
    unfold Server.used
    simp only [ha.slot]
    by_cases hx : x = 0
    · have hsame : Function.update (fun j => (s.slot j).socket) i x = fun j => (s.slot j).socket := by
        rw [hx, ← ha.free]
        exact Function.update_eq_self i (fun j => (s.slot j).socket)
      simp only [hsame]
      omega
    · exact (Server.filter_update_insert (f := fun j => (s.slot j).socket) hx ha.free).le
  refine ⟨?_, ?_, ?_⟩
  · intro j
    rw [ha.closeing]
    exact h.closeing j
  · rw [ha.len_succ h]
    omega
  · rw [ha.len_succ h]
    omega

theorem Adds.covered {x : ℕ} (ha : Adds s t i x) (h : s.TableCounts) (hc : s.Covered) : t.Covered := by
  have hfirst := first_free_le ha.first
  have hused := h.used
  intro j hj
  rw [ha.len_succ h]
  by_cases hji : j = i
  · subst hji
    exact ⟨j, by omega, rfl⟩
  · rw [ha.slot, Function.update_of_ne hji] at hj ⊢
    obtain ⟨k, hk, hkj⟩ := hc j hj
    have hki : k ≠ i := by
      rintro rfl
      exact hj (hkj.symm.trans ha.free)
    refine ⟨k, by omega, ?_⟩
    rw [ha.slot, Function.update_of_ne hki]
    exact hkj

theorem used_pos (hi : (s.slot i).socket ≠ 0) : 0 < s.used :=
  Finset.card_pos.mpr ⟨i, Finset.mem_filter.mpr ⟨Finset.mem_univ i, hi⟩⟩

theorem gives_len (hg : s.Gives t i) (h : s.TableCounts) (hi : (s.slot i).socket ≠ 0) : t.len = s.len - 1 := by
  have hpos := used_pos hi
  have hused := h.used
  have hlen := h.len
  rw [hg.len]
  exact u32_of_bounds (by omega) (by omega)

theorem gives_counts (hg : s.Gives t i) (hz : ∀ j, (t.slot j).closeing = false) (h : s.TableCounts)
    (hi : (s.slot i).socket ≠ 0) : t.TableCounts := by
  have hone : t.used + 1 = s.used := by
    unfold Server.used
    simp only [hg.slot]
    exact Server.filter_update_erase (f := fun j => (s.slot j).socket) hi
  have hused := h.used
  have hlen := h.len
  refine ⟨hz, ?_, ?_⟩
  · rw [gives_len hg h hi]
    omega
  · rw [gives_len hg h hi]
    omega

theorem gives_covered (hg : s.Gives t i) (h : s.TableCounts) (hi : (s.slot i).socket ≠ 0) :
    t.Covered ↔ s.FreesLast (.remove i) := by
  unfold Server.Covered
  rw [gives_len hg h hi]
  constructor
  · intro hc _ j hji hj _
    have htj : (t.slot j).socket = (s.slot j).socket := by rw [hg.slot, Function.update_of_ne hji]
    obtain ⟨k, hk, hkj⟩ := hc j (htj ▸ hj)
    have hki : k ≠ i := by
      rintro rfl
      rw [hg.slot, Function.update_self, htj] at hkj
      exact hj hkj.symm
    rw [htj, hg.slot, Function.update_of_ne hki] at hkj
    exact ⟨k, hki, hk, hkj⟩
  · intro hf j hj
    have hji : j ≠ i := by
      rintro rfl
      rw [hg.slot, Function.update_self] at hj
      exact hj rfl
    by_cases hlt : (j.val : ℤ) < s.len - 1
    · exact ⟨j, hlt, rfl⟩
    · rw [hg.slot, Function.update_of_ne hji] at hj ⊢
      obtain ⟨k, hki, hk, hkj⟩ := hf hi j hji hj (by omega)
      refine ⟨k, hk, ?_⟩
      rw [hg.slot, Function.update_of_ne hki]
      exact hkj

theorem removeSlot_unused (hi : (s.slot i).socket = 0) : s.removeSlot i = s := by
  unfold Server.removeSlot Players.remove Server.setSlot
  rw [if_pos (.inr hi)]
  simp only [Function.update_eq_self]

theorem removeSlot_closeing (h : ∀ j, (s.slot j).closeing = false) (hi : (s.slot i).socket ≠ 0) (j : Slot) :
    ((s.removeSlot i).slot j).closeing = false := by
  unfold Server.removeSlot Players.remove
  rw [if_neg (by simp [h i, hi])]
  change (Function.update s.slot i Player.zero j).closeing = false
  by_cases hj : j = i
  · rw [hj, Function.update_self]
    rfl
  · rw [Function.update_of_ne hj]
    exact h j

theorem tableCall_counts (h : s.TableCounts) (c : TableCall) : (tableCall s c).TableCounts := by
  cases c with
  | add socket ip now =>
    rcases add_cases s socket ip now with he | ⟨i, ha⟩
    · rw [tableCall, he]
      exact h
    · exact ha.counts h
  | remove i =>
    by_cases hi : (s.slot i).socket = 0
    · rw [tableCall, removeSlot_unused hi]
      exact h
    · exact gives_counts (Server.removeSlot_gives (h.closeing i) hi) (removeSlot_closeing h.closeing hi) h hi

theorem tableCall_covered (h : s.TableCounts) (hc : s.Covered) (c : TableCall) :
    (tableCall s c).Covered ↔ s.FreesLast c := by
  cases c with
  | add socket ip now =>
    refine iff_of_true ?_ True.intro
    rcases add_cases s socket ip now with he | ⟨i, ha⟩
    · rw [tableCall, he]
      exact hc
    · exact ha.covered h hc
  | remove i =>
    by_cases hi : (s.slot i).socket = 0
    · rw [tableCall, removeSlot_unused hi]
      exact iff_of_true hc (fun hne => absurd hi hne)
    · exact gives_covered (Server.removeSlot_gives (h.closeing i) hi) h hi

theorem tableCalls_concat (s : Server) (cs : List TableCall) (c : TableCall) :
    tableCalls s (cs ++ [c]) = tableCall (tableCalls s cs) c := by
  unfold tableCalls
  rw [List.foldl_append]
  rfl

theorem tableCalls_counts (h : s.TableCounts) (cs : List TableCall) : (tableCalls s cs).TableCounts := by
  induction cs using List.reverseRecOn with
  | nil => exact h
  | append_singleton cs c ih =>
    rw [tableCalls_concat]
    exact tableCall_counts ih c

end

section

variable (maxRoom : ℕ) (outside : ℕ → Room) (fish : List SettingFish) (users : ℕ → User)

theorem start_tableCounts : (Server.start maxRoom outside fish users).TableCounts := by
  refine ⟨fun _ => rfl, ?_, ?_⟩
  · simp [Server.used, Server.start, Player.zero]
  · simp [Server.start]

theorem start_covered : (Server.start maxRoom outside fish users).Covered :=
  fun _ hj => absurd rfl hj

/-- After every call a search finds what it should, just when every call frees the last slot. -/
theorem finds_iff (cs : List TableCall) :
    (∀ l, l <+: cs → (tableCalls (Server.start maxRoom outside fish users) l).Finds) ↔
      ∀ l c, l ++ [c] <+: cs → (tableCalls (Server.start maxRoom outside fish users) l).FreesLast c := by
  have hcounts := tableCalls_counts (start_tableCounts maxRoom outside fish users)
  simp only [finds_iff_covered]
  constructor
  · intro h l c hl
    have hbefore := h l ((List.prefix_append l [c]).trans hl)
    apply (tableCall_covered (hcounts l) hbefore c).mp
    rw [← tableCalls_concat]
    exact h _ hl
  · intro h l
    induction l using List.reverseRecOn with
    | nil => exact fun _ => start_covered maxRoom outside fish users
    | append_singleton l c ih =>
      intro hl
      have hbefore := ih ((List.prefix_append l [c]).trans hl)
      rw [tableCalls_concat]
      exact (tableCall_covered (hcounts l) hbefore c).mpr (h l c hl)

end

-- the player behind the slot that is freed
theorem second_player_lost : ¬ ∀ (maxRoom : ℕ) (outside : ℕ → Room) (fish : List SettingFish) (users : ℕ → User)
    (cs : List TableCall), (tableCalls (Server.start maxRoom outside fish users) cs).Finds := by
  intro h
  have hf := h 1 (fun _ => Room.zero) [] (fun _ => sampleUser) [.add 5 0 60, .add 6 0 60, .remove 0]
  have hsock : ((tableCalls (Server.start 1 (fun _ => Room.zero) [] (fun _ => sampleUser))
      [.add 5 0 60, .add 6 0 60, .remove 0]).slot 1).socket = 6 := by decide +kernel
  have hfind : Players.find (tableCalls (Server.start 1 (fun _ => Room.zero) [] (fun _ => sampleUser))
      [.add 5 0 60, .add 6 0 60, .remove 0]) 6 = -1 := by decide +kernel
  obtain ⟨j, hj, -⟩ := hf.found 1 (by rw [hsock]; decide)
  rw [hsock, hfind] at hj
  omega

end FishServer
