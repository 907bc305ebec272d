import FishServer.Setting

namespace FishServer

/-! A setting that is changed at run time against the one that a new load reads. -/

def lookup (rows : List Row) (key : CStr) : Option CStr := (rows.find? (fun r => r.1 = key)).map Prod.snd

def putRow (rows : List Row) (key value : CStr) : List Row :=
  if key ∈ rows.map Prod.fst then rows.map (fun r => if r.1 = key then (key, value) else r)
  else rows ++ [(key, value)]

theorem lookup_append (rows : List Row) (r : Row) (h : r.1 ∉ rows.map Prod.fst) (key : CStr) :
    lookup (rows ++ [r]) key = if r.1 = key then some r.2 else lookup rows key := by
  unfold lookup
  rw [List.find?_append]
  by_cases hk : r.1 = key
  · have hn : rows.find? (fun r => decide (r.1 = key)) = none := by
      apply List.find?_eq_none.mpr
      intro x hx
      have hne : x.1 ≠ key := by
        rintro rfl
        exact h (hk ▸ List.mem_map_of_mem hx)
      simpa using hne
    rw [if_pos hk, hn, Option.none_or]
    simp [hk]
  · rw [if_neg hk]
    simp [hk]

theorem lookup_isSome (rows : List Row) (key : CStr) :
    (lookup rows key).isSome = true ↔ key ∈ rows.map Prod.fst := by
  unfold lookup
  rw [Option.isSome_map, List.find?_isSome, List.mem_map]
  simp

theorem lookup_cons (r : Row) (rows : List Row) (key : CStr) :
    lookup (r :: rows) key = if r.1 = key then some r.2 else lookup rows key := by
  unfold lookup
  by_cases hr : r.1 = key
  · simp [hr]
  · simp [hr]

theorem lookup_map_ne (rows : List Row) {key k : CStr} (value : CStr) (h : key ≠ k) :
    lookup (rows.map (fun r => if r.1 = key then (key, value) else r)) k = lookup rows k := by
  induction rows with
  | nil => rfl
  | cons r rows ih =>
    rw [List.map_cons, lookup_cons, lookup_cons, ih]
    by_cases hr : r.1 = key
    · have hk : r.1 ≠ k := fun he => h (hr.symm.trans he)
      rw [if_pos hr, if_neg h, if_neg hk]
    · rw [if_neg hr]

theorem lookup_map_self {rows : List Row} {key : CStr} (value : CStr) (h : key ∈ rows.map Prod.fst) :
    lookup (rows.map (fun r => if r.1 = key then (key, value) else r)) key = some value := by
  induction rows with
  | nil => cases h
  | cons r rows ih =>
    rw [List.map_cons, lookup_cons]
    by_cases hr : r.1 = key
    · rw [if_pos hr, if_pos rfl]
    · rw [if_neg hr, if_neg hr]
      apply ih
      rcases List.mem_cons.mp h with he | hm
      · exact absurd he.symm hr
      · exact hm

theorem lookup_putRow (rows : List Row) (key value k : CStr) :
    lookup (putRow rows key value) k = if key = k then some value else lookup rows k := by
  unfold putRow
  split_ifs with hm hk hk
  · subst hk
    exact lookup_map_self value hm
  · exact lookup_map_ne rows value hk
  · rw [lookup_append rows (key, value) hm, if_pos hk]
  · rw [lookup_append rows (key, value) hm, if_neg hk]

theorem putRow_keys (rows : List Row) (key value : CStr) :
    (putRow rows key value).map Prod.fst =
      if key ∈ rows.map Prod.fst then rows.map Prod.fst else rows.map Prod.fst ++ [key] := by
  unfold putRow
  split_ifs with hm
  · rw [List.map_map]
    apply List.map_congr_left
    intro r _
    by_cases hr : r.1 = key
    · simp [hr]
    · simp [hr]
  · simp

theorem putRow_nodup {rows : List Row} (h : (rows.map Prod.fst).Nodup) (key value : CStr) :
    ((putRow rows key value).map Prod.fst).Nodup := by
  rw [putRow_keys]
  split_ifs with hm
  · exact h
  · apply h.append (List.nodup_singleton key)
    rw [List.disjoint_singleton]
    exact hm

def levelText (rows : List Row) (key : CStr) : CStr := (lookup rows key).getD []

structure Setting.Reads (st : Setting) (rows : List Row) : Prop where
  verify : st.value.noVerifyAccountTimout = (lookup rows "no_verify_account_timout".toList).map atoi
  game : st.value.noGameTimeout = (lookup rows "no_game_timeout".toList).map atoi
  op : st.value.noOpTimeout = (lookup rows "no_op_timeout".toList).map atoi
  keys : ∀ k, (∃ v, (k, v) ∈ st.list) ↔ k ≠ [] ∧ k ∈ rows.map Prod.fst
  system : ∀ k, st.system k = if k = [] then none else (lookup rows k).bind Setting.filled

structure Setting.ReadsLevels (st : Setting) (rows : List Row) : Prop where
  level : formatLine (levelText rows "user_level".toList) [] = some st.levelList
  vipLevel : formatLine (levelText rows "user_vip_level".toList) [] = some st.vipLevelList

theorem system_append (st : Setting) (key : CStr) (v : Option CStr) (h : ∀ u, (key, u) ∉ st.list) (k : CStr) :
    Setting.system { st with list := st.list ++ [(key, v)] } k = if key = k then v else st.system k := by
  unfold Setting.system
  simp only [List.find?_append]
  by_cases hk : key = k
  · have hn : st.list.find? (fun e => decide (e.1 = k)) = none := by
      apply List.find?_eq_none.mpr
      rintro ⟨a, u⟩ he
      have hne : a ≠ k := by
        rintro rfl
        exact h u (hk ▸ he)
      simpa using hne
    rw [if_pos hk, hn, Option.none_or]
    simp [hk]
  · rw [if_neg hk]
    simp [hk]

section

variable {st t : Setting} {rows : List Row} {r : Row}

theorem readRow_value (h : st.readRow r = some t) :
    t.value.noVerifyAccountTimout = (if r.1 = "no_verify_account_timout".toList then some (atoi r.2)
        else st.value.noVerifyAccountTimout) ∧
      t.value.noGameTimeout = (if r.1 = "no_game_timeout".toList then some (atoi r.2)
        else st.value.noGameTimeout) ∧
      t.value.noOpTimeout = (if r.1 = "no_op_timeout".toList then some (atoi r.2) else st.value.noOpTimeout) ∧
      t.list = st.list := by
  unfold Setting.readRow at h
  split_ifs at h with h1 h2 h3 h4 h5
  · cases h
    simp +decide [h1]
  · cases h
    simp +decide [h2]
  · cases h
    simp +decide [h3]
  · obtain ⟨l, _, rfl⟩ := Option.map_eq_some_iff.mp h
    simp +decide [h4]
  · obtain ⟨l, _, rfl⟩ := Option.map_eq_some_iff.mp h
    simp +decide [h5]
  · cases h
    exact ⟨(if_neg h1).symm, (if_neg h2).symm, (if_neg h3).symm, rfl⟩

theorem readRow_levels (h : st.readRow r = some t) :
    (if r.1 = "user_level".toList then formatLine r.2 st.levelList else some st.levelList) = some t.levelList ∧
      (if r.1 = "user_vip_level".toList then formatLine r.2 st.vipLevelList else some st.vipLevelList) =
        some t.vipLevelList := by
  unfold Setting.readRow at h
  split_ifs at h with h1 h2 h3 h4 h5
  · cases h
    simp +decide [h1]
  · cases h
    simp +decide [h2]
  · cases h
    simp +decide [h3]
  · obtain ⟨l, hl, rfl⟩ := Option.map_eq_some_iff.mp h
    simp +decide [h4, hl]
  · obtain ⟨l, hl, rfl⟩ := Option.map_eq_some_iff.mp h
    simp +decide [h5, hl]
  · cases h
    exact ⟨if_neg h4, if_neg h5⟩

theorem readRow_none (h : st.readRow r = none) :
    (r.1 = "user_level".toList ∧ formatLine r.2 st.levelList = none) ∨
      (r.1 = "user_vip_level".toList ∧ formatLine r.2 st.vipLevelList = none) := by
  unfold Setting.readRow at h
  split_ifs at h with h1 h2 h3 h4 h5
  · exact .inl ⟨h4, Option.map_eq_none_iff.mp h⟩
  · exact .inr ⟨h5, Option.map_eq_none_iff.mp h⟩

theorem lookup_none (h : r.1 ∉ rows.map Prod.fst) : lookup rows r.1 = none := by
  rw [← lookup_isSome] at h
  simpa using h

theorem levelText_append (h : r.1 ∉ rows.map Prod.fst) (key : CStr) :
    levelText (rows ++ [r]) key = if r.1 = key then r.2 else levelText rows key := by
  unfold levelText
  rw [lookup_append rows r h]
  split_ifs <;> rfl

theorem Setting.ReadsLevels.list_nil (h : st.ReadsLevels rows) (hn : r.1 ∉ rows.map Prod.fst) :
    (r.1 = "user_level".toList → st.levelList = []) ∧ (r.1 = "user_vip_level".toList → st.vipLevelList = []) := by
  have hnone := lookup_none hn
  constructor
  · intro hk
    have hl := h.level
    rw [levelText, ← hk, hnone] at hl
    exact (Option.some.inj hl).symm
  · intro hk
    have hl := h.vipLevel
    rw [levelText, ← hk, hnone] at hl
    exact (Option.some.inj hl).symm

theorem Setting.ReadsLevels.loadRow (h : st.ReadsLevels rows) (hn : r.1 ∉ rows.map Prod.fst)
    (ht : st.loadRow r = some t) : t.ReadsLevels (rows ++ [r]) := by
  obtain ⟨hnil, hvip⟩ := h.list_nil hn
  unfold Setting.loadRow at ht
  split_ifs at ht with h0
  · cases ht
    constructor
    · rw [levelText_append hn, if_neg (by rw [h0]; decide)]
      exact h.level
    · rw [levelText_append hn, if_neg (by rw [h0]; decide)]
      exact h.vipLevel
  · obtain ⟨u, hu, rfl⟩ := Option.map_eq_some_iff.mp ht
    obtain ⟨hl, hv⟩ := readRow_levels hu
    constructor
    · rw [levelText_append hn]
      split_ifs at hl ⊢ with hk
      · rw [← hnil hk]
        exact hl
      · exact h.level.trans hl
    · rw [levelText_append hn]
      split_ifs at hv ⊢ with hk
      · rw [← hvip hk]
        exact hv
      · exact h.vipLevel.trans hv

theorem Setting.Reads.passRow (h : st.Reads rows) (hn : r.1 ∉ rows.map Prod.fst) (h0 : r.1 = []) :
    st.Reads (rows ++ [r]) := by
  have hne : ∀ key : CStr, key ≠ [] → lookup (rows ++ [r]) key = lookup rows key := by
    intro key hk
    rw [lookup_append rows r hn, if_neg (by rw [h0]; exact hk.symm)]
  constructor
  · rw [hne _ (by decide)]
    exact h.verify
  · rw [hne _ (by decide)]
    exact h.game
  · rw [hne _ (by decide)]
    exact h.op
  · intro k
    rw [h.keys, List.map_append, List.mem_append, List.map_singleton, List.mem_singleton, h0]
    tauto
  · intro k
    rw [h.system]
    split_ifs with hk
    · rfl
    · rw [hne k hk]

theorem Setting.Reads.loadRow (h : st.Reads rows) (hn : r.1 ∉ rows.map Prod.fst) (ht : st.loadRow r = some t) :
    t.Reads (rows ++ [r]) := by
  unfold Setting.loadRow at ht
  split_ifs at ht with h0
  · cases ht
    exact h.passRow hn h0
  · obtain ⟨u, hu, rfl⟩ := Option.map_eq_some_iff.mp ht
    obtain ⟨h1, h2, h3, h4⟩ := readRow_value hu
    constructor
    · rw [lookup_append rows r hn]
      simp only [h1, h.verify]
      split_ifs <;> rfl
    · rw [lookup_append rows r hn]
      simp only [h2, h.game]
      split_ifs <;> rfl
    · rw [lookup_append rows r hn]
      simp only [h3, h.op]
      split_ifs <;> rfl
    · intro k
      simp only [h4, List.mem_append, List.mem_singleton, exists_or, h.keys, List.map_append, List.map_singleton,
        Prod.mk.injEq, exists_and_left, exists_eq, and_true]
      constructor
      · rintro (hk | rfl)
        · exact ⟨hk.1, .inl hk.2⟩
        · exact ⟨h0, .inr rfl⟩
      · rintro ⟨hk, hm | rfl⟩
        · exact .inl ⟨hk, hm⟩
        · exact .inr rfl
    · intro k
      have hs : ∀ v, (r.1, v) ∉ u.list := by
        intro v hv
        rw [h4] at hv
        exact hn ((h.keys r.1).mp ⟨v, hv⟩).2
      rw [system_append u r.1 _ hs, lookup_append rows r hn]
      have hsu : u.system k = st.system k := by
        unfold Setting.system
        rw [h4]
      rw [hsu, h.system]
      by_cases hk : r.1 = k
      · subst hk
        rw [if_pos rfl, if_neg h0, if_pos rfl]
        rfl
      · rw [if_neg hk, if_neg hk]

theorem loadRows_reads (rows : List Row) (hn : (rows.map Prod.fst).Nodup) :
    (∀ st, rows.foldlM Setting.loadRow .empty = some st → st.Reads rows ∧ st.ReadsLevels rows) ∧
      (rows.foldlM Setting.loadRow .empty = none →
        formatLine (levelText rows "user_level".toList) [] = none ∨
          formatLine (levelText rows "user_vip_level".toList) [] = none) := by
  induction rows using List.reverseRecOn with
  | nil =>
    constructor
    · rintro st ⟨⟩
      refine ⟨⟨rfl, rfl, rfl, ?_, ?_⟩, ⟨rfl, rfl⟩⟩
      · intro k
        simp [Setting.empty]
      · intro k
        simp [Setting.system, Setting.empty, lookup]
    · intro h
      cases h
  | append_singleton rows r ih =>
    rw [List.map_append, List.map_singleton, List.nodup_append] at hn
    have hr : r.1 ∉ rows.map Prod.fst := fun hm => hn.2.2 r.1 hm r.1 (List.mem_singleton.mpr rfl) rfl
    obtain ⟨hsome, hnone⟩ := ih hn.1
    rw [List.foldlM_append]
    constructor
    · intro t ht
      obtain ⟨st, hst, hl⟩ := Option.bind_eq_some_iff.mp ht
      obtain ⟨hreads, hlevels⟩ := hsome st hst
      rw [List.foldlM_cons] at hl
      obtain ⟨u, hu, he⟩ := Option.bind_eq_some_iff.mp hl
      cases he
      exact ⟨hreads.loadRow hr hu, hlevels.loadRow hr hu⟩
    · intro h
      rw [levelText_append hr, levelText_append hr]
      cases hst : rows.foldlM Setting.loadRow .empty with
      | none =>
        have hkey : ∀ key : CStr, formatLine (levelText rows key) [] = none → r.1 ≠ key := by
          rintro key hk rfl
          rw [levelText, lookup_none hr] at hk
          cases hk
        rcases hnone hst with hl | hv
        · rw [if_neg (hkey _ hl)]
          exact .inl hl
        · rw [if_neg (hkey _ hv)]
          exact .inr hv
      | some st =>
        obtain ⟨_, hlevels⟩ := hsome st hst
        obtain ⟨hnil, hvip⟩ := hlevels.list_nil hr
        rw [hst] at h
        have hrow : st.loadRow r = none := by
          simpa [List.foldlM_cons] using h
        unfold Setting.loadRow at hrow
        split_ifs at hrow
        rcases readRow_none (Option.map_eq_none_iff.mp hrow) with ⟨hk, hl⟩ | ⟨hk, hv⟩
        · rw [if_pos hk, ← hnil hk]
          exact .inl hl
        · rw [if_pos hk, ← hvip hk]
          exact .inr hv

end

structure Setting.Loads (st : Setting) (rows : List Row) : Prop extends st.Reads rows where
  level : (formatLine (levelText rows "user_level".toList) []).map (order · 1 1) = some st.levelList
  vipLevel : (formatLine (levelText rows "user_vip_level".toList) []).map (order · 1 1) = some st.vipLevelList

theorem loadSystem_loads {rows : List Row} (hn : (rows.map Prod.fst).Nodup) {st : Setting}
    (h : Setting.loadSystem rows = some st) : st.Loads rows := by
  unfold Setting.loadSystem at h
  obtain ⟨u, hu, rfl⟩ := Option.map_eq_some_iff.mp h
  obtain ⟨hreads, hl, hv⟩ := (loadRows_reads rows hn).1 u hu
  exact ⟨⟨hreads.verify, hreads.game, hreads.op, hreads.keys, hreads.system⟩,
    by rw [hl]; rfl, by rw [hv]; rfl⟩

theorem loadSystem_exists {rows : List Row} (hn : (rows.map Prod.fst).Nodup)
    (hl : formatLine (levelText rows "user_level".toList) [] ≠ none)
    (hv : formatLine (levelText rows "user_vip_level".toList) [] ≠ none) :
    ∃ st, Setting.loadSystem rows = some st := by
  unfold Setting.loadSystem
  cases hu : rows.foldlM Setting.loadRow .empty with
  | some u => exact ⟨_, rfl⟩
  | none =>
    rcases (loadRows_reads rows hn).2 hu with h | h
    · exact absurd h hl
    · exact absurd h hv

/-- Two states that no reader of the settings can tell apart. -/
structure Setting.Agrees (st t : Setting) : Prop where
  system : ∀ k, st.system k = t.system k
  value : st.value = t.value
  level : st.levelList = t.levelList
  vipLevel : st.vipLevelList = t.vipLevelList

/-- The key has a row, or the value is empty; a timeout has the number that it had; a level list has no line. -/
def reloads (rows : List Row) (key value : CStr) : Prop :=
  (key ∈ rows.map Prod.fst ∨ value = []) ∧
    (key = "no_game_timeout".toList ∨ key = "no_op_timeout".toList →
      (lookup rows key).map atoi = some (atoi value)) ∧
    (key = "user_level".toList ∨ key = "user_vip_level".toList → ':' ∉ value)

section

variable {st t : Setting} {rows : List Row} {key value : CStr}

theorem setEntry_absent {l : List (CStr × Option CStr)} (h : ∀ v, (key, v) ∉ l) :
    Setting.setEntry key value l = l := by
  induction l with
  | nil => rfl
  | cons e l ih =>
    have he : e.1 ≠ key := by
      rintro rfl
      exact h e.2 List.mem_cons_self
    rw [Setting.setEntry, if_neg he, ih (fun v hv => h v (List.mem_cons_of_mem _ hv))]

theorem setEntry_find {l : List (CStr × Option CStr)} {v : Option CStr} (h : (key, v) ∈ l) (k : CStr) :
    ((Setting.setEntry key value l).find? (fun e => decide (e.1 = k))).bind Prod.snd =
      if key = k then Setting.filled value else (l.find? (fun e => decide (e.1 = k))).bind Prod.snd := by
  induction l with
  | nil => cases h
  | cons e l ih =>
    rw [Setting.setEntry]
    by_cases he : e.1 = key
    · rw [if_pos he]
      by_cases hk : key = k
      · simp [he, hk]
      · have hek : e.1 ≠ k := fun hh => hk (he.symm.trans hh)
        simp [hk, hek]
    · rw [if_neg he]
      have hm : (key, v) ∈ l := by
        rcases List.mem_cons.mp h with hh | hm
        · exact absurd (congrArg Prod.fst hh).symm he
        · exact hm
      by_cases hek : e.1 = k
      · have hk : key ≠ k := fun hh => he (hek.trans hh.symm)
        simp [hek, hk]
      · rw [List.find?_cons_of_neg (by simpa using hek), List.find?_cons_of_neg (by simpa using hek)]
        exact ih hm

structure Setting.Sets (st t : Setting) (rows : List Row) (key value : CStr) : Prop where
  system : ∀ k, t.system k =
    if key = k ∧ key ∈ rows.map Prod.fst then Setting.filled value else st.system k
  value : t.value = st.value
  level : t.levelList = if key = "user_level".toList then [] else st.levelList
  vipLevel : t.vipLevelList = if key = "user_vip_level".toList then [] else st.vipLevelList

theorem setEntry_system (h : st.Reads rows) (hk : key ≠ []) (value k : CStr) :
    Setting.system { st with list := Setting.setEntry key value st.list } k =
      if key = k ∧ key ∈ rows.map Prod.fst then Setting.filled value else st.system k := by
  unfold Setting.system
  by_cases hm : key ∈ rows.map Prod.fst
  · obtain ⟨v, hv⟩ := (h.keys key).mpr ⟨hk, hm⟩
    rw [setEntry_find hv]
    simp only [hm, and_true]
  · have hv : ∀ v, (key, v) ∉ st.list := fun v hv => hm ((h.keys key).mp ⟨v, hv⟩).2
    rw [setEntry_absent hv, if_neg (fun hh => hm hh.2)]

theorem setValue_sets (h : st.Reads rows) (hk : Setting.checkKey key = true) :
    ∃ t, st.setValue key (some value) = some (t, true) ∧ st.Sets t rows key value := by
  have hne : key ≠ [] := by
    rintro rfl
    revert hk
    decide
  have hs := setEntry_system h hne value
  unfold Setting.setValue
  rw [if_neg (by simp [hk])]
  simp only [Option.bind_eq_bind, Option.bind_some, if_neg hne]
  by_cases h1 : key = "user_level".toList
  · rw [if_pos h1, (formatLine_eq_nil key).mpr (by rw [h1]; decide)]
    refine ⟨_, rfl, hs, rfl, (if_pos h1).symm, ?_⟩
    rw [if_neg (by rw [h1]; decide)]
  rw [if_neg h1]
  by_cases h2 : key = "user_vip_level".toList
  · rw [if_pos h2, (formatLine_eq_nil key).mpr (by rw [h2]; decide)]
    exact ⟨_, rfl, hs, rfl, (if_neg h1).symm, (if_pos h2).symm⟩
  · rw [if_neg h2]
    exact ⟨_, rfl, hs, rfl, (if_neg h1).symm, (if_neg h2).symm⟩

theorem order_eq_nil {o : Option (List Line)} : o.map (order · 1 1) = some [] ↔ o = some [] := by
  constructor
  · intro h
    obtain ⟨l, rfl, hl⟩ := Option.map_eq_some_iff.mp h
    have hlen := order_length l 1 1
    rw [hl] at hlen
    rw [List.length_eq_zero_iff.mp hlen.symm]
  · rintro rfl
    rfl

theorem levelText_putRow (k : CStr) :
    levelText (putRow rows key value) k = if key = k then value else levelText rows k := by
  unfold levelText
  rw [lookup_putRow]
  split_ifs <;> rfl

theorem Setting.Agrees.reloads {u : Setting} (hk : Setting.checkKey key = true) (hst : st.Loads rows)
    (ht : st.Sets t rows key value) (hu : u.Loads (putRow rows key value)) (h : t.Agrees u) :
    reloads rows key value := by
  have hne : key ≠ [] := by
    rintro rfl
    revert hk
    decide
  refine ⟨?_, ?_, ?_⟩
  · by_contra hn
    obtain ⟨hm, hv⟩ := not_or.mp hn
    have hs := h.system key
    rw [ht.system, if_neg (fun hh => hm hh.2), hst.system, hu.system, if_neg hne, if_neg hne, lookup_putRow,
      if_pos rfl] at hs
    have hl : lookup rows key = none := by
      rw [← lookup_isSome] at hm
      simpa using hm
    rw [hl] at hs
    simp [Setting.filled, hv] at hs
  · have hval : st.value = u.value := ht.value.symm.trans h.value
    rintro (rfl | rfl)
    · have hg := hu.game
      rw [← hval, hst.game, lookup_putRow, if_pos rfl] at hg
      exact hg
    · have hg := hu.op
      rw [← hval, hst.op, lookup_putRow, if_pos rfl] at hg
      exact hg
  · rintro (hl | hl)
    · have hlv := hu.level
      rw [← h.level, ht.level, levelText_putRow, if_pos hl, if_pos hl] at hlv
      exact (formatLine_eq_nil value).mp (order_eq_nil.mp hlv)
    · have hlv := hu.vipLevel
      rw [← h.vipLevel, ht.vipLevel, levelText_putRow, if_pos hl, if_pos hl] at hlv
      exact (formatLine_eq_nil value).mp (order_eq_nil.mp hlv)

theorem putRow_level (key value : CStr) {k : CStr} {l : List Line}
    (hl : (formatLine (levelText rows k) []).map (order · 1 1) = some l)
    (hc : key = k → ':' ∉ value) :
    (formatLine (levelText (putRow rows key value) k) []).map (order · 1 1) =
      some (if key = k then [] else l) := by
  rw [levelText_putRow]
  split_ifs with hk
  · exact order_eq_nil.mpr ((formatLine_eq_nil value).mpr (hc hk))
  · exact hl

theorem reloads_agrees (hn : (rows.map Prod.fst).Nodup) (hk : Setting.checkKey key = true) (hst : st.Loads rows)
    (ht : st.Sets t rows key value) (h : reloads rows key value) :
    ∃ u, Setting.loadSystem (putRow rows key value) = some u ∧ t.Agrees u := by
  obtain ⟨hrow, htime, hcolon⟩ := h
  have hlevel := putRow_level key value hst.level (fun hl => hcolon (.inl hl))
  have hvip := putRow_level key value hst.vipLevel (fun hl => hcolon (.inr hl))
  obtain ⟨u, hu⟩ := loadSystem_exists (putRow_nodup hn key value)
    (fun hl => by rw [hl] at hlevel; cases hlevel) (fun hl => by rw [hl] at hvip; cases hvip)
  have hload := loadSystem_loads (putRow_nodup hn key value) hu
  refine ⟨u, hu, ?_, ?_, ?_, ?_⟩
  · intro k
    rw [ht.system, hload.system, hst.system, lookup_putRow]
    by_cases hke : key = k
    · subst hke
      have hne : key ≠ [] := by
        rintro rfl
        revert hk
        decide
      rw [if_neg hne, if_neg hne, if_pos rfl]
      rcases hrow with hm | rfl
      · rw [if_pos ⟨rfl, hm⟩]
        rfl
      · by_cases hm : key ∈ rows.map Prod.fst
        · rw [if_pos ⟨rfl, hm⟩]
          rfl
        · have hl : lookup rows key = none := by
            rw [← lookup_isSome] at hm
            simpa using hm
          rw [if_neg (fun hh => hm hh.2), hl]
          rfl
    · rw [if_neg (fun hh => hke hh.1), if_neg hke]
  · rw [ht.value]
    have hverify : st.value.noVerifyAccountTimout = u.value.noVerifyAccountTimout := by
      rw [hst.verify, hload.verify, lookup_putRow, if_neg]
      rintro rfl
      revert hk
      decide
    have hgame : st.value.noGameTimeout = u.value.noGameTimeout := by
      rw [hst.game, hload.game, lookup_putRow]
      split_ifs with hg
      · rw [← hg]
        exact htime (.inl hg)
      · rfl
    have hop : st.value.noOpTimeout = u.value.noOpTimeout := by
      rw [hst.op, hload.op, lookup_putRow]
      split_ifs with ho
      · rw [← ho]
        exact htime (.inr ho)
      · rfl
    cases hs : st.value
    cases hv : u.value
    rw [hs, hv] at hverify hgame hop
    simp only at hverify hgame hop
    rw [hverify, hgame, hop]
  · rw [ht.level]
    exact Option.some.inj (hlevel.symm.trans hload.level)
  · rw [ht.vipLevel]
    exact Option.some.inj (hvip.symm.trans hload.vipLevel)

end

theorem set_then_reload (rows : List Row) (hn : (rows.map Prod.fst).Nodup) (key value : CStr)
    (hk : Setting.checkKey key = true) (st : Setting) (hst : Setting.loadSystem rows = some st) :
    ∃ t, st.setValue key (some value) = some (t, true) ∧
      ((∃ u, Setting.loadSystem (putRow rows key value) = some u ∧ t.Agrees u) ↔ reloads rows key value) := by
  have hload := loadSystem_loads hn hst
  obtain ⟨t, ht, hs⟩ := setValue_sets hload.toReads hk
  refine ⟨t, ht, ?_, ?_⟩
  · rintro ⟨u, hu, ha⟩
    exact ha.reloads hk hload hs (loadSystem_loads (putRow_nodup hn key value) hu)
  · exact reloads_agrees hn hk hload hs

theorem set_same_timeout : ∃ st t : Setting,
    st.setValue "no_op_timeout".toList (some "060".toList) = some (t, true) ∧
      ∃ u, Setting.loadSystem [("no_op_timeout".toList, "060".toList)] = some u ∧ t.Agrees u := by
  obtain ⟨t, ht, hiff⟩ := set_then_reload [("no_op_timeout".toList, "60".toList)] (List.nodup_singleton _)
    "no_op_timeout".toList "060".toList (by decide) _ rfl
  refine ⟨_, t, ht, ?_⟩
  have hr : putRow [("no_op_timeout".toList, "60".toList)] "no_op_timeout".toList "060".toList =
    [("no_op_timeout".toList, "060".toList)] := by decide
  rw [← hr]
  refine hiff.mpr ⟨?_, ?_, ?_⟩
  · decide
  · decide
  · decide

-- the row is changed, the field of `values()` is not
theorem set_keeps_old_timeout : ∃ st t : Setting,
    Setting.loadSystem [("no_op_timeout".toList, "60".toList)] = some st ∧
      st.setValue "no_op_timeout".toList (some "5".toList) = some (t, true) ∧
        ¬ ∃ u, Setting.loadSystem (putRow [("no_op_timeout".toList, "60".toList)] "no_op_timeout".toList
          "5".toList) = some u ∧ t.Agrees u := by
  refine ⟨⟨⟨none, none, some 60⟩, [("no_op_timeout".toList, some "60".toList)], [], []⟩,
    ⟨⟨none, none, some 60⟩, [("no_op_timeout".toList, some "5".toList)], [], []⟩, by decide, by decide, ?_⟩
  have hu : Setting.loadSystem (putRow [("no_op_timeout".toList, "60".toList)] "no_op_timeout".toList "5".toList) =
      some ⟨⟨none, none, some 5⟩, [("no_op_timeout".toList, some "5".toList)], [], []⟩ := by decide
  rintro ⟨u, hload, ha⟩
  rw [hu] at hload
  cases hload
  have hv := ha.value
  revert hv
  decide

end FishServer
