import FishServer.Lib.ChainEdit
import FishServer.SettingReload

namespace FishServer

open BlockHeap

/-! The settings in memory, from the constructor of `Setting` to its destructor. -/

inductive SettingBlock
  | values (v : Values)
  | fish (fishs : List SettingFish)
  | text (s : CStr)
  | entry (texts : ℕ × Option ℕ) (next : Option ℕ)
  | line (l : Line) (next : Option ℕ)
deriving DecidableEq

def entryCell : Cell (ℕ × Option ℕ) SettingBlock where
  make := .entry
  node
    | .entry texts next => some (texts, next)
    | _ => none
  node_make _ _ := rfl

def lineCell : Cell Line SettingBlock where
  make := .line
  node
    | .line l next => some (l, next)
    | _ => none
  node_make _ _ := rfl

structure HeapSetting where
  heap : Heap SettingBlock
  value : ℕ
  system : Option ℕ
  levelList : Option ℕ
  vipLevelList : Option ℕ
  fish : Option ℕ

def HeapSetting.formatLine (text : CStr) (h : Heap SettingBlock) (dst : Option ℕ) :
    Option (Heap SettingBlock × Option ℕ) :=
  (formatLines text.length text).bind (fun lines => buildFrom lineCell lines h dst none)

def Line.swaps (dir desc : ℤ) (p q : Line) : Bool :=
  let field (p : Line) : ℤ := if dir = 2 then p.right else p.left
  if desc = 0 then decide (field q < field p) else decide (field p < field q)

-- no list is longer than the number of blocks
def HeapSetting.order (h : Heap SettingBlock) (ptr : Option ℕ) (dir desc : ℤ) : Option (Heap SettingBlock) :=
  sortFrom lineCell (Line.swaps dir desc) h.fresh ptr h.fresh h ptr

def HeapSetting.newEntry (h : Heap SettingBlock) (key value : CStr) : Heap SettingBlock :=
  if value = [] then (h.malloc (.entry (h.fresh + 1, none) none)).malloc (.text key)
  else ((h.malloc (.entry (h.fresh + 1, some (h.fresh + 2)) none)).malloc (.text key)).malloc (.text value)

def HeapSetting.setField (u : HeapSetting) (f : Values → Values) : Option HeapSetting :=
  match u.heap.block u.value with
  | some (.values v) => some { u with heap := u.heap.modify (fun _ => .values (f v)) u.value }
  | _ => none

def HeapSetting.readRow (u : HeapSetting) (row : Row) : Option HeapSetting :=
  if row.1 = "no_verify_account_timout".toList then
    u.setField (fun v => { v with noVerifyAccountTimout := some (atoi row.2) })
  else if row.1 = "no_game_timeout".toList then u.setField (fun v => { v with noGameTimeout := some (atoi row.2) })
  else if row.1 = "no_op_timeout".toList then u.setField (fun v => { v with noOpTimeout := some (atoi row.2) })
  else if row.1 = "user_level".toList then
    (HeapSetting.formatLine row.2 u.heap u.levelList).map (fun r => { u with heap := r.1, levelList := r.2 })
  else if row.1 = "user_vip_level".toList then
    (HeapSetting.formatLine row.2 u.heap u.vipLevelList).map (fun r => { u with heap := r.1, vipLevelList := r.2 })
  else some u

-- `last` is the entry whose link `tmp_setting` points to, none for `_system` itself
def HeapSetting.loadRow (s : HeapSetting × Option ℕ) (row : Row) : Option (HeapSetting × Option ℕ) :=
  if row.1 = [] then some s
  else do
    let u ← s.1.readRow row
    let r ← linkEnd entryCell (HeapSetting.newEntry u.heap row.1 row.2) u.system s.2 u.heap.fresh
    some ({ u with heap := r.1, system := r.2 }, some u.heap.fresh)

def HeapSetting.loadFish (h : Heap SettingBlock) (fishs : List SettingFish) : Heap SettingBlock × Option ℕ :=
  if fishs = [] then (h, none) else (h.malloc (.fish fishs), some h.fresh)

def HeapSetting.loadSystem (h : Heap SettingBlock) (fish : Option ℕ) (rows : List Row) : Option HeapSetting := do
  let s ← rows.foldlM HeapSetting.loadRow
    (⟨h.malloc (.values ⟨none, none, none⟩), h.fresh, none, none, none, fish⟩, none)
  let h ← HeapSetting.order s.1.heap s.1.levelList 1 1
  let h ← HeapSetting.order h s.1.vipLevelList 1 1
  some { s.1 with heap := h }

def HeapSetting.new (h : Heap SettingBlock) (fishs : List SettingFish) (rows : List Row) : Option HeapSetting :=
  let (h, fish) := HeapSetting.loadFish h fishs
  HeapSetting.loadSystem h fish rows

/-- The loop over the entries. None is a read of a block that is not there. -/
def HeapSetting.find (key : CStr) (h : Heap SettingBlock) : ℕ → Option ℕ → Option (Option ℕ)
  | _, none => some none
  | 0, some _ => none
  | n + 1, some b => do
    let x ← h.cell entryCell b
    match h.block x.1.1 with
    | some (.text k) => if k = key then some (some b) else HeapSetting.find key h n x.2
    | _ => none

def HeapSetting.setEntry (h : Heap SettingBlock) (value : CStr) (b : ℕ) : Option (Heap SettingBlock) := do
  let x ← h.cell entryCell b
  let h ← x.1.2.elim (some h) h.free
  if value = [] then some (h.modify (fun _ => .entry (x.1.1, none) x.2) b)
  else some ((h.malloc (.text value)).modify (fun _ => .entry (x.1.1, some h.fresh) x.2) b)

-- the lists are freed, and `formatLine` is given the key
def HeapSetting.setValue (u : HeapSetting) (key : CStr) (value : Option CStr) : Option (HeapSetting × Bool) :=
  if Setting.checkKey key = false then some (u, false)
  else do
    let value ← value
    if key = [] then some (u, false)
    else do
      let found ← HeapSetting.find key u.heap u.heap.fresh u.system
      let h ← found.elim (some (HeapSetting.newEntry u.heap key value)) (HeapSetting.setEntry u.heap value)
      if key = "user_level".toList then do
        let h ← freeFrom lineCell h.fresh h u.levelList
        let r ← HeapSetting.formatLine key h none
        some ({ u with heap := r.1, levelList := r.2 }, true)
      else if key = "user_vip_level".toList then do
        let h ← freeFrom lineCell h.fresh h u.vipLevelList
        let r ← HeapSetting.formatLine key h none
        some ({ u with heap := r.1, vipLevelList := r.2 }, true)
      else some ({ u with heap := h }, true)

def HeapSetting.read (u : HeapSetting) (key : CStr) : Option (Option CStr) := do
  let found ← HeapSetting.find key u.heap u.heap.fresh u.system
  match found with
  | none => some none
  | some b => do
    let x ← u.heap.cell entryCell b
    match x.1.2.map u.heap.block with
    | none => some none
    | some (some (.text v)) => some (some v)
    | _ => none

def HeapSetting.freeSystem : ℕ → Heap SettingBlock → Option ℕ → Option (Heap SettingBlock)
  | _, h, none => some h
  | 0, _, some _ => none
  | n + 1, h, some b => do
    let x ← h.cell entryCell b
    let h ← h.free x.1.1
    let h ← x.1.2.elim (some h) h.free
    let y ← h.cell entryCell b
    let h ← h.free b
    HeapSetting.freeSystem n h y.2

def HeapSetting.destroy (u : HeapSetting) : Option (Heap SettingBlock) := do
  let h ← u.fish.elim (some u.heap) u.heap.free
  let h ← HeapSetting.freeSystem h.fresh h u.system
  let h ← freeFrom lineCell h.fresh h u.levelList
  freeFrom lineCell h.fresh h u.vipLevelList

/-- The lines of a level list that a second row with the same key takes the place of. -/
def Setting.lostLines (st : Setting) (row : Row) : ℕ :=
  if formatLines row.2.length row.2 = some [] then 0
  else if row.1 = "user_level".toList then st.levelList.length
  else if row.1 = "user_vip_level".toList then st.vipLevelList.length
  else 0

def Setting.lostRows (st : Setting) : List Row → ℕ
  | [] => 0
  | row :: rows => st.lostLines row + (st.loadRow row).elim 0 (fun st => st.lostRows rows)

/-- The blocks of an entry for a key that the table does not have. -/
def Setting.lostEntry (st : Setting) (call : CStr × Option CStr) : ℕ :=
  if Setting.checkKey call.1 = true ∧ st.list.find? (fun e => e.1 = call.1) = none then
    call.2.elim 0 (fun value => if value = [] then 2 else 3)
  else 0

theorem find_missing {β : Type} {l : List (CStr × β)} {key : CStr} :
    l.find? (fun e => e.1 = key) = none ↔ key ∉ l.map Prod.fst := by
  rw [List.find?_eq_none]
  constructor
  · intro h hin
    obtain ⟨e, he, rfl⟩ := List.mem_map.mp hin
    exact h e he (decide_eq_true rfl)
  · intro hmiss e he hek
    exact hmiss (List.mem_map.mpr ⟨e, he, of_decide_eq_true hek⟩)

def textBlocks (e : ℕ × ℕ × Option ℕ) : List ℕ := e.2.1 :: e.2.2.toList

def entryBlocks (e : ℕ × ℕ × Option ℕ) : List ℕ := e.1 :: textBlocks e

def HeapSetting.blocks (u : HeapSetting) (es : List (ℕ × ℕ × Option ℕ)) (ls vs : List (ℕ × Line)) : List ℕ :=
  u.value :: (u.fish.toList ++ (es.flatMap entryBlocks ++ (ls.map Prod.fst ++ vs.map Prod.fst)))

def EntryShows (h : Heap SettingBlock) (e : ℕ × ℕ × Option ℕ) (x : CStr × Option CStr) : Prop :=
  h.block e.2.1 = some (.text x.1) ∧ e.2.2.map h.block = x.2.map (fun v => some (.text v))

structure HeapSetting.Contains (u : HeapSetting) (st : Setting) (es : List (ℕ × ℕ × Option ℕ))
    (ls vs : List (ℕ × Line)) : Prop where
  value : u.heap.block u.value = some (.values st.value)
  system : Chain entryCell u.heap u.system es
  texts : List.Forall₂ (EntryShows u.heap) es st.list
  level : Chain lineCell u.heap u.levelList ls
  levels : ls.map Prod.snd = st.levelList
  vipLevel : Chain lineCell u.heap u.vipLevelList vs
  vipLevels : vs.map Prod.snd = st.vipLevelList

/-- The blocks of the settings are their own; those of `lost` nothing points to any more. -/
structure HeapSetting.Holds (h₀ : Heap SettingBlock) (u : HeapSetting) (st : Setting) (es : List (ℕ × ℕ × Option ℕ))
    (ls vs : List (ℕ × Line)) (lost freed : List ℕ) : Prop where
  contains : u.Contains st es ls vs
  held : Holdings h₀ u.heap (u.blocks es ls vs ++ lost) freed

def HeapSetting.turned (u : HeapSetting) : HeapSetting :=
  { u with levelList := u.vipLevelList, vipLevelList := u.levelList }

def Setting.turned (st : Setting) : Setting :=
  { st with levelList := st.vipLevelList, vipLevelList := st.levelList }

section

variable {h₀ h' : Heap SettingBlock} {u : HeapSetting} {st : Setting} {es es' : List (ℕ × ℕ × Option ℕ)}
  {ls ls' vs : List (ℕ × Line)} {lost freed : List ℕ}

theorem turned_blocks : (u.turned.blocks es vs ls).Perm (u.blocks es ls vs) := by
  apply List.perm_iff_count.mpr
  intro b
  simp only [HeapSetting.blocks, HeapSetting.turned, List.count_cons, List.count_append]
  omega

theorem HeapSetting.Holds.turned (h : u.Holds h₀ st es ls vs lost freed) :
    u.turned.Holds h₀ st.turned es vs ls lost freed where
  contains := ⟨h.contains.value, h.contains.system, h.contains.texts, h.contains.vipLevel, h.contains.vipLevels,
    h.contains.level, h.contains.levels⟩
  held := h.held.perm (turned_blocks.symm.append_right lost)

structure HeapSetting.Apart (u : HeapSetting) (es : List (ℕ × ℕ × Option ℕ)) (ls vs : List (ℕ × Line)) : Prop where
  value : u.value ∉ es.flatMap entryBlocks ∧ u.value ∉ ls.map Prod.fst ∧ u.value ∉ vs.map Prod.fst
  entries : (es.flatMap entryBlocks).Nodup
  lines : (ls.map Prod.fst).Nodup
  entries_lines : ∀ b ∈ es.flatMap entryBlocks, b ∉ ls.map Prod.fst ∧ b ∉ vs.map Prod.fst
  lines_lines : ∀ b ∈ ls.map Prod.fst, b ∉ vs.map Prod.fst

theorem HeapSetting.Holds.apart (h : u.Holds h₀ st es ls vs lost freed) : u.Apart es ls vs := by
  have hd : (u.blocks es ls vs).Nodup := (List.nodup_append.mp (List.nodup_append.mp h.held.nodup).1).1
  unfold HeapSetting.blocks at hd
  obtain ⟨hv, hd⟩ := List.nodup_cons.mp hd
  obtain ⟨-, hd, -⟩ := List.nodup_append.mp hd
  obtain ⟨hes, hd, hel⟩ := List.nodup_append.mp hd
  obtain ⟨hls, -, hll⟩ := List.nodup_append.mp hd
  simp only [List.mem_append, not_or] at hv hel
  refine ⟨hv.2, hes, hls, ?_, fun b hb hm => hll b hb b hm rfl⟩
  intro b hb
  exact ⟨fun hm => hel b hb b (.inl hm) rfl, fun hm => hel b hb b (.inr hm) rfl⟩

theorem HeapSetting.Holds.mem (h : u.Holds h₀ st es ls vs lost freed) {b : ℕ} (hb : b ∈ u.blocks es ls vs) :
    b < u.heap.fresh :=
  (h.held.mem (List.mem_append_left freed (List.mem_append_left lost hb))).2

theorem length_le_bound {n : ℕ} {bs : List ℕ} (hb : ∀ b ∈ bs, b < n) (hd : bs.Nodup) : bs.length ≤ n := by
  have hsub : bs ⊆ List.range n := fun b hm => List.mem_range.mpr (hb b hm)
  have hle := (hd.subperm hsub).length_le
  rwa [List.length_range] at hle

theorem shows_congr {h : Heap SettingBlock} {e : ℕ × ℕ × Option ℕ} {x : CStr × Option CStr}
    (hk : ∀ b ∈ textBlocks e, h'.block b = h.block b) (hx : EntryShows h e x) : EntryShows h' e x := by
  unfold textBlocks at hk
  refine ⟨by rw [hk e.2.1 List.mem_cons_self, hx.1], ?_⟩
  rw [← hx.2]
  cases hv : e.2.2 with
  | none => rfl
  | some b =>
    rw [hv] at hk
    rw [Option.map_some, Option.map_some, hk b (List.mem_cons_of_mem _ (List.mem_singleton_self b))]

theorem texts_congr {h : Heap SettingBlock} {l : List (CStr × Option CStr)}
    (hk : ∀ b ∈ es.flatMap textBlocks, h'.block b = h.block b) (ht : List.Forall₂ (EntryShows h) es l) :
    List.Forall₂ (EntryShows h') es l := by
  induction ht with
  | nil => exact .nil
  | cons hex _ ih =>
    rw [List.flatMap_cons] at hk
    exact .cons (shows_congr (fun b hb => hk b (List.mem_append_left _ hb)) hex)
      (ih fun b hb => hk b (List.mem_append_right _ hb))

theorem entries_perm (es : List (ℕ × ℕ × Option ℕ)) :
    (es.flatMap entryBlocks).Perm (es.map Prod.fst ++ es.flatMap textBlocks) := by
  induction es with
  | nil => exact .nil
  | cons e es ih =>
    apply List.perm_iff_count.mpr
    intro b
    have hb := List.perm_iff_count.mp ih b
    simp only [List.flatMap_cons, entryBlocks, List.map_cons, List.cons_append, List.count_cons,
      List.count_append] at hb ⊢
    omega

theorem entry_mem {b : ℕ} (hb : b ∈ es.map Prod.fst) : b ∈ es.flatMap entryBlocks :=
  (entries_perm es).mem_iff.mpr (List.mem_append_left _ hb)

theorem text_mem {b : ℕ} (hb : b ∈ es.flatMap textBlocks) : b ∈ es.flatMap entryBlocks :=
  (entries_perm es).mem_iff.mpr (List.mem_append_right _ hb)

theorem lines_subset (ls : List (ℕ × Line)) : ls.map Prod.fst ⊆ u.blocks es ls vs := by
  intro b hb
  simp only [HeapSetting.blocks, List.mem_cons, List.mem_append]
  exact .inr (.inr (.inr (.inl hb)))

theorem HeapSetting.Holds.lines_le (h : u.Holds h₀ st es ls vs lost freed) : ls.length ≤ u.heap.fresh := by
  rw [← List.length_map (f := Prod.fst)]
  exact length_le_bound (fun b hb => h.mem (lines_subset ls hb)) h.apart.lines

theorem HeapSetting.Contains.fields_changed (hc : u.Contains st es ls vs) (ha : u.Apart es ls vs) {v : Values}
    (hv : h'.block u.value = some (.values v)) (hk : ∀ b, b ≠ u.value → h'.block b = u.heap.block b) :
    HeapSetting.Contains { u with heap := h' } { st with value := v } es ls vs := by
  obtain ⟨hes, hls, hvs⟩ := ha.value
  have hkeep {l : List ℕ} (hl : u.value ∉ l) : ∀ b ∈ l, h'.block b = u.heap.block b :=
    fun b hb => hk b (fun he => hl (he ▸ hb))
  exact ⟨hv, chain_congr (fun b hb => hkeep hes b (entry_mem hb)) hc.system,
    texts_congr (fun b hb => hkeep hes b (text_mem hb)) hc.texts,
    chain_congr (hkeep hls) hc.level, hc.levels, chain_congr (hkeep hvs) hc.vipLevel, hc.vipLevels⟩

theorem HeapSetting.Contains.level_changed (hc : u.Contains st es ls vs) (ha : u.Apart es ls vs) {p : Option ℕ}
    {lines : List Line} (hk : ∀ b ∈ u.blocks es ls vs, b ∉ ls.map Prod.fst → h'.block b = u.heap.block b)
    (hp : Chain lineCell h' p ls') (hlines : ls'.map Prod.snd = lines) :
    HeapSetting.Contains { u with heap := h', levelList := p } { st with levelList := lines } es ls' vs := by
  have hes : ∀ b ∈ es.flatMap entryBlocks, h'.block b = u.heap.block b := by
    intro b hb
    apply hk b _ (ha.entries_lines b hb).1
    exact List.mem_cons_of_mem _ (List.mem_append_right _ (List.mem_append_left _ hb))
  have hvs : ∀ b ∈ vs.map Prod.fst, h'.block b = u.heap.block b := by
    intro b hb
    apply hk b _ (fun hl => ha.lines_lines b hl hb)
    exact List.mem_cons_of_mem _ (List.mem_append_right _ (List.mem_append_right _ (List.mem_append_right _ hb)))
  have hv : h'.block u.value = some (.values st.value) := by
    rw [hk u.value List.mem_cons_self ha.value.2.1, hc.value]
  exact ⟨hv, chain_congr (fun b hb => hes b (entry_mem hb)) hc.system,
    texts_congr (fun b hb => hes b (text_mem hb)) hc.texts, hp, hlines,
    chain_congr hvs hc.vipLevel, hc.vipLevels⟩

theorem HeapSetting.Contains.system_changed (hc : u.Contains st es ls vs) (ha : u.Apart es ls vs) {p : Option ℕ}
    {list : List (CStr × Option CStr)}
    (hk : ∀ b ∈ u.blocks es ls vs, b ∉ es.flatMap entryBlocks → h'.block b = u.heap.block b)
    (hp : Chain entryCell h' p es') (ht : List.Forall₂ (EntryShows h') es' list) :
    HeapSetting.Contains { u with heap := h', system := p } { st with list := list } es' ls vs := by
  have hlines : ∀ b ∈ ls.map Prod.fst ++ vs.map Prod.fst, h'.block b = u.heap.block b := by
    intro b hb
    apply hk b
    · exact List.mem_cons_of_mem _ (List.mem_append_right _ (List.mem_append_right _ hb))
    · intro he
      rcases List.mem_append.mp hb with hb | hb
      · exact (ha.entries_lines b he).1 hb
      · exact (ha.entries_lines b he).2 hb
  have hv : h'.block u.value = some (.values st.value) := by
    rw [hk u.value List.mem_cons_self ha.value.1, hc.value]
  exact ⟨hv, hp, ht, chain_congr (fun b hb => hlines b (List.mem_append_left _ hb)) hc.level, hc.levels,
    chain_congr (fun b hb => hlines b (List.mem_append_right _ hb)) hc.vipLevel, hc.vipLevels⟩

theorem HeapSetting.Holds.setField (h : u.Holds h₀ st es ls vs lost freed) (f : Values → Values) :
    ∃ h', u.setField f = some { u with heap := h' } ∧
      HeapSetting.Holds h₀ { u with heap := h' } { st with value := f st.value } es ls vs lost freed := by
  refine ⟨u.heap.modify (fun _ => .values (f st.value)) u.value, ?_, ?_, ?_⟩
  · unfold HeapSetting.setField
    rw [h.contains.value]
  · apply h.contains.fields_changed h.apart
    · rw [modify_self, h.contains.value, Option.map_some]
    · exact fun b hb => modify_block _ _ hb
  · refine h.held.edited (edited_modify u.heap _ (List.mem_singleton_self u.value)) ?_
    intro b hb
    rw [List.mem_singleton.mp hb]
    exact List.mem_cons_self

theorem HeapSetting.Holds.formatLine (h : u.Holds h₀ st es ls vs lost freed) {text : CStr} {lines : List Line}
    (hf : formatLines text.length text = some lines) :
    ∃ r ls', HeapSetting.formatLine text u.heap u.levelList = some r ∧
      HeapSetting.Holds h₀ { u with heap := r.1, levelList := r.2 }
        { st with levelList := if lines = [] then st.levelList else lines } es ls' vs
          (if lines = [] then lost else lost ++ ls.map Prod.fst) freed := by
  obtain ⟨h', p, l', hrun, hvals, hchain, hnil, hheld, hkept⟩ :=
    @buildFrom_chain _ _ lineCell u.heap u.levelList [] h₀ _ freed none lines h.held (List.nil_subset _) rfl
      (fun hne => absurd rfl hne) List.nodup_nil
  have hrun' : HeapSetting.formatLine text u.heap u.levelList = some (h', p) := by
    unfold HeapSetting.formatLine
    rw [hf, Option.bind_some]
    exact hrun
  have hkept' : ∀ b ∈ u.blocks es ls vs, h'.block b = u.heap.block b :=
    fun b hb => hkept b (List.mem_append_left lost hb) List.not_mem_nil
  rw [List.nil_append] at hchain
  by_cases hlines : lines = []
  · obtain rfl : l' = [] := List.map_eq_nil_iff.mp (hvals.trans hlines)
    obtain rfl := hnil hlines
    refine ⟨_, ls, hrun', ?_, ?_⟩
    · rw [if_pos hlines]
      refine h.contains.level_changed h.apart (fun b hb _ => hkept' b hb) ?_ h.contains.levels
      exact chain_congr (fun b hb => hkept' b (lines_subset ls hb)) h.contains.level
    · rw [if_pos hlines]
      exact hheld
  · have hne : l' ≠ [] := fun hl => hlines (by rw [← hvals, hl, List.map_nil])
    refine ⟨_, l', hrun', ?_, ?_⟩
    · rw [if_neg hlines]
      exact h.contains.level_changed h.apart (fun b hb _ => hkept' b hb) (hchain hne) hvals
    · rw [if_neg hlines]
      apply hheld.perm
      apply List.perm_iff_count.mpr
      intro b
      simp only [HeapSetting.blocks, List.count_cons, List.count_append]
      omega

theorem orderPass_swapPass (swap : Line → Line → Bool) (l : List Line) : orderPass swap l = swapPass swap l := by
  fun_induction orderPass swap l with
  | case1 => rw [swapPass]
  | case2 p => rw [swapPass]
  | case3 p q l hs ih => rw [swapPass, if_pos hs, ih]
  | case4 p q l hs ih => rw [swapPass, if_neg hs, ih]

theorem HeapSetting.Holds.order (h : u.Holds h₀ st es ls vs lost freed) (dir desc : ℤ) :
    ∃ h' ls', HeapSetting.order u.heap u.levelList dir desc = some h' ∧
      HeapSetting.Holds h₀ { u with heap := h' } { st with levelList := FishServer.order st.levelList dir desc } es ls'
        vs lost freed := by
  obtain ⟨h', hrun, hchain, hedit⟩ := @sortFrom_chain _ _ lineCell u.heap u.levelList ls (Line.swaps dir desc)
    u.heap.fresh u.heap.fresh 0 h.contains.level h.apart.lines h.lines_le h.lines_le
  rw [← chain_head h.contains.level] at hrun
  have hpass : swapPass (Line.swaps dir desc) = orderPass (Line.swaps dir desc) :=
    funext fun l => (orderPass_swapPass _ l).symm
  have hlen (n : ℕ) (l : List Line) : ((orderPass (Line.swaps dir desc))^[n] l).length = l.length := by
    induction n with
    | zero => rfl
    | succ n ih => rw [Function.iterate_succ_apply', orderPass_length, ih]
  rw [hpass, Nat.sub_zero] at hchain
  obtain ⟨hfst, hsnd⟩ := zip_fst ls _ (hlen (ls.length - 1))
  have horder : (orderPass (Line.swaps dir desc))^[ls.length - 1] (ls.map Prod.snd) =
      FishServer.order st.levelList dir desc := by
    rw [← h.contains.levels, FishServer.order, List.length_map]
    rfl
  refine ⟨h', _, hrun, h.contains.level_changed h.apart (fun b _ hb => hedit.kept b hb) hchain (hsnd.trans horder), ?_⟩
  have hblocks := h.held.edited hedit (fun b hb => List.mem_append_left lost (lines_subset ls hb))
  unfold HeapSetting.blocks at hblocks ⊢
  rw [hfst]
  exact hblocks

theorem HeapSetting.Holds.freeLine (h : u.Holds h₀ st es ls vs lost freed) :
    ∃ h', freeFrom lineCell u.heap.fresh u.heap u.levelList = some h' ∧
      HeapSetting.Holds h₀ { u with heap := h', levelList := none } { st with levelList := [] } es [] vs lost
        (freed ++ ls.map Prod.fst) := by
  obtain ⟨h', hrun, hr⟩ := freeFrom_released u.heap.fresh h.contains.level h.apart.lines h.lines_le
  refine ⟨h', hrun, h.contains.level_changed h.apart (fun b _ hb => hr.kept b hb) rfl rfl, ?_⟩
  apply h.held.released hr
  apply List.perm_iff_count.mpr
  intro b
  simp only [HeapSetting.blocks, List.count_cons, List.count_append, List.map_nil, List.count_nil]
  omega

theorem newEntry_holdings {h : Heap SettingBlock} {live : List ℕ} (hh : Holdings h₀ h live freed) (key value : CStr) :
    ∃ v, Holdings h₀ (HeapSetting.newEntry h key value) (entryBlocks (h.fresh, h.fresh + 1, v) ++ live) freed ∧
      (HeapSetting.newEntry h key value).cell entryCell h.fresh = some ((h.fresh + 1, v), none) ∧
      EntryShows (HeapSetting.newEntry h key value) (h.fresh, h.fresh + 1, v) (key, Setting.filled value) ∧
      v.toList.length = (if value = [] then 0 else 1) ∧
      ∀ b < h.fresh, (HeapSetting.newEntry h key value).block b = h.block b := by
  unfold HeapSetting.newEntry Setting.filled
  by_cases hv : value = []
  · rw [if_pos hv, if_pos hv, if_pos hv]
    refine ⟨none, ?_, ?_, ⟨?_, rfl⟩, rfl, ?_⟩
    · exact ((hh.malloc _).malloc _).perm (.swap _ _ _)
    · rw [Heap.cell, malloc_block _ _ (Nat.lt_succ_self h.fresh), malloc_new]
      rfl
    · exact malloc_new (h.malloc _) _
    · intro b hb
      rw [malloc_block _ _ (Nat.lt_succ_of_lt hb), malloc_block _ _ hb]
  · rw [if_neg hv, if_neg hv, if_neg hv]
    refine ⟨some (h.fresh + 2), ?_, ?_, ⟨?_, ?_⟩, rfl, ?_⟩
    · refine (((hh.malloc _).malloc _).malloc _).perm ?_
      apply List.perm_iff_count.mpr
      intro b
      simp only [entryBlocks, textBlocks, Option.toList_some, List.cons_append, List.nil_append, List.count_cons,
        malloc_fresh, Nat.add_assoc, Nat.reduceAdd]
      omega
    · rw [Heap.cell, malloc_block _ _ (show h.fresh < h.fresh + 1 + 1 by omega),
        malloc_block _ _ (Nat.lt_succ_self h.fresh), malloc_new]
      rfl
    · rw [malloc_block _ _ (show h.fresh + 1 < h.fresh + 1 + 1 by omega)]
      exact malloc_new (h.malloc _) _
    · exact congrArg some (malloc_new ((h.malloc _).malloc _) _)
    · intro b hb
      rw [malloc_block _ _ (show b < h.fresh + 1 + 1 by omega), malloc_block _ _ (Nat.lt_succ_of_lt hb),
        malloc_block _ _ hb]

theorem forall₂_append {l₁ l₂ : List (CStr × Option CStr)} {es₁ es₂ : List (ℕ × ℕ × Option ℕ)} {h : Heap SettingBlock}
    (h₁ : List.Forall₂ (EntryShows h) es₁ l₁) (h₂ : List.Forall₂ (EntryShows h) es₂ l₂) :
    List.Forall₂ (EntryShows h) (es₁ ++ es₂) (l₁ ++ l₂) := by
  induction h₁ with
  | nil => exact h₂
  | cons hx _ ih => exact .cons hx ih

theorem HeapSetting.Holds.append (h : u.Holds h₀ st es ls vs lost freed) {last : Option ℕ}
    (hlast : last = (es.map Prod.fst).getLast?) (key value : CStr) : ∃ r e,
      linkEnd entryCell (HeapSetting.newEntry u.heap key value) u.system last u.heap.fresh = some r ∧
      e.1 = u.heap.fresh ∧ HeapSetting.Holds h₀ { u with heap := r.1, system := r.2 }
        { st with list := st.list ++ [(key, Setting.filled value)] } (es ++ [e]) ls vs lost freed := by
  obtain ⟨v, hheld, hcell, hshows, -, hkept⟩ := newEntry_holdings h.held key value
  have hlow : ∀ b ∈ u.blocks es ls vs, (HeapSetting.newEntry u.heap key value).block b = u.heap.block b :=
    fun b hb => hkept b (h.mem hb)
  have hes : es.flatMap entryBlocks ⊆ u.blocks es ls vs :=
    fun b hb => List.mem_cons_of_mem _ (List.mem_append_right _ (List.mem_append_left _ hb))
  obtain ⟨hfst, -, hdis⟩ := List.nodup_append.mp ((entries_perm es).nodup_iff.mp h.apart.entries)
  obtain ⟨h', p, hlink, hchain, hedit⟩ := linkEnd_chain hlast
    (fun _ => chain_congr (fun b hb => hlow b (hes (entry_mem hb))) h.contains.system) hfst hcell
    (fun hm => (h.mem (hes (entry_mem hm))).ne rfl)
  have htext {b : ℕ} (hb : b ∉ es.map Prod.fst) (hin : b ∈ u.blocks es ls vs) : h'.block b = u.heap.block b := by
    rw [hedit.kept b hb, hlow b hin]
  refine ⟨(h', p), (u.heap.fresh, u.heap.fresh + 1, v), hlink, rfl, ?_, ?_⟩
  · refine h.contains.system_changed h.apart (fun b hb hn => htext (fun hm => hn (entry_mem hm)) hb) hchain ?_
    apply forall₂_append
    · exact texts_congr (fun b hb => htext (fun hm => hdis b hm b hb rfl) (hes (text_mem hb))) h.contains.texts
    · refine .cons (shows_congr (fun b hb => hedit.kept b ?_) hshows) .nil
      intro hm
      have hnew := (List.nodup_append.mp (List.nodup_append.mp hheld.nodup).1).2.2
      exact hnew b (List.mem_cons_of_mem _ hb) b (List.mem_append_left lost (hes (entry_mem hm))) rfl
  · have hall := hheld.edited hedit
      (fun b hb => List.mem_append_right _ (List.mem_append_left lost (hes (entry_mem hb))))
    apply hall.perm
    apply List.perm_iff_count.mpr
    intro b
    simp only [HeapSetting.blocks, List.flatMap_append, List.flatMap_cons, List.flatMap_nil, List.count_cons,
      List.count_append, List.count_nil]
    omega

theorem lostLines_other (st : Setting) {row : Row} (h1 : row.1 ≠ "user_level".toList)
    (h2 : row.1 ≠ "user_vip_level".toList) : st.lostLines row = 0 := by
  unfold Setting.lostLines
  rw [if_neg h1, if_neg h2, ite_self]

theorem lostLines_level (st : Setting) {row : Row} {lines : List Line} (hrow : row.1 = "user_level".toList)
    (hf : formatLines row.2.length row.2 = some lines) :
    st.lostLines row = if lines = [] then 0 else st.levelList.length := by
  unfold Setting.lostLines
  rw [hf, if_pos hrow]
  exact if_congr Option.some_inj rfl rfl

theorem lostLines_vipLevel (st : Setting) {row : Row} {lines : List Line} (hrow : row.1 = "user_vip_level".toList)
    (hf : formatLines row.2.length row.2 = some lines) :
    st.lostLines row = if lines = [] then 0 else st.vipLevelList.length := by
  unfold Setting.lostLines
  have hne : row.1 ≠ "user_level".toList := by
    rw [hrow]
    decide
  rw [hf, if_neg hne, if_pos hrow]
  exact if_congr Option.some_inj rfl rfl

theorem lost_length {lines : List Line} (hl : ls.map Prod.snd = st.levelList) :
    (if lines = [] then lost else lost ++ ls.map Prod.fst).length =
      lost.length + if lines = [] then 0 else st.levelList.length := by
  split_ifs
  · rfl
  · rw [List.length_append, List.length_map, ← hl, List.length_map]

theorem HeapSetting.Holds.readField (h : u.Holds h₀ st es ls vs lost freed) (f : Values → Values) {row : Row}
    (h1 : row.1 ≠ "user_level".toList) (h2 : row.1 ≠ "user_vip_level".toList) : ∃ t ls' vs' lost',
      u.setField f = some t ∧ t.system = u.system ∧
      t.Holds h₀ { st with value := f st.value } es ls' vs' lost' freed ∧
      lost'.length = lost.length + st.lostLines row := by
  obtain ⟨h', hset, hh⟩ := h.setField f
  refine ⟨{ u with heap := h' }, ls, vs, lost, hset, rfl, hh, ?_⟩
  rw [lostLines_other st h1 h2, Nat.add_zero]

theorem HeapSetting.Holds.readRow (h : u.Holds h₀ st es ls vs lost freed) {row : Row} {st' : Setting}
    (hr : st.readRow row = some st') : ∃ t ls' vs' lost', u.readRow row = some t ∧ t.system = u.system ∧
      t.Holds h₀ st' es ls' vs' lost' freed ∧ lost'.length = lost.length + st.lostLines row := by
  unfold Setting.readRow at hr
  unfold HeapSetting.readRow
  by_cases h1 : row.1 = "no_verify_account_timout".toList
  · rw [if_pos h1] at hr ⊢
    cases hr
    exact h.readField _ (by rw [h1]; decide) (by rw [h1]; decide)
  rw [if_neg h1] at hr ⊢
  by_cases h2 : row.1 = "no_game_timeout".toList
  · rw [if_pos h2] at hr ⊢
    cases hr
    exact h.readField _ (by rw [h2]; decide) (by rw [h2]; decide)
  rw [if_neg h2] at hr ⊢
  by_cases h3 : row.1 = "no_op_timeout".toList
  · rw [if_pos h3] at hr ⊢
    cases hr
    exact h.readField _ (by rw [h3]; decide) (by rw [h3]; decide)
  rw [if_neg h3] at hr ⊢
  by_cases h4 : row.1 = "user_level".toList
  · rw [if_pos h4] at hr ⊢
    obtain ⟨dst, hdst, rfl⟩ := Option.map_eq_some_iff.mp hr
    obtain ⟨lines, hlines, rfl⟩ := Option.map_eq_some_iff.mp hdst
    obtain ⟨r, ls', hrun, hh⟩ := h.formatLine hlines
    refine ⟨{ u with heap := r.1, levelList := r.2 }, ls', vs, _, by rw [hrun]; rfl, rfl, hh, ?_⟩
    rw [lost_length h.contains.levels, lostLines_level st h4 hlines]
  rw [if_neg h4] at hr ⊢
  by_cases h5 : row.1 = "user_vip_level".toList
  · rw [if_pos h5] at hr ⊢
    obtain ⟨dst, hdst, rfl⟩ := Option.map_eq_some_iff.mp hr
    obtain ⟨lines, hlines, rfl⟩ := Option.map_eq_some_iff.mp hdst
    obtain ⟨r, vs', hrun, hh⟩ := h.turned.formatLine hlines
    have hrun' : HeapSetting.formatLine row.2 u.heap u.vipLevelList = some r := hrun
    refine ⟨{ u with heap := r.1, vipLevelList := r.2 }, ls, vs', _, by rw [hrun']; rfl, rfl, hh.turned, ?_⟩
    have hlen := @lost_length st.turned vs lost lines h.contains.vipLevels
    rw [hlen, lostLines_vipLevel st h5 hlines]
    rfl
  rw [if_neg h5] at hr ⊢
  cases hr
  exact ⟨u, ls, vs, lost, rfl, rfl, h, by rw [lostLines_other st h4 h5, Nat.add_zero]⟩

theorem HeapSetting.Holds.loadRow (h : u.Holds h₀ st es ls vs lost freed) {last : Option ℕ}
    (hlast : last = (es.map Prod.fst).getLast?) {row : Row} {st' : Setting} (hr : st.loadRow row = some st') :
    ∃ t es' ls' vs' lost', HeapSetting.loadRow (u, last) row = some (t, (es'.map Prod.fst).getLast?) ∧
      t.Holds h₀ st' es' ls' vs' lost' freed ∧ lost'.length = lost.length + st.lostLines row := by
  unfold Setting.loadRow at hr
  unfold HeapSetting.loadRow
  by_cases hk : row.1 = []
  · rw [if_pos hk] at hr ⊢
    cases hr
    refine ⟨u, es, ls, vs, lost, by rw [hlast], h, ?_⟩
    rw [lostLines_other st (by rw [hk]; decide) (by rw [hk]; decide), Nat.add_zero]
  rw [if_neg hk] at hr ⊢
  obtain ⟨st₁, hst₁, rfl⟩ := Option.map_eq_some_iff.mp hr
  obtain ⟨t, ls', vs', lost', hread, hsys, hh, hlen⟩ := h.readRow hst₁
  obtain ⟨r, e, hlink, he, hh'⟩ := hh.append hlast row.1 row.2
  refine ⟨_, es ++ [e], ls', vs', lost', ?_, hh', hlen⟩
  simp only [Option.bind_eq_bind, hread, Option.bind_some, hlink]
  rw [List.map_append, List.map_cons, List.map_nil, List.getLast?_concat, he]

theorem HeapSetting.Holds.loadRows (h : u.Holds h₀ st es ls vs lost freed) {rows : List Row} {st' : Setting}
    (hr : rows.foldlM Setting.loadRow st = some st') : ∃ t last es' ls' vs' lost',
      rows.foldlM HeapSetting.loadRow (u, (es.map Prod.fst).getLast?) = some (t, last) ∧
      t.Holds h₀ st' es' ls' vs' lost' freed ∧ lost'.length = lost.length + st.lostRows rows := by
  induction rows generalizing u st es ls vs lost with
  | nil =>
    cases hr
    exact ⟨u, _, es, ls, vs, lost, rfl, h, rfl⟩
  | cons row rows ih =>
    rw [List.foldlM_cons] at hr
    obtain ⟨st₁, hst₁, hrest⟩ := Option.bind_eq_some_iff.mp hr
    obtain ⟨t, es', ls', vs', lost', hrun, hh, hlen⟩ := h.loadRow rfl hst₁
    obtain ⟨t', last, es'', ls'', vs'', lost'', hrun', hh', hlen'⟩ := ih hh hrest
    refine ⟨t', last, es'', ls'', vs'', lost'', ?_, hh', ?_⟩
    · rw [List.foldlM_cons, hrun]
      exact hrun'
    · rw [Setting.lostRows, hst₁, hlen', hlen, Nat.add_assoc]
      rfl

theorem new_holds (h₀ : Heap SettingBlock) (fishs : List SettingFish) {rows : List Row}
    (hr : Setting.loadSystem rows = some st) : ∃ u es ls vs lost,
      HeapSetting.new h₀ fishs rows = some u ∧ u.Holds h₀ st es ls vs lost [] ∧
      lost.length = Setting.empty.lostRows rows := by
  obtain ⟨h₁, fish, hfish, hheld⟩ : ∃ h₁ fish, HeapSetting.loadFish h₀ fishs = (h₁, fish) ∧
      Holdings h₀ h₁ fish.toList [] := by
    unfold HeapSetting.loadFish
    split_ifs
    · exact ⟨h₀, none, rfl, Holdings.refl h₀⟩
    · exact ⟨_, some h₀.fresh, rfl, (Holdings.refl h₀).malloc _⟩
  have hstart : HeapSetting.Holds h₀ ⟨h₁.malloc (.values ⟨none, none, none⟩), h₁.fresh, none, none, none, fish⟩
      Setting.empty [] [] [] [] [] := by
    refine ⟨⟨malloc_new h₁ _, rfl, .nil, rfl, rfl, rfl, rfl⟩, ?_⟩
    have hall := hheld.malloc (.values ⟨none, none, none⟩)
    simpa only [HeapSetting.blocks, List.flatMap_nil, List.map_nil, List.append_nil] using hall
  obtain ⟨st₁, hst₁, rfl⟩ := Option.map_eq_some_iff.mp hr
  obtain ⟨t, last, es, ls, vs, lost, hrows, hh, hlen⟩ := hstart.loadRows hst₁
  obtain ⟨h₂, ls', horder, hh₂⟩ := hh.order 1 1
  obtain ⟨h₃, vs', horder', hh₃⟩ := hh₂.turned.order 1 1
  refine ⟨{ t with heap := h₃ }, es, ls', vs', lost, ?_, hh₃.turned, by rw [hlen, List.length_nil, Nat.zero_add]⟩
  have horder'' : HeapSetting.order h₂ t.vipLevelList 1 1 = some h₃ := horder'
  have hrows' : rows.foldlM HeapSetting.loadRow
      (⟨h₁.malloc (.values ⟨none, none, none⟩), h₁.fresh, none, none, none, fish⟩, none) = some (t, last) := hrows
  unfold HeapSetting.new HeapSetting.loadSystem
  simp only [hfish, Option.bind_eq_bind, hrows', Option.bind_some, horder, horder'']

theorem find_cases {h : Heap SettingBlock} {p : Option ℕ} {l : List (CStr × Option CStr)} (key : CStr) {n : ℕ}
    (hc : Chain entryCell h p es) (ht : List.Forall₂ (EntryShows h) es l) (hn : es.length ≤ n) :
    (HeapSetting.find key h n p = some none ∧ key ∉ l.map Prod.fst) ∨
      ∃ es₁ e es₂ l₁ w l₂, es = es₁ ++ e :: es₂ ∧ l = l₁ ++ (key, w) :: l₂ ∧ key ∉ l₁.map Prod.fst ∧
        List.Forall₂ (EntryShows h) es₁ l₁ ∧ EntryShows h e (key, w) ∧ List.Forall₂ (EntryShows h) es₂ l₂ ∧
        HeapSetting.find key h n p = some (some e.1) := by
  induction ht generalizing p n with
  | nil =>
    obtain rfl := hc
    cases n <;> exact .inl ⟨rfl, List.not_mem_nil⟩
  | @cons e x es l hx ht ih =>
    obtain ⟨rfl, q, hq, hrest⟩ := hc
    obtain ⟨k, w⟩ := x
    cases n with
    | zero => simp at hn
    | succ n =>
      have hfind : HeapSetting.find key h (n + 1) (some e.1) =
          if k = key then some (some e.1) else HeapSetting.find key h n q := by
        rw [HeapSetting.find]
        simp only [Option.bind_eq_bind, hq, Option.bind_some, hx.1]
      rw [hfind]
      by_cases hk : k = key
      · subst hk
        rw [if_pos rfl]
        exact .inr ⟨[], e, es, [], w, l, rfl, rfl, List.not_mem_nil, .nil, hx, ht, rfl⟩
      · rw [if_neg hk]
        rcases ih hrest (Nat.le_of_succ_le_succ hn) with
          ⟨hnone, hkey⟩ | ⟨es₁, e', es₂, l₁, w', l₂, rfl, rfl, hkey, h₁, he, h₂, hsome⟩
        · refine .inl ⟨hnone, ?_⟩
          rw [List.map_cons, List.mem_cons, not_or]
          exact ⟨fun hkk => hk hkk.symm, hkey⟩
        · refine .inr ⟨e :: es₁, e', es₂, (k, w) :: l₁, w', l₂, rfl, rfl, ?_, .cons hx h₁, he, h₂, hsome⟩
          rw [List.map_cons, List.mem_cons, not_or]
          exact ⟨fun hkk => hk hkk.symm, hkey⟩

theorem HeapSetting.Holds.entries_le (h : u.Holds h₀ st es ls vs lost freed) : es.length ≤ u.heap.fresh := by
  rw [← List.length_map (f := Prod.fst)]
  apply length_le_bound
  · exact fun b hb => h.mem (List.mem_cons_of_mem _ (List.mem_append_right _ (List.mem_append_left _ (entry_mem hb))))
  · exact (List.nodup_append.mp ((entries_perm es).nodup_iff.mp h.apart.entries)).1

theorem HeapSetting.Holds.read (h : u.Holds h₀ st es ls vs lost freed) (key : CStr) :
    u.read key = some (st.system key) := by
  unfold HeapSetting.read Setting.system
  rcases find_cases key h.contains.system h.contains.texts h.entries_le with
    ⟨hfind, hkey⟩ | ⟨es₁, e, es₂, l₁, w, l₂, rfl, hl, hkey, -, he, -, hfind⟩
  · have hnone : st.list.find? (fun x => decide (x.1 = key)) = none := by
      apply List.find?_eq_none.mpr
      intro x hx hd
      exact hkey (of_decide_eq_true hd ▸ List.mem_map_of_mem hx)
    rw [hfind, hnone]
    rfl
  · have hsome : st.list.find? (fun x => decide (x.1 = key)) = some (key, w) := by
      have hnone : l₁.find? (fun x => decide (x.1 = key)) = none := by
        apply List.find?_eq_none.mpr
        intro x hx hd
        exact hkey (of_decide_eq_true hd ▸ List.mem_map_of_mem hx)
      rw [hl, List.find?_append, hnone, Option.none_or]
      exact List.find?_cons_of_pos (decide_eq_true rfl)
    have hcell := chain_cell h.contains.system
      (show (es₁ ++ e :: es₂)[es₁.length]? = some e by
        rw [List.getElem?_append_right le_rfl, Nat.sub_self]
        rfl)
    rw [hfind, hsome]
    simp only [Option.bind_eq_bind, Option.bind_some, hcell, he.2]
    cases w <;> rfl

theorem setEntry_found {key value : CStr} {w : Option CStr} {l₁ l₂ : List (CStr × Option CStr)}
    (hk : key ∉ l₁.map Prod.fst) :
    Setting.setEntry key value (l₁ ++ (key, w) :: l₂) = l₁ ++ (key, Setting.filled value) :: l₂ := by
  induction l₁ with
  | nil => rw [List.nil_append, Setting.setEntry, if_pos rfl, List.nil_append]
  | cons x l₁ ih =>
    rw [List.map_cons, List.mem_cons, not_or] at hk
    rw [List.cons_append, Setting.setEntry, if_neg (fun he => hk.1 he.symm), ih hk.2, List.cons_append]

theorem setEntry_heap {h : Heap SettingBlock} {live live' : List ℕ} {b k : ℕ} {v q : Option ℕ}
    (hcell : h.cell entryCell b = some ((k, v), q)) (hh : Holdings h₀ h live freed) (hp : live.Perm (v.toList ++ live'))
    (value : CStr) : ∃ g v', HeapSetting.setEntry h value b = some (g.modify (fun _ => .entry (k, v') q) b) ∧
      Holdings h₀ g (v'.toList ++ live') (freed ++ v.toList) ∧
      (∀ d < h.fresh, d ∉ v.toList → g.block d = h.block d) ∧
      v'.map g.block = (Setting.filled value).map (fun v => some (.text v)) ∧ ∀ d ∈ v'.toList, h.fresh ≤ d := by
  obtain ⟨hf, hfree, hr, hheld⟩ := hh.freeOption hp
  unfold HeapSetting.setEntry Setting.filled
  simp only [Option.bind_eq_bind, hcell, Option.bind_some, hfree]
  by_cases hval : value = []
  · rw [if_pos hval, if_pos hval]
    exact ⟨hf, none, rfl, hheld, fun d _ hd => hr.kept d hd, rfl, fun d hd => absurd hd List.not_mem_nil⟩
  · rw [if_neg hval, if_neg hval]
    refine ⟨hf.malloc (.text value), some hf.fresh, rfl, hheld.malloc _, ?_, congrArg some (malloc_new hf _), ?_⟩
    · intro d hd hdv
      rw [malloc_block hf _ (by rw [hr.fresh]; exact hd), hr.kept d hdv]
    · intro d hd
      rw [List.mem_singleton.mp hd, hr.fresh]

theorem HeapSetting.Holds.setEntry {es₁ es₂ : List (ℕ × ℕ × Option ℕ)} {e : ℕ × ℕ × Option ℕ}
    {l₁ l₂ : List (CStr × Option CStr)} {key : CStr} {w : Option CStr}
    (h : u.Holds h₀ st (es₁ ++ e :: es₂) ls vs lost freed) (h₁ : List.Forall₂ (EntryShows u.heap) es₁ l₁)
    (he : EntryShows u.heap e (key, w)) (h₂ : List.Forall₂ (EntryShows u.heap) es₂ l₂) (value : CStr) :
    ∃ h' es' freed', HeapSetting.setEntry u.heap value e.1 = some h' ∧
      HeapSetting.Holds h₀ { u with heap := h' } { st with list := l₁ ++ (key, Setting.filled value) :: l₂ } es' ls vs
        lost freed' := by
  obtain ⟨b, k, v⟩ := e
  have hes : (es₁ ++ (b, k, v) :: es₂).flatMap entryBlocks ⊆ u.blocks (es₁ ++ (b, k, v) :: es₂) ls vs :=
    fun d hd => List.mem_cons_of_mem _ (List.mem_append_right _ (List.mem_append_left _ hd))
  have hsplit : ((es₁ ++ (b, k, v) :: es₂).flatMap entryBlocks).Perm
      ((b :: k :: v.toList) ++ (es₁ ++ es₂).flatMap entryBlocks) := by
    apply List.perm_iff_count.mpr
    intro d
    simp only [List.flatMap_append, List.flatMap_cons, entryBlocks, textBlocks, List.count_cons, List.count_append]
    omega
  obtain ⟨hown, -, hother⟩ := List.nodup_append.mp (hsplit.nodup_iff.mp h.apart.entries)
  obtain ⟨hb, hkv⟩ := List.nodup_cons.mp hown
  have hk := (List.nodup_cons.mp hkv).1
  rw [List.mem_cons, not_or] at hb
  have hcell := chain_cell h.contains.system
    (show (es₁ ++ (b, k, v) :: es₂)[es₁.length]? = some (b, k, v) by
      rw [List.getElem?_append_right le_rfl, Nat.sub_self]
      rfl)
  generalize ((es₁ ++ (b, k, v) :: es₂)[es₁.length + 1]?).map Prod.fst = q at hcell
  have hblocks : (u.blocks (es₁ ++ (b, k, v) :: es₂) ls vs ++ lost).Perm (v.toList ++ (u.value :: (u.fish.toList ++
      (b :: k :: (es₁ ++ es₂).flatMap entryBlocks ++ (ls.map Prod.fst ++ vs.map Prod.fst))) ++ lost)) := by
    apply List.perm_iff_count.mpr
    intro d
    have hd := List.perm_iff_count.mp hsplit d
    simp only [HeapSetting.blocks, List.count_cons, List.count_append] at hd ⊢
    omega
  obtain ⟨g, v', hset, hheld, hold, hshows, hnew⟩ := setEntry_heap hcell h.held hblocks value
  have hkeep {d : ℕ} (hin : d ∈ u.blocks (es₁ ++ (b, k, v) :: es₂) ls vs) (hdb : d ≠ b) (hdv : d ∉ v.toList) :
      (g.modify (fun _ => .entry (k, v') q) b).block d = u.heap.block d := by
    rw [modify_block _ _ hdb, hold d (h.mem hin) hdv]
  have hkeepOther {d : ℕ} (hd : d ∈ (es₁ ++ es₂).flatMap entryBlocks) :
      (g.modify (fun _ => .entry (k, v') q) b).block d = u.heap.block d := by
    apply hkeep (hes (hsplit.mem_iff.mpr (List.mem_append_right _ hd)))
    · exact fun he => hother b List.mem_cons_self d hd he.symm
    · exact fun hv => hother d (List.mem_cons_of_mem _ (List.mem_cons_of_mem _ hv)) d hd rfl
  refine ⟨g.modify (fun _ => .entry (k, v') q) b, es₁ ++ (b, k, v') :: es₂, freed ++ v.toList, hset, ?_, ?_⟩
  · apply h.contains.system_changed h.apart
    · intro d hd hout
      apply hkeep hd
      · exact fun he => hout (hsplit.mem_iff.mpr (he ▸ List.mem_cons_self))
      · exact fun hv => hout (hsplit.mem_iff.mpr
          (List.mem_append_left _ (List.mem_cons_of_mem _ (List.mem_cons_of_mem _ hv))))
    · apply chain_set h.contains.system
      · intro q' hq'
        have hbb := hold b (h.mem (hes (hsplit.mem_iff.mpr List.mem_cons_self))) hb.2
        rw [hcell] at hq'
        obtain ⟨x, hx⟩ := cell_live hcell
        cases hq'
        rw [Heap.cell, modify_self, hbb, hx]
        rfl
      · exact fun d hd => hkeepOther (entry_mem hd)
    · apply forall₂_append (texts_congr (fun d hd => hkeepOther (text_mem ?_)) h₁)
      · refine .cons ⟨?_, ?_⟩ (texts_congr (fun d hd => hkeepOther (text_mem ?_)) h₂)
        · have hkk := hkeep (hes (hsplit.mem_iff.mpr (List.mem_cons_of_mem b List.mem_cons_self))) (Ne.symm hb.1) hk
          rw [hkk]
          exact he.1
        · rw [← hshows]
          cases v' with
          | none => rfl
          | some d =>
            have hdb : d ≠ b := by
              rintro rfl
              have hlt := h.mem (hes (hsplit.mem_iff.mpr List.mem_cons_self))
              have hle := hnew d (List.mem_singleton_self d)
              omega
            exact congrArg some (modify_block g _ hdb)
        · rw [List.flatMap_append]
          exact List.mem_append_right _ hd
      · rw [List.flatMap_append]
        exact List.mem_append_left _ hd
  · have hedit : Edited [b] g (g.modify (fun _ => .entry (k, v') q) b) :=
      edited_modify g _ (List.mem_singleton_self b)
    have hall := hheld.edited hedit (by
      intro d hd
      rw [List.mem_singleton.mp hd]
      simp)
    apply hall.perm
    apply List.perm_iff_count.mpr
    intro d
    simp only [HeapSetting.blocks, List.flatMap_append, List.flatMap_cons, entryBlocks, textBlocks, List.count_cons,
      List.count_append]
    omega

theorem HeapSetting.Holds.newEntry (h : u.Holds h₀ st es ls vs lost freed) (key value : CStr) :
    ∃ lost', HeapSetting.Holds h₀ { u with heap := HeapSetting.newEntry u.heap key value } st es ls vs lost' freed ∧
      lost'.length = lost.length + if value = [] then 2 else 3 := by
  obtain ⟨v, hheld, -, -, hv, hkept⟩ := newEntry_holdings h.held key value
  refine ⟨entryBlocks (u.heap.fresh, u.heap.fresh + 1, v) ++ lost, ⟨?_, ?_⟩, ?_⟩
  · exact h.contains.level_changed h.apart (fun b hb _ => hkept b (h.mem hb))
      (chain_congr (fun b hb => hkept b (h.mem (lines_subset ls hb))) h.contains.level) h.contains.levels
  · apply hheld.perm
    apply List.perm_iff_count.mpr
    intro b
    simp only [HeapSetting.blocks, List.count_cons, List.count_append]
    omega
  · rw [List.length_append, entryBlocks, textBlocks, List.length_cons, List.length_cons, hv]
    split_ifs <;> omega

theorem HeapSetting.Holds.put (h : u.Holds h₀ st es ls vs lost freed) (key value : CStr) :
    ∃ found h' es' lost' freed', HeapSetting.find key u.heap u.heap.fresh u.system = some found ∧
      found.elim (some (HeapSetting.newEntry u.heap key value)) (HeapSetting.setEntry u.heap value) = some h' ∧
      HeapSetting.Holds h₀ { u with heap := h' } { st with list := Setting.setEntry key value st.list } es' ls vs lost'
        freed' ∧
      lost'.length = lost.length + if key ∈ st.list.map Prod.fst then 0 else if value = [] then 2 else 3 := by
  rcases find_cases key h.contains.system h.contains.texts h.entries_le with
    ⟨hfind, hkey⟩ | ⟨es₁, e, es₂, l₁, w, l₂, rfl, hl, hkey, h₁, he, h₂, hfind⟩
  · obtain ⟨lost', hh, hlen⟩ := h.newEntry key value
    refine ⟨none, _, es, lost', freed, hfind, rfl, ?_, by rw [hlen, if_neg hkey]⟩
    rw [setEntry_absent (fun v hv => hkey (List.mem_map_of_mem (f := Prod.fst) hv))]
    exact hh
  · obtain ⟨h', es', freed', hset, hh⟩ := h.setEntry h₁ he h₂ value
    refine ⟨some e.1, h', es', lost, freed', hfind, hset, ?_, ?_⟩
    · rw [hl, setEntry_found hkey]
      exact hh
    · rw [if_pos, Nat.add_zero]
      rw [hl, List.map_append, List.map_cons]
      exact List.mem_append_right _ List.mem_cons_self

theorem HeapSetting.Holds.clearLevel (h : u.Holds h₀ st es ls vs lost freed) {key : CStr}
    (hkey : formatLines key.length key = some []) : ∃ h' freed',
      freeFrom lineCell u.heap.fresh u.heap u.levelList = some h' ∧
      HeapSetting.formatLine key h' none = some (h', none) ∧
      HeapSetting.Holds h₀ { u with heap := h', levelList := none } { st with levelList := [] } es [] vs lost
        freed' := by
  obtain ⟨h', hrun, hh⟩ := h.freeLine
  refine ⟨h', _, hrun, ?_, hh⟩
  unfold HeapSetting.formatLine
  rw [hkey]
  rfl

theorem setEntry_keys (key value : CStr) (l : List (CStr × Option CStr)) :
    (Setting.setEntry key value l).map Prod.fst = l.map Prod.fst := by
  induction l with
  | nil => rfl
  | cons x l ih =>
    rw [Setting.setEntry]
    split_ifs
    · rfl
    · rw [List.map_cons, ih, List.map_cons]

theorem HeapSetting.Holds.setValue (h : u.Holds h₀ st es ls vs lost freed) {key : CStr} {value : Option CStr}
    {st' : Setting} {ok : Bool} (hs : st.setValue key value = some (st', ok)) : ∃ t es' ls' vs' lost' freed',
      u.setValue key value = some (t, ok) ∧ t.Holds h₀ st' es' ls' vs' lost' freed' ∧
      lost'.length = lost.length + st.lostEntry (key, value) ∧ st'.list.map Prod.fst = st.list.map Prod.fst := by
  unfold Setting.setValue at hs
  unfold HeapSetting.setValue
  by_cases hkey : Setting.checkKey key = false
  · rw [if_pos hkey] at hs ⊢
    cases hs
    refine ⟨u, es, ls, vs, lost, freed, rfl, h, ?_, rfl⟩
    rw [Setting.lostEntry, if_neg (by rw [hkey]; rintro ⟨hf, -⟩; cases hf), Nat.add_zero]
  rw [if_neg hkey] at hs ⊢
  cases value with
  | none => cases hs
  | some value =>
    simp only [Option.bind_eq_bind, Option.bind_some] at hs ⊢
    have hne : key ≠ [] := by
      rintro rfl
      exact hkey rfl
    rw [if_neg hne] at hs ⊢
    obtain ⟨found, h', es', lost', freed', hfind, hput, hh, hlen⟩ := h.put key value
    have hlost : lost'.length = lost.length + st.lostEntry (key, some value) := by
      rw [hlen]
      by_cases hin : key ∈ st.list.map Prod.fst
      · rw [if_pos hin, Setting.lostEntry, if_neg (fun hc => find_missing.mp hc.2 hin)]
      · rw [if_neg hin, Setting.lostEntry, if_pos (And.intro (eq_true_of_ne_false hkey) (find_missing.mpr hin))]
        rfl
    rw [hfind, Option.bind_some, hput, Option.bind_some]
    by_cases h1 : key = "user_level".toList
    · have hlines : formatLines key.length key = some [] := by
        rw [h1]
        decide
      obtain ⟨h'', freed'', hfree, hformat, hh'⟩ := hh.clearLevel hlines
      rw [if_pos h1] at hs ⊢
      unfold FishServer.formatLine at hs
      rw [hlines] at hs
      cases hs
      refine ⟨_, es', [], vs, lost', freed'', ?_, hh', hlost, setEntry_keys key value st.list⟩
      rw [hfree, Option.bind_some, hformat]
      rfl
    rw [if_neg h1] at hs ⊢
    by_cases h2 : key = "user_vip_level".toList
    · have hlines : formatLines key.length key = some [] := by
        rw [h2]
        decide
      obtain ⟨h'', freed'', hfree, hformat, hh'⟩ := hh.turned.clearLevel hlines
      have hfree' : freeFrom lineCell h'.fresh h' u.vipLevelList = some h'' := hfree
      rw [if_pos h2] at hs ⊢
      unfold FishServer.formatLine at hs
      rw [hlines] at hs
      cases hs
      refine ⟨{ u with heap := h'', vipLevelList := none }, es', ls, [], lost', freed'', ?_, hh'.turned, hlost,
        setEntry_keys key value st.list⟩
      rw [hfree', Option.bind_some, hformat]
      rfl
    rw [if_neg h2] at hs ⊢
    cases hs
    exact ⟨_, es', ls, vs, lost', freed', rfl, hh, hlost, setEntry_keys key value st.list⟩

def Setting.setValues (st : Setting) (calls : List (CStr × Option CStr)) : Option Setting :=
  calls.foldlM (fun st c => (st.setValue c.1 c.2).map Prod.fst) st

def HeapSetting.setValues (u : HeapSetting) (calls : List (CStr × Option CStr)) : Option HeapSetting :=
  calls.foldlM (fun u c => (u.setValue c.1 c.2).map Prod.fst) u

theorem lostEntry_congr {st st' : Setting} (hk : st'.list.map Prod.fst = st.list.map Prod.fst) :
    st'.lostEntry = st.lostEntry := by
  funext call
  simp only [Setting.lostEntry, find_missing, hk]

theorem HeapSetting.Holds.setValues (h : u.Holds h₀ st es ls vs lost freed) {calls : List (CStr × Option CStr)}
    {st' : Setting} (hs : st.setValues calls = some st') : ∃ t es' ls' vs' lost' freed', u.setValues calls = some t ∧
      t.Holds h₀ st' es' ls' vs' lost' freed' ∧ lost'.length = lost.length + (calls.map st.lostEntry).sum := by
  induction calls generalizing u st es ls vs lost freed with
  | nil =>
    cases hs
    exact ⟨u, es, ls, vs, lost, freed, rfl, h, rfl⟩
  | cons c calls ih =>
    unfold Setting.setValues at hs
    rw [List.foldlM_cons] at hs
    obtain ⟨st₁, hst₁, hrest⟩ := Option.bind_eq_some_iff.mp hs
    obtain ⟨⟨st₁, ok⟩, hset, rfl⟩ := Option.map_eq_some_iff.mp hst₁
    obtain ⟨t, es', ls', vs', lost', freed', hrun, hh, hlen, hkeys⟩ := h.setValue hset
    obtain ⟨t', es'', ls'', vs'', lost'', freed'', hrun', hh', hlen'⟩ := ih hh hrest
    refine ⟨t', es'', ls'', vs'', lost'', freed'', ?_, hh', ?_⟩
    · unfold HeapSetting.setValues at hrun' ⊢
      rw [List.foldlM_cons, hrun]
      exact hrun'
    · rw [hlen', hlen, lostEntry_congr hkeys, List.map_cons, List.sum_cons, Nat.add_assoc]

theorem freeSystem_holdings {h : Heap SettingBlock} {live live' : List ℕ} {p : Option ℕ} (n : ℕ)
    (hh : Holdings h₀ h live freed) (hp : live.Perm (es.flatMap entryBlocks ++ live')) (hc : Chain entryCell h p es)
    (hn : es.length ≤ n) : ∃ h' freed', HeapSetting.freeSystem n h p = some h' ∧ Holdings h₀ h' live' freed' ∧
      h'.fresh = h.fresh ∧ ∀ b ∈ live', h'.block b = h.block b := by
  induction es generalizing h live freed p n with
  | nil =>
    obtain rfl := hc
    refine ⟨h, freed, ?_, hh.perm hp, rfl, fun _ _ => rfl⟩
    cases n <;> rfl
  | cons e es ih =>
    obtain ⟨rfl, q, hq, hrest⟩ := hc
    obtain ⟨b, k, v⟩ := e
    cases n with
    | zero => simp at hn
    | succ n =>
      have hk : live.Perm (k :: (v.toList ++ (b :: (es.flatMap entryBlocks ++ live')))) := by
        refine hp.trans ?_
        apply List.perm_iff_count.mpr
        intro d
        simp only [List.flatMap_cons, entryBlocks, textBlocks, List.count_cons, List.count_append]
        omega
      obtain ⟨hkd, hd⟩ := List.nodup_cons.mp (hk.nodup_iff.mp (List.nodup_append.mp hh.nodup).1)
      obtain ⟨-, hd, hvd⟩ := List.nodup_append.mp hd
      have hbd := (List.nodup_cons.mp hd).1
      obtain ⟨h₁, hf₁, hr₁, hh₁⟩ := hh.free hk
      obtain ⟨h₂, hf₂, hr₂, hh₂⟩ := hh₁.freeOption (List.Perm.refl _)
      obtain ⟨h₃, hf₃, hr₃, hh₃⟩ := hh₂.free (List.Perm.refl _)
      have hkeep {d : ℕ} (hm : d ∈ b :: (es.flatMap entryBlocks ++ live')) : h₂.block d = h.block d := by
        rw [hr₂.kept d (fun hv => hvd d hv d hm rfl), hr₁.kept d]
        intro he
        rw [List.mem_singleton.mp he] at hm
        exact hkd (List.mem_append_right _ hm)
      have hkeep' {d : ℕ} (hm : d ∈ es.flatMap entryBlocks ++ live') : h₃.block d = h.block d := by
        rw [hr₃.kept d, hkeep (List.mem_cons_of_mem b hm)]
        intro he
        rw [List.mem_singleton.mp he] at hm
        exact hbd hm
      have hcell : h₂.cell entryCell b = some ((k, v), q) := by
        rw [cell_congr (hkeep List.mem_cons_self), hq]
      obtain ⟨h', freed', hrun, hh', hfresh, hkept⟩ := ih n hh₃ (List.Perm.refl _)
        (chain_congr (fun d hd => hkeep' (List.mem_append_left _ (entry_mem hd))) hrest) (Nat.le_of_succ_le_succ hn)
      refine ⟨h', freed', ?_, hh', ?_, ?_⟩
      · rw [HeapSetting.freeSystem]
        simp only [Option.bind_eq_bind, hq, Option.bind_some, hf₁, hf₂, hcell, hf₃]
        exact hrun
      · rw [hfresh, hr₃.fresh, hr₂.fresh, hr₁.fresh]
      · intro d hd
        rw [hkept d hd, hkeep' (List.mem_append_right _ hd)]

theorem HeapSetting.Holds.destroy (h : u.Holds h₀ st es ls vs lost freed) :
    ∃ h' freed', u.destroy = some h' ∧ Holdings h₀ h' (u.value :: lost) freed' := by
  have hperm : (u.blocks es ls vs ++ lost).Perm (u.fish.toList ++ (es.flatMap entryBlocks ++
      (ls.map Prod.fst ++ (vs.map Prod.fst ++ (u.value :: lost))))) := by
    apply List.perm_iff_count.mpr
    intro d
    simp only [HeapSetting.blocks, List.count_cons, List.count_append]
    omega
  obtain ⟨-, -, hdis⟩ := List.nodup_append.mp (hperm.nodup_iff.mp (List.nodup_append.mp h.held.nodup).1)
  obtain ⟨h₁, hf₁, hr₁, hh₁⟩ := h.held.freeOption hperm
  have hkeep₁ {d : ℕ} (hd : d ∈ es.flatMap entryBlocks ++ (ls.map Prod.fst ++ (vs.map Prod.fst ++ (u.value :: lost)))) :
      h₁.block d = u.heap.block d := hr₁.kept d (fun hm => hdis d hm d hd rfl)
  have hes : es.length ≤ h₁.fresh := by
    rw [hr₁.fresh]
    exact h.entries_le
  obtain ⟨h₂, freed₂, hf₂, hh₂, hfresh₂, hkept₂⟩ := freeSystem_holdings h₁.fresh hh₁ (List.Perm.refl _)
    (chain_congr (fun d hd => hkeep₁ (List.mem_append_left _ (entry_mem hd))) h.contains.system) hes
  have hkeep₂ {d : ℕ} (hd : d ∈ ls.map Prod.fst ++ (vs.map Prod.fst ++ (u.value :: lost))) :
      h₂.block d = u.heap.block d := by
    rw [hkept₂ d hd, hkeep₁ (List.mem_append_right _ hd)]
  have hlen : h₂.fresh = u.heap.fresh := by rw [hfresh₂, hr₁.fresh]
  obtain ⟨h₃, hf₃, hr₃⟩ := freeFrom_released h₂.fresh
    (chain_congr (fun d hd => hkeep₂ (List.mem_append_left _ hd)) h.contains.level) h.apart.lines (hlen ▸ h.lines_le)
  have hh₃ := hh₂.released hr₃ (List.Perm.refl _)
  have hvip : Chain lineCell h₃ u.vipLevelList vs := by
    refine chain_congr (fun d hd => ?_) h.contains.vipLevel
    rw [hr₃.kept d (fun hl => h.apart.lines_lines d hl hd)]
    exact hkeep₂ (List.mem_append_right _ (List.mem_append_left _ hd))
  have hvs : vs.length ≤ h₃.fresh := by
    rw [hr₃.fresh, hlen]
    exact h.turned.lines_le
  obtain ⟨h₄, hf₄, hr₄⟩ := freeFrom_released h₃.fresh hvip h.turned.apart.lines hvs
  refine ⟨h₄, _, ?_, hh₃.released hr₄ (List.Perm.refl _)⟩
  unfold HeapSetting.destroy
  simp only [Option.bind_eq_bind, hf₁, Option.bind_some, hf₂, hf₃, hf₄]

end

/-- A life of the settings, from the constructor over the changes of the administrators to the destructor. -/
def HeapSetting.life (h : Heap SettingBlock) (fishs : List SettingFish) (rows : List Row)
    (calls : List (CStr × Option CStr)) : Option (HeapSetting × Heap SettingBlock) := do
  let u ← HeapSetting.new h fishs rows
  let u ← u.setValues calls
  let h ← u.destroy
  some (u, h)

/-- Whatever the table and the changes, no block is read or released behind its release, what is read is what the plain
model says, and behind the destructor the values, the lines of repeated keys and the entries of keys that the table does
not have are what is left. -/
theorem settings_life (h₀ : Heap SettingBlock) (fishs : List SettingFish) (rows : List Row)
    (calls : List (CStr × Option CStr)) (st₀ st : Setting) (hload : Setting.loadSystem rows = some st₀)
    (hcalls : st₀.setValues calls = some st) : ∃ u h lost freed, HeapSetting.life h₀ fishs rows calls = some (u, h) ∧
      (∃ es ls vs, u.Contains st es ls vs) ∧ (∀ key, u.read key = some (st.system key)) ∧
      Holdings h₀ h (u.value :: lost) freed ∧
      lost.length = Setting.empty.lostRows rows + (calls.map st₀.lostEntry).sum := by
  obtain ⟨u₀, es₀, ls₀, vs₀, lost₀, hnew, hh₀, hlen₀⟩ := new_holds h₀ fishs hload
  obtain ⟨u, es, ls, vs, lost, freed, hset, hh, hlen⟩ := hh₀.setValues hcalls
  obtain ⟨h, freed', hdestroy, hend⟩ := hh.destroy
  refine ⟨u, h, lost, freed', ?_, ⟨es, ls, vs, hh.contains⟩, hh.read, hend, by rw [hlen, hlen₀]⟩
  unfold HeapSetting.life
  simp only [Option.bind_eq_bind, hnew, Option.bind_some, hset, hdestroy]

def repeatedRows : List Row :=
  [("user_level".toList, "1:2".toList), ("user_level".toList, "3:4".toList), ("no_game_timeout".toList, "5".toList)]

def missedChange : List (CStr × Option CStr) :=
  [("no_game_timeout".toList, some "7".toList), ("no_op_timeout".toList, some "9".toList)]

theorem five_blocks_left : ∃ u h lost freed,
    HeapSetting.life Heap.empty [⟨1, 1, 1⟩] repeatedRows missedChange = some (u, h) ∧
      u.read "no_game_timeout".toList = some (some "7".toList) ∧ u.read "no_op_timeout".toList = some none ∧
      Holdings Heap.empty h (u.value :: lost) freed ∧ lost.length = 4 := by
  have hrun : ((Setting.loadSystem repeatedRows).bind (fun st₀ => (st₀.setValues missedChange).map (fun st =>
      (st.system "no_game_timeout".toList, st.system "no_op_timeout".toList,
        (missedChange.map st₀.lostEntry).sum)))) = some (some "7".toList, none, 3) := by
    decide
  obtain ⟨st₀, hload, hst₀⟩ := Option.bind_eq_some_iff.mp hrun
  obtain ⟨st, hcalls, hst⟩ := Option.map_eq_some_iff.mp hst₀
  simp only [Prod.mk.injEq] at hst
  obtain ⟨hgame, hop, hlost⟩ := hst
  obtain ⟨u, h, lost, freed, hlife, -, hread, hheld, hlen⟩ :=
    settings_life Heap.empty [⟨1, 1, 1⟩] repeatedRows missedChange st₀ st hload hcalls
  refine ⟨u, h, lost, freed, hlife, ?_, ?_, hheld, ?_⟩
  · rw [hread, hgame]
  · rw [hread, hop]
  · rw [hlen, hlost]
    decide

end FishServer
