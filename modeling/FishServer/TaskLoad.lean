import FishServer.Decimal
import FishServer.Task

namespace FishServer

open Printf

/-! `Task::load`, and its loop over the text of `article_ids`. -/

/-- What the loop writes to `article_ids`, in order. `x` is the index of the next id and `n` what was read of
it. -/
def idWrites : ℕ → ℤ → CStr → List (ℕ × ℤ)
  | x, n, [] => (x, n) :: (List.range' (x + 1) (10 - (x + 1))).map (fun i => (i, 0))
  | x, n, c :: s =>
    if c.isDigit then idWrites x (i32 (n * 10 + (c.toNat - 48))) s
    else if c = ',' then (x, n) :: idWrites (x + 1) 0 s
    else idWrites x n s

-- none is a write behind the end of the array
def putId (ids : Vector ℤ 10) (w : ℕ × ℤ) : Option (Vector ℤ 10) :=
  if h : w.1 < 10 then some (ids.set w.1 w.2) else none

/-- `old` is what the new block had in it. -/
def readIds (old : Vector ℤ 10) (text : CStr) : Option (Vector ℤ 10) := (idWrites 0 0 text).foldlM putId old

/-- A row of `tasks`, and what the query for its conditions answers. -/
structure TasksRow where
  id : ℤ
  preId : ℤ
  groupId : ℤ
  mutexId : ℤ
  priority : ℤ
  autoGive : ℤ
  autoUse : ℤ
  reapt : ℤ
  startTime : ℤ
  endTime : ℤ
  articleIds : CStr
  conditions : Option (List TaskCondition)

-- a bound that is not positive is none
def inWindow (startTime endTime time : ℤ) : Bool :=
  !(decide (0 < startTime) && decide (time < startTime)) && !(decide (0 < endTime) && decide (endTime < time))

theorem inWindow_iff {startTime endTime time : ℤ} :
    inWindow startTime endTime time = true ↔ (0 < startTime → startTime ≤ time) ∧ (0 < endTime → time ≤ endTime) := by
  simp [inWindow, imp_iff_not_or]

def TasksRow.task (r : TasksRow) (articleIds : Vector ℤ 10) (condition : List TaskCondition) : STask :=
  { id := r.id
    preId := r.preId
    groupId := r.groupId
    mutexId := r.mutexId
    priority := r.priority
    autoGive := r.autoGive
    autoUse := r.autoUse
    reapt := r.reapt
    startTime := r.startTime
    endTime := r.endTime
    articleIds
    condition }

def loadTasks (old : ℕ → Vector ℤ 10) (time : ℤ) : List TasksRow → Option (List STask)
  | [] => some []
  | r :: rows =>
    if inWindow r.startTime r.endTime time then
      (readIds (old rows.length) r.articleIds).bind (fun ids =>
        match r.conditions with
        | none | some [] => loadTasks old time rows
        | some (c :: cs) => (loadTasks old time rows).map (fun tasks => r.task ids (c :: cs) :: tasks))
    else loadTasks old time rows

/-- `load`, with none for rows that the query did not get. The result of the query for the articles goes to a
variable of the inner block, and the call behind it gets no result, so no article is loaded. -/
def Task.load (old : ℕ → Vector ℤ 10) (time : ℤ) : Option (List TasksRow) → Option Task
  | none => some ⟨[], []⟩
  | some rows => (loadTasks old time rows).map (fun tasks => ⟨tasks, []⟩)

def STask.inWindow (time : ℤ) (task : STask) : Bool := FishServer.inWindow task.startTime task.endTime time

theorem loadTasks_accepts {old : ℕ → Vector ℤ 10} {time : ℤ} {rows : List TasksRow} {tasks : List STask}
    (h : loadTasks old time rows = some tasks) :
    ∀ task ∈ tasks, task.inWindow time = true ∧ task.condition ≠ [] := by
  induction rows generalizing tasks with
  | nil =>
    cases h
    intro task ht
    cases ht
  | cons r rows ih =>
    rw [loadTasks] at h
    split_ifs at h with hw
    · obtain ⟨ids, -, h⟩ := Option.bind_eq_some_iff.mp h
      split at h
      · exact ih h
      · exact ih h
      · obtain ⟨rest, hrest, rfl⟩ := Option.map_eq_some_iff.mp h
        intro task ht
        rcases List.mem_cons.mp ht with rfl | ht
        · exact ⟨hw, List.cons_ne_nil _ _⟩
        · exact ih hrest task ht
    · exact ih h

theorem load_accepts {old : ℕ → Vector ℤ 10} {time : ℤ} {rows : Option (List TasksRow)} {t : Task}
    (h : Task.load old time rows = some t) : ∀ task ∈ t.tasks, task.inWindow time = true ∧ task.condition ≠ [] := by
  cases rows with
  | none =>
    cases h
    intro task ht
    cases ht
  | some rows =>
    obtain ⟨tasks, ht, rfl⟩ := Option.map_eq_some_iff.mp h
    exact loadTasks_accepts ht

theorem idWrites_index (x : ℕ) (n : ℤ) (text : CStr) (i : ℕ) :
    (∃ v, (i, v) ∈ idWrites x n text) ↔ x ≤ i ∧ (i ≤ x + text.count ',' ∨ i < 10) := by
  induction text generalizing x n with
  | nil =>
    simp only [idWrites, List.mem_cons, List.mem_map, List.mem_range'_1, Prod.mk.injEq, List.count_nil]
    constructor
    · rintro ⟨v, ⟨rfl, rfl⟩ | ⟨j, hj, rfl, rfl⟩⟩ <;> omega
    · intro h
      by_cases hi : i = x
      · exact ⟨n, .inl ⟨hi, rfl⟩⟩
      · exact ⟨0, .inr ⟨i, by omega, rfl, rfl⟩⟩
  | cons c text ih =>
    rw [idWrites]
    split_ifs with hd hc
    · have hne : c ≠ ',' := by
        rintro rfl
        revert hd
        decide
      rw [ih, List.count_cons_of_ne hne]
    · subst hc
      rw [List.count_cons_self]
      simp only [List.mem_cons, Prod.mk.injEq, exists_or, ih]
      constructor
      · rintro (⟨v, rfl, -⟩ | h) <;> omega
      · intro h
        by_cases hi : i = x
        · exact .inl ⟨n, hi, rfl⟩
        · exact .inr (by omega)
    · rw [ih, List.count_cons_of_ne hc]

theorem idWrites_inside (text : CStr) : (∀ w ∈ idWrites 0 0 text, w.1 < 10) ↔ text.count ',' ≤ 9 := by
  constructor
  · intro h
    obtain ⟨v, hv⟩ := (idWrites_index 0 0 text (text.count ',')).mpr (by omega)
    have := h _ hv
    omega
  · rintro h ⟨i, v⟩ hw
    have := (idWrites_index 0 0 text i).mp ⟨v, hw⟩
    omega

def commaList : List ℤ → CStr
  | [] => []
  | [id] => decimal id
  | id :: ids => decimal id ++ ',' :: commaList ids

structure ReadsIds (old : Vector ℤ 10) (text : CStr) : Prop where
  inside : ∀ w ∈ idWrites 0 0 text, w.1 < 10
  stored : ∀ ids : List ℤ, (∀ id ∈ ids, 0 < id ∧ isInt id = true) → text = commaList ids →
    ∃ v, readIds old text = some v ∧ v.toList = ids.take 10 ++ List.replicate (10 - ids.length) 0

def numbered (x : ℕ) (l : List ℤ) : List (ℕ × ℤ) := (l.zipIdx x).map Prod.swap

theorem numbered_cons (x : ℕ) (a : ℤ) (l : List ℤ) : numbered x (a :: l) = (x, a) :: numbered (x + 1) l := rfl

theorem numbered_zeros (x k : ℕ) :
    (List.range' x k).map (fun i => (i, (0 : ℤ))) = numbered x (List.replicate k 0) := by
  induction k generalizing x with
  | zero => rfl
  | succ k ih => rw [List.replicate_succ, numbered_cons, ← ih, List.range'_succ, List.map_cons]

theorem putId_numbered (l : List ℤ) {x : ℕ} (hx : x + l.length = 10) (ids : Vector ℤ 10) :
    ∃ v, (numbered x l).foldlM putId ids = some v ∧ v.toList = ids.toList.take x ++ l := by
  induction l generalizing x ids with
  | nil =>
    refine ⟨ids, rfl, ?_⟩
    rw [List.length_nil, Nat.add_zero] at hx
    rw [List.append_nil, List.take_of_length_le (by simp [hx])]
  | cons a l ih =>
    rw [List.length_cons] at hx
    have hlt : x < 10 := by omega
    obtain ⟨v, hv, hl⟩ := ih (x := x + 1) (by omega) (ids.set x a)
    refine ⟨v, ?_, ?_⟩
    · rw [numbered_cons, List.foldlM_cons, putId, dif_pos hlt]
      exact hv
    · rw [hl, Vector.toList_set, List.take_add_one, List.take_set_of_le (le_refl x)]
      simp [hlt]

theorem digits_ge {ds : CStr} (hd : ∀ c ∈ ds, c.isDigit = true) {n : ℤ} (hn : 0 ≤ n) : n ≤ digits n ds := by
  induction ds generalizing n with
  | nil => exact le_refl n
  | cons c ds ih =>
    have hc := hd c List.mem_cons_self
    obtain ⟨hlo, -⟩ := digit_bounds hc
    rw [digits, if_pos hc]
    have := ih (fun d hm => hd d (List.mem_cons_of_mem c hm)) (n := n * 10 + ((c.toNat : ℤ) - 48)) (by omega)
    omega

-- as long as the number is an int, nothing wraps around on the way to it
theorem idWrites_digits (x : ℕ) {ds : CStr} (hd : ∀ c ∈ ds, c.isDigit = true) {n : ℤ} (hn : 0 ≤ n)
    (hi : digits n ds < 2 ^ 31) (s : CStr) : idWrites x n (ds ++ s) = idWrites x (digits n ds) s := by
  induction ds generalizing n with
  | nil => rfl
  | cons c ds ih =>
    have hc := hd c List.mem_cons_self
    have hds := fun d hm => hd d (List.mem_cons_of_mem c hm)
    obtain ⟨hlo, -⟩ := digit_bounds hc
    rw [digits, if_pos hc] at hi ⊢
    have hge := digits_ge hds (n := n * 10 + ((c.toNat : ℤ) - 48)) (by omega)
    rw [List.cons_append, idWrites, if_pos hc, i32_of_bounds (by omega) (by omega)]
    exact ih hds (by omega) hi

theorem idWrites_decimal (x : ℕ) {id : ℤ} (hid : 0 < id ∧ isInt id = true) (s : CStr) :
    idWrites x 0 (decimal id ++ s) = idWrites x id s := by
  obtain ⟨hpos, hint⟩ := hid
  simp only [isInt, Bool.and_eq_true, decide_eq_true_eq] at hint
  have hd := digits_toDigits id.natAbs
  have habs : (id.natAbs : ℤ) = id := by omega
  rw [habs] at hd
  rw [decimal, if_neg (by omega), idWrites_digits x (toDigits_isDigit _) le_rfl (by rw [hd]; exact hint.2), hd]

theorem idWrites_commaList {ids : List ℤ} (hids : ∀ id ∈ ids, 0 < id ∧ isInt id = true) (hne : ids ≠ []) {x : ℕ}
    (hx : x + ids.length ≤ 10) :
    idWrites x 0 (commaList ids) = numbered x (ids ++ List.replicate (10 - (x + ids.length)) 0) := by
  induction ids generalizing x with
  | nil => exact absurd rfl hne
  | cons id ids ih =>
    have hid := hids id List.mem_cons_self
    rw [List.cons_append, numbered_cons]
    cases ids with
    | nil =>
      have hw := idWrites_decimal x hid []
      rw [List.append_nil] at hw
      rw [commaList, hw, idWrites, numbered_zeros]
      rfl
    | cons id' ids =>
      rw [List.length_cons] at hx
      have hrest := ih (fun i hi => hids i (List.mem_cons_of_mem id hi)) (List.cons_ne_nil _ _) (x := x + 1)
        (by omega)
      rw [commaList, idWrites_decimal x hid, idWrites, if_neg (by decide), if_pos rfl, hrest,
        List.length_cons (a := id)]
      · rw [Nat.add_assoc, Nat.add_comm 1]
      · exact List.cons_ne_nil _ _

theorem decimal_commas {id : ℤ} (hid : 0 < id) : (decimal id).count ',' = 0 := by
  rw [decimal, if_neg (by omega), List.count_eq_zero]
  intro hm
  have := toDigits_isDigit _ _ hm
  revert this
  decide

theorem commaList_commas {ids : List ℤ} (hids : ∀ id ∈ ids, 0 < id ∧ isInt id = true) :
    (commaList ids).count ',' = ids.length - 1 := by
  induction ids with
  | nil => rfl
  | cons id ids ih =>
    have hid := decimal_commas (hids id List.mem_cons_self).1
    cases ids with
    | nil => exact hid
    | cons id' ids =>
      have hrest := ih (fun i hi => hids i (List.mem_cons_of_mem id hi))
      rw [commaList, List.count_append, hid, List.count_cons_self, hrest]
      · simp
      · exact List.cons_ne_nil _ _

theorem readIds_commaList (old : Vector ℤ 10) {ids : List ℤ} (hids : ∀ id ∈ ids, 0 < id ∧ isInt id = true)
    (hlen : ids.length ≤ 10) :
    ∃ v, readIds old (commaList ids) = some v ∧ v.toList = ids ++ List.replicate (10 - ids.length) 0 := by
  have hw : idWrites 0 0 (commaList ids) = numbered 0 (ids ++ List.replicate (10 - ids.length) 0) := by
    by_cases hne : ids = []
    · subst hne
      rfl
    · have h := idWrites_commaList hids hne (x := 0) (by omega)
      rwa [Nat.zero_add] at h
  unfold readIds
  rw [hw]
  exact putId_numbered (ids ++ List.replicate (10 - ids.length) 0) (by simp; omega) old

theorem reads_ids_iff (old : Vector ℤ 10) (text : CStr) : ReadsIds old text ↔ text.count ',' ≤ 9 := by
  constructor
  · exact fun h => (idWrites_inside text).mp h.inside
  · intro h
    refine ⟨(idWrites_inside text).mpr h, ?_⟩
    rintro ids hids rfl
    rw [commaList_commas hids] at h
    have hlen : ids.length ≤ 10 := by omega
    rw [List.take_of_length_le hlen]
    exact readIds_commaList old hids hlen

theorem eleven_ids_overflow : ¬ ∀ (old : Vector ℤ 10) (text : CStr), text.length ≤ 100 → ReadsIds old text := by
  intro h
  have hr := h (Vector.replicate 10 0) "1,2,3,4,5,6,7,8,9,10,11".toList (by decide)
  have hw := hr.inside (10, 11) (by decide)
  exact absurd hw (by decide)

end FishServer
