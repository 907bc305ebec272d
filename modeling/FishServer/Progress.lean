import FishServer.Account
import FishServer.Lib.Transition

namespace FishServer

open Transition

def ofSpecies (uid no : ℤ) (r : ValueRow) : Bool := Db.isKill uid r && decide (r.param = no)

def killRows (t : Table ValueRow) (uid no : ℤ) : List (ℤ × ValueRow) := t.select (ofSpecies uid no)

def killRow (uid : ℤ) (k : KillFish) (value : ℤ) : ValueRow := ⟨uid, k.no, value, killType⟩

theorem isKill_iff {uid : ℤ} {r : ValueRow} : Db.isKill uid r = true ↔ r.userId = uid ∧ r.type = killType := by
  rw [Db.isKill, Bool.and_eq_true, decide_eq_true_eq, decide_eq_true_eq]

theorem mem_killRows {t : Table ValueRow} {uid no : ℤ} {e : ℤ × ValueRow} :
    e ∈ killRows t uid no ↔ e ∈ t.rows ∧ e.2.userId = uid ∧ e.2.type = killType ∧ e.2.param = no := by
  rw [killRows, Table.select, List.mem_filter, ofSpecies, Bool.and_eq_true, isKill_iff, decide_eq_true_eq,
    and_assoc]

structure RecordOk (uid : ℤ) (t : Table ValueRow) (k : KillFish) : Prop where
  held : k.id ≠ 0 → ∃ v, killRows t uid k.no = [(k.id, killRow uid k v)] ∧ (k.isChange = false → v = k.value)
  made : k.id = 0 → k.isChange = false → ∃ i, killRows t uid k.no = [(i, killRow uid k k.value)]

def Fresh (uid : ℤ) (t : Table ValueRow) (k : KillFish) : Prop :=
  k.isChange = true → k.id = 0 → killRows t uid k.no = []

structure Written (uid : ℤ) (t : Table ValueRow) (k : KillFish) : Prop where
  row : ∃ i, killRows t uid k.no = [(i, killRow uid k k.value)] ∧ (k.id ≠ 0 → i = k.id)

structure Synced (uid : ℤ) (ks : List KillFish) (t : Table ValueRow) : Prop where
  keyed : t.Keyed
  species : (ks.map KillFish.no).Nodup
  records : ∀ k ∈ ks, RecordOk uid t k
  absent : ∀ no, no ≠ 0 → no ∉ ks.map KillFish.no → killRows t uid no = []

theorem RecordOk.congr {uid : ℤ} {t t' : Table ValueRow} {k : KillFish} (h : RecordOk uid t k)
    (heq : killRows t' uid k.no = killRows t uid k.no) : RecordOk uid t' k := by
  constructor
  · rw [heq]
    exact h.held
  · rw [heq]
    exact h.made

/-! One write. -/

theorem update_row (t : Table ValueRow) (uid no id value : ℤ) :
    killRows (t.update id (fun r => { r with value })) uid no =
      (killRows t uid no).map (fun e => if e.1 = id then (e.1, { e.2 with value }) else e) :=
  Table.select_update (fun _ => rfl)

theorem writeKill_keyed {uid : ℤ} {t : Table ValueRow} (h : t.Keyed) (k : KillFish) :
    (writeKill uid k t).Keyed := by
  unfold writeKill
  split_ifs
  · exact h.update _ _
  · exact h.insert _

theorem writeKill_written {uid : ℤ} {t : Table ValueRow} {k : KillFish} (h : RecordOk uid t k)
    (hchange : k.isChange = true) (hfresh : Fresh uid t k) : Written uid (writeKill uid k t) k := by
  constructor
  unfold writeKill
  split_ifs with hid
  · obtain ⟨v, hrow, -⟩ := h.held hid
    refine ⟨k.id, ?_, fun _ => rfl⟩
    rw [update_row, hrow, List.map_singleton, if_pos rfl]
    rfl
  · have hid : k.id = 0 := not_not.mp hid
    have hnew : ofSpecies uid k.no ⟨uid, k.no, k.value, killType⟩ = true := by simp [ofSpecies, Db.isKill]
    have hempty := hfresh hchange hid
    refine ⟨t.next, ?_, fun hne => absurd hid hne⟩
    unfold killRows at hempty ⊢
    rw [Table.select_insert_pos hnew, hempty]
    rfl

theorem writeKill_frame {uid no : ℤ} {t : Table ValueRow} {k : KillFish} (hkeyed : t.Keyed)
    (h : RecordOk uid t k) (hne : no ≠ k.no) : killRows (writeKill uid k t) uid no = killRows t uid no := by
  unfold writeKill
  split_ifs with hid
  · obtain ⟨v, hrow, -⟩ := h.held hid
    have hmem : (k.id, killRow uid k v) ∈ killRows t uid k.no := by
      rw [hrow]
      exact List.mem_singleton_self _
    have hapart : ofSpecies uid no (killRow uid k v) = false := by simp [ofSpecies, killRow, hne.symm]
    exact hkeyed.select_update_other (f := fun r => { r with value := k.value }) (fun _ => rfl) hmem hapart
  · apply Table.select_insert_neg
    simp [ofSpecies, hne.symm]

structure Saved (uid : ℤ) (ks : List KillFish) (t t' : Table ValueRow) : Prop where
  keyed : t'.Keyed
  written : ∀ k ∈ ks, Written uid t' k
  frame : ∀ no, no ∉ ks.map KillFish.no → killRows t' uid no = killRows t uid no

theorem saveKills_records (sql : Sql) (uid : ℤ) (n : ℕ) (ks : List KillFish) (t : Table ValueRow) :
    (saveKills sql uid n ks t).1 = ks.map (fun k => { k with isChange := false }) := by
  induction ks generalizing n t with
  | nil => rfl
  | cons k ks ih =>
    rw [saveKills]
    dsimp only
    rw [ih, List.map_cons]

theorem Written.unchanged {uid : ℤ} {t : Table ValueRow} {k : KillFish} (h : RecordOk uid t k)
    (hchange : k.isChange = false) : Written uid t k := by
  constructor
  by_cases hid : k.id = 0
  · obtain ⟨i, hrow⟩ := h.made hid hchange
    exact ⟨i, hrow, fun hne => absurd hid hne⟩
  · obtain ⟨v, hrow, hv⟩ := h.held hid
    rw [hv hchange] at hrow
    exact ⟨k.id, hrow, fun _ => rfl⟩

theorem saveKills_saved {uid : ℤ} {ks : List KillFish} {t : Table ValueRow} (n : ℕ) (hkeyed : t.Keyed)
    (hspecies : (ks.map KillFish.no).Nodup) (hrecords : ∀ k ∈ ks, RecordOk uid t k)
    (hfresh : ∀ k ∈ ks, Fresh uid t k) :
    Saved uid ks t (saveKills Sql.allGood uid n ks t).2 := by
  induction ks generalizing n t with
  | nil =>
    exact ⟨hkeyed, fun k hk => absurd hk List.not_mem_nil, fun _ _ => rfl⟩
  | cons k ks ih =>
    rw [List.map_cons, List.nodup_cons] at hspecies
    have hk := hrecords k List.mem_cons_self
    have hhead : ∃ t₁, t₁ = (if k.isChange ∧ Sql.allGood.kill n then writeKill uid k t else t) ∧ t₁.Keyed ∧
        Written uid t₁ k ∧ ∀ no, no ≠ k.no → killRows t₁ uid no = killRows t uid no := by
      refine ⟨_, rfl, ?_⟩
      split_ifs with hchange
      · exact ⟨writeKill_keyed hkeyed k,
          writeKill_written hk hchange.1 (hfresh k List.mem_cons_self),
          fun no hne => writeKill_frame hkeyed hk hne⟩
      · have hsame : k.isChange = false := by
          by_contra hback
          exact hchange ⟨by simpa using hback, rfl⟩
        exact ⟨hkeyed, Written.unchanged hk hsame, fun _ _ => rfl⟩
    obtain ⟨t₁, ht₁, hkeyed₁, hwritten, hframe⟩ := hhead
    have hother : ∀ k' ∈ ks, k'.no ≠ k.no := by
      intro k' hk' heq
      apply hspecies.1
      rw [← heq]
      exact List.mem_map_of_mem hk'
    have hrest := ih (t := t₁) (n + 1) hkeyed₁ hspecies.2
      (fun k' hk' => (hrecords k' (List.mem_cons_of_mem k hk')).congr (hframe k'.no (hother k' hk')))
      (fun k' hk' => by
        unfold Fresh
        rw [hframe k'.no (hother k' hk')]
        exact hfresh k' (List.mem_cons_of_mem k hk'))
    rw [saveKills, ← ht₁]
    constructor
    · exact hrest.keyed
    · intro k' hk'
      rcases List.mem_cons.mp hk' with rfl | htail
      · constructor
        rw [hrest.frame k'.no hspecies.1]
        exact hwritten.row
      · exact hrest.written k' htail
    · intro no hno
      rw [List.map_cons, List.mem_cons, not_or] at hno
      rw [hrest.frame no hno.2]
      exact hframe no hno.1

theorem marked_species (ks : List KillFish) :
    (ks.map (fun k => { k with isChange := false })).map KillFish.no = ks.map KillFish.no := by
  rw [List.map_map]
  rfl

theorem Synced.save {uid : ℤ} {ks : List KillFish} {t : Table ValueRow} (n : ℕ) (h : Synced uid ks t)
    (hfresh : ∀ k ∈ ks, Fresh uid t k) :
    Synced uid (saveKills Sql.allGood uid n ks t).1 (saveKills Sql.allGood uid n ks t).2 := by
  have hsaved := saveKills_saved n h.keyed h.species h.records hfresh
  rw [saveKills_records]
  constructor
  · exact hsaved.keyed
  · rw [marked_species]
    exact h.species
  · intro k' hk'
    obtain ⟨k, hk, rfl⟩ := List.mem_map.mp hk'
    obtain ⟨i, hrow, hid⟩ := (hsaved.written k hk).row
    constructor
    · intro hne
      rw [hid hne] at hrow
      exact ⟨k.value, hrow, fun _ => rfl⟩
    · intro _ _
      exact ⟨i, hrow⟩
  · intro no hno hmiss
    rw [marked_species] at hmiss
    rw [hsaved.frame no hmiss]
    exact h.absent no hno hmiss

theorem killFish_species (no : ℤ) (ks : List KillFish) :
    (killFish no ks).map KillFish.no =
      if no ∈ ks.map KillFish.no then ks.map KillFish.no else ks.map KillFish.no ++ [no] := by
  induction ks with
  | nil => rfl
  | cons k ks ih =>
    rw [killFish]
    by_cases hk : k.no = no
    · simp [hk]
    · have hne : no ≠ k.no := fun h => hk h.symm
      rw [if_neg hk, List.map_cons, ih, List.map_cons]
      by_cases hmem : no ∈ ks.map KillFish.no
      · rw [if_pos hmem, if_pos (List.mem_cons_of_mem _ hmem)]
      · rw [if_neg hmem, if_neg (by simp [hne, hmem]), List.cons_append]

theorem mem_killFish {no : ℤ} {ks : List KillFish} {k' : KillFish} (h : k' ∈ killFish no ks) :
    k' ∈ ks ∨ k'.isChange = true ∧ (k'.id = 0 ∨ ∃ k ∈ ks, k.id = k'.id ∧ k.no = k'.no) := by
  induction ks with
  | nil =>
    rw [killFish, List.mem_singleton] at h
    rw [h]
    exact Or.inr ⟨rfl, Or.inl rfl⟩
  | cons k ks ih =>
    rw [killFish] at h
    split_ifs at h with hk
    · rcases List.mem_cons.mp h with rfl | htail
      · exact Or.inr ⟨rfl, Or.inr ⟨k, List.mem_cons_self, rfl, rfl⟩⟩
      · exact Or.inl (List.mem_cons_of_mem k htail)
    · rcases List.mem_cons.mp h with rfl | htail
      · exact Or.inl List.mem_cons_self
      · rcases ih htail with hold | ⟨hchange, hnew | ⟨k₀, hk₀, hid, hno⟩⟩
        · exact Or.inl (List.mem_cons_of_mem k hold)
        · exact Or.inr ⟨hchange, Or.inl hnew⟩
        · exact Or.inr ⟨hchange, Or.inr ⟨k₀, List.mem_cons_of_mem k hk₀, hid, hno⟩⟩

theorem RecordOk.changed {uid : ℤ} {t : Table ValueRow} {k k' : KillFish} (h : RecordOk uid t k)
    (hid : k.id = k'.id) (hno : k.no = k'.no) (hchange : k'.isChange = true) : RecordOk uid t k' := by
  constructor
  · intro hne
    obtain ⟨v, hrow, -⟩ := h.held (by rwa [hid])
    rw [hno, hid, killRow, hno] at hrow
    exact ⟨v, hrow, fun hback => by rw [hchange] at hback; cases hback⟩
  · intro _ hback
    rw [hchange] at hback
    cases hback

theorem Synced.kill {uid : ℤ} {ks : List KillFish} {t : Table ValueRow} (h : Synced uid ks t) (no : ℤ) :
    Synced uid (killFish no ks) t := by
  constructor
  · exact h.keyed
  · rw [killFish_species]
    split_ifs with hmem
    · exact h.species
    · exact List.Nodup.append h.species (List.nodup_singleton no) (by simpa using hmem)
  · intro k' hk'
    rcases mem_killFish hk' with hold | ⟨hchange, hnew | ⟨k, hk, hid, hno⟩⟩
    · exact h.records k' hold
    · constructor
      · intro hne
        exact absurd hnew hne
      · intro _ hback
        rw [hchange] at hback
        cases hback
    · exact (h.records k hk).changed hid hno hchange
  · intro n hn hmiss
    apply h.absent n hn
    intro hmem
    apply hmiss
    rw [killFish_species]
    split_ifs
    · exact hmem
    · exact List.mem_append_left _ hmem

def Db.isLoaded (uid : ℤ) (r : ValueRow) : Bool := Db.isKill uid r && decide (r.param ≠ 0)

def loaded (e : ℤ × ValueRow) : KillFish := ⟨e.1, e.2.param, e.2.value, false⟩

theorem loadKills_eq (db : Db) (uid : ℤ) : db.loadKills uid = (db.values.select (Db.isLoaded uid)).map loaded := rfl

theorem loaded_rows (t : Table ValueRow) (uid : ℤ) {no : ℤ} (h : no ≠ 0) :
    (t.select (Db.isLoaded uid)).filter (fun e => decide ((loaded e).no = no)) = killRows t uid no := by
  rw [killRows, Table.select, Table.select, List.filter_filter]
  apply List.filter_congr
  intro e _
  rw [ofSpecies, Db.isLoaded]
  by_cases hno : e.2.param = no
  · simp [loaded, hno, h]
  · simp [loaded, hno]

theorem killCount_map {no : ℤ} (l : List (ℤ × ValueRow)) :
    killCount no (l.map loaded) =
      ((l.filter (fun e => decide ((loaded e).no = no))).map (fun e => e.2.value)).headD 0 := by
  induction l with
  | nil => rfl
  | cons e l ih =>
    rw [List.map_cons, killCount]
    by_cases hno : (loaded e).no = no
    · rw [if_pos hno, List.filter_cons_of_pos (by simpa using hno)]
      rfl
    · rw [if_neg hno, List.filter_cons_of_neg (by simpa using hno), ih]

theorem killCount_loaded (db : Db) (uid : ℤ) {no : ℤ} (h : no ≠ 0) :
    killCount no (db.loadKills uid) = ((killRows db.values uid no).map (fun e => e.2.value)).headD 0 := by
  rw [loadKills_eq, killCount_map, loaded_rows _ _ h]

theorem killCount_of_notMem {no : ℤ} {ks : List KillFish} (h : no ∉ ks.map KillFish.no) : killCount no ks = 0 := by
  induction ks with
  | nil => rfl
  | cons k ks ih =>
    rw [List.map_cons, List.mem_cons, not_or] at h
    rw [killCount, if_neg (fun heq => h.1 heq.symm), ih h.2]

theorem killCount_of_mem {k : KillFish} {ks : List KillFish} (hnodup : (ks.map KillFish.no).Nodup) (h : k ∈ ks) :
    killCount k.no ks = k.value := by
  induction ks with
  | nil => cases h
  | cons k' ks ih =>
    rw [List.map_cons, List.nodup_cons] at hnodup
    rw [killCount]
    rcases List.mem_cons.mp h with rfl | htail
    · rw [if_pos rfl]
    · have hne : k'.no ≠ k.no := by
        intro heq
        apply hnodup.1
        rw [heq]
        exact List.mem_map_of_mem htail
      rw [if_neg hne, ih hnodup.2 htail]

theorem mem_loaded {t : Table ValueRow} {uid : ℤ} {e : ℤ × ValueRow} (h : e ∈ t.select (Db.isLoaded uid)) :
    e ∈ killRows t uid e.2.param ∧ e.2.param ≠ 0 := by
  obtain ⟨hrow, hp⟩ := List.mem_filter.mp h
  rw [Db.isLoaded, Bool.and_eq_true, isKill_iff, decide_eq_true_eq] at hp
  exact ⟨mem_killRows.mpr ⟨hrow, hp.1.1, hp.1.2, rfl⟩, hp.2⟩

theorem synced_load {db : Db} {uid : ℤ} (hkeyed : db.values.Keyed)
    (hone : ∀ no, no ≠ 0 → (killRows db.values uid no).length ≤ 1) :
    Synced uid (db.loadKills uid) db.values := by
  rw [loadKills_eq]
  constructor
  · exact hkeyed
  · rw [List.map_map, List.nodup_iff_count_le_one]
    intro no
    rw [List.count, List.countP_map, List.countP_eq_length_filter]
    by_cases hno : no = 0
    · have hnone : (db.values.select (Db.isLoaded uid)).filter ((fun x => x == no) ∘ (KillFish.no ∘ loaded)) = [] := by
        apply List.filter_eq_nil_iff.mpr
        intro e he
        have hparam := (mem_loaded he).2
        simpa [hno, loaded] using hparam
      rw [hnone]
      exact Nat.zero_le 1
    · have hrows := hone no hno
      rw [← loaded_rows db.values uid hno] at hrows
      exact hrows
  · intro k hk
    obtain ⟨e, he, rfl⟩ := List.mem_map.mp hk
    obtain ⟨hrow, hparam⟩ := mem_loaded he
    have hlen := hone e.2.param hparam
    have hsingle : killRows db.values uid e.2.param = [e] := by
      obtain ⟨x, hx⟩ := List.length_eq_one_iff.mp (le_antisymm hlen (List.length_pos_of_mem hrow))
      rw [hx] at hrow ⊢
      rw [List.mem_singleton.mp hrow]
    obtain ⟨hin, huser, htype, -⟩ := mem_killRows.mp hrow
    have hfields : e.2 = killRow uid (loaded e) e.2.value := by
      cases hrowe : e.2 with
      | mk userId param value type =>
        rw [hrowe] at huser htype
        simp only at huser htype
        rw [huser, htype, killRow, loaded, hrowe]
    have hkey : (loaded e).id ≠ 0 := (hkeyed.bounds e hin).1.ne'
    constructor
    · intro _
      refine ⟨e.2.value, ?_, fun _ => rfl⟩
      rw [← hfields]
      exact hsingle
    · intro hzero
      exact absurd hzero hkey
  · intro no hno hmiss
    rw [← loaded_rows db.values uid hno]
    apply List.filter_eq_nil_iff.mpr
    intro e he hspecies
    apply hmiss
    rw [List.map_map]
    exact List.mem_map.mpr ⟨e, he, of_decide_eq_true hspecies⟩

def ofUser (uid : ℤ) (r : TaskRow) : Bool := decide (r.userId = uid)

def taskRecord (e : ℤ × TaskRow) : ℤ × ℤ := (e.2.taskId, e.2.status)

def Db.taskRecords (db : Db) (uid : ℤ) : List (ℤ × ℤ) := (db.tasks.select (ofUser uid)).map taskRecord

def Account.taskRecords (a : Account) : List (ℤ × ℤ) := a.task.map (fun task => (task.taskId, task.status))

theorem saveTasks_records (uid now : ℤ) (n : ℕ) {tasks : List UserTask} (t : Table TaskRow)
    (hnew : ∀ task ∈ tasks, task.isNew = true) :
    ((saveTasks Sql.allGood uid now n tasks t).select (ofUser uid)).map taskRecord =
      (t.select (ofUser uid)).map taskRecord ++ tasks.map (fun task => (task.taskId, task.status)) := by
  induction tasks generalizing n t with
  | nil =>
    rw [List.map_nil, List.append_nil]
    rfl
  | cons task tasks ih =>
    have hwrite : task.isNew = true ∧ Sql.allGood.task n = true := ⟨hnew task List.mem_cons_self, rfl⟩
    have hmine : ofUser uid ⟨uid, task.taskId, task.status, now, now⟩ = true := decide_eq_true rfl
    rw [saveTasks, if_pos hwrite, ih _ _ (fun x hx => hnew x (List.mem_cons_of_mem task hx)),
      Table.select_insert_pos hmine, List.map_append, List.append_assoc]
    rfl

structure Progress where
  account : Account
  db : Db

inductive ProgressOp
  | kill (no : ℤ)
  | add (task : UserTask)
  | save (now : ℤ)

def Progress.save (s : Progress) (now : ℤ) : Progress :=
  ⟨(Account.save Sql.allGood now s.account s.db).1, (Account.save Sql.allGood now s.account s.db).2⟩

/-- Only records of tasks completed now are added. -/
def progressStep (s : Progress) : ProgressOp → Option Progress
  | .kill no => some { s with account := s.account.killFish no }
  | .add task => if task.isNew then some { s with account := s.account.addTask task } else none
  | .save now => some (s.save now)

def Progress.loaded (db : Db) (uid now : ℤ) : Progress := ⟨Account.load db uid now, db⟩

/-- One row for each species killed, with the number of kills, and one task row for each record, behind the rows
`base` found at load. -/
structure RowsPersisted (base : List (ℤ × ℤ)) (s : Progress) : Prop where
  kills : ∀ no, killCount no s.account.killfish ≠ 0 →
    (killRows s.db.values s.account.id no).map (fun e => e.2.value) = [killCount no s.account.killfish]
  tasks : s.db.taskRecords s.account.id = base ++ s.account.taskRecords

structure LoadReproduces (s : Progress) : Prop where
  kills : ∀ now no, killCount no (Account.load s.db s.account.id now).killfish = killCount no s.account.killfish
  tasks : ∀ now, (Account.load s.db s.account.id now).taskRecords = s.account.taskRecords

/-- No record is inserted a second time. -/
def Progress.insertsOnce (base : List (ℤ × ℤ)) (s : Progress) : Bool :=
  s.account.killfish.all (fun k => !k.isChange || decide (k.id ≠ 0) ||
    (killRows s.db.values s.account.id k.no).isEmpty) &&
  (s.account.task.isEmpty || decide (s.db.taskRecords s.account.id = base))

/-- What `load` does not read back is not there. -/
def Progress.loadsBack (s : Progress) : Bool :=
  decide (killCount 0 s.account.killfish = 0) && s.account.task.isEmpty

def savesOnce (base : List (ℤ × ℤ)) (s : Progress) : ProgressOp → Bool
  | .save _ => s.insertsOnce base
  | _ => true

theorem save_parts {a : Account} (db : Db) (now : ℤ) (hid : a.id ≠ 0) :
    (Account.save Sql.allGood now a db).1.id = a.id ∧
      (Account.save Sql.allGood now a db).1.task = a.task ∧
      (Account.save Sql.allGood now a db).1.killfish = (saveKills Sql.allGood a.id 0 a.killfish db.values).1 ∧
      (Account.save Sql.allGood now a db).2.values = (saveKills Sql.allGood a.id 0 a.killfish db.values).2 ∧
      (Account.save Sql.allGood now a db).2.tasks = saveTasks Sql.allGood a.id now 0 a.task db.tasks := by
  unfold Account.save
  rw [if_neg hid]
  by_cases hcoin : a.coin = a.backupCoin
  · simp [Account.saveCoin, hcoin]
  · simp [Account.saveCoin, hcoin, Db.setBalance, Sql.allGood]

structure Progress.Sound (base : List (ℤ × ℤ)) (uid : ℤ) (s : Progress) : Prop where
  id : s.account.id = uid
  synced : Synced uid s.account.killfish s.db.values
  isNew : ∀ task ∈ s.account.task, task.isNew = true
  base : s.account.task = [] → s.db.taskRecords uid = base

theorem Progress.sound_loaded {db : Db} {uid : ℤ} (now : ℤ) (hkeyed : db.values.Keyed)
    (hone : ∀ no, no ≠ 0 → (killRows db.values uid no).length ≤ 1) :
    (Progress.loaded db uid now).Sound (db.taskRecords uid) uid where
  id := rfl
  synced := synced_load hkeyed hone
  isNew := fun _ hmem => absurd hmem List.not_mem_nil
  base := fun _ => rfl

theorem Progress.insertsOnce_iff {base : List (ℤ × ℤ)} {s : Progress} :
    s.insertsOnce base = true ↔ (∀ k ∈ s.account.killfish, Fresh s.account.id s.db.values k) ∧
      (s.account.task = [] ∨ s.db.taskRecords s.account.id = base) := by
  unfold Progress.insertsOnce Fresh
  rw [Bool.and_eq_true, List.all_eq_true, Bool.or_eq_true, List.isEmpty_iff, decide_eq_true_eq]
  apply and_congr_left'
  apply forall₂_congr
  intro k _
  cases k.isChange <;> by_cases hid : k.id = 0 <;> simp [hid]

theorem Progress.Sound.kill {base : List (ℤ × ℤ)} {uid : ℤ} {s : Progress} (h : s.Sound base uid) (no : ℤ) :
    Progress.Sound base uid { s with account := s.account.killFish no } where
  id := h.id
  synced := h.synced.kill no
  isNew := h.isNew
  base := h.base

theorem Progress.Sound.add {base : List (ℤ × ℤ)} {uid : ℤ} {s : Progress} (h : s.Sound base uid)
    {task : UserTask} (hnew : task.isNew = true) :
    Progress.Sound base uid { s with account := s.account.addTask task } where
  id := h.id
  synced := h.synced
  isNew := by
    intro x hx
    rcases List.mem_append.mp hx with hold | hlast
    · exact h.isNew x hold
    · rw [List.mem_singleton.mp hlast]
      exact hnew
  base := by
    intro hempty
    exact absurd hempty (List.append_ne_nil_of_right_ne_nil _ (List.cons_ne_nil _ _))

theorem Progress.Sound.rows {base : List (ℤ × ℤ)} {uid : ℤ} {s : Progress} (h : s.Sound base uid) (huid : uid ≠ 0)
    (honce : s.insertsOnce base = true) (now : ℤ) :
    (s.save now).db.taskRecords uid = base ++ (s.save now).account.taskRecords := by
  have hid : s.account.id ≠ 0 := by rwa [h.id]
  obtain ⟨-, htask, -, -, htasks⟩ := save_parts s.db now hid
  have hbase : s.db.taskRecords uid = base := by
    rcases (Progress.insertsOnce_iff.mp honce).2 with hempty | hsame
    · exact h.base hempty
    · rw [← h.id]
      exact hsame
  change ((Account.save Sql.allGood now s.account s.db).2.tasks.select (ofUser uid)).map taskRecord =
    base ++ (Account.save Sql.allGood now s.account s.db).1.task.map _
  rw [htasks, htask, h.id, saveTasks_records uid now 0 s.db.tasks h.isNew]
  change s.db.taskRecords uid ++ _ = _
  rw [hbase]

theorem Progress.Sound.save {base : List (ℤ × ℤ)} {uid : ℤ} {s : Progress} (h : s.Sound base uid) (huid : uid ≠ 0)
    (honce : s.insertsOnce base = true) (now : ℤ) : (s.save now).Sound base uid := by
  have hid : s.account.id ≠ 0 := by rwa [h.id]
  obtain ⟨hsame, htask, hkills, hvalues, -⟩ := save_parts s.db now hid
  have hfresh := (Progress.insertsOnce_iff.mp honce).1
  rw [h.id] at hfresh
  constructor
  · exact hsame.trans h.id
  · change Synced uid (Account.save Sql.allGood now s.account s.db).1.killfish
      (Account.save Sql.allGood now s.account s.db).2.values
    rw [hkills, hvalues, h.id]
    exact h.synced.save 0 hfresh
  · change ∀ task ∈ (Account.save Sql.allGood now s.account s.db).1.task, _
    rw [htask]
    exact h.isNew
  · intro hempty
    have hrows := h.rows huid honce now
    rw [Account.taskRecords, hempty, List.map_nil, List.append_nil] at hrows
    exact hrows

theorem Progress.Sound.step {base : List (ℤ × ℤ)} {uid : ℤ} (huid : uid ≠ 0) {s t : Progress} {op : ProgressOp}
    (h : s.Sound base uid) (hok : savesOnce base s op = true) (ht : progressStep s op = some t) :
    t.Sound base uid := by
  cases op with
  | kill no =>
    cases ht
    exact h.kill no
  | add task =>
    rw [progressStep] at ht
    split_ifs at ht with hnew
    cases ht
    exact h.add hnew
  | save now =>
    cases ht
    exact h.save huid hok now

theorem Synced.count {uid : ℤ} {ks : List KillFish} {t : Table ValueRow} (h : Synced uid ks t)
    (hsaved : ∀ k ∈ ks, k.isChange = false) {k : KillFish} (hk : k ∈ ks) :
    (killRows t uid k.no).map (fun e => e.2.value) = [killCount k.no ks] := by
  obtain ⟨i, hrow, -⟩ := (Written.unchanged (h.records k hk) (hsaved k hk)).row
  rw [hrow, killCount_of_mem h.species hk]
  rfl

theorem save_unchanged {s : Progress} (hid : s.account.id ≠ 0) (now : ℤ) :
    ∀ k ∈ (s.save now).account.killfish, k.isChange = false := by
  obtain ⟨-, -, hkills, -, -⟩ := save_parts s.db now hid
  change ∀ k ∈ (Account.save Sql.allGood now s.account s.db).1.killfish, k.isChange = false
  rw [hkills, saveKills_records]
  intro k' hk'
  obtain ⟨k, -, rfl⟩ := List.mem_map.mp hk'
  rfl

theorem killCount_marked (no : ℤ) (ks : List KillFish) :
    killCount no (ks.map (fun k => { k with isChange := false })) = killCount no ks := by
  induction ks with
  | nil => rfl
  | cons k ks ih =>
    rw [List.map_cons, killCount, killCount, ih]

theorem exists_of_killCount {no : ℤ} {ks : List KillFish} (h : killCount no ks ≠ 0) : ∃ k ∈ ks, k.no = no := by
  by_contra hnone
  apply h
  apply killCount_of_notMem
  intro hmem
  obtain ⟨k, hk, hno⟩ := List.mem_map.mp hmem
  exact hnone ⟨k, hk, hno⟩

theorem killCount_save {s : Progress} (hid : s.account.id ≠ 0) (now no : ℤ) :
    killCount no (s.save now).account.killfish = killCount no s.account.killfish := by
  obtain ⟨-, -, hkills, -, -⟩ := save_parts s.db now hid
  change killCount no (Account.save Sql.allGood now s.account s.db).1.killfish = _
  rw [hkills, saveKills_records, killCount_marked]

theorem not_loaded_zero (db : Db) (uid : ℤ) : killCount 0 (db.loadKills uid) = 0 := by
  apply killCount_of_notMem
  intro hmem
  obtain ⟨k, hk, hno⟩ := List.mem_map.mp hmem
  rw [loadKills_eq] at hk
  obtain ⟨e, he, rfl⟩ := List.mem_map.mp hk
  exact (mem_loaded he).2 hno

theorem Progress.Sound.persisted {base : List (ℤ × ℤ)} {uid : ℤ} (huid : uid ≠ 0) {s : Progress}
    (h : s.Sound base uid) (honce : s.insertsOnce base = true) (now : ℤ) : RowsPersisted base (s.save now) := by
  have hnext := h.save huid honce now
  have hid : s.account.id ≠ 0 := by rwa [h.id]
  constructor
  · intro no hcount
    obtain ⟨k, hk, rfl⟩ := exists_of_killCount hcount
    rw [hnext.id]
    exact hnext.synced.count (save_unchanged hid now) hk
  · rw [hnext.id]
    exact h.rows huid honce now

theorem Progress.Sound.reproduces {base : List (ℤ × ℤ)} {uid : ℤ} (huid : uid ≠ 0) {s : Progress}
    (h : s.Sound base uid) (honce : s.insertsOnce base = true) (hback : s.loadsBack = true) (now : ℤ) :
    LoadReproduces (s.save now) := by
  have hnext := h.save huid honce now
  have hid : s.account.id ≠ 0 := by rwa [h.id]
  rw [Progress.loadsBack, Bool.and_eq_true, decide_eq_true_eq, List.isEmpty_iff] at hback
  obtain ⟨hzero, hempty⟩ := hback
  constructor
  · intro _ no
    change killCount no ((s.save now).db.loadKills (s.save now).account.id) = _
    rw [hnext.id]
    by_cases hno : no = 0
    · rw [hno, not_loaded_zero, killCount_save hid, hzero]
    · rw [killCount_loaded _ _ hno]
      by_cases hmem : no ∈ (s.save now).account.killfish.map KillFish.no
      · obtain ⟨k, hk, rfl⟩ := List.mem_map.mp hmem
        rw [hnext.synced.count (save_unchanged hid now) hk]
        rfl
      · rw [hnext.synced.absent no hno hmem, killCount_of_notMem hmem]
        rfl
  · intro _
    obtain ⟨-, htask, -, -, -⟩ := save_parts s.db now hid
    change [] = (Account.save Sql.allGood now s.account s.db).1.task.map _
    rw [htask, hempty]
    rfl

/-- After each save of a run that inserts no record twice the rows are those of the account, and `load` reads
them back when there are no tasks and no fish of species 0. -/
theorem progress_persisted {db : Db} {uid : ℤ} (time : ℤ) (huid : uid ≠ 0) (hkeyed : db.values.Keyed)
    (hone : ∀ no, no ≠ 0 → (killRows db.values uid no).length ≤ 1) {s : Progress}
    (h : Reach progressStep (fun s op => savesOnce (db.taskRecords uid) s op = true)
      (Progress.loaded db uid time) s)
    (honce : s.insertsOnce (db.taskRecords uid) = true) (now : ℤ) :
    RowsPersisted (db.taskRecords uid) (s.save now) ∧ (s.loadsBack = true → LoadReproduces (s.save now)) := by
  have hsound := h.invariant (Progress.sound_loaded time hkeyed hone)
    (fun s op t hs hok ht => hs.step huid hok ht)
  constructor
  · exact hsound.persisted huid honce now
  · intro hback
    exact hsound.reproduces huid honce hback now

def recordedDb : Db := ⟨fun _ => some 0, [], Table.empty.insert ⟨7, 3, 2, killType⟩, Table.empty⟩

theorem recorded_once (no : ℤ) : (killRows recordedDb.values 7 no).length ≤ 1 := List.length_filter_le _ _

theorem recorded_species_persists : ∃ s : Progress,
    runIf progressStep (savesOnce []) (Progress.loaded recordedDb 7 0) [.kill 3, .save 5, .kill 3] = some s ∧
      RowsPersisted [] (s.save 6) ∧ (s.loadsBack = true → LoadReproduces (s.save 6)) := by
  obtain ⟨s, hs, honce⟩ : ∃ s, runIf progressStep (savesOnce []) (Progress.loaded recordedDb 7 0)
      [.kill 3, .save 5, .kill 3] = some s ∧ s.insertsOnce [] = true := ⟨_, rfl, by decide⟩
  exact ⟨s, hs, progress_persisted 0 (by decide) (Table.keyed_empty.insert _) (fun no _ => recorded_once no)
    (Reach.of_runIf hs) honce 6⟩

/-- A species that is new at load and changes before two saves gets two rows. -/
theorem new_species_saved_twice :
    ¬ ∀ (db : Db) (uid time : ℤ), uid ≠ 0 → db.values.Keyed →
      (∀ no, no ≠ 0 → (killRows db.values uid no).length ≤ 1) →
      ∀ s, Reach progressStep (fun _ _ => True) (Progress.loaded db uid time) s →
      ∀ now, RowsPersisted (db.taskRecords uid) (s.save now) ∧ LoadReproduces (s.save now) := by
  intro h
  obtain ⟨s, hs, hrows⟩ : ∃ s, runIf progressStep (fun _ _ => true)
      (Progress.loaded ⟨fun _ => some 0, [], Table.empty, Table.empty⟩ 7 0) [.kill 3, .save 5, .kill 3] = some s ∧
      killCount 3 s.account.killfish = 2 ∧ killCount 3 (s.save 6).account.killfish = 2 ∧
      (killRows (s.save 6).db.values (s.save 6).account.id 3).map (fun e => e.2.value) = [1, 2] :=
    ⟨_, rfl, by decide⟩
  obtain ⟨-, hcount, hvalues⟩ := hrows
  have hrun : Reach progressStep (fun _ _ => True)
      (Progress.loaded ⟨fun _ => some 0, [], Table.empty, Table.empty⟩ 7 0) s :=
    (Reach.of_runIf hs).mono (fun _ _ _ => trivial)
  obtain ⟨hpersisted, -⟩ := h ⟨fun _ => some 0, [], Table.empty, Table.empty⟩ 7 0 (by decide) Table.keyed_empty
    (fun _ _ => Nat.zero_le 1) s hrun 6
  have hone := hpersisted.kills 3 (by rw [hcount]; decide)
  rw [hvalues, hcount] at hone
  exact absurd hone (by decide)

end FishServer
