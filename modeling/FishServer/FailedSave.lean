import FishServer.Progress

namespace FishServer

/-! Saves some of whose statements fail. -/

def Account.owed (a : Account) : ℤ := a.coin - a.backupCoin

-- a later save whose statement for the task succeeds puts it into the table
def Account.WritesTask (a : Account) (n : ℕ) (task : UserTask) : Prop :=
  ∀ sql now db, sql.task n = true →
    ∃ e ∈ (Account.save sql now a db).2.tasks.rows, e.2 = ⟨a.id, task.taskId, task.status, now, now⟩

/-- The money is neither lost nor made, and what was to be written and was not will be. -/
structure Account.SavesAll (sql : Sql) (now : ℤ) (a : Account) (db : Db) : Prop where
  money : (Account.save sql now a db).2.getCoin a.id + (Account.save sql now a db).1.owed =
    db.getCoin a.id + a.owed
  kills : ∀ n k, a.killfish[n]? = some k → k.isChange = true → sql.kill n = false →
    (Account.save sql now a db).1.killfish[n]? = some k
  tasks : ∀ n task, a.task[n]? = some task → task.isNew = true → sql.task n = false →
    (Account.save sql now a db).1.task[n]? = some task ∧ (Account.save sql now a db).1.WritesTask n task

structure Account.Covered (sql : Sql) (a : Account) (db : Db) : Prop where
  coin : a.coin ≠ a.backupCoin → sql.coin = true ∧ (db.balance a.id).isSome ∧
    (sql.balance = true ∨ db.getCoin a.id = 0) ∧ isInt (db.getCoin a.id + a.owed) = true
  kills : ∀ n k, a.killfish[n]? = some k → k.isChange = true → sql.kill n = true

theorem i32_eq_add_iff {x y : ℤ} (hx : isInt x = true) : i32 (0 + i32 y) = x + y ↔ x = 0 ∧ isInt (x + y) = true := by
  rw [i32_add_i32, zero_add]
  simp only [isInt, Bool.and_eq_true, decide_eq_true_eq] at hx ⊢
  unfold i32
  omega

section

variable {sql : Sql} {now : ℤ} {a : Account} {db : Db}

theorem saveCoin_parts (sql : Sql) (a : Account) (db : Db) :
    (a.saveCoin sql db).1.id = a.id ∧ (a.saveCoin sql db).1.task = a.task ∧
      (a.saveCoin sql db).1.killfish = a.killfish ∧ (a.saveCoin sql db).2.values = db.values ∧
      (a.saveCoin sql db).2.tasks = db.tasks := by
  unfold Account.saveCoin
  split_ifs <;> simp [Db.setBalance]

theorem save_eq (hid : a.id ≠ 0) :
    (Account.save sql now a db).1.id = a.id ∧ (Account.save sql now a db).1.task = a.task ∧
      (Account.save sql now a db).1.killfish = (saveKills sql a.id 0 a.killfish db.values).1 ∧
      (Account.save sql now a db).2.values = (saveKills sql a.id 0 a.killfish db.values).2 ∧
      (Account.save sql now a db).2.tasks = saveTasks sql a.id now 0 a.task db.tasks ∧
      (Account.save sql now a db).1.owed = (Account.saveCoin sql { a with opTime := now } db).1.owed ∧
      (Account.save sql now a db).2.getCoin a.id =
        (Account.saveCoin sql { a with opTime := now } db).2.getCoin a.id := by
  obtain ⟨h₁, h₂, h₃, h₄, h₅⟩ := saveCoin_parts sql { a with opTime := now } db
  unfold Account.save
  rw [if_neg hid]
  simp only [h₁, h₂, h₃, h₄, h₅, Account.owed, Db.getCoin, and_self]

theorem saveCoin_same (h : a.coin = a.backupCoin) : a.saveCoin sql db = (a, db) := by
  unfold Account.saveCoin
  rw [if_pos h]

theorem getCoin_setBalance (db : Db) (uid b : ℤ) :
    (db.setBalance uid b).getCoin uid = if (db.balance uid).isSome then b else db.getCoin uid := by
  unfold Db.setBalance Db.getCoin
  simp only [Function.update_self]
  cases db.balance uid <;> rfl

theorem saveCoin_changed (h : a.coin ≠ a.backupCoin) :
    (a.saveCoin sql db).1.owed = 0 ∧ (a.saveCoin sql db).2.getCoin a.id =
      if sql.coin = true ∧ (db.balance a.id).isSome then
        i32 ((if sql.balance then db.getCoin a.id else 0) + i32 a.owed)
      else db.getCoin a.id := by
  unfold Account.saveCoin
  rw [if_neg h]
  refine ⟨sub_self _, ?_⟩
  have hlog : ∀ (d : Db) (l : CoinLog), (if sql.log then { d with logs := l :: d.logs } else d).getCoin a.id =
      d.getCoin a.id := by
    intro d l
    split_ifs <;> rfl
  simp only
  rw [hlog]
  cases sql.coin with
  | false => rfl
  | true =>
    rw [if_pos rfl, getCoin_setBalance]
    simp only [true_and]
    rfl

theorem saveCoin_money (hb : isInt (db.getCoin a.id) = true) :
    (a.saveCoin sql db).2.getCoin a.id + (a.saveCoin sql db).1.owed = db.getCoin a.id + a.owed ↔
      (a.coin ≠ a.backupCoin → sql.coin = true ∧ (db.balance a.id).isSome ∧
        (sql.balance = true ∨ db.getCoin a.id = 0) ∧ isInt (db.getCoin a.id + a.owed) = true) := by
  by_cases h : a.coin = a.backupCoin
  · rw [saveCoin_same h]
    exact ⟨fun _ hne => absurd h hne, fun _ => rfl⟩
  · obtain ⟨howed, hcoin⟩ := @saveCoin_changed sql a db h
    have hne : a.owed ≠ 0 := sub_ne_zero.mpr h
    rw [howed, hcoin, add_zero]
    by_cases hw : sql.coin = true ∧ (db.balance a.id).isSome
    · rw [if_pos hw]
      cases hq : sql.balance with
      | true =>
        rw [if_pos rfl, i32_add_i32, i32_eq_iff]
        exact ⟨fun hi _ => ⟨hw.1, hw.2, .inl rfl, hi⟩, fun hc => (hc h).2.2.2⟩
      | false =>
        rw [if_neg Bool.false_ne_true, i32_eq_add_iff hb]
        exact ⟨fun hi _ => ⟨hw.1, hw.2, .inr hi.1, hi.2⟩,
          fun hc => ⟨(hc h).2.2.1.resolve_left Bool.false_ne_true, (hc h).2.2.2⟩⟩
    · rw [if_neg hw]
      constructor
      · intro he
        exact absurd (left_eq_add.mp he) hne
      · intro hc
        exact absurd ⟨(hc h).1, (hc h).2.1⟩ hw

theorem mem_saveTasks {uid : ℤ} {e : ℤ × TaskRow} (tasks : List UserTask) (n : ℕ) (t : Table TaskRow)
    (he : e ∈ t.rows) : e ∈ (saveTasks sql uid now n tasks t).rows := by
  induction tasks generalizing n t with
  | nil => exact he
  | cons task tasks ih =>
    apply ih
    split_ifs
    · exact List.mem_append_left _ he
    · exact he

theorem saveTasks_inserts {uid : ℤ} {tasks : List UserTask} {m n : ℕ} {task : UserTask} (t : Table TaskRow)
    (ht : tasks[n]? = some task) (hnew : task.isNew = true) (hs : sql.task (m + n) = true) :
    ∃ e ∈ (saveTasks sql uid now m tasks t).rows, e.2 = ⟨uid, task.taskId, task.status, now, now⟩ := by
  induction tasks generalizing m n t with
  | nil => cases ht
  | cons task' tasks ih =>
    cases n with
    | zero =>
      obtain rfl : task' = task := Option.some.inj ht
      refine ⟨(t.next, ⟨uid, task'.taskId, task'.status, now, now⟩), ?_, rfl⟩
      rw [saveTasks, if_pos ⟨hnew, hs⟩]
      apply mem_saveTasks
      exact List.mem_append_right _ List.mem_cons_self
    | succ n =>
      apply ih
      · exact ht
      · rwa [Nat.add_assoc, Nat.add_comm 1 n]

end

theorem saves_all_iff (sql : Sql) (now : ℤ) (a : Account) (db : Db) (hid : a.id ≠ 0)
    (hb : isInt (db.getCoin a.id) = true) : a.SavesAll sql now db ↔ a.Covered sql db := by
  obtain ⟨hids, htask, hkill, -, -, howed, hcoin⟩ := @save_eq sql now a db hid
  have hmoney := @saveCoin_money sql { a with opTime := now } db hb
  constructor
  · intro h
    constructor
    · apply hmoney.mp
      rw [← hcoin, ← howed]
      exact h.money
    · intro n k hk hc
      by_contra hs
      have hkept := h.kills n k hk hc (by simpa using hs)
      rw [hkill, saveKills_records, List.getElem?_map, hk] at hkept
      have hflag := congrArg KillFish.isChange (Option.some.inj hkept)
      rw [hc] at hflag
      cases hflag
  · intro h
    constructor
    · rw [hcoin, howed]
      exact hmoney.mpr h.coin
    · intro n k hk hc hs
      rw [h.kills n k hk hc] at hs
      cases hs
    · intro n task ht hnew _
      rw [← htask] at ht
      refine ⟨ht, ?_⟩
      intro sql' now' db' hs
      obtain ⟨-, -, -, -, htasks, -, -⟩ :=
        @save_eq sql' now' (Account.save sql now a db).1 db' (by rw [hids]; exact hid)
      rw [htasks]
      apply saveTasks_inserts _ ht hnew
      rwa [Nat.zero_add]

def unsaved : Account := ⟨7, 15, 10, [⟨3, 2, 5, true⟩], 5, [⟨0, 4, 1, 0, 1, true⟩], 1, 0⟩

def unsavedDb : Db := ⟨fun _ => some 40, [], Table.empty, Table.empty⟩

theorem save_without_log : unsaved.SavesAll ⟨true, true, false, fun _ => false, fun _ => true⟩ 9 unsavedDb := by
  apply (saves_all_iff _ 9 unsaved unsavedDb (by decide) (by decide)).mpr
  constructor
  · intro _
    exact ⟨rfl, rfl, .inl rfl, by decide⟩
  · intro _ _ _ _
    rfl

theorem save_loses_coins :
    ¬ ∀ (sql : Sql) (now : ℤ) (a : Account) (db : Db), a.id ≠ 0 → isInt (db.getCoin a.id) = true →
      a.SavesAll sql now db := by
  intro h
  have hs := h ⟨true, false, true, fun _ => true, fun _ => true⟩ 9 unsaved unsavedDb (by decide) (by decide)
  have hm := hs.money
  revert hm
  decide

end FishServer
