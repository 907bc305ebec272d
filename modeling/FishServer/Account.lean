import FishServer.Ledger
import FishServer.Lib.Table

namespace FishServer

/-! What a `User` keeps in the database, and what `load` and `save` make of it. -/

structure ValueRow where
  userId : ℤ
  param : ℤ
  value : ℤ
  type : CStr
deriving DecidableEq

structure TaskRow where
  userId : ℤ
  taskId : ℤ
  status : ℤ
  createdAt : ℤ
  updatedAt : ℤ
deriving DecidableEq

structure CoinLog where
  userId : ℤ
  count : ℤ
  balance : ℤ
  createdAt : ℤ
deriving DecidableEq

/-- The tables `user_coin`, `user_coin_logs`, `user_values` and `user_tasks`. -/
structure Db where
  balance : ℤ → Option ℤ
  logs : List CoinLog
  values : Table ValueRow
  tasks : Table TaskRow

structure UserTask where
  id : ℤ
  taskId : ℤ
  groupId : ℤ
  mutexId : ℤ
  status : ℤ
  isNew : Bool
deriving DecidableEq

structure Account where
  id : ℤ
  coin : ℤ
  backupCoin : ℤ
  killfish : List KillFish
  killfishTotal : ℤ
  task : List UserTask
  taskTotal : ℤ
  opTime : ℤ
deriving DecidableEq

/-- Which statements of a save succeed. A failed query answers the default of `getItemToInt`, a failed write
leaves the tables as they are. -/
structure Sql where
  balance : Bool
  coin : Bool
  log : Bool
  task : ℕ → Bool
  kill : ℕ → Bool

def Sql.allGood : Sql := ⟨true, true, true, fun _ => true, fun _ => true⟩

def killType : CStr := "kill_fish".toList

def Db.isKill (uid : ℤ) (r : ValueRow) : Bool := decide (r.userId = uid) && decide (r.type = killType)

def Db.loadKills (db : Db) (uid : ℤ) : List KillFish :=
  (db.values.select (fun r => Db.isKill uid r && decide (r.param ≠ 0))).map
    (fun e => ⟨e.1, e.2.param, e.2.value, false⟩)

def Db.getCoin (db : Db) (uid : ℤ) : ℤ := (db.balance uid).getD 0

/-- `load` of an account that has a row in `users`. The statement for the tasks puts its `WHERE` before the
join, so the server rejects it and the list stays empty. -/
def Account.load (db : Db) (uid now : ℤ) : Account :=
  { id := uid
    coin := db.getCoin uid
    backupCoin := db.getCoin uid
    killfish := db.loadKills uid
    killfishTotal := ((db.loadKills uid).map KillFish.value).foldl (fun n v => i32 (n + v)) 0
    task := []
    taskTotal := 0
    opTime := now }

def Account.killFish (a : Account) (no : ℤ) : Account := { a with killfish := FishServer.killFish no a.killfish }

def Account.addTask (a : Account) (task : UserTask) : Account :=
  { a with task := a.task ++ [task], taskTotal := i32 (a.taskTotal + 1) }

def Db.setBalance (db : Db) (uid balance : ℤ) : Db :=
  { db with balance := Function.update db.balance uid ((db.balance uid).map (fun _ => balance)) }

def Account.saveCoin (sql : Sql) (a : Account) (db : Db) : Account × Db :=
  if a.coin = a.backupCoin then (a, db)
  else
    let balance := if sql.balance then db.getCoin a.id else 0
    let winCoin := i32 (a.coin - a.backupCoin)
    let coin := i32 (balance + winCoin)
    let written := if sql.coin then db.setBalance a.id coin else db
    ({ a with coin, backupCoin := coin },
      if sql.log then { written with logs := ⟨a.id, winCoin, coin, a.opTime⟩ :: written.logs } else written)

def saveTasks (sql : Sql) (uid now : ℤ) : ℕ → List UserTask → Table TaskRow → Table TaskRow
  | _, [], t => t
  | n, task :: tasks, t =>
    saveTasks sql uid now (n + 1) tasks
      (if task.isNew ∧ sql.task n then t.insert ⟨uid, task.taskId, task.status, now, now⟩ else t)

def writeKill (uid : ℤ) (k : KillFish) (t : Table ValueRow) : Table ValueRow :=
  if k.id ≠ 0 then t.update k.id (fun r => { r with value := k.value })
  else t.insert ⟨uid, k.no, k.value, killType⟩

def saveKills (sql : Sql) (uid : ℤ) : ℕ → List KillFish → Table ValueRow → List KillFish × Table ValueRow
  | _, [], t => ([], t)
  | n, k :: ks, t =>
    let rest := saveKills sql uid (n + 1) ks (if k.isChange ∧ sql.kill n then writeKill uid k t else t)
    ({ k with isChange := false } :: rest.1, rest.2)

def Account.save (sql : Sql) (now : ℤ) (a : Account) (db : Db) : Account × Db :=
  if a.id = 0 then (a, db)
  else
    let (b, d) := Account.saveCoin sql { a with opTime := now } db
    let tasks := saveTasks sql a.id now 0 b.task d.tasks
    let kills := saveKills sql a.id 0 b.killfish d.values
    ({ b with killfish := kills.1 }, { d with tasks, values := kills.2 })

end FishServer
