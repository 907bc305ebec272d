import FishServer.Account
import FishServer.Lib.ListLoop

namespace FishServer

open ListLoop

/-! The tasks of `task.hpp`, and what a user gets for them. -/

structure TaskCondition where
  param : ℤ
  param2 : ℤ
  type : ℤ
deriving DecidableEq

structure STask where
  id : ℤ
  preId : ℤ
  groupId : ℤ
  mutexId : ℤ
  priority : ℤ
  autoGive : ℤ
  autoUse : ℤ
  reapt : ℤ
  startTime : ℤ
  endTime : ℤ
  articleIds : Vector ℤ 10
  condition : List TaskCondition

structure Article where
  id : ℤ
  param : ℤ
  type : ℤ
deriving DecidableEq

structure Task where
  tasks : List STask
  article : List Article

/-- The fields of a `User` that the tasks read and change. -/
structure TaskUser extends Account where
  levelExp : ℤ
  vipExp : ℤ

structure TaskEvent where
  param : ℤ
  param2 : ℤ
  type : ℤ

def Account.checkKillFish (a : Account) (no needNum : ℤ) : Bool :=
  if no = 0 then decide (needNum ≤ a.killfishTotal)
  else
    match a.killfish.find? (fun k => decide (k.no = no)) with
    | some k => decide (needNum ≤ k.value)
    | none => false

def Account.checkTask (a : Account) (groupId needNum : ℤ) : Bool :=
  let num : ℤ := if groupId ≤ 0 then a.taskTotal else (a.task.filter (fun r => decide (r.groupId = groupId))).length
  decide (needNum ≤ num)

def Account.meets (a : Account) (c : TaskCondition) : Bool :=
  if c.type = 2 then a.checkKillFish c.param2 c.param
  else if c.type = 3 then a.checkTask c.param2 c.param
  else false

-- of the event only the type is looked at
def STask.conditionIsTrue (task : STask) (e : TaskEvent) (a : Account) : Bool :=
  task.condition.any (fun c => decide (c.type = e.type)) && task.condition.all a.meets

def TaskUser.giveArticle (u : TaskUser) (article : Article) : TaskUser :=
  if article.type = 1 then { u with coin := i32 (u.coin + article.param) }
  else if article.type = 2 then { u with levelExp := i32 (u.levelExp + article.param) }
  else if article.type = 3 then { u with vipExp := i32 (u.vipExp + article.param) }
  else u

def TaskEvent.reaches (e : TaskEvent) (c : TaskCondition) : Bool :=
  decide (c.param ≤ e.param) && decide (e.param2 = c.param2) && decide (e.type = c.type)

/-- The loop over the conditions. It keeps the answer that it starts with only for a task without any. -/
def TaskEvent.completes (e : TaskEvent) : Bool → List TaskCondition → Bool
  | completed, [] => completed
  | _, c :: cs => if e.reaches c then e.completes true cs else false

-- completed before, or one of the same group of which only one is allowed
def UserTask.bars (task : STask) (r : UserTask) : Bool :=
  decide (r.taskId = task.id) || (decide (0 < task.mutexId) && decide (r.mutexId = task.mutexId))

/-- The loop that moves `user_task` on to a record that bars the task. The cursor is the place of a record in
the user's list, and none is the null pointer. -/
def STask.seek (task : STask) (records : List UserTask) (cursor : Option ℕ) : Option ℕ :=
  cursor.bind (fun i => ((records.drop i).findIdx? (UserTask.bars task)).map (i + ·))

def STask.record (task : STask) : UserTask := ⟨0, task.id, task.groupId, task.mutexId, task.autoGive, true⟩

/-- `next` of the new record may be unset. `old` are the records that the list then seems to have behind it, and
none where the pointer is null. -/
def Account.addRecord (a : Account) (old : List UserTask) (r : UserTask) : Account :=
  let added := a.addTask r
  { added with task := added.task ++ old }

def TaskUser.addRecord (u : TaskUser) (old : ℕ → List UserTask) (r : UserTask) : TaskUser :=
  { u with toAccount := u.toAccount.addRecord (old u.task.length) r }

/-- The loop over `article_ids`: the user, and the ids that were given. A record is added with each of them. -/
def giveArticles (article : List Article) (old : ℕ → List UserTask) (task : STask) :
    List ℤ → TaskUser → TaskUser × List ℤ
  | [], u => (u, [])
  | id :: ids, u =>
    if id = 0 then (u, [])
    else
      match article.find? (fun a => decide (a.id = id)) with
      | none => giveArticles article old task ids u
      | some a =>
        let r := giveArticles article old task ids ((u.giveArticle a).addRecord old task.record)
        (r.1, id :: r.2)

/-- What one turn of `complete` decided, and on what. No function reads it. -/
structure TaskRound where
  event : TaskEvent
  task : STask
  before : TaskUser
  cursor : Option ℕ
  awarded : Bool
  given : List ℤ
  after : TaskUser

structure Judging where
  user : TaskUser
  cursor : Option ℕ
  rounds : List TaskRound

def STask.fulfilled (task : STask) (e : TaskEvent) (u : TaskUser) : Bool :=
  e.completes (task.conditionIsTrue e u.toAccount) task.condition

-- a task that can be repeated is not looked for
def STask.check (task : STask) (e : TaskEvent) (u : TaskUser) (cursor : Option ℕ) : Option ℕ :=
  if task.fulfilled e u ∧ task.reapt = 0 then task.seek u.task cursor else cursor

def STask.awarded (task : STask) (e : TaskEvent) (u : TaskUser) (cursor : Option ℕ) : Bool :=
  task.fulfilled e u && (decide (task.reapt ≠ 0) || (task.check e u cursor).isNone)

/-- The body of the loop of `complete` for a task inside its time. -/
def Task.judge (t : Task) (old : ℕ → List UserTask) (e : TaskEvent) (s : Judging) (task : STask) : Judging :=
  let awarded := task.awarded e s.user s.cursor
  let gift := if awarded then giveArticles t.article old task task.articleIds.toList s.user else (s.user, [])
  ⟨gift.1, task.check e s.user s.cursor, s.rounds ++ [⟨e, task, s.user, s.cursor, awarded, gift.2, gift.1⟩]⟩

def STask.outside (time : ℤ) (task : STask) : Bool := decide (time < task.startTime) || decide (task.endTime < time)

def TaskUser.judging (u : TaskUser) : Judging := ⟨u, if u.task = [] then none else some 0, []⟩

/-- One turn of the loop of `complete`. Its `continue` does not go on to the next task. -/
def Task.turn (t : Task) (old : ℕ → List UserTask) (e : TaskEvent) (time : ℤ) :
    Loop Judging STask → Loop Judging STask :=
  ListLoop.turn (STask.outside time) (t.judge old e)

def Task.complete (t : Task) (old : ℕ → List UserTask) (e : TaskEvent) (time : ℤ) (u : TaskUser) (n : ℕ) :
    Loop Judging STask :=
  (t.turn old e time)^[n] ⟨t.tasks, u.judging⟩

end FishServer
