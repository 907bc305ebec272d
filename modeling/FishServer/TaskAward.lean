import FishServer.TaskOrder
import FishServer.TaskWindow

namespace FishServer

open ListLoop

/-! Awards against the conditions of the tasks. -/

/-- The number that the user has of what a condition of this type and second parameter asks for: fish killed of a
species, or tasks done of a group. -/
def Account.own (a : Account) (type param2 : ℤ) : Option ℤ :=
  if type = 2 then
    if param2 = 0 then some a.killfishTotal
    else (a.killfish.find? (fun k => decide (k.no = param2))).map KillFish.value
  else if type = 3 then
    some (if param2 ≤ 0 then a.taskTotal else (a.task.filter (fun r => decide (r.groupId = param2))).length)
  else none

/-- The user as the loop finds him at the task behind `done`. -/
def Task.Finds (t : Task) (old : ℕ → List UserTask) (e : TaskEvent) (u : TaskUser) (done : List STask) (a : Account) :
    Prop :=
  ∃ front rest, t.Parted old u.toAccount (done.filter e.fulfils) front rest ∧
    a = t.withAwards old u.toAccount front rest

/-- No task in its time is behind one that the loop stays at. What an event brings an award for the user has done
himself, and what he has done for a task the event names. -/
structure Task.Fits (t : Task) (old : ℕ → List UserTask) (e : TaskEvent) (time : ℤ) (u : TaskUser) : Prop where
  passable : ∀ task ∈ t.tasks.dropWhile (fun task => !task.outside time), task.inWindow time = false
  done : ∀ before task behind a, t.tasks.takeWhile (fun task => !task.outside time) = before ++ task :: behind →
    t.Finds old e u before a → e.fulfils task = true →
      task.reapt ≠ 0 ∨ ¬t.BarsInOrder old u.toAccount (before.filter e.fulfils ++ [task]) →
        ∃ n, a.own e.type e.param2 = some n ∧ ∀ c ∈ task.condition, c.param ≤ n
  named : ∀ before task behind a, t.tasks.takeWhile (fun task => !task.outside time) = before ++ task :: behind →
    t.Finds old e u before a → (∃ c ∈ task.condition, c.type = e.type) →
      (∀ c ∈ task.condition, ∃ n, a.own c.type c.param2 = some n ∧ c.param ≤ n) → ¬task.BarredBy a.task →
        ∀ c ∈ task.condition, c.type = e.type ∧ c.param2 = e.param2 ∧ c.param ≤ e.param

section

variable {t : Task} {old : ℕ → List UserTask} {e : TaskEvent} {time : ℤ} {u : TaskUser} {r : TaskRound} {a b : Account}
  {task : STask} {tasks front rest : List STask}

end

def threeFish : Task := ⟨[fishingTask.task #v[3, 6, 0, 0, 0, 0, 0, 0, 0, 0] [⟨3, 0, 2⟩]], [⟨3, 100, 1⟩]⟩

def fisher : TaskUser := { novice with killfishTotal := 3 }

theorem finds_first {t : Task} {old : ℕ → List UserTask} {e : TaskEvent} {u : TaskUser} {a : Account}
    (h : t.Finds old e u [] a) : a = u.toAccount := by
  obtain ⟨front, rest, hp, rfl⟩ := h
  obtain ⟨rfl, rfl⟩ := hp.unique parted_nil
  rfl

theorem singleton_split {α : Type} {x y : α} {before behind : List α} (h : [x] = before ++ y :: behind) :
    before = [] ∧ y = x := by
  cases before with
  | nil => exact ⟨rfl, (List.cons.inj h).1.symm⟩
  | cons z before => exact absurd (List.cons.inj h).2.symm (List.append_ne_nil_of_right_ne_nil _ (List.cons_ne_nil _ _))

end FishServer
