import FishServer.Task

namespace FishServer

open ListLoop

/-! The turns of a call of `complete` and what each decided. -/

structure TaskRound.Judged (t : Task) (old : ℕ → List UserTask) (e : TaskEvent) (r : TaskRound) : Prop where
  event : r.event = e
  task : r.task ∈ t.tasks
  awarded : r.awarded = r.task.awarded e r.before r.cursor
  gift : (r.after, r.given) =
    if r.awarded then giveArticles t.article old r.task r.task.articleIds.toList r.before else (r.before, [])

section

variable {t : Task} {old : ℕ → List UserTask} {e : TaskEvent} {u : TaskUser} {time : ℤ}

theorem complete_eq (t : Task) (old : ℕ → List UserTask) (e : TaskEvent) (time : ℤ) (u : TaskUser) (n : ℕ) :
    t.complete old e time u n =
    ⟨t.tasks.drop (reached (STask.outside time) n t.tasks).length,
      (reached (STask.outside time) n t.tasks).foldl (t.judge old e) u.judging⟩ :=
  turn_iterate n t.tasks u.judging

theorem judged_tasks (tasks : List STask) (s : Judging) :
    (tasks.foldl (t.judge old e) s).rounds.map TaskRound.task = s.rounds.map TaskRound.task ++ tasks := by
  induction tasks generalizing s with
  | nil => exact (List.append_nil _).symm
  | cons task tasks ih =>
    rw [List.foldl_cons, ih]
    simp [Task.judge]

theorem complete_tasks (n : ℕ) : (t.complete old e time u n).state.rounds.map TaskRound.task =
    reached (STask.outside time) n t.tasks := by
  rw [complete_eq]
  exact judged_tasks _ u.judging

theorem judge_judged {s : Judging} (hs : ∀ r ∈ s.rounds, r.Judged t old e) {task : STask} (ht : task ∈ t.tasks) :
    ∀ r ∈ (t.judge old e s task).rounds, r.Judged t old e := by
  intro r hr
  rcases List.mem_append.mp hr with hr | hr
  · exact hs r hr
  · obtain rfl := List.mem_singleton.mp hr
    exact ⟨rfl, ht, rfl, rfl⟩

theorem foldl_judged (tasks : List STask) (ht : ∀ task ∈ tasks, task ∈ t.tasks) {s : Judging}
    (hs : ∀ r ∈ s.rounds, r.Judged t old e) : ∀ r ∈ (tasks.foldl (t.judge old e) s).rounds, r.Judged t old e := by
  induction tasks generalizing s with
  | nil => exact hs
  | cons task tasks ih =>
    apply ih
    · exact fun task' hm => ht task' (List.mem_cons_of_mem task hm)
    · exact judge_judged hs (ht task List.mem_cons_self)

theorem complete_judged (n : ℕ) : ∀ r ∈ (t.complete old e time u n).state.rounds, r.Judged t old e := by
  rw [complete_eq]
  apply foldl_judged
  · intro task hm
    exact (List.takeWhile_prefix _).subset (List.mem_of_mem_take hm)
  · intro r hr
    cases hr

end

theorem completes_iff {e : TaskEvent} {completed : Bool} {cs : List TaskCondition} (hne : cs ≠ []) :
    e.completes completed cs = true ↔ ∀ c ∈ cs, e.reaches c = true := by
  induction cs generalizing completed with
  | nil => exact absurd rfl hne
  | cons c cs ih =>
    rw [TaskEvent.completes, List.forall_mem_cons]
    cases cs with
    | nil => simp [TaskEvent.completes]
    | cons c' cs =>
      split_ifs with hc
      · rw [ih (List.cons_ne_nil _ _)]
        simp [hc]
      · simp [hc]

def STask.BarredBy (task : STask) (records : List UserTask) : Prop :=
  task.reapt = 0 ∧ ∃ r ∈ records, r.bars task = true

end FishServer
