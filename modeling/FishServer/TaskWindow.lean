import FishServer.TaskLoad
import FishServer.TaskRounds

namespace FishServer

open ListLoop

/-! Which tasks a call of `complete` comes to. -/

section

variable {time : ℤ}

theorem outside_iff {task : STask} :
    task.outside time = false ↔ task.startTime ≤ time ∧ time ≤ task.endTime := by
  simp [STask.outside]

theorem inWindow_of_inside {task : STask} (h : task.outside time = false) : task.inWindow time = true := by
  obtain ⟨hs, he⟩ := outside_iff.mp h
  exact inWindow_iff.mpr ⟨fun _ => hs, fun _ => he⟩

theorem outside_later {task : STask} {time' : ℤ} (h : task.inWindow time = true) (h0 : 0 ≤ time)
    (ht : time ≤ time') : task.outside time' = false ↔ time' ≤ task.endTime := by
  rw [outside_iff]
  obtain ⟨hs, -⟩ := inWindow_iff.mp h
  omega

end

def Task.Considers (t : Task) (old : ℕ → List UserTask) (e : TaskEvent) (time : ℤ) (u : TaskUser) : Prop :=
  ∃ n s, t.complete old e time u n = ⟨[], s⟩ ∧ s.rounds.map TaskRound.task = t.tasks.filter (STask.inWindow time)

theorem considers_iff (t : Task) (old : ℕ → List UserTask) (e : TaskEvent) (u : TaskUser) {time time' : ℤ}
    (h0 : 0 ≤ time) (ht : time ≤ time') (hw : ∀ task ∈ t.tasks, task.inWindow time = true) :
    t.Considers old e time' u ↔ ∀ task ∈ t.tasks, time' ≤ task.endTime := by
  have hinside : (∀ task ∈ t.tasks, time' ≤ task.endTime) ↔ ∀ task ∈ t.tasks, task.outside time' = false := by
    apply forall₂_congr
    intro task hm
    exact (outside_later (hw task hm) h0 ht).symm
  rw [hinside]
  constructor
  · rintro ⟨n, s, hc, -⟩
    apply (halts_iff t.tasks u.judging).mp
    exact ⟨n, congrArg Loop.rest hc⟩
  · intro h
    refine ⟨t.tasks.length, (t.complete old e time' u t.tasks.length).state, ?_, ?_⟩
    · rw [complete_eq, reached_all h le_rfl, List.drop_length]
    · rw [complete_tasks, reached_all h le_rfl, List.filter_eq_self.mpr]
      intro task hm
      exact inWindow_of_inside (h task hm)

/-- A task as its row in the table, open until 90. -/
def fishingTask : TasksRow := ⟨2, 0, 4, 4, 0, 1, 1, 0, 0, 90, "3,6".toList, some [⟨3, 0, 2⟩]⟩

def novice : TaskUser := ⟨⟨7, 15, 10, [], 0, [], 0, 0⟩, 0, 0⟩

theorem fishingTask_loads (old : ℕ → Vector ℤ 10) {time : ℤ} (ht : time ≤ 90) :
    ∃ ids, ids.toList = [3, 6, 0, 0, 0, 0, 0, 0, 0, 0] ∧
      Task.load old time (some [fishingTask]) = some ⟨[fishingTask.task ids [⟨3, 0, 2⟩]], []⟩ := by
  obtain ⟨ids, hids, hl⟩ := @readIds_commaList (old 0) [3, 6] (by decide) (by decide)
  refine ⟨ids, hl, ?_⟩
  have htext : commaList [3, 6] = fishingTask.articleIds := by decide
  have hw : inWindow fishingTask.startTime fishingTask.endTime time = true :=
    inWindow_iff.mpr ⟨fun h => absurd h (by decide), fun _ => ht⟩
  rw [htext] at hids
  rw [Task.load, loadTasks, if_pos hw, List.length_nil, hids]
  rfl

theorem open_task_considered : ∃ t, Task.load (fun _ => Vector.replicate 10 7) 60 (some [fishingTask]) = some t ∧
    t.Considers (fun _ => []) ⟨3, 0, 2⟩ 90 novice := by
  obtain ⟨ids, -, hl⟩ := fishingTask_loads (fun _ => Vector.replicate 10 7) (by decide : (60 : ℤ) ≤ 90)
  refine ⟨_, hl, ?_⟩
  have h60 : (60 : ℤ) ≤ 90 := by decide
  apply (considers_iff _ _ _ _ (by decide) h60 (fun task hm => (load_accepts hl task hm).1)).mpr
  intro task hm
  rw [List.mem_singleton.mp hm]
  exact le_refl (90 : ℤ)

-- a task without an end is loaded and never got past
theorem endless_task_stuck : ¬ ∀ (t : Task) (old : ℕ → List UserTask) (e : TaskEvent) (u : TaskUser)
    (time time' : ℤ), 0 ≤ time → time ≤ time' → (∀ task ∈ t.tasks, task.inWindow time = true) →
    t.Considers old e time' u := by
  intro h
  let t : Task := ⟨[{ fishingTask with endTime := 0 }.task (Vector.replicate 10 0) [⟨3, 0, 2⟩]], []⟩
  have hw : ∀ task ∈ t.tasks, task.inWindow 60 = true := by
    intro task hm
    rw [List.mem_singleton.mp hm]
    rfl
  have hc := h t (fun _ => []) ⟨3, 0, 2⟩ novice 60 60 (by decide) le_rfl hw
  rw [considers_iff t _ _ _ (by decide) le_rfl hw] at hc
  have hend := hc _ List.mem_cons_self
  exact absurd hend (by decide)

end FishServer
