import FishServer.TaskAward
import FishServer.Lib.Transition

namespace FishServer

open ListLoop OrderedSearch Transition

/-! One call of `complete` after the other, and the tasks that a user gets only once. -/

/-- A call: what it is given, the user at its start, and the turns that its loop has made. -/
structure TaskCall where
  old : ℕ → List UserTask
  event : TaskEvent
  time : ℤ
  user : TaskUser
  turns : ℕ
  loop : Loop Judging STask

/-- `call` is the call that is running, and `ended` are those that are over. -/
structure TaskCalls where
  user : TaskUser
  call : Option TaskCall
  ended : List TaskCall

inductive TaskStep
  | begin (old : ℕ → List UserTask) (e : TaskEvent) (time : ℤ)
  | turn

def Task.step (t : Task) (s : TaskCalls) : TaskStep → Option TaskCalls
  | .begin old e time =>
    match s.call with
    | none => some { s with call := some ⟨old, e, time, s.user, 0, ⟨t.tasks, s.user.judging⟩⟩ }
    | some _ => none
  | .turn =>
    match s.call with
    | none => none
    | some c =>
      if c.loop.rest = [] then some ⟨c.loop.state.user, none, s.ended ++ [c]⟩
      else some { s with call := some { c with turns := c.turns + 1, loop := t.turn c.old c.event c.time c.loop } }

def TaskCalls.start (u : TaskUser) : TaskCalls := ⟨u, none, []⟩

def TaskCalls.calls (s : TaskCalls) : List TaskCall := s.ended ++ s.call.toList

def TaskCalls.all (s : TaskCalls) : List TaskRound := s.calls.flatMap (fun c => c.loop.state.rounds)

/-- A task that cannot be repeated is not awarded to a user with a record that bars it. -/
def TaskRound.Once (r : TaskRound) : Prop :=
  r.awarded = true → r.task.reapt = 0 → ∀ rec ∈ r.before.task, rec.bars r.task = false

/-- Of the tasks that the call has come to and the event fulfils, one that cannot be repeated and is not barred in order
with those before it is not barred at all: neither by a record from before the call nor by one of an award in it. -/
def TaskCall.Excludes (t : Task) (c : TaskCall) : Prop :=
  ∀ before task behind a, reached (STask.outside c.time) c.turns t.tasks = before ++ task :: behind →
    t.Finds c.old c.event c.user before a → c.event.fulfils task = true → task.reapt = 0 →
      ¬t.BarsInOrder c.old c.user.toAccount (before.filter c.event.fulfils ++ [task]) →
        ∀ rec ∈ a.task, rec.bars task = false

theorem TaskRound.Placed.once_iff {t : Task} {old : ℕ → List UserTask} {e : TaskEvent} {a : Account}
    {tasks front rest : List STask} {r : TaskRound} (h : r.Placed t old e a tasks)
    (hp : t.Parted old a (tasks.filter e.fulfils) front rest) : r.Once ↔
      (e.fulfils r.task = true → r.task.reapt = 0 → ¬t.BarsInOrder old a (tasks.filter e.fulfils ++ [r.task]) →
        ∀ rec ∈ (t.withAwards old a front rest).task, rec.bars r.task = false) := by
  rw [TaskRound.Once, (h.before front rest hp).task]
  constructor
  · intro honce hf h0 hopen
    exact honce (h.awarded.mpr ⟨hf, .inr hopen⟩) h0
  · intro hapart haward h0
    obtain ⟨hf, hrepeated | hopen⟩ := h.awarded.mp haward
    · exact absurd h0 hrepeated
    · exact hapart hf h0 hopen

def TaskCall.Runs (t : Task) (c : TaskCall) : Prop := c.loop = t.complete c.old c.event c.time c.user c.turns

theorem TaskCall.Runs.once_iff {t : Task} {c : TaskCall} (h : c.Runs t) :
    (∀ r ∈ c.loop.state.rounds, r.Once) ↔ c.Excludes t := by
  rw [h]
  constructor
  · rintro honce before task behind a hsplit ⟨front, rest, hp, rfl⟩
    obtain ⟨r, hr, rfl, hplaced⟩ := @placed_complete t c.old c.event c.user _ _ _ _ _ hsplit
    exact (hplaced.once_iff hp).mp (honce r hr)
  · intro hexcl r hr
    obtain ⟨before, behind, hsplit, hplaced⟩ := complete_placed hr
    obtain ⟨front, rest, hp⟩ := hplaced.parted
    exact (hplaced.once_iff hp).mpr (hexcl before r.task behind _ hsplit ⟨front, rest, hp, rfl⟩)

theorem TaskCall.Runs.turn {t : Task} {c : TaskCall} (h : c.Runs t) : TaskCall.Runs t
    { c with turns := c.turns + 1, loop := t.turn c.old c.event c.time c.loop } := by
  have hloop : c.loop = (t.turn c.old c.event c.time)^[c.turns] ⟨t.tasks, c.user.judging⟩ := h
  change t.turn c.old c.event c.time c.loop = (t.turn c.old c.event c.time)^[c.turns + 1] ⟨t.tasks, c.user.judging⟩
  rw [Function.iterate_succ_apply', ← hloop]

theorem task_step_runs {t : Task} {s s' : TaskCalls} {x : TaskStep} (hs : ∀ c ∈ s.calls, c.Runs t)
    (h : t.step s x = some s') : ∀ c ∈ s'.calls, c.Runs t := by
  have hended : ∀ c ∈ s.ended, c.Runs t := fun c hm => hs c (List.mem_append_left _ hm)
  cases x with
  | begin old e time =>
    cases hc : s.call with
    | some c => simp [Task.step, hc] at h
    | none =>
      simp only [Task.step, hc] at h
      cases h
      intro c hm
      rcases List.mem_append.mp hm with hm | hm
      · exact hended c hm
      · rw [List.mem_singleton.mp hm]
        rfl
  | turn =>
    cases hc : s.call with
    | none => simp [Task.step, hc] at h
    | some c =>
      have hrun : c.Runs t := hs c (List.mem_append_right _ (by rw [hc]; exact List.mem_singleton_self c))
      simp only [Task.step, hc] at h
      split_ifs at h
      · cases h
        intro c' hm
        simp only [TaskCalls.calls, Option.toList_none, List.append_nil] at hm
        rcases List.mem_append.mp hm with hm | hm
        · exact hended c' hm
        · rw [List.mem_singleton.mp hm]
          exact hrun
      · cases h
        intro c' hm
        rcases List.mem_append.mp hm with hm | hm
        · exact hended c' hm
        · rw [List.mem_singleton.mp hm]
          exact hrun.turn

theorem awarded_once_iff (t : Task) (u : TaskUser) (s : TaskCalls)
    (hr : Reach t.step (fun _ _ => True) (TaskCalls.start u) s) :
    (∀ r ∈ s.all, r.Once) ↔ ∀ c ∈ s.calls, c.Excludes t := by
  have hruns : ∀ c ∈ s.calls, c.Runs t := by
    apply hr.invariant (P := fun s => ∀ c ∈ s.calls, c.Runs t)
    · intro c hm
      cases hm
    · exact fun s x s' hs _ h => task_step_runs hs h
  simp only [TaskCalls.all, List.forall_mem_flatMap]
  apply forall₂_congr
  intro c hm
  exact (hruns c hm).once_iff

theorem second_call_refused : ∃ s : TaskCalls, (∀ r ∈ s.all, r.Once) ∧ s.all.map TaskRound.awarded = [true, false] := by
  have hr : Reach threeFish.step (fun _ _ => True) (TaskCalls.start fisher) _ :=
    .step (a := .turn) (.step (a := .begin (fun _ => []) ⟨3, 0, 2⟩ 61) (.step (a := .turn) (.step (a := .turn)
      (.step (a := .begin (fun _ => []) ⟨3, 0, 2⟩ 60) .start trivial rfl) trivial rfl) trivial rfl) trivial rfl)
      trivial rfl
  refine ⟨_, (awarded_once_iff threeFish fisher _ hr).mpr ?_, by decide⟩
  intro c hm before task behind a hsplit hfinds _ _ hopen rec hrec
  rcases List.mem_cons.mp hm with rfl | hm
  · obtain ⟨rfl, -⟩ := singleton_split hsplit
    rw [finds_first hfinds] at hrec
    cases hrec
  · obtain rfl := List.mem_singleton.mp hm
    obtain ⟨rfl, rfl⟩ := singleton_split hsplit
    apply absurd _ hopen
    constructor
    · intro hnone
      cases hnone
    · exact inOrder_iff_advance.mpr (by decide)

def excluding : Task :=
  { threeFish with tasks := threeFish.tasks ++ threeFish.tasks.map (fun task => { task with id := 3 }) }

theorem excluding_awarded_twice : ¬ ∀ (t : Task) (u : TaskUser) (s : TaskCalls),
    Reach t.step (fun _ _ => True) (TaskCalls.start u) s → ∀ r ∈ s.all, r.Once := by
  intro h
  have hr : Reach excluding.step (fun _ _ => True) (TaskCalls.start fisher) _ :=
    .step (a := .turn) (.step (a := .turn) (.step (a := .begin (fun _ => []) ⟨3, 0, 2⟩ 60) .start trivial rfl)
      trivial rfl) trivial rfl
  have ho := h excluding fisher _ hr _ (List.mem_cons_of_mem _ List.mem_cons_self)
  have hb := ho (by decide) (by decide) _ List.mem_cons_self
  exact absurd hb (by decide)

end FishServer
