import FishServer.TaskRounds
import FishServer.Lib.OrderedSearch

namespace FishServer

open ListLoop OrderedSearch

/-! What the awards of a call do to the records that its later checks look through. -/

def articleOf (article : List Article) (id : ℤ) : Option Article := article.find? (fun a => decide (a.id = id))

def giftsOf (article : List Article) (ids : List ℤ) : List ℤ :=
  (ids.takeWhile (fun id => decide (id ≠ 0))).filter (fun id => (articleOf article id).isSome)

def give (article : List Article) (old : ℕ → List UserTask) (task : STask) (u : TaskUser) (id : ℤ) : TaskUser :=
  (articleOf article id).elim u (fun a => (u.giveArticle a).addRecord old task.record)

section

variable {article : List Article} {old : ℕ → List UserTask} {task : STask} {u : TaskUser}

theorem giveArticles_eq (ids : List ℤ) : giveArticles article old task ids u =
    ((giftsOf article ids).foldl (give article old task) u, giftsOf article ids) := by
  induction ids generalizing u with
  | nil => rfl
  | cons id ids ih =>
    rw [giveArticles]
    by_cases h0 : id = 0
    · simp [h0, giftsOf]
    · have htake : giftsOf article (id :: ids) =
          if (articleOf article id).isSome then id :: giftsOf article ids else giftsOf article ids := by
        simp [giftsOf, h0, List.filter_cons]
      rw [if_neg h0, htake]
      cases ha : articleOf article id with
      | none =>
        have hfind : article.find? (fun a => decide (a.id = id)) = none := ha
        simp only [hfind]
        exact ih
      | some a =>
        have hfind : article.find? (fun a => decide (a.id = id)) = some a := ha
        have hgive : give article old task u id = (u.giveArticle a).addRecord old task.record := by
          rw [give, ha]
          rfl
        simp only [hfind, ih, Option.isSome_some, if_true, List.foldl_cons, hgive]

theorem giveArticle_task (a : Article) : (u.giveArticle a).task = u.task := by
  unfold TaskUser.giveArticle
  split_ifs <;> rfl

theorem addRecord_task (a : Article) : ((u.giveArticle a).addRecord old task.record).task =
    u.task ++ task.record :: old u.task.length := by
  simp [TaskUser.addRecord, Account.addRecord, Account.addTask, giveArticle_task]

end

def TaskEvent.fulfils (e : TaskEvent) (task : STask) : Bool := !task.condition.isEmpty && task.condition.all e.reaches

/-- The progress of a user with the records of one more award. -/
def Task.recorded (t : Task) (old : ℕ → List UserTask) (a : Account) (task : STask) : Account :=
  (giftsOf t.article task.articleIds.toList).foldl (fun a _ => a.addRecord (old a.task.length) task.record) a

def Task.search (t : Task) (old : ℕ → List UserTask) : Search Account UserTask STask where
  asks := fun task => decide (task.reapt = 0)
  hit := UserTask.bars
  items := Account.task
  grow := t.recorded old

/-- Records of the user, in the order of the tasks, bar all of these that cannot be repeated. A user who starts without
a record has none that counts. -/
def Task.BarsInOrder (t : Task) (old : ℕ → List UserTask) (a : Account) (tasks : List STask) : Prop :=
  (a.task = [] → ∀ task ∈ tasks, task.reapt ≠ 0) ∧ InOrder (t.search old) tasks a 0

/-- The tasks up to the first one that is not barred in order, and those from it on. -/
structure Task.Parted (t : Task) (old : ℕ → List UserTask) (a : Account) (tasks front rest : List STask) : Prop where
  split : tasks = front ++ rest
  barred : t.BarsInOrder old a front
  first : ∀ task tail, rest = task :: tail → task.reapt = 0 ∧ ¬t.BarsInOrder old a (front ++ [task])

/-- Of the front the tasks that can be repeated are awarded, and of the rest all. -/
def Task.withAwards (t : Task) (old : ℕ → List UserTask) (a : Account) (front rest : List STask) : Account :=
  (front.filter (fun task => !decide (task.reapt = 0)) ++ rest).foldl (t.recorded old) a

/-- Two accounts that no condition tells apart. -/
structure Account.Alike (a b : Account) : Prop where
  killfish : a.killfish = b.killfish
  killfishTotal : a.killfishTotal = b.killfishTotal
  task : a.task = b.task
  taskTotal : a.taskTotal = b.taskTotal

section

variable {t : Task} {old : ℕ → List UserTask} {a b : Account} {e : TaskEvent} {u : TaskUser} {task : STask}
  {tasks front rest : List STask}

theorem fulfils_iff : e.fulfils task = true ↔ task.condition ≠ [] ∧ ∀ c ∈ task.condition, e.reaches c = true := by
  simp [TaskEvent.fulfils]

-- what the user has done does not matter here
theorem fulfilled_eq : task.fulfilled e u = e.fulfils task := by
  rw [Bool.eq_iff_iff, fulfils_iff]
  by_cases hne : task.condition = []
  · simp [STask.fulfilled, STask.conditionIsTrue, hne, TaskEvent.completes]
  · rw [STask.fulfilled, completes_iff hne]
    exact ⟨fun h => ⟨hne, h⟩, fun h => h.2⟩

theorem Account.Alike.refl (a : Account) : a.Alike a := ⟨rfl, rfl, rfl, rfl⟩

theorem Account.Alike.meets (h : a.Alike b) (c : TaskCondition) : a.meets c = b.meets c := by
  simp only [Account.meets, Account.checkKillFish, Account.checkTask, h.killfish, h.killfishTotal, h.task, h.taskTotal]

theorem Account.Alike.addRecord (h : a.Alike b) (junk : List UserTask) (r : UserTask) :
    (a.addRecord junk r).Alike (b.addRecord junk r) where
  killfish := h.killfish
  killfishTotal := h.killfishTotal
  task := by simp only [Account.addRecord, Account.addTask, h.task]
  taskTotal := by simp only [Account.addRecord, Account.addTask, h.taskTotal]

theorem giveArticle_alike (article : Article) : (u.giveArticle article).toAccount.Alike u.toAccount := by
  unfold TaskUser.giveArticle
  split_ifs
  · exact ⟨rfl, rfl, rfl, rfl⟩
  · exact ⟨rfl, rfl, rfl, rfl⟩
  · exact ⟨rfl, rfl, rfl, rfl⟩
  · exact .refl _

theorem giveArticles_alike (h : u.toAccount.Alike a) :
    (giveArticles t.article old task task.articleIds.toList u).1.toAccount.Alike (t.recorded old a task) := by
  rw [giveArticles_eq, Task.recorded]
  have hfound : ∀ id ∈ giftsOf t.article task.articleIds.toList, (articleOf t.article id).isSome = true := by
    intro id hm
    exact (List.mem_filter.mp hm).2
  revert hfound
  generalize giftsOf t.article task.articleIds.toList = ids
  intro hfound
  induction ids generalizing u a with
  | nil => exact h
  | cons id ids ih =>
    obtain ⟨article, harticle⟩ := Option.isSome_iff_exists.mp (hfound id List.mem_cons_self)
    rw [List.foldl_cons, List.foldl_cons]
    apply ih
    · rw [give, harticle, Option.elim_some]
      have hsame : (u.giveArticle article).toAccount.Alike a :=
        ⟨(giveArticle_alike article).killfish.trans h.killfish,
          (giveArticle_alike article).killfishTotal.trans h.killfishTotal,
          (giveArticle_alike article).task.trans h.task, (giveArticle_alike article).taskTotal.trans h.taskTotal⟩
      rw [TaskUser.addRecord, hsame.task]
      exact hsame.addRecord (old a.task.length) task.record
    · exact fun id' hm => hfound id' (List.mem_cons_of_mem id hm)

theorem Task.BarsInOrder.of_append {tail : List STask} (h : t.BarsInOrder old a (tasks ++ tail)) :
    t.BarsInOrder old a tasks :=
  ⟨fun hnone task hm => h.1 hnone task (List.mem_append_left _ hm), h.2.front⟩

theorem parted_nil : t.Parted old a [] [] [] := by
  refine ⟨rfl, ⟨fun _ => List.forall_mem_nil _, trivial⟩, ?_⟩
  intro task tail h
  cases h

theorem Task.Parted.not_longer {front' rest' : List STask} (h : t.Parted old a tasks front rest)
    (h' : t.Parted old a tasks front' rest') : ¬ front.length < front'.length := by
  intro hlt
  have hsplit : front ++ rest = front' ++ rest' := h.split.symm.trans h'.split
  obtain ⟨tail, rfl⟩ : front <+: front' :=
    List.prefix_of_prefix_length_le (List.prefix_append front rest) (hsplit ▸ List.prefix_append front' rest') hlt.le
  cases tail with
  | nil =>
    rw [List.append_nil] at hlt
    exact lt_irrefl _ hlt
  | cons task tail =>
    rw [List.append_assoc] at hsplit
    obtain ⟨-, hbarred⟩ := h.first task (tail ++ rest') (List.append_cancel_left hsplit)
    apply hbarred
    apply Task.BarsInOrder.of_append
    rw [List.append_assoc]
    exact h'.barred

theorem Task.Parted.unique {front' rest' : List STask} (h : t.Parted old a tasks front rest)
    (h' : t.Parted old a tasks front' rest') : front = front' ∧ rest = rest' := by
  have hlength : front.length = front'.length := by
    have := h.not_longer h'
    have := h'.not_longer h
    omega
  exact List.append_inj (h.split.symm.trans h'.split) hlength

theorem Task.BarsInOrder.scanned (h : t.BarsInOrder old a front) :
    ∃ i, advance (t.search old) front a 0 = some (t.withAwards old a front [], i) := by
  obtain ⟨⟨b, i⟩, hscan⟩ := Option.isSome_iff_exists.mp (inOrder_iff_advance.mp h.2)
  have hb : b = (front.filter (fun task => !decide (task.reapt = 0))).foldl (t.recorded old) a := advance_grown hscan
  refine ⟨i, ?_⟩
  rw [hscan, hb, Task.withAwards, List.append_nil]

theorem withAwards_append (front rest : List STask) (task : STask) :
    t.withAwards old a front (rest ++ [task]) = t.recorded old (t.withAwards old a front rest) task := by
  simp only [Task.withAwards, ← List.append_assoc, List.foldl_append, List.foldl_cons, List.foldl_nil]

theorem withAwards_repeated (h : task.reapt ≠ 0) (front : List STask) :
    t.withAwards old a (front ++ [task]) [] = t.recorded old (t.withAwards old a front []) task := by
  have hkept : [task].filter (fun task => !decide (task.reapt = 0)) = [task] := by simp [h]
  simp only [Task.withAwards, List.append_nil, List.filter_append, hkept, List.foldl_append, List.foldl_cons,
    List.foldl_nil]

theorem withAwards_asked (h : task.reapt = 0) (front : List STask) :
    t.withAwards old a (front ++ [task]) [] = t.withAwards old a front [] := by
  have hdropped : [task].filter (fun task => !decide (task.reapt = 0)) = [] := by simp [h]
  simp only [Task.withAwards, List.append_nil, List.filter_append, hdropped]

theorem advance_repeated (h : task.reapt ≠ 0) {i : ℕ} (hscan : advance (t.search old) front a 0 = some (b, i)) :
    advance (t.search old) (front ++ [task]) a 0 = some (t.recorded old b task, i) := by
  have hasks : (t.search old).asks task = false := decide_eq_false h
  rw [advance_append, hscan, Option.bind_some, advance, hasks, if_neg Bool.false_ne_true]
  rfl

theorem advance_asked (h : task.reapt = 0) {i : ℕ} (hscan : advance (t.search old) front a 0 = some (b, i)) :
    advance (t.search old) (front ++ [task]) a 0 = (seek (t.search old) task b i).map (fun j => (b, j)) := by
  have hasks : (t.search old).asks task = true := decide_eq_true h
  rw [advance_append, hscan, Option.bind_some, advance, if_pos hasks]
  cases seek (t.search old) task b i <;> rfl

theorem bars_repeated (h : task.reapt ≠ 0) (hfront : t.BarsInOrder old a front) :
    t.BarsInOrder old a (front ++ [task]) := by
  obtain ⟨i, hscan⟩ := hfront.scanned
  constructor
  · intro hnone task' hm
    rcases List.mem_append.mp hm with hm | hm
    · exact hfront.1 hnone task' hm
    · rw [List.mem_singleton.mp hm]
      exact h
  · rw [inOrder_iff_advance, advance_repeated h hscan]
    rfl

theorem bars_asked (h : task.reapt = 0) {i : ℕ}
    (hscan : advance (t.search old) front a 0 = some (b, i)) :
    t.BarsInOrder old a (front ++ [task]) ↔ a.task ≠ [] ∧ (seek (t.search old) task b i).isSome = true := by
  have horder : InOrder (t.search old) (front ++ [task]) a 0 ↔ (seek (t.search old) task b i).isSome = true := by
    rw [inOrder_iff_advance, advance_asked h hscan, Option.isSome_map]
  constructor
  · rintro ⟨hnone, hin⟩
    refine ⟨fun hempty => ?_, horder.mp hin⟩
    exact hnone hempty task (List.mem_append_right _ List.mem_cons_self) h
  · rintro ⟨hsome, hin⟩
    exact ⟨fun hempty => absurd hempty hsome, horder.mpr hin⟩

structure Judging.After (t : Task) (old : ℕ → List UserTask) (a : Account) (tasks front rest : List STask)
    (s : Judging) : Prop where
  parted : t.Parted old a tasks front rest
  user : s.user.toAccount.Alike (t.withAwards old a front rest)
  found : rest = [] → a.task ≠ [] → s.cursor = (advance (t.search old) front a 0).map Prod.snd
  lost : rest ≠ [] ∨ a.task = [] → s.cursor = none

theorem judging_after (u : TaskUser) : u.judging.After t old u.toAccount [] [] [] where
  parted := parted_nil
  user := .refl _
  found := fun _ hsome => if_neg hsome
  lost := by
    rintro (hne | hempty)
    · exact absurd rfl hne
    · exact if_pos hempty

theorem gift_alike {s : Judging} (h : s.user.toAccount.Alike b) (ha : task.awarded e s.user s.cursor = true) :
    (t.judge old e s task).user.toAccount.Alike (t.recorded old b task) := by
  rw [Task.judge, ha]
  exact giveArticles_alike h

theorem judge_refused {s : Judging} (ha : task.awarded e s.user s.cursor = false) :
    (t.judge old e s task).user = s.user := by
  rw [Task.judge, ha]
  rfl

theorem Task.Parted.lost (h : t.Parted old a tasks front rest) (hne : rest ≠ []) (task : STask) :
    ¬t.BarsInOrder old a (tasks ++ [task]) := by
  obtain ⟨head, tail, rfl⟩ := List.exists_cons_of_ne_nil hne
  intro hbars
  apply (h.first head tail rfl).2
  rw [h.split, List.append_assoc, List.cons_append, ← List.singleton_append, ← List.append_assoc] at hbars
  exact hbars.of_append

theorem Task.Parted.longer (h : t.Parted old a tasks front rest) (hne : rest ≠ []) (task : STask) :
    t.Parted old a (tasks ++ [task]) front (rest ++ [task]) := by
  obtain ⟨head, tail, rfl⟩ := List.exists_cons_of_ne_nil hne
  refine ⟨by rw [h.split, List.append_assoc], h.barred, ?_⟩
  intro task' tail' heq
  obtain ⟨rfl, -⟩ := List.cons.inj heq
  exact h.first head tail rfl

theorem Task.Parted.barred_longer (h : t.Parted old a tasks front []) (hbars : t.BarsInOrder old a (front ++ [task])) :
    t.Parted old a (tasks ++ [task]) (front ++ [task]) [] := by
  refine ⟨by rw [h.split, List.append_nil, List.append_nil], hbars, ?_⟩
  intro task' tail heq
  cases heq

theorem Task.Parted.begins (h : t.Parted old a tasks front []) (h0 : task.reapt = 0)
    (hbars : ¬t.BarsInOrder old a (front ++ [task])) : t.Parted old a (tasks ++ [task]) front [task] := by
  refine ⟨by rw [h.split, List.append_nil], h.barred, ?_⟩
  intro task' tail heq
  obtain ⟨rfl, -⟩ := List.cons.inj heq
  exact ⟨h0, hbars⟩

variable {s : Judging}

theorem awarded_repeated (hf : e.fulfils task = true) (h0 : task.reapt ≠ 0) :
    task.awarded e s.user s.cursor = true ∧ (t.judge old e s task).cursor = s.cursor := by
  refine ⟨by simp [STask.awarded, fulfilled_eq, hf, h0], ?_⟩
  simp [Task.judge, STask.check, h0]

theorem awarded_asked (hf : e.fulfils task = true) (h0 : task.reapt = 0) :
    task.awarded e s.user s.cursor = (task.seek s.user.task s.cursor).isNone ∧
      (t.judge old e s task).cursor = task.seek s.user.task s.cursor := by
  simp [STask.awarded, Task.judge, STask.check, fulfilled_eq, hf, h0]

/-- What a round makes of a task that the event fulfils: an award, unless the tasks up to it are all barred in order. -/
structure Judging.Rules (t : Task) (old : ℕ → List UserTask) (a : Account) (e : TaskEvent) (tasks : List STask)
    (task : STask) (s : Judging) : Prop where
  after : ∃ front rest, (t.judge old e s task).After t old a (tasks ++ [task]) front rest
  awarded : task.awarded e s.user s.cursor = true ↔ task.reapt ≠ 0 ∨ ¬t.BarsInOrder old a (tasks ++ [task])

theorem Judging.After.judge_lost (h : s.After t old a tasks front rest) (hf : e.fulfils task = true) (hne : rest ≠ []) :
    s.Rules t old a e tasks task := by
  have hlost := h.lost (.inl hne)
  have haward : task.awarded e s.user s.cursor = true ∧ (t.judge old e s task).cursor = none := by
    by_cases h0 : task.reapt = 0
    · obtain ⟨haward, hcursor⟩ := @awarded_asked t old e task s hf h0
      rw [hlost] at haward hcursor
      rw [hlost]
      exact ⟨haward, hcursor⟩
    · obtain ⟨haward, hcursor⟩ := @awarded_repeated t old e task s hf h0
      exact ⟨haward, hcursor.trans hlost⟩
  refine ⟨⟨front, rest ++ [task], h.parted.longer hne task, ?_, ?_, fun _ => haward.2⟩, ?_⟩
  · rw [withAwards_append]
    exact gift_alike h.user haward.1
  · intro hnil
    exact absurd (List.append_eq_nil_iff.mp hnil).1 hne
  · exact iff_of_true haward.1 (.inr (h.parted.lost hne task))

theorem Judging.After.judge_repeated (h : s.After t old a tasks front []) (hf : e.fulfils task = true)
    (h0 : task.reapt ≠ 0) : s.Rules t old a e tasks task := by
  obtain ⟨i, hscan⟩ := h.parted.barred.scanned
  obtain ⟨haward, hcursor⟩ := @awarded_repeated t old e task s hf h0
  have hbars := bars_repeated h0 h.parted.barred
  refine ⟨⟨front ++ [task], [], h.parted.barred_longer hbars, ?_, ?_, ?_⟩, iff_of_true haward (.inl h0)⟩
  · rw [withAwards_repeated h0]
    exact gift_alike h.user haward
  · intro _ hsome
    rw [hcursor, h.found rfl hsome, hscan, advance_repeated h0 hscan]
    rfl
  · rintro (hne | hnone)
    · exact absurd rfl hne
    · rw [hcursor]
      exact h.lost (.inr hnone)

theorem Judging.After.judge_begins (h : s.After t old a tasks front []) (hf : e.fulfils task = true)
    (h0 : task.reapt = 0) (hseek : task.seek s.user.task s.cursor = none)
    (hnot : ¬t.BarsInOrder old a (front ++ [task])) : s.Rules t old a e tasks task := by
  obtain ⟨haward, hcursor⟩ := @awarded_asked t old e task s hf h0
  rw [hseek] at haward hcursor
  have hsplit : tasks = front := by rw [h.parted.split, List.append_nil]
  refine ⟨⟨front, [task], h.parted.begins h0 hnot, ?_, ?_, fun _ => hcursor⟩, ?_⟩
  · have hgift := @gift_alike t old _ _ _ _ h.user haward
    rwa [← withAwards_append] at hgift
  · intro hnil
    cases hnil
  · exact iff_of_true haward (.inr (hsplit ▸ hnot))

theorem Judging.After.judge_asked (h : s.After t old a tasks front []) (hf : e.fulfils task = true)
    (h0 : task.reapt = 0) : s.Rules t old a e tasks task := by
  obtain ⟨i, hscan⟩ := h.parted.barred.scanned
  have hbars := bars_asked h0 hscan
  by_cases hempty : a.task = []
  · apply h.judge_begins hf h0
    · rw [h.lost (.inr hempty)]
      rfl
    · exact fun hb => (hbars.mp hb).1 hempty
  have hseek : task.seek s.user.task s.cursor = seek (t.search old) task (t.withAwards old a front []) i := by
    rw [h.found rfl hempty, hscan, h.user.task]
    rfl
  cases hfound : seek (t.search old) task (t.withAwards old a front []) i with
  | none =>
    rw [hfound] at hbars hseek
    exact h.judge_begins hf h0 hseek (fun hb => Bool.false_ne_true (hbars.mp hb).2)
  | some j =>
    obtain ⟨haward, hcursor⟩ := @awarded_asked t old e task s hf h0
    rw [hseek, hfound] at haward hcursor
    rw [hfound] at hbars
    have hbarred : t.BarsInOrder old a (front ++ [task]) := hbars.mpr ⟨hempty, rfl⟩
    have hsplit : tasks = front := by rw [h.parted.split, List.append_nil]
    refine ⟨⟨front ++ [task], [], h.parted.barred_longer hbarred, ?_, ?_, ?_⟩, ?_⟩
    · rw [judge_refused haward, withAwards_asked h0]
      exact h.user
    · intro _ _
      rw [hcursor, advance_asked h0 hscan, hfound]
      rfl
    · rintro (hne | hnone)
      · exact absurd rfl hne
      · exact absurd hnone hempty
    · rw [haward, hsplit]
      exact iff_of_false Bool.false_ne_true (not_or.mpr ⟨not_not.mpr h0, not_not.mpr hbarred⟩)

theorem Judging.After.judge (h : s.After t old a tasks front rest) (hf : e.fulfils task = true) :
    s.Rules t old a e tasks task := by
  by_cases hrest : rest = []
  · subst hrest
    by_cases h0 : task.reapt = 0
    · exact h.judge_asked hf h0
    · exact h.judge_repeated hf h0
  · exact h.judge_lost hf hrest

theorem Judging.After.skip (h : s.After t old a tasks front rest) (hf : e.fulfils task = false) :
    (t.judge old e s task).After t old a tasks front rest ∧ task.awarded e s.user s.cursor = false := by
  have haward : task.awarded e s.user s.cursor = false := by simp [STask.awarded, fulfilled_eq, hf]
  have hcursor : (t.judge old e s task).cursor = s.cursor := by simp [Task.judge, STask.check, fulfilled_eq, hf]
  refine ⟨⟨h.parted, ?_, ?_, ?_⟩, haward⟩
  · rw [judge_refused haward]
    exact h.user
  · rw [hcursor]
    exact h.found
  · rw [hcursor]
    exact h.lost

theorem judged_after (t : Task) (old : ℕ → List UserTask) (e : TaskEvent) (u : TaskUser) (tasks : List STask) :
    ∃ front rest, (tasks.foldl (t.judge old e) u.judging).After t old u.toAccount (tasks.filter e.fulfils) front
      rest := by
  induction tasks using List.reverseRecOn with
  | nil => exact ⟨[], [], judging_after u⟩
  | append_singleton tasks task ih =>
    obtain ⟨front, rest, h⟩ := ih
    rw [List.foldl_append, List.filter_append, List.foldl_cons, List.foldl_nil]
    by_cases hf : e.fulfils task = true
    · rw [List.filter_cons_of_pos hf, List.filter_nil]
      exact (h.judge hf).after
    · rw [Bool.not_eq_true] at hf
      rw [List.filter_cons_of_neg (by simp [hf]), List.filter_nil, List.append_nil]
      exact ⟨front, rest, (h.skip hf).1⟩

def Task.round (t : Task) (old : ℕ → List UserTask) (e : TaskEvent) (s : Judging) (task : STask) : TaskRound :=
  let awarded := task.awarded e s.user s.cursor
  let gift := if awarded then giveArticles t.article old task task.articleIds.toList s.user else (s.user, [])
  ⟨e, task, s.user, s.cursor, awarded, gift.2, gift.1⟩

theorem mem_rounds {r : TaskRound} : r ∈ (tasks.foldl (t.judge old e) s).rounds ↔ r ∈ s.rounds ∨
    ∃ done task rest, tasks = done ++ task :: rest ∧ r = t.round old e (done.foldl (t.judge old e) s) task := by
  induction tasks generalizing s with
  | nil =>
    rw [List.foldl_nil]
    refine ⟨.inl, ?_⟩
    rintro (h | ⟨done, task, rest, h, -⟩)
    · exact h
    · exact absurd h.symm (List.append_ne_nil_of_right_ne_nil _ (List.cons_ne_nil _ _))
  | cons task tasks ih =>
    have hjudge : (t.judge old e s task).rounds = s.rounds ++ [t.round old e s task] := rfl
    rw [List.foldl_cons, ih, hjudge, List.mem_append, List.mem_singleton, or_assoc]
    apply or_congr_right
    constructor
    · rintro (rfl | ⟨done, task', rest, rfl, rfl⟩)
      · exact ⟨[], task, tasks, rfl, rfl⟩
      · exact ⟨task :: done, task', rest, rfl, rfl⟩
    · rintro ⟨done, task', rest, hsplit, rfl⟩
      cases done with
      | nil =>
        obtain ⟨rfl, rfl⟩ := List.cons.inj hsplit
        exact .inl rfl
      | cons task'' done =>
        obtain ⟨rfl, rfl⟩ := List.cons.inj hsplit
        exact .inr ⟨done, task', rest, rfl, rfl⟩

/-- The round of a task that the tasks `done` were before: what the user has by then, and whether it is awarded. -/
structure TaskRound.Placed (t : Task) (old : ℕ → List UserTask) (e : TaskEvent) (a : Account) (done : List STask)
    (r : TaskRound) : Prop where
  parted : ∃ front rest, t.Parted old a (done.filter e.fulfils) front rest
  before : ∀ front rest, t.Parted old a (done.filter e.fulfils) front rest →
    r.before.toAccount.Alike (t.withAwards old a front rest)
  awarded : r.awarded = true ↔ e.fulfils r.task = true ∧
    (r.task.reapt ≠ 0 ∨ ¬t.BarsInOrder old a (done.filter e.fulfils ++ [r.task]))

theorem round_placed (t : Task) (old : ℕ → List UserTask) (e : TaskEvent) (u : TaskUser) (done : List STask)
    (task : STask) : (t.round old e (done.foldl (t.judge old e) u.judging) task).Placed t old e u.toAccount done := by
  obtain ⟨front, rest, h⟩ := judged_after t old e u done
  refine ⟨⟨front, rest, h.parted⟩, ?_, ?_⟩
  · intro front' rest' h'
    obtain ⟨rfl, rfl⟩ := h.parted.unique h'
    exact h.user
  · change task.awarded e _ _ = true ↔ e.fulfils task = true ∧ _
    by_cases hf : e.fulfils task = true
    · rw [(h.judge hf).awarded]
      exact ⟨fun hor => ⟨hf, hor⟩, fun hand => hand.2⟩
    · have hnot := (h.skip (Bool.not_eq_true _ ▸ hf)).2
      rw [hnot]
      exact iff_of_false Bool.false_ne_true (fun hand => hf hand.1)

variable {time : ℤ} {n : ℕ}

theorem complete_placed {r : TaskRound} (hr : r ∈ (t.complete old e time u n).state.rounds) : ∃ done rest,
    reached (STask.outside time) n t.tasks = done ++ r.task :: rest ∧ r.Placed t old e u.toAccount done := by
  rw [complete_eq] at hr
  rcases mem_rounds.mp hr with hr | ⟨done, task, rest, hsplit, rfl⟩
  · cases hr
  · exact ⟨done, rest, hsplit, round_placed t old e u done task⟩

theorem placed_complete {done rest : List STask}
    (h : reached (STask.outside time) n t.tasks = done ++ task :: rest) :
    ∃ r ∈ (t.complete old e time u n).state.rounds, r.task = task ∧ r.Placed t old e u.toAccount done := by
  refine ⟨t.round old e (done.foldl (t.judge old e) u.judging) task, ?_, rfl, round_placed t old e u done task⟩
  rw [complete_eq]
  exact mem_rounds.mpr (.inr ⟨done, task, rest, h, rfl⟩)

end

end FishServer
