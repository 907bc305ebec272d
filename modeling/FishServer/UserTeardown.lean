import FishServer.Account
import FishServer.Lib.Chain

namespace FishServer

open BlockHeap

/-! The blocks of a `User` and their release. -/

inductive UserBlock
  | name (s : CStr)
  | task (t : UserTask) (next : Option ℕ)
  | kill (k : KillFish) (next : Option ℕ)
deriving DecidableEq

def taskCell : Cell UserTask UserBlock where
  make := .task
  node
    | .task t next => some (t, next)
    | _ => none
  node_make _ _ := rfl

def killCell : Cell KillFish UserBlock where
  make := .kill
  node
    | .kill k next => some (k, next)
    | _ => none
  node_make _ _ := rfl

structure HeapUser where
  heap : Heap UserBlock
  name : Option ℕ
  task : Option ℕ
  killfish : Option ℕ
  taskTotal : ℤ

def HeapUser.addTask (n p : ℕ) (u : HeapUser) : Option HeapUser := do
  match ← endFrom taskCell u.heap n none u.task with
  | none => some { u with task := some p, taskTotal := i32 (u.taskTotal + 1) }
  | some e => do
    let x ← u.heap.cell taskCell e
    some { u with heap := u.heap.modify (fun _ => taskCell.make x.1 (some p)) e, taskTotal := i32 (u.taskTotal + 1) }

/-- The loop over the tasks. It reads the link of the first record in every turn. -/
def freeTasks (task : Option ℕ) : ℕ → Heap UserBlock → Option ℕ → Option (Heap UserBlock)
  | _, h, none => some h
  | 0, _, some _ => none
  | n + 1, h, some p => do
    let b ← task
    let x ← h.cell taskCell b
    let h ← h.free p
    freeTasks task n h x.2

/-- None is a read or a release of a block that is not there, or a bound on the turns that is too small. -/
def HeapUser.destory (n : ℕ) (u : HeapUser) : Option HeapUser := do
  let h ← u.name.elim (some u.heap) u.heap.free
  let h ← freeTasks u.task n h u.task
  let h ← freeFrom killCell n h u.killfish
  some { u with heap := h, task := none, killfish := none }

def HeapUser.blocks (u : HeapUser) (ts : List (ℕ × UserTask)) (ks : List (ℕ × KillFish)) : List ℕ :=
  u.name.toList ++ ts.map Prod.fst ++ ks.map Prod.fst

structure HeapUser.Holds (u : HeapUser) (a : Account) (ts : List (ℕ × UserTask)) (ks : List (ℕ × KillFish)) :
    Prop where
  name : ∀ b ∈ u.name, ∃ s, u.heap.block b = some (.name s)
  task : Chain taskCell u.heap u.task ts
  killfish : Chain killCell u.heap u.killfish ks
  nodup : (u.blocks ts ks).Nodup
  tasks : ts.map Prod.snd = a.task
  kills : ks.map Prod.snd = a.killfish
  total : u.taskTotal = a.taskTotal

section

variable {u : HeapUser} {a : Account} {ts : List (ℕ × UserTask)} {ks : List (ℕ × KillFish)}

theorem HeapUser.Holds.live (h : u.Holds a ts ks) : ∀ b ∈ u.blocks ts ks, ∃ v, u.heap.block b = some v := by
  intro b hb
  unfold HeapUser.blocks at hb
  rw [List.mem_append, List.mem_append, Option.mem_toList] at hb
  rcases hb with (hb | hb) | hb
  · obtain ⟨s, hs⟩ := h.name b hb
    exact ⟨_, hs⟩
  · exact chain_live h.task b hb
  · exact chain_live h.killfish b hb

theorem HeapUser.Holds.nodups (h : u.Holds a ts ks) : (ts.map Prod.fst).Nodup ∧ (ks.map Prod.fst).Nodup ∧
    (∀ b ∈ u.name, b ∉ ts.map Prod.fst ∧ b ∉ ks.map Prod.fst) ∧ ∀ b ∈ ts.map Prod.fst, b ∉ ks.map Prod.fst := by
  have hd := h.nodup
  unfold HeapUser.blocks at hd
  simp only [List.nodup_append, List.mem_append, Option.mem_toList] at hd
  obtain ⟨⟨-, hts, hname⟩, hks, hdis⟩ := hd
  refine ⟨hts, hks, ?_, ?_⟩
  · intro b hb
    exact ⟨fun hm => hname b hb b hm rfl, fun hm => hdis b (.inl hb) b hm rfl⟩
  · intro b hb hm
    exact hdis b (.inr hb) b hm rfl

theorem nodup_added (h : u.Holds a ts ks) {p : ℕ} {t : UserTask} (hnew : p ∉ u.blocks ts ks) :
    (u.name.toList ++ (ts ++ [(p, t)]).map Prod.fst ++ ks.map Prod.fst).Nodup := by
  have hperm : (u.name.toList ++ (ts ++ [(p, t)]).map Prod.fst ++ ks.map Prod.fst).Perm (p :: u.blocks ts ks) := by
    simpa [HeapUser.blocks] using @List.perm_middle ℕ p (u.name.toList ++ ts.map Prod.fst) (ks.map Prod.fst)
  exact hperm.nodup_iff.mpr (List.nodup_cons.mpr ⟨hnew, h.nodup⟩)

theorem addTask_holds (h : u.Holds a ts ks) {p : ℕ} {t : UserTask} (hp : u.heap.block p = some (.task t none))
    (hnew : p ∉ u.blocks ts ks) {n : ℕ} (hn : ts.length ≤ n) :
    ∃ u', u.addTask n p = some u' ∧ u'.Holds (a.addTask t) (ts ++ [(p, t)]) ks := by
  obtain ⟨hts, hks, hname, hdis⟩ := h.nodups
  have hcell : u.heap.cell taskCell p = some (t, none) := by
    rw [Heap.cell, hp]
    rfl
  have hnodup := nodup_added h (t := t) hnew
  have htasks : (ts ++ [(p, t)]).map Prod.snd = (a.addTask t).task := by
    rw [List.map_append, h.tasks]
    rfl
  have htotal : i32 (u.taskTotal + 1) = (a.addTask t).taskTotal := by
    rw [h.total]
    rfl
  have hend := endFrom_chain n none h.task hn
  rcases List.eq_nil_or_concat ts with rfl | ⟨l, ⟨e, y⟩, rfl⟩
  · refine ⟨{ u with task := some p, taskTotal := i32 (u.taskTotal + 1) }, ?_, ?_⟩
    · unfold HeapUser.addTask
      rw [hend]
      rfl
    · exact ⟨h.name, ⟨rfl, none, hcell, rfl⟩, h.killfish, hnodup, htasks, h.kills, htotal⟩
  · rw [List.concat_eq_append] at *
    rw [List.map_append] at hts hdis
    have hpl : p ∉ l.map Prod.fst ++ [e] := by
      intro hm
      apply hnew
      rw [HeapUser.blocks, List.map_append]
      exact List.mem_append_left _ (List.mem_append_right _ hm)
    obtain ⟨he, hchain⟩ := chain_append h.task hts hcell hpl
    have hmem : e ∈ l.map Prod.fst ++ [e] := List.mem_append_right _ (List.mem_singleton_self e)
    refine ⟨{ u with heap := u.heap.modify (fun _ => taskCell.make y (some p)) e, taskTotal := i32 (u.taskTotal + 1) },
      ?_, ?_, hchain, ?_, hnodup, htasks, h.kills, htotal⟩
    · unfold HeapUser.addTask
      simp [hend, he]
    · intro b hb
      obtain ⟨s, hs⟩ := h.name b hb
      refine ⟨s, ?_⟩
      rw [modify_block _ _ _, hs]
      rintro rfl
      have hm := (hname b hb).1
      rw [List.map_append] at hm
      exact hm hmem
    · apply chain_congr _ h.killfish
      intro b hb
      apply modify_block
      rintro rfl
      exact hdis b hmem hb

theorem freeTasks_end (task : Option ℕ) (n : ℕ) (heap : Heap UserBlock) :
    freeTasks task n heap none = some heap := by
  cases n <;> rfl

theorem freeTasks_one {heap : Heap UserBlock} {p : ℕ} {t : UserTask} (hp : heap.cell taskCell p = some (t, none))
    (n : ℕ) : ∃ heap', freeTasks (some p) (n + 1) heap (some p) = some heap' ∧ Released [p] heap heap' := by
  obtain ⟨v, hv⟩ := cell_live hp
  obtain ⟨heap', hf, hr⟩ := released_free heap hv
  refine ⟨heap', ?_, hr⟩
  simp [freeTasks, hp, hf, freeTasks_end]

theorem freeTasks_short {heap : Heap UserBlock} {p : Option ℕ} {ts : List (ℕ × UserTask)}
    (hc : Chain taskCell heap p ts) (hlen : ts.length ≤ 1) (n : ℕ) :
    ∃ heap', freeTasks p (n + 1) heap p = some heap' ∧ Released (ts.map Prod.fst) heap heap' := by
  cases ts with
  | nil =>
    have hnone : p = none := hc
    rw [hnone, freeTasks_end]
    exact ⟨heap, rfl, Released.refl heap⟩
  | cons x ts =>
    obtain rfl : ts = [] := List.length_eq_zero_iff.mp (by simpa using hlen)
    obtain ⟨hp, q, hq, rfl⟩ := hc
    rw [hp]
    exact freeTasks_one hq n

-- in the second turn the first record is gone
theorem freeTasks_two {heap : Heap UserBlock} {p q : ℕ} {t : UserTask}
    (hp : heap.cell taskCell p = some (t, some q)) (n : ℕ) : freeTasks (some p) n heap (some p) = none := by
  obtain ⟨v, hv⟩ := cell_live hp
  obtain ⟨heap', hf, hr⟩ := released_free heap hv
  have hgone : heap'.cell taskCell p = none := cell_gone (hr.gone p (List.mem_singleton_self p))
  rcases n with _ | _ | n
  · rfl
  · simp [freeTasks, hp, hf]
  · simp [freeTasks, hp, hf, hgone]

theorem freeName_released (h : u.Holds a ts ks) :
    ∃ heap, u.name.elim (some u.heap) u.heap.free = some heap ∧ Released u.name.toList u.heap heap := by
  cases hn : u.name with
  | none => exact ⟨u.heap, rfl, Released.refl u.heap⟩
  | some b =>
    obtain ⟨s, hs⟩ := h.name b hn
    exact released_free u.heap hs

theorem chain_kept {α : Type} {c : Cell α UserBlock} {heap heap' : Heap UserBlock} {bs : List ℕ} {p : Option ℕ}
    {l : List (ℕ × α)} (hr : Released bs heap heap') (hc : Chain c heap p l) (hl : ∀ b ∈ l.map Prod.fst, b ∉ bs) :
    Chain c heap' p l :=
  chain_congr (fun b hb => hr.kept b (hl b hb)) hc

end

def HeapUser.Destroyed (u : HeapUser) (ts : List (ℕ × UserTask)) (ks : List (ℕ × KillFish)) : Prop :=
  ∃ n u', u.destory n = some u' ∧ Released (u.blocks ts ks) u.heap u'.heap

theorem destory_stuck {u : HeapUser} {a : Account} {ts : List (ℕ × UserTask)} {ks : List (ℕ × KillFish)}
    (h : u.Holds a ts ks) (hlen : 1 < ts.length) (n : ℕ) : u.destory n = none := by
  obtain ⟨heap, hname, hr⟩ := freeName_released h
  have hdis := h.nodups.2.2.1
  have hkept : Chain taskCell heap u.task ts := by
    apply chain_kept hr h.task
    intro b hb hm
    exact (hdis b (Option.mem_toList.mp hm)).1 hb
  match ts, hlen with
  | x :: y :: ts, _ =>
    obtain ⟨hp, q, hq, rfl, -⟩ := hkept
    unfold HeapUser.destory
    simp [hname, hp, freeTasks_two hq]

theorem destroyed_iff (u : HeapUser) (a : Account) (ts : List (ℕ × UserTask)) (ks : List (ℕ × KillFish))
    (h : u.Holds a ts ks) : u.Destroyed ts ks ↔ a.task.length ≤ 1 := by
  rw [← h.tasks, List.length_map]
  constructor
  · rintro ⟨n, u', hu, -⟩
    by_contra hlen
    rw [destory_stuck h (by omega) n] at hu
    cases hu
  · intro hlen
    obtain ⟨hts, hks, hname, hdis⟩ := h.nodups
    obtain ⟨heap, hf, hr⟩ := freeName_released h
    have htask : Chain taskCell heap u.task ts := by
      apply chain_kept hr h.task
      intro b hb hm
      exact (hname b (Option.mem_toList.mp hm)).1 hb
    obtain ⟨heap', hf', hr'⟩ := freeTasks_short htask hlen ks.length
    have hrel := hr.trans hr'
    have hkill : Chain killCell heap' u.killfish ks := by
      apply chain_kept hrel h.killfish
      intro b hb hm
      rcases List.mem_append.mp hm with hm | hm
      · exact (hname b (Option.mem_toList.mp hm)).2 hb
      · exact hdis b hm hb
    obtain ⟨heap'', hf'', hr''⟩ := freeFrom_released (ks.length + 1) hkill hks (Nat.le_succ _)
    have hdone : u.destory (ks.length + 1) = some { u with heap := heap'', task := none, killfish := none } := by
      unfold HeapUser.destory
      simp [hf, hf', hf'']
    exact ⟨_, _, hdone, hrel.trans hr''⟩

def fisherHeap : Heap UserBlock := (Heap.empty.malloc (.name "fisher".toList)).malloc (.kill ⟨1, 3, 5, false⟩ none)

def fisherTask : UserTask := ⟨0, 2, 4, 4, 1, true⟩

def fisherAccount (tasks : List UserTask) : Account := ⟨7, 40, 40, [⟨1, 3, 5, false⟩], 5, tasks, tasks.length, 60⟩

theorem one_task_destroyed : ∃ u : HeapUser,
    u.Holds (fisherAccount [fisherTask]) [(2, fisherTask)] [(1, ⟨1, 3, 5, false⟩)] ∧
      u.Destroyed [(2, fisherTask)] [(1, ⟨1, 3, 5, false⟩)] := by
  have h : HeapUser.Holds ⟨fisherHeap.malloc (.task fisherTask none), some 0, some 2, some 1, 1⟩
      (fisherAccount [fisherTask]) [(2, fisherTask)] [(1, ⟨1, 3, 5, false⟩)] := by
    refine ⟨?_, ⟨rfl, none, rfl, rfl⟩, ⟨rfl, none, rfl, rfl⟩, by decide, rfl, rfl, rfl⟩
    rintro b ⟨⟩
    exact ⟨"fisher".toList, rfl⟩
  exact ⟨_, h, (destroyed_iff _ _ _ _ h).mpr (by decide)⟩

theorem two_tasks_stuck : ¬ ∀ (u : HeapUser) (a : Account) (ts : List (ℕ × UserTask)) (ks : List (ℕ × KillFish)),
    u.Holds a ts ks → u.Destroyed ts ks := by
  intro hall
  have h : HeapUser.Holds ⟨(fisherHeap.malloc (.task fisherTask (some 3))).malloc (.task fisherTask none), some 0,
      some 2, some 1, 2⟩ (fisherAccount [fisherTask, fisherTask]) [(2, fisherTask), (3, fisherTask)]
      [(1, ⟨1, 3, 5, false⟩)] := by
    refine ⟨?_, ⟨rfl, some 3, rfl, rfl, none, rfl, rfl⟩, ⟨rfl, none, rfl, rfl⟩, by decide, rfl, rfl, rfl⟩
    rintro b ⟨⟩
    exact ⟨"fisher".toList, rfl⟩
  obtain ⟨n, u', hu, -⟩ := hall _ _ _ _ h
  rw [destory_stuck h (by decide) n] at hu
  cases hu

end FishServer
