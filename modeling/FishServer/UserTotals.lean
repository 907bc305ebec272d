import FishServer.FailedSave
import FishServer.Task

namespace FishServer

/-! The totals that a user keeps beside its lists. -/

inductive AccountCall
  | killFish (no : ℤ)
  | addTask (task : UserTask) (old : List UserTask)
  | save (sql : Sql) (now : ℤ) (db : Db)

def Account.call (a : Account) : AccountCall → Account
  | .killFish no => a.killFish no
  | .addTask task old => a.addRecord old task
  | .save sql now db => (Account.save sql now a db).1

def Account.calls (a : Account) (cs : List AccountCall) : Account := cs.foldl Account.call a

def AccountCall.isAdd : AccountCall → Bool
  | .addTask _ _ => true
  | _ => false

def Account.kills (a : Account) : ℤ := (a.killfish.map KillFish.value).sum

structure Account.TotalsMatch (a : Account) : Prop where
  kills : ∀ n, a.checkKillFish 0 n = true ↔ n ≤ a.kills
  tasks : ∀ g n, g ≤ 0 → (a.checkTask g n = true ↔ n ≤ a.task.length)

/-- The counts that are loaded sum up to an int, and the calls kill no fish and add no more tasks than an int
counts, each with a null link. -/
structure CallsCounted (db : Db) (uid : ℤ) (cs : List AccountCall) : Prop where
  loaded : isInt ((db.loadKills uid).map KillFish.value).sum = true
  kills : ∀ no, AccountCall.killFish no ∉ cs
  links : ∀ task old, AccountCall.addTask task old ∈ cs → old = []
  tasks : cs.countP AccountCall.isAdd < 2 ^ 31

section

variable {a : Account}

theorem totals_iff : a.TotalsMatch ↔ a.killfishTotal = a.kills ∧ a.taskTotal = a.task.length := by
  constructor
  · intro h
    have hk := h.kills
    have ht := fun n => h.tasks 0 n le_rfl
    simp only [Account.checkKillFish, Account.checkTask, if_true, le_refl, decide_eq_true_eq] at hk ht
    exact ⟨le_antisymm ((hk _).mp le_rfl) ((hk _).mpr le_rfl), le_antisymm ((ht _).mp le_rfl) ((ht _).mpr le_rfl)⟩
  · rintro ⟨hk, ht⟩
    constructor
    · intro n
      simp [Account.checkKillFish, hk]
    · intro g n hg
      simp [Account.checkTask, hg, ht]

theorem i32_ne_self (x : ℤ) : i32 (x + 1) ≠ x := by
  unfold i32
  omega

theorem killFish_sum (no : ℤ) (ks : List KillFish) :
    ((killFish no ks).map KillFish.value).sum ≠ (ks.map KillFish.value).sum := by
  induction ks with
  | nil => simp [killFish]
  | cons k ks ih =>
    rw [killFish]
    split_ifs
    · have := i32_ne_self k.value
      simp only [List.map_cons, List.sum_cons]
      omega
    · simp only [List.map_cons, List.sum_cons]
      omega

theorem sum_wraps (l : List ℤ) (n : ℤ) : l.foldl (fun n v => i32 (n + v)) (i32 n) = i32 (n + l.sum) := by
  induction l generalizing n with
  | nil => simp
  | cons v l ih =>
    have hv : i32 (i32 n + v) = i32 (n + v) := by
      rw [Int.add_comm, i32_add_i32, Int.add_comm]
    rw [List.foldl_cons, hv, ih, List.sum_cons, Int.add_assoc]

theorem load_total (db : Db) (uid now : ℤ) :
    (Account.load db uid now).killfishTotal = i32 (Account.load db uid now).kills := by
  have h := sum_wraps ((db.loadKills uid).map KillFish.value) 0
  rw [zero_add] at h
  exact h

theorem save_totals (sql : Sql) (now : ℤ) (a : Account) (db : Db) :
    (Account.save sql now a db).1.kills = a.kills ∧ (Account.save sql now a db).1.task = a.task ∧
      (Account.save sql now a db).1.killfishTotal = a.killfishTotal ∧
      (Account.save sql now a db).1.taskTotal = a.taskTotal := by
  by_cases hid : a.id = 0
  · unfold Account.save
    rw [if_pos hid]
    exact ⟨rfl, rfl, rfl, rfl⟩
  · obtain ⟨-, htask, hkill, -, -, -, -⟩ := @save_eq sql now a db hid
    refine ⟨?_, htask, ?_, ?_⟩
    · unfold Account.kills
      rw [hkill, saveKills_records, List.map_map]
      rfl
    all_goals
      unfold Account.save Account.saveCoin
      rw [if_neg hid]
      split_ifs <;> rfl

theorem calls_tasks (cs : List AccountCall) (hlinks : ∀ task old, AccountCall.addTask task old ∈ cs → old = [])
    (h : a.taskTotal = i32 a.task.length) : (a.calls cs).taskTotal = i32 (a.calls cs).task.length ∧
      (a.calls cs).task.length = a.task.length + cs.countP AccountCall.isAdd := by
  induction cs generalizing a with
  | nil => exact ⟨h, rfl⟩
  | cons c cs ih =>
    have hrest : ∀ task old, AccountCall.addTask task old ∈ cs → old = [] :=
      fun task old hm => hlinks task old (List.mem_cons_of_mem c hm)
    cases c with
    | killFish no => exact @ih (a.killFish no) hrest h
    | addTask task old =>
      obtain rfl := hlinks task old List.mem_cons_self
      have hadd : (a.addRecord [] task).taskTotal = i32 (a.addRecord [] task).task.length := by
        simp only [Account.addRecord, Account.addTask, h, List.append_nil, List.length_append, List.length_singleton,
          i32_succ, Nat.cast_add, Nat.cast_one]
      obtain ⟨htotal, hlen⟩ := ih hrest hadd
      refine ⟨htotal, hlen.trans ?_⟩
      rw [List.countP_cons_of_pos rfl]
      simp only [Account.addRecord, Account.addTask, List.append_nil, List.length_append, List.length_singleton]
      omega
    | save sql now db =>
      obtain ⟨-, htask, -, htotal⟩ := save_totals sql now a db
      have hsave := @ih (Account.save sql now a db).1 hrest (by rw [htask, htotal]; exact h)
      rw [htask] at hsave
      exact hsave

theorem calls_kills (cs : List AccountCall) : (a.calls cs).killfishTotal = a.killfishTotal ∧
    ((∀ no, AccountCall.killFish no ∉ cs) → (a.calls cs).kills = a.kills) := by
  induction cs generalizing a with
  | nil => exact ⟨rfl, fun _ => rfl⟩
  | cons c cs ih =>
    obtain ⟨htotal, hkills⟩ := @ih (a.call c)
    have hrest : (∀ no, AccountCall.killFish no ∉ c :: cs) → ∀ no, AccountCall.killFish no ∉ cs :=
      fun h no hm => h no (List.mem_cons_of_mem c hm)
    cases c with
    | killFish no => exact ⟨htotal, fun h => absurd List.mem_cons_self (h no)⟩
    | addTask task old => exact ⟨htotal, fun h => hkills (hrest h)⟩
    | save sql now db =>
      obtain ⟨hk, -, ht, -⟩ := save_totals sql now a db
      exact ⟨htotal.trans ht, fun h => (hkills (hrest h)).trans hk⟩

theorem match_around {cs : List AccountCall} {c : AccountCall} (h : ∀ l, l <+: cs → (a.calls l).TotalsMatch)
    (hc : c ∈ cs) : ∃ b : Account, b.TotalsMatch ∧ (b.call c).TotalsMatch := by
  obtain ⟨l, l', rfl⟩ := List.append_of_mem hc
  have hafter := h (l ++ [c]) ⟨l', by simp⟩
  rw [Account.calls, List.foldl_append] at hafter
  exact ⟨a.calls l, h l (List.prefix_append _ _), hafter⟩

theorem addRecord_links {task : UserTask} {old : List UserTask} (hbefore : a.taskTotal = a.task.length)
    (hafter : (a.addRecord old task).taskTotal = (a.addRecord old task).task.length) : old = [] := by
  simp only [Account.addRecord, Account.addTask, hbefore, List.length_append, List.length_singleton] at hafter
  apply List.eq_nil_of_length_eq_zero
  unfold i32 at hafter
  omega

end

theorem totals_match_iff (db : Db) (uid now : ℤ) (cs : List AccountCall) :
    (∀ l, l <+: cs → ((Account.load db uid now).calls l).TotalsMatch) ↔ CallsCounted db uid cs := by
  have hload := load_total db uid now
  have hsum : (Account.load db uid now).kills = ((db.loadKills uid).map KillFish.value).sum := rfl
  have hnone : (Account.load db uid now).taskTotal = i32 (Account.load db uid now).task.length :=
    (by decide : (0 : ℤ) = i32 0)
  have htasks := fun l hlinks => @calls_tasks (Account.load db uid now) l hlinks hnone
  constructor
  · intro h
    have hstart := (totals_iff.mp (h [] (List.nil_prefix))).1
    have hlinks : ∀ task old, AccountCall.addTask task old ∈ cs → old = [] := by
      intro task old hm
      obtain ⟨b, hbefore, hafter⟩ := match_around h hm
      exact addRecord_links (totals_iff.mp hbefore).2 (totals_iff.mp hafter).2
    refine ⟨?_, ?_, hlinks, ?_⟩
    · rw [← hsum, ← i32_eq_iff, ← hload]
      exact hstart
    · intro no hm
      obtain ⟨b, hbefore, hafter⟩ := match_around h hm
      exact killFish_sum no _ ((totals_iff.mp hafter).1.symm.trans (totals_iff.mp hbefore).1)
    · obtain ⟨htotal, hlen⟩ := htasks cs hlinks
      have hmatch := (totals_iff.mp (h cs (List.prefix_refl _))).2
      rw [htotal, i32_eq_iff, hlen] at hmatch
      simp only [isInt, Account.load, List.length_nil, zero_add, Bool.and_eq_true, decide_eq_true_eq] at hmatch
      omega
  · intro h l hl
    obtain ⟨htotal, hlen⟩ := htasks l (fun task old hm => h.links task old (hl.subset hm))
    obtain ⟨hsame, hkills⟩ := @calls_kills (Account.load db uid now) l
    have hcount := hl.sublist.countP_le (p := AccountCall.isAdd)
    have hadds := h.tasks
    apply totals_iff.mpr
    constructor
    · rw [hsame, hkills (fun no hm => h.kills no (hl.subset hm)), hload]
      exact i32_eq_iff.mpr (hsum ▸ h.loaded)
    · rw [htotal, hlen]
      apply i32_of_bounds
      · omega
      · simp only [Account.load, List.length_nil, zero_add]
        omega

def fiveKilled : Db := ⟨fun _ => some 40, [], Table.insert Table.empty ⟨7, 3, 5, killType⟩, Table.empty⟩

-- the sixth one is in the list and not in the total
theorem sixth_kill_uncounted : ¬ ∀ (db : Db) (uid now : ℤ) (cs : List AccountCall),
    ((Account.load db uid now).calls cs).TotalsMatch := by
  intro h
  have hk := (h fiveKilled 7 60 [.killFish 3]).kills 6
  revert hk
  decide

end FishServer
