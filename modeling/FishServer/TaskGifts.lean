import FishServer.TaskAward

namespace FishServer

/-! What an award adds to the user. -/

def Article.gain (type : ℤ) (a : Article) : ℤ := if a.type = type then a.param else 0

def gainOf (article : List Article) (type id : ℤ) : ℤ := ((articleOf article id).map (Article.gain type)).getD 0

/-- One record of the task, and each of its articles once. -/
structure TaskRound.OneRecord (article : List Article) (r : TaskRound) : Prop where
  record : ∃ rec : UserTask, r.after.task = r.before.task ++ [rec] ∧ rec.taskId = r.task.id ∧
    rec.groupId = r.task.groupId ∧ rec.mutexId = r.task.mutexId
  total : r.after.taskTotal = r.before.taskTotal + 1
  given : ∀ id ∈ r.task.articleIds.toList, id ≠ 0 → (articleOf article id).isSome = true → r.given.count id = 1
  coin : r.after.coin = r.before.coin + ∑ id ∈ r.task.articleIds.toList.toFinset.erase 0, gainOf article 1 id
  levelExp : r.after.levelExp =
    r.before.levelExp + ∑ id ∈ r.task.articleIds.toList.toFinset.erase 0, gainOf article 2 id
  vipExp : r.after.vipExp = r.before.vipExp + ∑ id ∈ r.task.articleIds.toList.toFinset.erase 0, gainOf article 3 id

/-- Before the first zero there is one id with an article, and no other id of the ten has one. The block of the record
has zero where `next` is. -/
structure TaskRound.OneArticle (article : List Article) (old : ℕ → List UserTask) (r : TaskRound) (id : ℤ)
    (a : Article) : Prop where
  clean : old r.before.task.length = []
  found : articleOf article id = some a
  gifts : giftsOf article r.task.articleIds.toList = [id]
  others : ∀ id' ∈ r.task.articleIds.toList, id' ≠ 0 → (articleOf article id').isSome = true → id' = id
  total : isInt (r.before.taskTotal + 1) = true
  coin : a.type = 1 → isInt (r.before.coin + a.param) = true
  levelExp : a.type = 2 → isInt (r.before.levelExp + a.param) = true
  vipExp : a.type = 3 → isInt (r.before.vipExp + a.param) = true

section

variable {article : List Article} {old : ℕ → List UserTask} {task : STask} {u : TaskUser}

theorem give_records {ids : List ℤ} (hids : ∀ id ∈ ids, (articleOf article id).isSome = true) :
    u.task.length + ids.length ≤ (ids.foldl (give article old task) u).task.length := by
  induction ids generalizing u with
  | nil => exact le_refl _
  | cons id ids ih =>
    obtain ⟨a, ha⟩ := Option.isSome_iff_exists.mp (hids id List.mem_cons_self)
    have hgive : u.task.length + 1 ≤ (give article old task u id).task.length := by
      rw [give, ha, Option.elim_some, addRecord_task, List.length_append, List.length_cons]
      omega
    have hrest := @ih (give article old task u id) (fun id' hm => hids id' (List.mem_cons_of_mem id hm))
    rw [List.foldl_cons, List.length_cons]
    omega

theorem giftsOf_found {ids : List ℤ} {id : ℤ} (h : id ∈ giftsOf article ids) :
    (articleOf article id).isSome = true := by
  simpa using List.of_mem_filter h

theorem gifts_one {ids : List ℤ} {rec : UserTask}
    (h : ((giftsOf article ids).foldl (give article old task) u).task = u.task ++ [rec]) :
    ∃ id, giftsOf article ids = [id] := by
  have hmost := @give_records article old task u (giftsOf article ids) (fun id hm => giftsOf_found hm)
  rw [h, List.length_append, List.length_singleton] at hmost
  have hsome : giftsOf article ids ≠ [] := by
    intro hnil
    rw [hnil, List.foldl_nil] at h
    exact List.cons_ne_nil _ _ (List.self_eq_append_right.mp h)
  have hpos := List.length_pos_iff.mpr hsome
  exact List.length_eq_one_iff.mp (by omega)

theorem gained_iff (x : ℤ) (a : Article) (type : ℤ) :
    (if a.type = type then i32 (x + a.param) else x) = x + a.gain type ↔
      (a.type = type → isInt (x + a.param) = true) := by
  unfold Article.gain
  by_cases h : a.type = type
  · rw [if_pos h, if_pos h, i32_eq_iff]
    exact ⟨fun hi _ => hi, fun hi => hi h⟩
  · rw [if_neg h, if_neg h, add_zero]
    exact ⟨fun _ ht => absurd ht h, fun _ => rfl⟩

theorem given_fields (a : Article) :
    ((u.giveArticle a).addRecord old task.record).coin = (if a.type = 1 then i32 (u.coin + a.param) else u.coin) ∧
      ((u.giveArticle a).addRecord old task.record).levelExp =
        (if a.type = 2 then i32 (u.levelExp + a.param) else u.levelExp) ∧
      ((u.giveArticle a).addRecord old task.record).vipExp =
        (if a.type = 3 then i32 (u.vipExp + a.param) else u.vipExp) ∧
      ((u.giveArticle a).addRecord old task.record).taskTotal = i32 (u.taskTotal + 1) := by
  simp only [TaskUser.addRecord, Account.addRecord, Account.addTask, TaskUser.giveArticle]
  split_ifs <;> simp_all

theorem sum_gains {ids : List ℤ} {id : ℤ} {a : Article} (ha : articleOf article id = some a)
    (hgifts : giftsOf article ids = [id])
    (hothers : ∀ id' ∈ ids, id' ≠ 0 → (articleOf article id').isSome = true → id' = id) (type : ℤ) :
    ∑ id ∈ ids.toFinset.erase 0, gainOf article type id = a.gain type := by
  have hmem : id ∈ ids.takeWhile (fun id => decide (id ≠ 0)) := by
    apply List.mem_of_mem_filter
    change id ∈ giftsOf article ids
    rw [hgifts]
    exact List.mem_singleton_self id
  have hne : id ≠ 0 := by simpa using List.mem_takeWhile_imp hmem
  have hids : id ∈ ids := (List.takeWhile_prefix _).subset hmem
  rw [Finset.sum_eq_single id]
  · simp [gainOf, ha]
  · intro id' hm hne'
    rw [Finset.mem_erase, List.mem_toFinset] at hm
    cases hf : articleOf article id' with
    | none => simp [gainOf, hf]
    | some a' => exact absurd (hothers id' hm.2 hm.1 (by rw [hf]; rfl)) hne'
  · intro hm
    exact absurd (Finset.mem_erase.mpr ⟨hne, List.mem_toFinset.mpr hids⟩) hm

end

theorem TaskRound.Judged.gifts {t : Task} {old : ℕ → List UserTask} {e : TaskEvent} {r : TaskRound}
    (h : r.Judged t old e) (ha : r.awarded = true) :
    r.after = (giftsOf t.article r.task.articleIds.toList).foldl (give t.article old r.task) r.before ∧
      r.given = giftsOf t.article r.task.articleIds.toList := by
  have hg := h.gift
  rw [if_pos ha, giveArticles_eq] at hg
  exact Prod.mk.inj hg

theorem one_record_iff (t : Task) (old : ℕ → List UserTask) (e : TaskEvent) (time : ℤ) (u : TaskUser) (n : ℕ)
    (r : TaskRound) (hr : r ∈ (t.complete old e time u n).state.rounds) (ha : r.awarded = true) :
    r.OneRecord t.article ↔ ∃ id a, r.OneArticle t.article old id a := by
  obtain ⟨hafter, hgiven⟩ := (complete_judged n r hr).gifts ha
  -- one id to give: what the user then has
  have hone : ∀ id a, articleOf t.article id = some a → giftsOf t.article r.task.articleIds.toList = [id] →
      r.after = (r.before.giveArticle a).addRecord old r.task.record := by
    intro id a hid hgifts
    rw [hafter, hgifts, List.foldl_cons, List.foldl_nil, give, hid]
    rfl
  constructor
  · intro h
    obtain ⟨rec, hrec, -⟩ := h.record
    obtain ⟨id, hgifts⟩ := gifts_one (hafter ▸ hrec)
    have hfound : (articleOf t.article id).isSome = true :=
      giftsOf_found (by rw [hgifts]; exact List.mem_singleton_self id)
    obtain ⟨a, hid⟩ := Option.isSome_iff_exists.mp hfound
    have hothers : ∀ id' ∈ r.task.articleIds.toList, id' ≠ 0 → (articleOf t.article id').isSome = true → id' = id := by
      intro id' hm h0 hf
      have hcount := h.given id' hm h0 hf
      rw [hgiven, hgifts] at hcount
      exact List.mem_singleton.mp (List.count_pos_iff.mp (by omega))
    have hsum := fun type => sum_gains hid hgifts hothers type
    obtain ⟨hcoin, hlevel, hvip, htotal⟩ := @given_fields old r.task r.before a
    rw [← hone id a hid hgifts] at hcoin hlevel hvip htotal
    refine ⟨id, a, ?_, hid, hgifts, hothers, ?_, ?_, ?_, ?_⟩
    · rw [hone id a hid hgifts, addRecord_task] at hrec
      exact (List.cons.inj (List.append_cancel_left hrec)).2
    · exact i32_eq_iff.mp (htotal.symm.trans h.total)
    · exact (gained_iff _ a 1).mp (by rw [← hcoin, ← hsum 1]; exact h.coin)
    · exact (gained_iff _ a 2).mp (by rw [← hlevel, ← hsum 2]; exact h.levelExp)
    · exact (gained_iff _ a 3).mp (by rw [← hvip, ← hsum 3]; exact h.vipExp)
  · rintro ⟨id, a, h⟩
    have hsum := fun type => sum_gains h.found h.gifts h.others type
    obtain ⟨hcoin, hlevel, hvip, htotal⟩ := @given_fields old r.task r.before a
    rw [← hone id a h.found h.gifts] at hcoin hlevel hvip htotal
    constructor
    · refine ⟨r.task.record, ?_, rfl, rfl, rfl⟩
      rw [hone id a h.found h.gifts, addRecord_task, h.clean]
    · rw [htotal]
      exact i32_eq_iff.mpr h.total
    · intro id' hm h0 hf
      rw [hgiven, h.gifts, h.others id' hm h0 hf, List.count_singleton_self]
    · rw [hcoin, hsum 1]
      exact (gained_iff _ a 1).mpr h.coin
    · rw [hlevel, hsum 2]
      exact (gained_iff _ a 2).mpr h.levelExp
    · rw [hvip, hsum 3]
      exact (gained_iff _ a 3).mpr h.vipExp

theorem three_fish_record : ∃ r ∈ (threeFish.complete (fun _ => []) ⟨3, 0, 2⟩ 60 fisher 1).state.rounds,
    r.awarded = true ∧ r.OneRecord threeFish.article := by
  refine ⟨_, List.mem_singleton_self _, by decide, ?_⟩
  apply (one_record_iff threeFish (fun _ => []) ⟨3, 0, 2⟩ 60 fisher 1 _ (List.mem_singleton_self _) (by decide)).mpr
  refine ⟨3, ⟨3, 100, 1⟩, rfl, rfl, by decide, by decide, by decide, ?_, ?_, ?_⟩
  · exact fun _ => by decide
  · exact fun h => absurd h (by decide)
  · exact fun h => absurd h (by decide)

def twoArticles : Task := { threeFish with article := [⟨3, 100, 1⟩, ⟨6, 5, 2⟩] }

theorem two_articles_two_records : ¬ ∀ (t : Task) (old : ℕ → List UserTask) (e : TaskEvent) (time : ℤ) (u : TaskUser)
    (n : ℕ) (r : TaskRound), r ∈ (t.complete old e time u n).state.rounds → r.awarded = true →
    r.OneRecord t.article := by
  intro h
  have hr := h twoArticles (fun _ => []) ⟨3, 0, 2⟩ 60 fisher 1 _ (List.mem_singleton_self _) (by decide)
  obtain ⟨rec, hrec, -⟩ := hr.record
  have hlen := congrArg List.length hrec
  rw [List.length_append, List.length_singleton] at hlen
  exact absurd hlen (by decide)

end FishServer
