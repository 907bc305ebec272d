import Mathlib

/-- A table of rows with an automatic key, which counts up from one. -/
structure Table (ρ : Type*) where
  rows : List (ℤ × ρ)
  next : ℤ

namespace Table

variable {ρ : Type*}

def empty : Table ρ := ⟨[], 1⟩

def insert (t : Table ρ) (r : ρ) : Table ρ := ⟨t.rows ++ [(t.next, r)], t.next + 1⟩

def update (t : Table ρ) (id : ℤ) (f : ρ → ρ) : Table ρ :=
  { t with rows := t.rows.map (fun e => if e.1 = id then (e.1, f e.2) else e) }

def select (t : Table ρ) (p : ρ → Bool) : List (ℤ × ρ) := t.rows.filter (fun e => p e.2)

structure Keyed (t : Table ρ) : Prop where
  pos : 0 < t.next
  bounds : ∀ e ∈ t.rows, 0 < e.1 ∧ e.1 < t.next
  nodup : (t.rows.map Prod.fst).Nodup

variable {t : Table ρ} {p q : ρ → Bool} {f : ρ → ρ} {r : ρ} {id : ℤ}

theorem keyed_empty : (empty : Table ρ).Keyed where
  pos := Int.one_pos
  bounds := by
    intro e he
    cases he
  nodup := List.nodup_nil

theorem Keyed.insert (h : t.Keyed) (r : ρ) : (t.insert r).Keyed := by
  constructor
  · exact Int.add_pos h.pos Int.one_pos
  · intro e he
    rcases List.mem_append.mp he with hold | hnew
    · obtain ⟨hlo, hhi⟩ := h.bounds e hold
      exact ⟨hlo, hhi.trans (Int.lt_succ t.next)⟩
    · rw [List.mem_singleton.mp hnew]
      exact ⟨h.pos, Int.lt_succ t.next⟩
  · have hnew : t.next ∉ t.rows.map Prod.fst := by
      intro hmem
      obtain ⟨e, he, hkey⟩ := List.mem_map.mp hmem
      exact absurd hkey (ne_of_lt (h.bounds e he).2)
    rw [Table.insert, List.map_append]
    exact List.Nodup.append h.nodup (List.nodup_singleton _) (by simpa using hnew)

theorem update_keys (t : Table ρ) (id : ℤ) (f : ρ → ρ) :
    (t.update id f).rows.map Prod.fst = t.rows.map Prod.fst := by
  rw [update, List.map_map]
  apply List.map_congr_left
  intro e _
  simp only [Function.comp_apply]
  split_ifs <;> rfl

theorem Keyed.update (h : t.Keyed) (id : ℤ) (f : ρ → ρ) : (t.update id f).Keyed := by
  constructor
  · exact h.pos
  · intro e he
    have hkey : e.1 ∈ t.rows.map Prod.fst := by
      rw [← update_keys t id f]
      exact List.mem_map_of_mem he
    obtain ⟨e', he', heq⟩ := List.mem_map.mp hkey
    rw [← heq]
    exact h.bounds e' he'
  · rw [update_keys]
    exact h.nodup

theorem select_insert : (t.insert r).select p = t.select p ++ if p r = true then [(t.next, r)] else [] := by
  rw [select, select, Table.insert, List.filter_append]
  congr 1
  by_cases hp : p r = true <;> simp [hp]

theorem select_insert_pos (h : p r = true) : (t.insert r).select p = t.select p ++ [(t.next, r)] := by
  rw [select_insert, if_pos h]

theorem select_insert_neg (h : ¬ p r = true) : (t.insert r).select p = t.select p := by
  rw [select_insert, if_neg h, List.append_nil]

theorem select_update (h : ∀ r, p (f r) = p r) :
    (t.update id f).select p = (t.select p).map (fun e => if e.1 = id then (e.1, f e.2) else e) := by
  rw [select, select, update, List.filter_map]
  congr 1
  apply List.filter_congr
  intro e _
  simp only [Function.comp_apply]
  split_ifs
  · exact h e.2
  · rfl

theorem Keyed.unique (h : t.Keyed) {e e' : ℤ × ρ} (he : e ∈ t.rows) (he' : e' ∈ t.rows) (hkey : e.1 = e'.1) :
    e = e' := List.inj_on_of_nodup_map h.nodup he he' hkey

theorem Keyed.select_update_other (h : t.Keyed) (hf : ∀ r, q (f r) = q r) {r : ρ}
    (hmem : (id, r) ∈ t.select p) (hapart : q r = false) : (t.update id f).select q = t.select q := by
  rw [select_update hf]
  have hrow : (id, r) ∈ t.rows := (List.mem_filter.mp hmem).1
  have hsame : ∀ e ∈ t.select q, (if e.1 = id then (e.1, f e.2) else e) = e := by
    intro e he
    obtain ⟨hin, hq⟩ := List.mem_filter.mp he
    apply if_neg
    intro hkey
    rw [h.unique hin hrow hkey] at hq
    rw [hapart] at hq
    cases hq
  rw [List.map_congr_left hsame, List.map_id']

end Table
