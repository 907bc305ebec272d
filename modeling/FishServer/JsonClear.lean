import FishServer.JsonBuild

namespace FishServer

open BlockHeap

theorem fieldsAt_eq {h : Heap JsonBlock} {p : ℕ} {f : ValueFields}
    (hp : h.block p = some (.fields f)) : fieldsAt h p = some f := by
  rw [fieldsAt, hp]

theorem textAt_eq {h : Heap JsonBlock} {p : ℕ} {s : CStr} (hp : h.block p = some (.text s)) :
    textAt h p = some s := by
  rw [textAt, hp]

theorem freeText_released {h : Heap JsonBlock} {v : Option ℕ} {value : Option CStr}
    (hv : OwnsText h.block v value) :
    ∃ h', freeText h v = some h' ∧ Released v.toList h h' := by
  rcases hv with ⟨rfl, -⟩ | ⟨b, s, rfl, -, hb⟩
  · exact ⟨h, rfl, Released.refl h⟩
  · exact released_free h hb

theorem clearFrom_released (tree : JsonValue) (n : ℕ) (h : Heap JsonBlock) (p : Option ℕ) (bs : List ℕ)
    (ho : Owns h.block p tree bs) (hnodup : bs.Nodup) (hn : bs.length < n) :
    ∃ h' bs', clearFrom n h p = some h' ∧ Released bs' h h' ∧ bs'.Perm bs := by
  induction tree generalizing n h p bs with
  | null =>
    cases ho
    obtain ⟨n, rfl⟩ := Nat.exists_eq_add_of_lt hn
    exact ⟨h, [], by simp [clearFrom], Released.refl h, List.Perm.refl []⟩
  | node key value child next ihc ihn =>
    cases ho with
    | node hfields htext hvalue hchild hnext =>
      rename_i p k v c nx cs ns
      cases n with
      | zero => omega
      | succ n =>
        simp only [List.cons_append, List.append_assoc, List.length_cons, List.length_append] at hn
        simp only [List.cons_append, List.append_assoc, List.nodup_cons, List.nodup_append,
          List.mem_cons, List.mem_append, not_or] at hnodup
        obtain ⟨⟨hpk, hpv, hpc, hpn⟩, ⟨hkv, hkc, hkn⟩, hv, ⟨hcs, hns, hcn⟩, hvcn⟩ := hnodup
        have hc : ∃ h₁ cs', c.elim (some h) (fun c => clearFrom n h (some c)) = some h₁ ∧
            Released cs' h h₁ ∧ cs'.Perm cs := by
          cases c with
          | none =>
            cases hchild
            exact ⟨h, [], rfl, Released.refl h, List.Perm.refl []⟩
          | some c => exact ihc n h (some c) cs hchild hcs (by omega)
        obtain ⟨h₁, cs', hc₁, hr₁, hperm⟩ := hc
        have hm : ∀ b, b ∈ cs' ↔ b ∈ cs := fun b => hperm.mem_iff
        have hp₁ : h₁.block p = _ := (hr₁.kept p (by rw [hm]; exact hpc)).trans hfields
        have hk₁ : h₁.block k = _ := (hr₁.kept k (by rw [hm]; exact hkc)).trans htext
        obtain ⟨h₂, hf₂, hr₂⟩ := released_free h₁ hk₁
        have hf₂ : freeText h₁ (some k) = some h₂ := hf₂
        have hr₂ := hr₁.trans hr₂
        have hp₂ : h₂.block p = _ := (hr₂.kept p (by simp [hm, hpc, hpk])).trans hfields
        have hv₂ : OwnsText h₂.block v value := by
          apply hvalue.congr
          intro b hb
          apply hr₂.kept
          rw [List.mem_append, hm, List.mem_singleton, not_or]
          constructor
          · intro hbc
            exact hvcn b hb b (.inl hbc) rfl
          · rintro rfl
            exact hkv hb
        obtain ⟨h₃, hf₃, hr₃⟩ := freeText_released hv₂
        have hr₃ := hr₂.trans hr₃
        have hp₃ : h₃.block p = _ := (hr₃.kept p (by simp [hm, hpc, hpk, hpv])).trans hfields
        obtain ⟨h₄, hf₄, hr₄⟩ := released_free h₃ hp₃
        have hr₄ := hr₃.trans hr₄
        have hn₄ : Owns h₄.block nx next ns := by
          apply hnext.congr
          intro b hb
          apply hr₄.kept
          simp only [List.mem_append, hm, List.mem_singleton, not_or]
          refine ⟨⟨⟨?_, ?_⟩, ?_⟩, ?_⟩
          · intro hbc
            exact hcn b hbc b hb rfl
          · rintro rfl
            exact hkn hb
          · intro hbv
            exact hvcn b hbv b (.inr hb) rfl
          · rintro rfl
            exact hpn hb
        obtain ⟨h₅, ns', hc₅, hr₅, hperm'⟩ := ihn n h₄ nx ns hn₄ hns (by omega)
        refine ⟨h₅, _, ?_, hr₄.trans hr₅, ?_⟩
        · rw [clearFrom, fieldsAt_eq hfields]
          simp only [Option.bind_eq_bind, Option.bind_some, hc₁, fieldsAt_eq hp₁, hf₂,
            fieldsAt_eq hp₂, hf₃, fieldsAt_eq hp₃, hf₄, hc₅]
        · rw [List.perm_iff_count]
          intro b
          simp only [List.count_append, List.count_cons, List.count_nil, hperm.count_eq, hperm'.count_eq]
          omega

theorem parse_clear_neutral (old : ℕ → Option Char) (h : Heap JsonBlock) (text : CStr) (beyond : Texts)
    (j : Json) (mem : Texts) (hparse : (Json.new h).parseString old text beyond = some (.done j mem))
    (hkey : AcceptsKey text) :
    ∃ j', j.clear = some j' ∧ j'.heap.block = h.block ∧
      ∃ bs, j'.heap.freed = h.freed ++ bs ∧ bs.Perm (h.since j.heap) ∧ bs.Nodup := by
  obtain ⟨p, tree, hb, hp⟩ := parseString_built hparse
  have hhead := new_phead h hb
  obtain ⟨q, rfl⟩ := Option.ne_none_iff_exists'.mp (hp.mpr hkey)
  have hlen : (h.since j.heap).length < j.heap.fresh + 1 := by
    rw [Heap.since, List.length_range']
    omega
  obtain ⟨h', bs, hc, hr, hperm⟩ :=
    clearFrom_released tree _ j.heap (some q) _ hb.holds (since_nodup h j.heap) hlen
  have hperm : bs.Perm (h.since j.heap) := hperm
  refine ⟨{ j with heap := h' }, ?_, ?_, bs, ?_, hperm, ?_⟩
  · rw [Json.clear, hhead]
    simp only [Option.map_some, Option.bind_eq_bind, Option.bind_some, hc]
  · funext b
    by_cases hm : b ∈ bs
    · rw [hr.gone b hm, h.unused b (mem_since.mp (hperm.mem_iff.mp hm)).1]
    · rw [hr.kept b hm]
      by_cases hlt : b < h.fresh
      · exact hb.below b hlt
      · rw [j.heap.unused, h.unused b (by omega)]
        by_contra hn
        exact hm (hperm.mem_iff.mpr (mem_since.mpr ⟨by omega, by omega⟩))
  · rw [hr.freed, hb.freed]
    rfl
  · exact hperm.nodup_iff.mpr (since_nodup h j.heap)

theorem broken_object_neutral :
    ∃ j mem, (Json.new Heap.empty).parseString (fun _ => none) "\x7ba:\x7bb:x".toList [] = some (.done j mem) ∧
      ∃ j', j.clear = some j' ∧ j'.heap.block = (fun _ => none) ∧
        ∃ bs, j'.heap.freed = [] ++ bs ∧ bs.Perm (Heap.empty.since j.heap) ∧ bs.Nodup := by
  refine ⟨_, _, rfl, ?_⟩
  have hkey : AcceptsKey "\x7ba:\x7bb:x".toList := ⟨['a'], ":\x7bb:x".toList, rfl⟩
  exact parse_clear_neutral (fun _ => none) Heap.empty "\x7ba:\x7bb:x".toList [] _ _ rfl hkey

end FishServer
