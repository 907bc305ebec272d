import FishServer.Lib.Chain

namespace BlockHeap

variable {α β : Type*}

/-- Since `h₀` the blocks of `live` and of `freed` were allocated, each once, and those of `freed` were released, each
once. What was there before is untouched. -/
structure Holdings (h₀ h : Heap β) (live freed : List ℕ) : Prop where
  fresh : h₀.fresh ≤ h.fresh
  parts : (live ++ freed).Perm (h₀.since h)
  log : h.freed = h₀.freed ++ freed
  alive : ∀ b ∈ live, ∃ v, h.block b = some v
  gone : ∀ b ∈ freed, h.block b = none
  kept : ∀ b < h₀.fresh, h.block b = h₀.block b

/-- What is in the blocks of `bs` may have changed, and nothing else. -/
structure Edited (bs : List ℕ) (h h' : Heap β) : Prop where
  fresh : h'.fresh = h.fresh
  freed : h'.freed = h.freed
  live : ∀ b v, h.block b = some v → ∃ w, h'.block b = some w
  gone : ∀ b, h.block b = none → h'.block b = none
  kept : ∀ b, b ∉ bs → h'.block b = h.block b

section

variable {h₀ h h' h'' : Heap β} {live live' freed bs cs : List ℕ}

theorem Edited.refl (bs : List ℕ) (h : Heap β) : Edited bs h h :=
  ⟨rfl, rfl, fun _ v hv => ⟨v, hv⟩, fun _ hb => hb, fun _ _ => rfl⟩

theorem Edited.trans (hb : Edited bs h h') (hc : Edited bs h' h'') : Edited bs h h'' := by
  refine ⟨hc.fresh.trans hb.fresh, hc.freed.trans hb.freed, ?_, fun b hn => hc.gone b (hb.gone b hn), ?_⟩
  · intro b v hv
    obtain ⟨w, hw⟩ := hb.live b v hv
    exact hc.live b w hw
  · intro b hm
    rw [hc.kept b hm, hb.kept b hm]

theorem Edited.mono (hb : Edited bs h h') (hs : bs ⊆ cs) : Edited cs h h' :=
  ⟨hb.fresh, hb.freed, hb.live, hb.gone, fun b hm => hb.kept b (fun hbs => hm (hs hbs))⟩

theorem edited_modify (h : Heap β) (f : β → β) {p : ℕ} (hp : p ∈ bs) : Edited bs h (h.modify f p) := by
  have hkept {b : ℕ} (hm : b ≠ p) := modify_block h f hm
  refine ⟨rfl, rfl, ?_, ?_, fun b hm => hkept (fun he => hm (he ▸ hp))⟩
  · intro b v hv
    by_cases hbp : b = p
    · subst hbp
      exact ⟨f v, by rw [modify_self, hv, Option.map_some]⟩
    · exact ⟨v, by rw [hkept hbp, hv]⟩
  · intro b hn
    by_cases hbp : b = p
    · subst hbp
      rw [modify_self, hn, Option.map_none]
    · rw [hkept hbp, hn]

theorem Edited.chain {c : Cell α β} {p : Option ℕ} {l : List (ℕ × α)} (hb : Edited bs h h') (hc : Chain c h p l)
    (hd : ∀ b ∈ l.map Prod.fst, b ∉ bs) : Chain c h' p l :=
  chain_congr (fun b hm => hb.kept b (hd b hm)) hc

theorem Holdings.refl (h : Heap β) : Holdings h h [] [] := by
  refine ⟨le_rfl, ?_, (List.append_nil _).symm, ?_, ?_, fun b _ => rfl⟩
  · rw [since_self]
    exact .refl []
  · intro b hb
    cases hb
  · intro b hb
    cases hb

theorem Holdings.nodup (hh : Holdings h₀ h live freed) : (live ++ freed).Nodup :=
  hh.parts.nodup_iff.mpr (since_nodup h₀ h)

theorem Holdings.perm (hh : Holdings h₀ h live freed) (hp : live.Perm live') : Holdings h₀ h live' freed :=
  ⟨hh.fresh, (hp.symm.append_right freed).trans hh.parts, hh.log, fun b hb => hh.alive b (hp.mem_iff.mpr hb), hh.gone,
    hh.kept⟩

theorem Holdings.mem (hh : Holdings h₀ h live freed) {b : ℕ} (hb : b ∈ live ++ freed) : h₀.fresh ≤ b ∧ b < h.fresh :=
  mem_since.mp (hh.parts.mem_iff.mp hb)

theorem Holdings.fresh_notMem (hh : Holdings h₀ h live freed) : h.fresh ∉ live := by
  intro hm
  exact (hh.mem (List.mem_append_left freed hm)).2.ne rfl

theorem Holdings.malloc (hh : Holdings h₀ h live freed) (v : β) : Holdings h₀ (h.malloc v) (h.fresh :: live) freed := by
  have hold {b : ℕ} (hb : b < h.fresh) : (h.malloc v).block b = h.block b := malloc_block h v hb
  have hle : h₀.fresh ≤ (h.malloc v).fresh := hh.fresh.trans (Nat.le_succ h.fresh)
  refine ⟨hle, ?_, hh.log, ?_, ?_, ?_⟩
  · have hsince : h₀.since (h.malloc v) = h₀.since h ++ [h.fresh] := by
      unfold Heap.since
      have hm : h.fresh = h₀.fresh + 1 * (h.fresh - h₀.fresh) := by
        have hle := hh.fresh
        omega
      rw [malloc_fresh, Nat.succ_sub hh.fresh, List.range'_concat, ← hm]
    rw [hsince]
    exact (hh.parts.cons h.fresh).trans (List.perm_append_singleton _ _).symm
  · intro b hb
    rcases List.mem_cons.mp hb with rfl | hb
    · exact ⟨v, malloc_new h v⟩
    · rw [hold (hh.mem (List.mem_append_left freed hb)).2]
      exact hh.alive b hb
  · intro b hb
    rw [hold (hh.mem (List.mem_append_right live hb)).2]
    exact hh.gone b hb
  · intro b hb
    rw [hold (hb.trans_le hh.fresh)]
    exact hh.kept b hb

theorem Holdings.edited (hh : Holdings h₀ h live freed) (he : Edited bs h h') (hs : bs ⊆ live) :
    Holdings h₀ h' live freed := by
  refine ⟨by rw [he.fresh]; exact hh.fresh, ?_, by rw [he.freed]; exact hh.log, ?_,
    fun b hb => he.gone b (hh.gone b hb), ?_⟩
  · have hsince : h₀.since h' = h₀.since h := by rw [Heap.since, he.fresh, Heap.since]
    rw [hsince]
    exact hh.parts
  · intro b hb
    obtain ⟨v, hv⟩ := hh.alive b hb
    exact he.live b v hv
  · intro b hb
    rw [he.kept b, hh.kept b hb]
    intro hm
    have hmem := hh.mem (List.mem_append_left freed (hs hm))
    omega

theorem Holdings.released (hh : Holdings h₀ h live freed) (hr : Released bs h h') (hp : live.Perm (bs ++ live')) :
    Holdings h₀ h' live' (freed ++ bs) := by
  have hnodup := (hh.perm hp).nodup
  have hmem {b : ℕ} (hb : b ∈ bs) : b ∈ live := hp.mem_iff.mpr (List.mem_append_left live' hb)
  refine ⟨by rw [hr.fresh]; exact hh.fresh, ?_, by rw [hr.freed, hh.log, List.append_assoc], ?_, ?_, ?_⟩
  · have hsince : h₀.since h' = h₀.since h := by rw [Heap.since, hr.fresh, Heap.since]
    rw [hsince]
    refine List.Perm.trans ?_ ((hp.symm.append_right freed).trans hh.parts)
    apply List.perm_iff_count.mpr
    intro b
    simp only [List.count_append]
    omega
  · intro b hb
    have hout : b ∉ bs := by
      intro hm
      rw [List.append_assoc, List.nodup_append] at hnodup
      exact hnodup.2.2 b hm b (List.mem_append_left freed hb) rfl
    rw [hr.kept b hout]
    exact hh.alive b (hp.mem_iff.mpr (List.mem_append_right bs hb))
  · intro b hb
    rcases List.mem_append.mp hb with hb | hb
    · rw [hr.kept b]
      · exact hh.gone b hb
      · intro hm
        have hdis := (List.nodup_append.mp hh.nodup).2.2
        exact hdis b (hmem hm) b hb rfl
    · exact hr.gone b hb
  · intro b hb
    rw [hr.kept b, hh.kept b hb]
    intro hm
    have hlt := hh.mem (List.mem_append_left freed (hmem hm))
    omega

theorem Holdings.freeOption (hh : Holdings h₀ h live freed) {p : Option ℕ} (hp : live.Perm (p.toList ++ live')) :
    ∃ h', p.elim (some h) h.free = some h' ∧ Released p.toList h h' ∧ Holdings h₀ h' live' (freed ++ p.toList) := by
  cases p with
  | none => exact ⟨h, rfl, Released.refl h, hh.released (Released.refl h) hp⟩
  | some b =>
    obtain ⟨v, hv⟩ := hh.alive b (hp.mem_iff.mpr List.mem_cons_self)
    obtain ⟨h', hf, hr⟩ := released_free h hv
    exact ⟨h', hf, hr, hh.released hr hp⟩

theorem Holdings.free (hh : Holdings h₀ h live freed) {b : ℕ} (hp : live.Perm (b :: live')) :
    ∃ h', h.free b = some h' ∧ Released [b] h h' ∧ Holdings h₀ h' live' (freed ++ [b]) := by
  exact hh.freeOption (p := some b) hp

end

end BlockHeap
