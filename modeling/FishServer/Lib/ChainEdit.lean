import FishServer.Lib.Holdings

namespace BlockHeap

variable {α β : Type*}

/-- A block is put at the end of a chain, of which `last` is the last one. Without a last one the chain starts anew,
whatever `first` was. -/
def linkEnd (c : Cell α β) (h : Heap β) (first last : Option ℕ) (b : ℕ) : Option (Heap β × Option ℕ) :=
  match last with
  | none => some (h, some b)
  | some e => (h.cell c e).map (fun x => (h.modify (fun _ => c.make x.1 (some b)) e, first))

def buildFrom (c : Cell α β) : List α → Heap β → Option ℕ → Option ℕ → Option (Heap β × Option ℕ)
  | [], h, first, _ => some (h, first)
  | x :: xs, h, first, last =>
    (linkEnd c (h.malloc (c.make x none)) first last h.fresh).bind (fun r => buildFrom c xs r.1 r.2 (some h.fresh))

def passFrom (c : Cell α β) (swap : α → α → Bool) : ℕ → Heap β → Option ℕ → Option (Heap β)
  | _, h, none => some h
  | 0, _, some _ => none
  | n + 1, h, some b =>
    (h.cell c b).bind (fun x =>
      match x.2 with
      | none => some h
      | some b' =>
        (h.cell c b').bind (fun y =>
          passFrom c swap n
            (if swap x.1 y.1 then (h.modify (fun _ => c.make y.1 x.2) b).modify (fun _ => c.make x.1 y.2) b' else h)
            (some b')))

def sortFrom (c : Cell α β) (swap : α → α → Bool) (m : ℕ) (first : Option ℕ) : ℕ → Heap β → Option ℕ → Option (Heap β)
  | _, h, none => some h
  | 0, _, some _ => none
  | n + 1, h, some b =>
    (h.cell c b).bind (fun x =>
      match x.2 with
      | none => some h
      | some _ =>
        (passFrom c swap m h first).bind (fun h =>
          (h.cell c b).bind (fun y => sortFrom c swap m first n h y.2)))

def swapPass (swap : α → α → Bool) : List α → List α
  | [] => []
  | [x] => [x]
  | x :: y :: l => if swap x y then y :: swapPass swap (x :: l) else x :: swapPass swap (y :: l)

section

variable {c : Cell α β} {h : Heap β} {p : Option ℕ} {l : List (ℕ × α)} {swap : α → α → Bool}

theorem swapPass_length (swap : α → α → Bool) (l : List α) : (swapPass swap l).length = l.length := by
  fun_induction swapPass swap l with
  | case1 => rfl
  | case2 => rfl
  | case3 x y l _ ih => simp only [List.length_cons, ih]
  | case4 x y l _ ih => simp only [List.length_cons, ih]

theorem chain_cell (hc : Chain c h p l) {k b : ℕ} {x : α} (hk : l[k]? = some (b, x)) :
    h.cell c b = some (x, (l[k + 1]?).map Prod.fst) := by
  induction l generalizing p k with
  | nil => cases hk
  | cons y l ih =>
    obtain ⟨-, q, hq, hrest⟩ := hc
    cases k with
    | zero =>
      cases hk
      rw [hq]
      cases l with
      | nil =>
        obtain rfl := hrest
        rfl
      | cons z l =>
        obtain ⟨rfl, -⟩ := hrest
        rfl
    | succ k => exact ih hrest hk

theorem chain_head (hc : Chain c h p l) : p = (l[0]?).map Prod.fst := by
  cases l with
  | nil => exact hc
  | cons x l => exact hc.1

theorem chain_set {h' : Heap β} {l₁ l₂ : List (ℕ × α)} {b : ℕ} {x y : α} (hc : Chain c h p (l₁ ++ (b, x) :: l₂))
    (hb : ∀ q, h.cell c b = some (x, q) → h'.cell c b = some (y, q))
    (hk : ∀ d ∈ (l₁ ++ l₂).map Prod.fst, h'.block d = h.block d) : Chain c h' p (l₁ ++ (b, y) :: l₂) := by
  induction l₁ generalizing p with
  | nil =>
    obtain ⟨rfl, q, hq, hrest⟩ := hc
    exact ⟨rfl, q, hb q hq, chain_congr hk hrest⟩
  | cons z l₁ ih =>
    obtain ⟨rfl, q, hq, hrest⟩ := hc
    refine ⟨rfl, q, ?_, ih hrest (fun d hd => hk d (List.mem_cons_of_mem _ hd))⟩
    rw [cell_congr (hk z.1 List.mem_cons_self), hq]

theorem linkEnd_chain {last : Option ℕ} {b : ℕ} {x : α} (hlast : last = (l.map Prod.fst).getLast?)
    (hc : l ≠ [] → Chain c h p l) (hd : (l.map Prod.fst).Nodup) (hb : h.cell c b = some (x, none))
    (hm : b ∉ l.map Prod.fst) : ∃ h' first, linkEnd c h p last b = some (h', first) ∧
      Chain c h' first (l ++ [(b, x)]) ∧ Edited (l.map Prod.fst) h h' := by
  rcases List.eq_nil_or_concat l with rfl | ⟨l, ⟨e, y⟩, rfl⟩
  · subst hlast
    exact ⟨h, some b, rfl, ⟨rfl, none, hb, rfl⟩, Edited.refl _ h⟩
  · rw [List.concat_eq_append] at *
    have hmap : (l ++ [(e, y)]).map Prod.fst = l.map Prod.fst ++ [e] := by rw [List.map_append]; rfl
    rw [hmap] at hlast hd hm ⊢
    rw [List.getLast?_concat] at hlast
    subst hlast
    obtain ⟨he, hchain⟩ := chain_append (hc (List.append_ne_nil_of_right_ne_nil l (List.cons_ne_nil _ _))) hd hb hm
    refine ⟨_, p, ?_, hchain, edited_modify h _ (List.mem_append_right _ (List.mem_singleton_self e))⟩
    unfold linkEnd
    simp only [he, Option.map_some]

theorem buildFrom_chain {h₀ : Heap β} {live freed : List ℕ} {last : Option ℕ} (xs : List α)
    (hh : Holdings h₀ h live freed) (hl : l.map Prod.fst ⊆ live) (hlast : last = (l.map Prod.fst).getLast?)
    (hc : l ≠ [] → Chain c h p l) (hd : (l.map Prod.fst).Nodup) : ∃ h' first l',
      buildFrom c xs h p last = some (h', first) ∧
      l'.map Prod.snd = xs ∧ (l ++ l' ≠ [] → Chain c h' first (l ++ l')) ∧ (xs = [] → first = p) ∧
      Holdings h₀ h' (l'.map Prod.fst ++ live) freed ∧ ∀ b ∈ live, b ∉ l.map Prod.fst → h'.block b = h.block b := by
  induction xs generalizing h p l last live with
  | nil =>
    refine ⟨h, p, [], rfl, rfl, ?_, fun _ => rfl, hh, fun _ _ _ => rfl⟩
    rw [List.append_nil]
    exact hc
  | cons x xs ih =>
    have hfresh : h.fresh ∉ l.map Prod.fst := fun hm => hh.fresh_notMem (hl hm)
    have hold : ∀ b ∈ l.map Prod.fst, (h.malloc (c.make x none)).block b = h.block b :=
      fun b hb => malloc_block h _ (hh.mem (List.mem_append_left freed (hl hb))).2
    have hcell : (h.malloc (c.make x none)).cell c h.fresh = some (x, none) := by
      rw [Heap.cell, malloc_new, Option.bind_some, c.node_make]
    obtain ⟨h₁, q, hlink, hchain, hedit⟩ :=
      linkEnd_chain hlast (fun hne => chain_congr hold (hc hne)) hd hcell hfresh
    have hh₁ : Holdings h₀ h₁ (h.fresh :: live) freed :=
      (hh.malloc (c.make x none)).edited hedit (fun _ hb => List.mem_cons_of_mem _ (hl hb))
    have hmap : (l ++ [(h.fresh, x)]).map Prod.fst = l.map Prod.fst ++ [h.fresh] := by
      rw [List.map_append]
      rfl
    have hnodup : (l.map Prod.fst ++ [h.fresh]).Nodup :=
      hd.append (List.nodup_singleton h.fresh) (List.disjoint_singleton.mpr hfresh)
    have hsub : l.map Prod.fst ++ [h.fresh] ⊆ h.fresh :: live := by
      intro b hb
      rcases List.mem_append.mp hb with hb | hb
      · exact List.mem_cons_of_mem _ (hl hb)
      · rw [List.mem_singleton.mp hb]
        exact List.mem_cons_self
    obtain ⟨h', first, l', hrun, hvals, hchain', -, hh', hkept⟩ := ih hh₁ (hmap ▸ hsub)
      (by rw [hmap, List.getLast?_concat]) (fun _ => hchain) (hmap ▸ hnodup)
    refine ⟨h', first, (h.fresh, x) :: l', ?_, ?_, ?_, ?_, ?_, ?_⟩
    · rw [buildFrom, hlink, Option.bind_some]
      exact hrun
    · rw [List.map_cons, hvals]
    · intro _
      rw [List.append_assoc] at hchain'
      exact hchain' (List.append_ne_nil_of_right_ne_nil l (List.cons_ne_nil _ _))
    · intro hne
      cases hne
    · exact hh'.perm (List.perm_middle)
    · intro b hb hout
      have hne : b ≠ h.fresh := fun he => hh.fresh_notMem (he ▸ hb)
      rw [hkept b (List.mem_cons_of_mem _ hb), hedit.kept b hout]
      · exact malloc_block h _ (hh.mem (List.mem_append_left freed hb)).2
      · rw [hmap]
        intro hm
        rcases List.mem_append.mp hm with hm | hm
        · exact hout hm
        · exact hne (List.mem_singleton.mp hm)

theorem swap_cells {b b' : ℕ} {x y : α} {q : Option ℕ} (hb : h.cell c b = some (x, some b'))
    (hb' : h.cell c b' = some (y, q)) (hne : b ≠ b') : ∃ h', h' =
      (h.modify (fun _ => c.make y (some b')) b).modify (fun _ => c.make x q) b' ∧
      h'.cell c b = some (y, some b') ∧ h'.cell c b' = some (x, q) ∧ Edited [b, b'] h h' := by
  obtain ⟨v, hv⟩ := cell_live hb
  obtain ⟨w, hw⟩ := cell_live hb'
  refine ⟨_, rfl, ?_, ?_, ?_⟩
  · rw [cell_congr (modify_block _ _ hne), Heap.cell, modify_self, hv, Option.map_some, Option.bind_some, c.node_make]
  · rw [Heap.cell, modify_self, modify_block _ _ hne.symm, hw, Option.map_some, Option.bind_some, c.node_make]
  · exact (edited_modify h _ List.mem_cons_self).trans
      (edited_modify _ _ (List.mem_cons_of_mem b (List.mem_singleton_self b')))

theorem passFrom_chain {n : ℕ} (hc : Chain c h p l) (hd : (l.map Prod.fst).Nodup) (hn : l.length ≤ n) :
    ∃ h', passFrom c swap n h p = some h' ∧ Chain c h' p ((l.map Prod.fst).zip (swapPass swap (l.map Prod.snd))) ∧
      Edited (l.map Prod.fst) h h' := by
  induction n generalizing h p l with
  | zero =>
    obtain rfl := List.length_eq_zero_iff.mp (Nat.le_zero.mp hn)
    obtain rfl := hc
    exact ⟨h, rfl, rfl, Edited.refl _ h⟩
  | succ n ih =>
    match l with
    | [] =>
      obtain rfl := hc
      exact ⟨h, rfl, rfl, Edited.refl _ h⟩
    | [(b, x)] =>
      obtain ⟨rfl, q, hq, rfl⟩ := hc
      refine ⟨h, ?_, ?_, Edited.refl _ h⟩
      · unfold passFrom
        simp only [hq, Option.bind_some]
      · simp only [List.map_cons, List.map_nil, swapPass, List.zip_cons_cons, List.zip_nil_right]
        exact ⟨rfl, none, hq, rfl⟩
    | (b, x) :: (b', y) :: l =>
      obtain ⟨rfl, q, hq, rfl, q', hq', hrest⟩ := hc
      obtain ⟨hb, hd'⟩ := List.nodup_cons.mp hd
      have hbb : b ≠ b' := fun he => hb (he ▸ List.mem_cons_self)
      obtain ⟨u, z, h₁, hif, hpass, hu, hz, hedit⟩ : ∃ u z h₁, (if swap x y = true then
          (h.modify (fun _ => c.make y (some b')) b).modify (fun _ => c.make x q') b' else h) = h₁ ∧
          swapPass swap (x :: y :: l.map Prod.snd) = u :: swapPass swap (z :: l.map Prod.snd) ∧
          h₁.cell c b = some (u, some b') ∧ h₁.cell c b' = some (z, q') ∧ Edited [b, b'] h h₁ := by
        by_cases hs : swap x y = true
        · obtain ⟨h₁, he, hu, hz, hedit⟩ := swap_cells hq hq' hbb
          exact ⟨y, x, h₁, by rw [if_pos hs, he], by rw [swapPass, if_pos hs], hu, hz, hedit⟩
        · exact ⟨x, y, h, by rw [if_neg hs], by rw [swapPass, if_neg hs], hq, hq', Edited.refl _ h⟩
      have hchain : Chain c h₁ (some b') ((b', z) :: l) := by
        refine ⟨rfl, q', hz, hedit.chain hrest ?_⟩
        intro d hm hmem
        rcases List.mem_cons.mp hmem with rfl | hmem
        · exact hb (List.mem_cons_of_mem b' hm)
        · rw [List.mem_singleton.mp hmem] at hm
          exact (List.nodup_cons.mp hd').1 hm
      have hlen : ((b', z) :: l).length ≤ n := Nat.le_of_succ_le_succ hn
      obtain ⟨h', hrun, hc', hedit'⟩ := ih hchain hd' hlen
      have hsub : [b, b'] ⊆ b :: b' :: l.map Prod.fst :=
        List.cons_subset_cons b (List.cons_subset_cons b' (List.nil_subset _))
      refine ⟨h', ?_, ?_, (hedit.mono hsub).trans (hedit'.mono (List.subset_cons_self b _))⟩
      · unfold passFrom
        simp only [hq, Option.bind_some, hq', hif]
        exact hrun
      · simp only [List.map_cons, hpass, List.zip_cons_cons]
        refine ⟨rfl, some b', ?_, hc'⟩
        rw [cell_congr (hedit'.kept b hb), hu]

theorem zip_fst (l : List (ℕ × α)) (f : List α → List α) (hf : ∀ vs, (f vs).length = vs.length) :
    ((l.map Prod.fst).zip (f (l.map Prod.snd))).map Prod.fst = l.map Prod.fst ∧
      ((l.map Prod.fst).zip (f (l.map Prod.snd))).map Prod.snd = f (l.map Prod.snd) := by
  have hlen : (l.map Prod.fst).length = (f (l.map Prod.snd)).length := by
    rw [hf, List.length_map, List.length_map]
  exact ⟨List.map_fst_zip hlen.le, List.map_snd_zip hlen.ge⟩

theorem sortFrom_chain (m n : ℕ) {k : ℕ} (hc : Chain c h p l) (hd : (l.map Prod.fst).Nodup) (hm : l.length ≤ m)
    (hn : l.length - k ≤ n) : ∃ h', sortFrom c swap m p n h ((l[k]?).map Prod.fst) = some h' ∧
      Chain c h' p ((l.map Prod.fst).zip ((swapPass swap)^[l.length - 1 - k] (l.map Prod.snd))) ∧
      Edited (l.map Prod.fst) h h' := by
  have hzip : (l.map Prod.fst).zip (l.map Prod.snd) = l := (List.zip_of_prod rfl rfl).symm
  induction n generalizing h k l with
  | zero =>
    have hk : l[k]? = none := List.getElem?_eq_none (by omega)
    have hdone : l.length - 1 - k = 0 := by omega
    rw [hk, hdone, Function.iterate_zero_apply, hzip]
    exact ⟨h, rfl, hc, Edited.refl _ h⟩
  | succ n ih =>
    cases hk : l[k]? with
    | none =>
      have hdone : l.length - 1 - k = 0 := by
        have hle := List.getElem?_eq_none_iff.mp hk
        omega
      rw [hdone, Function.iterate_zero_apply, hzip]
      exact ⟨h, rfl, hc, Edited.refl _ h⟩
    | some e =>
      obtain ⟨b, x⟩ := e
      have hcell := chain_cell hc hk
      cases hk' : l[k + 1]? with
      | none =>
        have hdone : l.length - 1 - k = 0 := by
          have hle := List.getElem?_eq_none_iff.mp hk'
          omega
        rw [hk'] at hcell
        rw [hdone, Function.iterate_zero_apply, hzip]
        refine ⟨h, ?_, hc, Edited.refl _ h⟩
        simp only [Option.map_some, sortFrom, hcell, Option.bind_some, Option.map_none]
      | some e' =>
        have hlt : k + 1 < l.length := (List.getElem?_eq_some_iff.mp hk').1
        obtain ⟨h₁, hrun, hc₁, hedit⟩ := @passFrom_chain α β c h p l swap m hc hd hm
        obtain ⟨hfst, hsnd⟩ := zip_fst l (swapPass swap) (swapPass_length swap)
        generalize hl₁ : (l.map Prod.fst).zip (swapPass swap (l.map Prod.snd)) = l₁ at hc₁ hfst hsnd
        have hlen : l₁.length = l.length := by
          have hmap := congrArg List.length hfst
          rwa [List.length_map, List.length_map] at hmap
        have hnext (j : ℕ) : (l₁[j]?).map Prod.fst = (l[j]?).map Prod.fst := by
          rw [← List.getElem?_map, hfst, List.getElem?_map]
        obtain ⟨y, hy⟩ : ∃ y, l₁[k]? = some (b, y) := by
          have hb := hnext k
          rw [hk] at hb
          obtain ⟨⟨b', y⟩, he, hb'⟩ := Option.map_eq_some_iff.mp hb
          obtain rfl : b' = b := hb'
          exact ⟨y, he⟩
        have hcell₁ := chain_cell hc₁ hy
        obtain ⟨h', hsort, hc', hedit'⟩ := @ih h₁ l₁ (k + 1) hc₁ (hfst ▸ hd) (hlen ▸ hm) (by omega)
          (List.zip_of_prod rfl rfl).symm
        rw [hfst, hsnd, hlen, ← Function.iterate_succ_apply,
          show (l.length - 1 - (k + 1)).succ = l.length - 1 - k by omega] at hc'
        refine ⟨h', ?_, hc', hedit.trans (hfst ▸ hedit')⟩
        rw [hnext, hk'] at hcell₁ hsort
        rw [hk'] at hcell
        simp only [Option.map_some, sortFrom, hcell, Option.bind_some, hrun, hcell₁]
        exact hsort

end

end BlockHeap
