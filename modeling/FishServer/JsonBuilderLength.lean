import FishServer.JsonBuilderTree

namespace FishServer

open BlockHeap LinkTree Transition

def JsonText.Fits (text : JsonText) : Prop := ∀ i, (text.buf i).isSome → i < text.len

/-! What the counted bytes and the text of a node differ by: the brackets of a list that is not empty, which no
call counts, and the bytes counted for what is not printed. -/

def JsonNode.short (f : JsonNode) : ℕ :=
  match f.value with
  | .list (some _) => 2
  | _ => 0

def JsonNode.spare (h : Heap JsonNode) (f : JsonNode) (loose : Bool) : ℕ :=
  match f.value with
  | .list _ => 0
  | .node c => (if f.keyAddlen = 0 then 3 else 0) + (if loose then 4 else 0) + if isListAt h c then 2 else 0
  | _ => if f.keyAddlen = 0 then 3 else 0

def Placed.short (t : Placed) (p : ℕ) : ℕ := ((t.builder.heap.block p).map JsonNode.short).getD 0

def Placed.spare (t : Placed) (p : ℕ) : ℕ :=
  ((t.builder.heap.block p).map (fun f => f.spare t.builder.heap (t.loose p))).getD 0

def Placed.unprinted (t : Placed) (printed : List ℕ) : List ℕ :=
  (List.range t.builder.heap.fresh).filter (fun p => p ∉ printed)

/-- The lists are made up for, also when the counter has wrapped around. -/
def Placed.Covered (t : Placed) (printed : List ℕ) : Prop :=
  (printed.map t.short).sum + 2 ^ 32 * ((t.total + 2) / 2 ^ 32) ≤
    (printed.map t.spare).sum + ((t.unprinted printed).map t.counted).sum

/-! The text of a chain of siblings. A byte that is skipped is none. -/

def JsonNode.keyText (f : JsonNode) : List (Option Char) :=
  if 0 < f.keyAddlen then some '"' :: ((f.key.take f.keyAddlen).map some ++ [some '"', some ':']) else []

def JsonNode.valueText (h : Heap JsonNode) (f : JsonNode) (inner : List (Option Char)) : List (Option Char) :=
  match f.value with
  | .string s => some '"' :: ((s.take f.valueAddlen).map some ++ [some '"'])
  | .inter n => ((Printf.decimal n).take f.valueAddlen).map some
  | .node c => if isListAt h c then inner else some '\x7b' :: (inner ++ [some '\x7d'])
  | .list none => [none]
  | .list (some _) => some '[' :: some '\x7b' :: (inner ++ [some '\x7d', some ']'])

def chainText (h : Heap JsonNode) : Shape → List (Option Char)
  | .nil => []
  | .node p child next =>
    match h.block p with
    | none => []
    | some f =>
      f.keyText ++ (f.valueText h (chainText h child) ++
        match next with
        | .nil => []
        | .node _ _ _ => some ',' :: chainText h next)

def chainSpan (h : Heap JsonNode) : Shape → ℕ
  | .nil => 0
  | s => (chainText h s).length + 1

def Buf.lay (buf : Buf) (i : ℕ) (l : List (Option Char)) : Buf :=
  fun j => if i ≤ j then ((l[j - i]?).join <|> buf j) else buf j

theorem lay_nil (buf : Buf) (i : ℕ) : buf.lay i [] = buf := by
  funext j
  simp [Buf.lay]

theorem lay_append (buf : Buf) (i : ℕ) (l m : List (Option Char)) :
    (buf.lay i l).lay (i + l.length) m = buf.lay i (l ++ m) := by
  funext j
  unfold Buf.lay
  by_cases h₁ : i ≤ j
  · by_cases h₂ : i + l.length ≤ j
    · have hl : l[j - i]? = none := List.getElem?_eq_none (by omega)
      rw [if_pos h₂, if_pos h₁, if_pos h₁, hl, List.getElem?_append_right (by omega)]
      have hj : j - i - l.length = j - (i + l.length) := by omega
      rw [hj]
      rfl
    · rw [if_neg h₂, if_pos h₁, if_pos h₁, List.getElem?_append_left (by omega)]
  · have h₂ : ¬i + l.length ≤ j := by omega
    rw [if_neg h₂, if_neg h₁, if_neg h₁]

theorem put_eq_lay (buf : Buf) (i : ℕ) (c : Char) : buf.put i c = buf.lay i [some c] := by
  funext j
  unfold Buf.put Buf.lay
  by_cases h : j = i
  · subst h
    simp
  · rw [Function.update_of_ne h]
    by_cases hle : i ≤ j
    · rw [if_pos hle, List.getElem?_eq_none (by rw [List.length_singleton]; omega)]
      rfl
    · rw [if_neg hle]

theorem copy_eq_lay (buf : Buf) (i : ℕ) (s : CStr) : buf.copy i s = buf.lay i (s.map some) := by
  funext j
  unfold Buf.copy Buf.lay
  by_cases h : i ≤ j
  · rw [if_pos h, List.getElem?_map]
    by_cases hlt : j < i + s.length
    · have hs : s[j - i]? = some s[j - i] := List.getElem?_eq_getElem (by omega)
      rw [if_pos ⟨h, hlt⟩, hs]
      rfl
    · rw [if_neg (fun hc => hlt hc.2), List.getElem?_eq_none (by omega)]
      rfl
  · rw [if_neg h, if_neg (fun hc => h hc.1)]

theorem lay_skip (buf : Buf) (i : ℕ) : buf.lay i [none] = buf := by
  funext j
  unfold Buf.lay
  split_ifs
  · cases hk : [(none : Option Char)][j - i]? with
    | none => rfl
    | some c =>
      have hc := List.mem_of_getElem? hk
      rw [List.mem_singleton.mp hc]
      rfl
  · rfl

section

variable {h : Heap JsonNode} {f : JsonNode}

theorem JsonNode.Sized.string_length (hs : f.Sized h) {s : CStr} (hv : f.value = .string s) :
    (s.take f.valueAddlen).length = f.valueAddlen := by
  rw [List.length_take, hs.string s hv]
  exact Nat.min_eq_left (Nat.mod_le _ _)

theorem chainSpan_node (h : Heap JsonNode) (p : ℕ) (c n : Shape) :
    chainSpan h (.node p c n) = (chainText h (.node p c n)).length + 1 := rfl

theorem JsonNode.Sized.key_length (hs : f.Sized h) : (f.key.take f.keyAddlen).length = f.keyAddlen := by
  rw [List.length_take, hs.key]
  exact Nat.min_eq_left (Nat.mod_le _ _)

theorem putKey_eq (hs : f.Sized h) (buf : Buf) (str : ℕ) :
    f.putKey buf str = (buf.lay str f.keyText, str + f.keyText.length) := by
  unfold JsonNode.putKey JsonNode.keyText
  split_ifs with hk
  · have hl := hs.key_length
    have hm : ((f.key.take f.keyAddlen).map some).length = f.keyAddlen := by rw [List.length_map, hl]
    have hsplit : some '"' :: ((f.key.take f.keyAddlen).map some ++ [some '"', some ':']) =
        [some '"'] ++ (f.key.take f.keyAddlen).map some ++ [some '"'] ++ [some ':'] := by simp
    rw [hsplit, ← lay_append, ← lay_append, ← lay_append]
    simp only [put_eq_lay, copy_eq_lay, List.length_append, List.length_singleton, hm, Nat.add_assoc,
      Nat.reduceAdd]
  · rw [lay_nil]
    rfl

theorem putValue_eq (hs : f.Sized h) (write : Writer) {inner : List (Option Char)}
    (hw : ∀ buf str, f.child.isSome → write buf str f.child = some (buf.lay (str + 1) inner, str + (inner.length + 1)))
    (buf : Buf) {str : ℕ} (hstr : 0 < str) :
    f.putValue h write buf str =
      some (buf.lay str (f.valueText h inner), str + (f.valueText h inner).length - 1) := by
  unfold JsonNode.putValue JsonNode.valueText
  cases hv : f.value with
  | string s =>
    have hl : ((s.take f.valueAddlen).map some).length = f.valueAddlen := by
      rw [List.length_map, hs.string_length hv]
    have hsplit : some '"' :: ((s.take f.valueAddlen).map some ++ [some '"']) =
        [some '"'] ++ (s.take f.valueAddlen).map some ++ [some '"'] := by simp
    simp only [hsplit, ← lay_append, put_eq_lay, copy_eq_lay, List.length_append, List.length_singleton, hl,
      Nat.add_assoc]
    rfl
  | inter n =>
    have hl : (((Printf.decimal n).take f.valueAddlen).map some).length = f.valueAddlen := by
      rw [List.length_map, List.length_take, Nat.min_eq_left (hs.inter n hv).le]
    simp only [copy_eq_lay, hl]
  | node c =>
    obtain ⟨c, g, rfl, -, -⟩ := hs.node c hv
    have hc : f.child = some c := by rw [JsonNode.child, hv]
    rw [hc] at hw
    simp only [hw _ _ rfl]
    split_ifs
    · rw [Option.map_some, Nat.sub_add_cancel hstr]
      congr 2
      omega
    · have hsplit : some '\x7b' :: (inner ++ [some '\x7d']) = [some '\x7b'] ++ inner ++ [some '\x7d'] := by simp
      simp only [hsplit, ← lay_append, put_eq_lay, List.length_append, List.length_singleton, Option.map_some]
      congr 2
      · congr 1
        omega
      · omega
  | list c =>
    cases c with
    | none =>
      simp only [lay_skip]
      rfl
    | some c =>
      have hc : f.child = some c := by rw [JsonNode.child, hv]
      rw [hc] at hw
      have hsplit : some '[' :: some '\x7b' :: (inner ++ [some '\x7d', some ']']) =
          [some '['] ++ [some '\x7b'] ++ inner ++ [some '\x7d'] ++ [some ']'] := by simp
      simp only [hw _ _ rfl, hsplit, ← lay_append, put_eq_lay, List.length_append, List.length_singleton,
        Option.map_some]
      congr 2
      · congr 1
        · congr 1
          omega
        · omega
      · omega

theorem chainText_last {p : ℕ} (hf : h.block p = some f) (c : Shape) :
    chainText h (.node p c .nil) = f.keyText ++ f.valueText h (chainText h c) := by
  simp only [chainText, hf, List.append_nil]

theorem chainText_next {p : ℕ} (hf : h.block p = some f) (c : Shape) (q : ℕ) (c' n' : Shape) :
    chainText h (.node p c (.node q c' n')) =
      f.keyText ++ f.valueText h (chainText h c) ++ [some ','] ++ chainText h (.node q c' n') := by
  rw [chainText, hf]
  simp only [List.append_assoc, List.singleton_append]

theorem write_chain {p : Option ℕ} {s : Shape} (hspan : Spans (childOf h) (nextOf h) p s)
    (hs : ∀ q ∈ s.nodes, ∃ f, h.block q = some f ∧ f.Sized h) {n : ℕ} (hn : s.nodes.length < n) (buf : Buf) (str : ℕ) :
    toJsonFrom h n buf str p = some (buf.lay (str + 1) (chainText h s), str + chainSpan h s) := by
  induction hspan generalizing n buf str with
  | nil =>
    obtain ⟨n, rfl⟩ := Nat.exists_eq_add_one.mpr hn
    rw [chainText, lay_nil]
    rfl
  | @node p c s hc hsib ihc ihs =>
    obtain ⟨n, rfl⟩ := Nat.exists_eq_add_one.mpr (Nat.zero_lt_of_lt hn)
    rw [Shape.nodes, List.length_cons, List.length_append] at hn
    simp only [Shape.nodes, List.mem_cons, List.mem_append] at hs
    obtain ⟨f, hf, hsized⟩ := hs p (.inl rfl)
    have hchild : childOf h p = f.child := by rw [childOf, hf, Option.bind_some]
    have hnext : nextOf h p = f.next := by rw [nextOf, hf, Option.bind_some]
    rw [hchild] at hc ihc
    rw [hnext] at hsib ihs
    have hwrite : ∀ buf str, f.child.isSome → toJsonFrom h n buf str f.child =
        some (buf.lay (str + 1) (chainText h c), str + ((chainText h c).length + 1)) := by
      intro buf str hsome
      obtain ⟨q, hq⟩ := Option.isSome_iff_exists.mp hsome
      rw [ihc (fun q hq => hs q (.inr (.inl hq))) (by omega)]
      rw [hq] at hc
      obtain ⟨c', n', rfl⟩ := hc.of_some
      rfl
    rw [toJsonFrom, hf]
    simp only [Option.bind_eq_bind, Option.bind_some, putKey_eq hsized]
    rw [putValue_eq hsized _ hwrite _ (by omega), Option.bind_some]
    simp only []
    have hpos : str + 1 + f.keyText.length + (f.valueText h (chainText h c)).length - 1 + 1 =
        str + 1 + (f.keyText ++ f.valueText h (chainText h c)).length := by
      rw [List.length_append]
      omega
    rw [ihs (fun q hq => hs q (.inr (.inr hq))) (by omega), hpos, lay_append]
    cases hf' : f.next with
    | none =>
      rw [hf'] at hsib
      obtain rfl := hsib.of_none
      have hnil : chainText h .nil = [] := rfl
      rw [chainSpan_node, chainText_last hf c, hnil, lay_nil]
      simp only [Option.isSome_none, Bool.false_eq_true, if_false, chainSpan]
      congr 2
      omega
    | some q =>
      rw [hf'] at hsib
      obtain ⟨c', n', rfl⟩ := hsib.of_some
      have ht := chainText_next hf c q c' n'
      have hl : (f.keyText ++ f.valueText h (chainText h c) ++ [some ',']).length =
          (f.keyText ++ f.valueText h (chainText h c)).length + 1 := by
        rw [List.length_append, List.length_singleton]
      simp only [Option.isSome_some, if_true, put_eq_lay, lay_append, chainSpan_node, ht]
      rw [Nat.add_assoc (str + 1), ← hl, lay_append]
      congr 2
      simp only [List.length_append, List.length_singleton]
      omega

end

def JsonNode.weight (f : JsonNode) (loose : Bool) : ℕ :=
  match f.value with
  | .string _ => f.lens + 6
  | .inter _ => f.lens + 4
  | .node _ => f.keyAddlen + 5 + if loose then 4 else 0
  | .list _ => 2

def Placed.weight (t : Placed) (p : ℕ) : ℕ :=
  ((t.builder.heap.block p).map (fun f => f.weight (t.loose p))).getD 0

def Placed.owed (t : Placed) (p : Option ℕ) : ℕ :=
  ((p.filter (fun q => t.place q = some .value)).bind t.builder.heap.block).elim 0 (fun f => f.lens + f.value.num)

section

variable {t : Placed} {f : JsonNode} {p : ℕ}

theorem owed_value (hf : t.builder.heap.block p = some f) (hp : t.place p = some .value) :
    t.owed (some p) = f.lens + f.value.num := by
  simp [Placed.owed, Option.filter, hp, hf]

theorem owed_direct (hp : t.place p = some .direct) : t.owed (some p) = 0 := by
  simp [Placed.owed, Option.filter, hp]

theorem owed_none : t.owed none = 0 := rfl

theorem Placed.Sound.weigh (hs : t.Sound) (hf : t.builder.heap.block p = some f) (hp : t.place p ≠ none) :
    t.counted p + t.owed (some p) = f.weight (t.loose p) + t.owed f.child := by
  have hsized := hs.sized p f hf
  have hcount : t.counted p + t.owed (some p) =
      f.made t.builder.heap + (f.lens + if t.place p = some .direct then f.extra (t.loose p) else f.value.num) := by
    unfold Placed.counted
    rw [hf]
    cases hq : t.place p with
    | none => exact absurd hq hp
    | some place =>
      cases place with
      | value =>
        rw [owed_value hf hq]
        simp
      | direct =>
        rw [owed_direct hq]
        simp
  rw [hcount]
  unfold JsonNode.made JsonNode.extra JsonNode.weight JsonNode.child
  cases hv : f.value with
  | string s => simp [owed_none, NodeValue.num]
  | inter n => simp [owed_none, NodeValue.num]
  | list c =>
    obtain ⟨hk, hl⟩ := hsized.list c hv
    have howed : t.owed c = 0 := by
      cases c with
      | none => rfl
      | some c => exact owed_direct (hs.list_place p f c hf hv)
    simp [howed, NodeValue.num, JsonNode.lens, hk, hl]
  | node c =>
    obtain ⟨q, g, rfl, hg, hl⟩ := hsized.node c hv
    simp only [hg, Option.map_some, Option.getD_some, owed_value hg (hs.value_place p f q hf hv), NodeValue.num,
      JsonNode.lens, hl]
    cases hloose : t.loose p with
    | true =>
      simp only [if_true, ite_self]
      omega
    | false =>
      simp only [hs.added p f _ hf hv hloose, if_true, Bool.false_eq_true, if_false]
      omega

theorem Placed.Sound.chain_counted (hs : t.Sound) {q : Option ℕ} {s : Shape}
    (hspan : Spans (childOf t.builder.heap) (nextOf t.builder.heap) q s) (hq : ∀ r, q = some r → t.place r ≠ none) :
    (s.nodes.map t.counted).sum + t.owed q = (s.nodes.map t.weight).sum ∧
      ∀ r ∈ s.nodes, ∃ f, t.builder.heap.block r = some f := by
  induction hspan with
  | nil =>
    refine ⟨rfl, ?_⟩
    intro r hr
    cases hr
  | @node p c n hc hn ihc ihn =>
    have hp := hq p rfl
    obtain ⟨f, hf⟩ := Option.isSome_iff_exists.mp (hs.live p (hs.placed p hp))
    have hchild : childOf t.builder.heap p = f.child := by rw [childOf, hf, Option.bind_some]
    have hnext : t.owed (nextOf t.builder.heap p) = 0 := by
      cases he : nextOf t.builder.heap p with
      | none => rfl
      | some r => exact owed_direct (hs.next_place p r he)
    obtain ⟨hcs, hcl⟩ := ihc (fun r hr => hs.child_place hr)
    obtain ⟨hns, hnl⟩ := ihn (fun r hr => by rw [hs.next_place p r hr]; simp)
    have hw := hs.weigh hf hp
    have hweight : t.weight p = f.weight (t.loose p) := by simp [Placed.weight, hf]
    constructor
    · rw [Shape.sum_nodes, Shape.sum_nodes, ← hcs, ← hns, hnext, hchild, hweight]
      omega
    · intro r hr
      rcases List.mem_cons.mp hr with rfl | hr
      · exact ⟨f, hf⟩
      rcases List.mem_append.mp hr with hr | hr
      · exact hcl r hr
      · exact hnl r hr

theorem JsonNode.Sized.keyText_length {h : Heap JsonNode} (hs : f.Sized h) :
    f.keyText.length + (if f.keyAddlen = 0 then 3 else 0) = f.keyAddlen + 3 := by
  unfold JsonNode.keyText
  by_cases hk : f.keyAddlen = 0
  · rw [if_pos hk, hk]
    rfl
  · rw [if_neg hk, if_pos (Nat.pos_of_ne_zero hk)]
    simp only [List.length_cons, List.length_append, List.length_map, hs.key_length, List.length_nil]

theorem JsonNode.Sized.span {h : Heap JsonNode} (hs : f.Sized h) (loose : Bool) (inner : List (Option Char)) :
    (f.keyText ++ f.valueText h inner).length + 1 + f.spare h loose =
      f.weight loose + f.short + if f.child.isSome then inner.length + 1 else 0 := by
  have hkey := hs.keyText_length
  rw [List.length_append]
  unfold JsonNode.valueText JsonNode.spare JsonNode.weight JsonNode.short JsonNode.child JsonNode.lens
  generalize (if f.keyAddlen = 0 then 3 else 0) = k at hkey ⊢
  cases hv : f.value with
  | string s =>
    simp only [List.length_cons, List.length_append, List.length_map, hs.string_length hv, List.length_nil,
      Option.isSome_none, Bool.false_eq_true, if_false]
    omega
  | inter n =>
    have hl : ((Printf.decimal n).take f.valueAddlen).length = f.valueAddlen := by
      rw [List.length_take, Nat.min_eq_left (hs.inter n hv).le]
    simp only [List.length_map, hl, Option.isSome_none, Bool.false_eq_true, if_false]
    omega
  | list c =>
    have hk := (hs.list c hv).1
    have hnil : f.keyText.length = 0 := by
      unfold JsonNode.keyText
      rw [hk]
      rfl
    rw [hnil]
    cases c with
    | none => rfl
    | some c =>
      simp only [List.length_cons, List.length_append, List.length_nil, Option.isSome_some, if_true]
      omega
  | node c =>
    obtain ⟨q, g, rfl, -, -⟩ := hs.node c hv
    simp only [Option.isSome_some, if_true]
    cases isListAt h (some q) <;> cases loose <;>
      simp only [List.length_cons, List.length_append, List.length_nil, Bool.false_eq_true, if_true, if_false] <;> omega

theorem Placed.Sound.chain_span (hs : t.Sound) {q : Option ℕ} {s : Shape}
    (hspan : Spans (childOf t.builder.heap) (nextOf t.builder.heap) q s)
    (hlive : ∀ r ∈ s.nodes, ∃ f, t.builder.heap.block r = some f) :
    chainSpan t.builder.heap s + (s.nodes.map t.spare).sum = (s.nodes.map t.weight).sum + (s.nodes.map t.short).sum := by
  induction hspan with
  | nil => rfl
  | @node p c n hc hn ihc ihn =>
    simp only [Shape.nodes, List.mem_cons, List.mem_append] at hlive
    obtain ⟨f, hf⟩ := hlive p (.inl rfl)
    have hcs := ihc (fun r hr => hlive r (.inr (.inl hr)))
    have hns := ihn (fun r hr => hlive r (.inr (.inr hr)))
    have hspan := (hs.sized p f hf).span (t.loose p) (chainText t.builder.heap c)
    have hchild : childOf t.builder.heap p = f.child := by rw [childOf, hf, Option.bind_some]
    have hinner : (if f.child.isSome then (chainText t.builder.heap c).length + 1 else 0) =
        chainSpan t.builder.heap c := by
      rw [hchild] at hc
      cases he : f.child with
      | none =>
        rw [he] at hc
        rw [hc.of_none]
        rfl
      | some r =>
        rw [he] at hc
        obtain ⟨c', n', rfl⟩ := hc.of_some
        rfl
    have htext : chainSpan t.builder.heap (.node p c n) =
        (f.keyText ++ f.valueText t.builder.heap (chainText t.builder.heap c)).length + 1 +
          chainSpan t.builder.heap n := by
      cases n with
      | nil =>
        rw [chainSpan_node, chainText_last hf]
        rfl
      | node q c' n' =>
        rw [chainSpan_node, chainText_next hf, chainSpan_node]
        simp only [List.length_append, List.length_singleton]
        omega
    have hweight : t.weight p = f.weight (t.loose p) := by simp [Placed.weight, hf]
    have hspare : t.spare p = f.spare t.builder.heap (t.loose p) := by simp [Placed.spare, hf]
    have hshort : t.short p = f.short := by simp [Placed.short, hf]
    rw [Shape.sum_nodes, Shape.sum_nodes, Shape.sum_nodes, htext, hweight, hspare, hshort]
    omega

theorem total_split {n : ℕ} {l : List ℕ} (hl : l.Nodup) (hlt : ∀ p ∈ l, p < n) (c : ℕ → ℕ) :
    ∑ p ∈ Finset.range n, c p = (l.map c).sum + (((List.range n).filter (fun p => p ∉ l)).map c).sum := by
  rw [← Finset.sum_filter_add_sum_filter_not (Finset.range n) (fun p => p ∈ l)]
  congr 1
  rw [← List.sum_toFinset c hl]
  congr 1
  ext p
  simp only [Finset.mem_filter, Finset.mem_range, List.mem_toFinset]
  exact ⟨fun h => h.2, fun h => ⟨hlt p h, h⟩⟩

def printedText (b : Builder) (s : Shape) : JsonText where
  len := (b.addlen + 2) % 2 ^ 32
  buf := (((Buf.put (fun _ => none) 0 '\x7b').lay 1 (chainText b.heap s)).put (chainSpan b.heap s) '\x7d').put
    (chainSpan b.heap s + 1) '\x00'

theorem printedText_fits (b : Builder) (s : Shape) :
    (printedText b s).Fits ↔ chainSpan b.heap s + 2 ≤ (b.addlen + 2) % 2 ^ 32 := by
  constructor
  · intro h
    apply h (chainSpan b.heap s + 1)
    simp [printedText, Buf.put]
  · intro h i hi
    change i < (b.addlen + 2) % 2 ^ 32
    have hlen : (chainText b.heap s).length ≤ chainSpan b.heap s := by
      cases s with
      | nil => exact Nat.le_refl 0
      | node => exact Nat.le_succ _
    by_contra hlt
    have hnone : (printedText b s).buf i = none := by
      simp only [printedText, Buf.put]
      rw [Function.update_of_ne (by omega), Function.update_of_ne (by omega), Buf.lay, if_pos (by omega),
        List.getElem?_eq_none (by omega), Function.update_of_ne (by omega)]
      rfl
    rw [hnone] at hi
    cases hi

theorem Placed.Sound.printed_counted (hs : t.Sound) {s : Shape}
    (hspan : Spans (childOf t.builder.heap) (nextOf t.builder.heap) t.builder.addhead s) :
    (s.nodes.map t.counted).sum = (s.nodes.map t.weight).sum ∧
      ∀ r ∈ s.nodes, ∃ f, t.builder.heap.block r = some f := by
  have hplace : ∀ r, t.builder.addhead = some r → t.place r ≠ none := by
    intro r hr
    rw [hs.head_place r hr]
    simp
  have howed : t.owed t.builder.addhead = 0 := by
    cases hh : t.builder.addhead with
    | none => rfl
    | some r => exact owed_direct (hs.head_place r hh)
  have hcount := hs.chain_counted hspan hplace
  rwa [howed, Nat.add_zero] at hcount

theorem Placed.Sound.toJson (hs : t.Sound) {s : Shape}
    (hspan : Spans (childOf t.builder.heap) (nextOf t.builder.heap) t.builder.addhead s)
    (hn : s.nodes.length < t.builder.heap.fresh + 1) : t.builder.toJson = some (printedText t.builder s) := by
  obtain ⟨-, hlive⟩ := hs.printed_counted hspan
  have hsized : ∀ q ∈ s.nodes, ∃ f, t.builder.heap.block q = some f ∧ f.Sized t.builder.heap := by
    intro q hq
    obtain ⟨f, hf⟩ := hlive q hq
    exact ⟨f, hf, hs.sized q f hf⟩
  unfold Builder.toJson
  simp only [write_chain hspan hsized hn, Option.bind_eq_bind, Option.bind_some, Nat.zero_add]
  rfl

end

theorem Placed.Sound.fits_iff {t : Placed} (hs : t.Sound) {s : Shape}
    (hspan : Spans (childOf t.builder.heap) (nextOf t.builder.heap) t.builder.addhead s) (hnodup : s.nodes.Nodup)
    (hlt : ∀ p ∈ s.nodes, p < t.builder.heap.fresh) : (printedText t.builder s).Fits ↔ t.Covered s.nodes := by
  obtain ⟨hcount, hlive⟩ := hs.printed_counted hspan
  have hlen := hs.chain_span hspan hlive
  have htotal : t.total = (s.nodes.map t.counted).sum + ((t.unprinted s.nodes).map t.counted).sum :=
    total_split hnodup hlt t.counted
  have hdiv := Nat.div_add_mod (t.total + 2) (2 ^ 32)
  rw [printedText_fits, hs.counts, Nat.mod_add_mod]
  unfold Placed.Covered
  omega

theorem toJson_fits_iff (t : Placed) (hr : Reach Placed.step Placed.once Placed.new t) :
    ∃ printed text, t.builder.printed = some printed ∧ t.builder.toJson = some text ∧
      (text.Fits ↔ t.Covered printed) := by
  have hs := placed_sound hr
  obtain ⟨s, hspan, hnodup, hlt, hn⟩ := hs.spans
  exact ⟨s.nodes, printedText t.builder s, hspan.walk hn, hs.toJson hspan hn, hs.fits_iff hspan hnodup hlt⟩

def keyedList : List BuilderOp :=
  [.createList false, .pushString "a".toList "b".toList false, .pushChild 0 1, .pushNode "k".toList 0 true]

theorem toJson_keyed_list :
    ∃ (t : Placed) (text : JsonText), Placed.run keyedList = some t ∧ t.builder.toJson = some text ∧ text.Fits := by
  have hrun : (Placed.run keyedList).isSome = true := by decide
  have hprinted : (Placed.run keyedList).bind (fun t => t.builder.printed) = some [2, 0, 1] := by decide
  have hcovered : ∀ t ∈ Placed.run keyedList, t.Covered [2, 0, 1] := by
    unfold Placed.Covered
    decide
  obtain ⟨t, ht⟩ := Option.isSome_iff_exists.mp hrun
  obtain ⟨printed, text, hp, hj, hiff⟩ := toJson_fits_iff t (Placed.reach_run ht)
  rw [ht, Option.bind_some, hp] at hprinted
  obtain rfl := Option.some.inj hprinted
  exact ⟨t, text, ht, hj, hiff.mpr (hcovered t ht)⟩

-- 12 bytes for a text of 13 and its NUL
theorem toJson_top_list :
    ¬∀ (t : Placed) (text : JsonText), Reach Placed.step Placed.once Placed.new t → t.builder.toJson = some text →
      text.Fits := by
  intro h
  have hrun : (Placed.run topList).isSome = true := by decide
  have hlast : ((Placed.run topList).bind (fun t => t.builder.toJson)).any
      (fun text => text.len = 12 ∧ (text.buf 13).isSome) = true := by decide
  obtain ⟨t, ht⟩ := Option.isSome_iff_exists.mp hrun
  rw [ht, Option.bind_some, Option.any_eq_true] at hlast
  obtain ⟨text, hj, hb⟩ := hlast
  obtain ⟨hlen, hwritten⟩ := of_decide_eq_true hb
  have hlt := h t text (Placed.reach_run ht) hj 13 hwritten
  omega

end FishServer
