import FishServer.Setting

namespace FishServer

/-! The lookup of a dotted path. A text is read with the NUL after it. -/

def CStr.bytes (s : CStr) : List Char := s ++ ['\x00']

/-- None is a read past the end of one of the texts. -/
def strneq : ℕ → List Char → List Char → Option Bool
  | 0, _, _ => some true
  | n + 1, c :: a, d :: b => if c ≠ d then some false else strneq n a b
  | _ + 1, _, _ => none

def dots (i : ℕ) : CStr → List ℕ
  | [] => []
  | c :: s => if c = '.' then i :: dots (i + 1) s else dots (i + 1) s

def segment (path : CStr) (ptr : List ℕ) (curr : ℕ) : List Char :=
  (CStr.bytes path).drop (ptr.getD (curr - 1) 0 + 1)

/-- `eq_len`, from the first of the children. -/
def eqLen (ptr : List ℕ) (curr : ℕ) (child : JsonValue) : ℕ :=
  let len := (ptr.getD curr 0 - ptr.getD (curr - 1) 0 - 1) % 2 ^ 32
  match child with
  | .null => len
  | .node key _ _ _ => if len < key.length % 2 ^ 32 then key.length % 2 ^ 32 else len

def getChildValue (path : CStr) (ptr : List ℕ) (total : ℕ) : JsonValue → ℕ → ℕ → Option (Option CStr)
  | .null, _, _ => some none
  | .node key value child next, curr, len =>
    match strneq len (CStr.bytes key) (segment path ptr curr) with
    | none => none
    | some true =>
      if total ≤ curr then some value else getChildValue path ptr total child (curr + 1) (eqLen ptr (curr + 1) child)
    | some false => getChildValue path ptr total next curr len

def topValue (path : CStr) (ptr : List ℕ) (dim : ℕ) : JsonValue → Option (Option CStr)
  | .null => some none
  | .node key value child next =>
    match strneq (ptr.getD 0 0 % 2 ^ 32) (CStr.bytes key) (CStr.bytes path) with
    | none => none
    | some true => if dim = 0 then some value else getChildValue path ptr dim child 1 (eqLen ptr 1 child)
    | some false => topValue path ptr dim next

structure Lookup where
  value : Option CStr
  allocated : ℕ
  written : ℕ

def JsonValue.valueOfChild (tree : JsonValue) (path : CStr) : Option Lookup :=
  -- `dim` is back at 0 when `ptr` is allocated
  let ptr := dots 0 path ++ [path.length]
  (topValue path ptr (dots 0 path).length tree).map (fun value => ⟨value, 0 + 1, ptr.length⟩)

def joinDots : List CStr → CStr
  | [] => []
  | [k] => k
  | k :: ks => k ++ '.' :: joinDots ks

def JsonValue.atPath : List CStr → JsonValue → Option CStr
  | [], _ => none
  | [k], tree => tree.value k
  | k :: ks, tree => (tree.childOf k).atPath ks

/-- The path is followed by whole keys, with no read past an end and no more pointers written than allocated. -/
def JsonValue.LooksUp (tree : JsonValue) (keys : List CStr) : Prop :=
  ∃ r, tree.valueOfChild (joinDots keys) = some r ∧ r.value = tree.atPath keys ∧ r.written ≤ r.allocated

def JsonValue.first (test : CStr → Bool) : JsonValue → Option (CStr × Option CStr)
  | .null => none
  | .node k v _ next => if test k then some (k, v) else next.first test

/-- No node with another key and value comes first among those that the bytes of the key are compared with. -/
def JsonValue.Settles (tree : JsonValue) (key : CStr) : Prop :=
  ∀ k v, tree.first (key.take (key.length % 2 ^ 32)).isPrefixOf = some (k, v) → k = key ∨ v = tree.value key

theorem dots_none {s : CStr} (h : '.' ∉ s) (i : ℕ) : dots i s = [] := by
  induction s generalizing i with
  | nil => rfl
  | cons c s ih =>
    rw [List.mem_cons, not_or] at h
    rw [dots, if_neg (Ne.symm h.1), ih h.2]

theorem dots_some {s : CStr} (h : '.' ∈ s) (i : ℕ) : dots i s ≠ [] := by
  induction s generalizing i with
  | nil => cases h
  | cons c s ih =>
    rw [dots]
    split_ifs with hc
    · exact List.cons_ne_nil _ _
    · apply ih
      exact (List.mem_cons.mp h).resolve_left (Ne.symm hc)

-- the compared bytes are none of them NUL, so the key does not run out before they differ
theorem strneq_prefix {n : ℕ} {key path : CStr} (hn : n ≤ path.length) (hnul : '\x00' ∉ path) :
    strneq n (CStr.bytes key) (CStr.bytes path) = some ((path.take n).isPrefixOf key) := by
  induction n generalizing key path with
  | zero => rfl
  | succ n ih =>
    cases path with
    | nil => cases hn
    | cons d path =>
      rw [List.mem_cons, not_or] at hnul
      cases key with
      | nil =>
        have hd : '\x00' ≠ d := hnul.1
        simp [CStr.bytes, strneq, hd]
      | cons c key =>
        rw [List.length_cons] at hn
        have ih := @ih key path (by omega) hnul.2
        simp only [CStr.bytes, List.cons_append, strneq, List.take_succ_cons, List.isPrefixOf] at ih ⊢
        by_cases hc : c = d
        · subst hc
          simp [ih]
        · have hd : (d == c) = false := beq_false_of_ne (Ne.symm hc)
          rw [if_pos hc, hd, Bool.false_and]

section

variable {key : CStr}

theorem topValue_first (hnul : '\x00' ∉ key) (tree : JsonValue) :
    topValue key [key.length] 0 tree =
      some ((tree.first (key.take (key.length % 2 ^ 32)).isPrefixOf).elim none Prod.snd) := by
  induction tree with
  | null => rfl
  | node k v child next _ ih =>
    rw [topValue, JsonValue.first]
    simp only [List.getD_cons_zero, strneq_prefix (Nat.mod_le _ _) hnul]
    cases (key.take (key.length % 2 ^ 32)).isPrefixOf k with
    | true => rfl
    | false => exact ih

theorem first_exact (tree : JsonValue) :
    (∀ k v, tree.first (key.take (key.length % 2 ^ 32)).isPrefixOf = some (k, v) → k = key → v = tree.value key) ∧
      (tree.first (key.take (key.length % 2 ^ 32)).isPrefixOf = none → tree.value key = none) := by
  induction tree with
  | null =>
    constructor
    · rintro k v ⟨⟩
    · intro _
      rfl
  | node k v child next _ ih =>
    have hself : (key.take (key.length % 2 ^ 32)).isPrefixOf key = true :=
      List.isPrefixOf_iff_prefix.mpr (List.take_prefix _ _)
    simp only [JsonValue.first, JsonValue.value]
    by_cases hk : k = key
    · subst hk
      rw [if_pos hself, if_pos rfl]
      constructor
      · rintro k' v' ⟨⟩ _
        rfl
      · rintro ⟨⟩
    · rw [if_neg hk]
      split_ifs
      · constructor
        · rintro k' v' ⟨⟩ he
          exact absurd he hk
        · rintro ⟨⟩
      · exact ih

theorem valueOfChild_plain (hdot : '.' ∉ key) (hnul : '\x00' ∉ key) (tree : JsonValue) :
    tree.valueOfChild key =
      some ⟨(tree.first (key.take (key.length % 2 ^ 32)).isPrefixOf).elim none Prod.snd, 1, 1⟩ := by
  unfold JsonValue.valueOfChild
  rw [dots_none hdot]
  simp only [List.nil_append, List.length_nil, topValue_first hnul, Option.map_some, List.length_singleton]

theorem valueOfChild_dotted (hdot : '.' ∈ key) {tree : JsonValue} {r : Lookup} (h : tree.valueOfChild key = some r) :
    r.allocated < r.written := by
  obtain ⟨value, -, rfl⟩ := Option.map_eq_some_iff.mp h
  have hlen := List.length_pos_iff.mpr (dots_some hdot 0)
  change 0 + 1 < (dots 0 key ++ [key.length]).length
  rw [List.length_append, List.length_singleton]
  omega

end

theorem dot_mem_join {k k' : CStr} {ks : List CStr} : '.' ∈ joinDots (k :: k' :: ks) := by
  rw [joinDots]
  · exact List.mem_append_right _ List.mem_cons_self
  · simp

theorem valueOfChild_iff (tree : JsonValue) (keys : List CStr) (hne : keys ≠ [])
    (hkeys : ∀ k ∈ keys, k ≠ [] ∧ '.' ∉ k ∧ '\x00' ∉ k) :
    tree.LooksUp keys ↔ ∃ key, keys = [key] ∧ tree.Settles key := by
  cases keys with
  | nil => exact absurd rfl hne
  | cons key ks =>
    cases ks with
    | cons k' ks =>
      constructor
      · rintro ⟨r, hr, -, hw⟩
        exact absurd (valueOfChild_dotted dot_mem_join hr) (by omega)
      · rintro ⟨k, hk, -⟩
        cases hk
    | nil =>
      obtain ⟨-, hdot, hnul⟩ := hkeys key List.mem_cons_self
      obtain ⟨hexact, hnone⟩ := @first_exact key tree
      have hv := valueOfChild_plain hdot hnul tree
      constructor
      · rintro ⟨r, hr, hval, -⟩
        refine ⟨key, rfl, ?_⟩
        intro k v hf
        right
        have hr : tree.valueOfChild key = some r := hr
        rw [hv, hf] at hr
        cases hr
        exact hval
      · rintro ⟨k, hk, hs⟩
        cases hk
        refine ⟨_, hv, ?_, le_rfl⟩
        change _ = tree.value key
        cases hf : tree.first (key.take (key.length % 2 ^ 32)).isPrefixOf with
        | none => exact (hnone hf).symm
        | some kv =>
          rcases hs kv.1 kv.2 hf with he | he
          · exact hexact kv.1 kv.2 hf he
          · exact he

def twoKeys : JsonValue :=
  .node "a".toList (some "1".toList) .null (.node "ab".toList (some "2".toList) .null .null)

theorem valueOfChild_twoKeys : twoKeys.LooksUp ["a".toList] := by
  have hkeys : ∀ k ∈ ["a".toList], k ≠ [] ∧ '.' ∉ k ∧ '\x00' ∉ k := by decide
  apply (valueOfChild_iff twoKeys ["a".toList] (List.cons_ne_nil _ _) hkeys).mpr
  refine ⟨"a".toList, rfl, ?_⟩
  have hfirst : twoKeys.first ("a".toList.take ("a".toList.length % 2 ^ 32)).isPrefixOf =
      some ("a".toList, some "1".toList) := by decide
  intro k v h
  cases hfirst.symm.trans h
  exact .inl rfl

theorem valueOfChild_overruns :
    ¬∀ (text : CStr) (tree : JsonValue) (cursor : Cursor) (keys : List CStr),
      parseString (fun _ => none) text = some (.done tree cursor) → keys ≠ [] →
        (∀ k ∈ keys, k ≠ [] ∧ '.' ∉ k ∧ '\x00' ∉ k) → tree.LooksUp keys := by
  intro h
  have hparse : parseString (fun _ => none) "\x7ba:\x7bb:'1'\x7d\x7d".toList =
      some (.done (.node "a".toList none (.node "b".toList (some "1".toList) .null .null) .null) (some [])) := by decide
  obtain ⟨r, hr, -, hw⟩ := h _ _ _ ["a".toList, "b".toList] hparse (List.cons_ne_nil _ _) (by decide)
  exact absurd (valueOfChild_dotted dot_mem_join hr) (by omega)

end FishServer
