import FishServer.JsonBounds
import FishServer.JsonTokens

namespace FishServer

/-! What holds of each key and of each value that the parser stores. -/

def JsonValue.All (K V : CStr → Prop) : JsonValue → Prop
  | .null => True
  | .node key value child next => K key ∧ (∀ s ∈ value, V s) ∧ child.All K V ∧ next.All K V

def Parse.All (K V : CStr → Prop) (N : ℕ) : Parse → Prop
  | .overRead => True
  | .done tree cursor => tree.All K V ∧ ∀ m ∈ cursor, m.length ≤ N

section

variable {K V : CStr → Prop} {N : ℕ}

theorem none_all : ∀ s ∈ (none : Option CStr), V s := by
  intro s hs
  cases hs

theorem afterValue_all {isChild : Bool} {key : CStr} {value : Option CStr} {child : JsonValue} {m : CStr}
    {rest : Option Parse} (hk : K key) (hv : ∀ s ∈ value, V s) (hc : child.All K V) (hm : m.length ≤ N)
    (hr : ∀ p ∈ rest, p.All K V N) : ∀ p ∈ afterValue isChild key value child m rest, p.All K V N := by
  intro p hp
  unfold afterValue at hp
  split_ifs at hp
  · obtain rfl := Option.some.inj hp
    refine ⟨⟨hk, hv, hc, trivial⟩, ?_⟩
    rintro m' ⟨⟩
    exact hm
  · obtain ⟨q, hq, rfl⟩ := Option.map_eq_some_iff.mp hp
    cases q with
    | overRead => trivial
    | done tree cursor =>
      obtain ⟨htree, hcursor⟩ := hr _ hq
      exact ⟨⟨hk, hv, hc, htree⟩, hcursor⟩

theorem Cursor.next_length {cursor : Cursor} (h : ∀ m ∈ cursor, m.length ≤ N) :
    ∀ m ∈ cursor.next, m.length ≤ N := by
  intro m hm
  cases cursor with
  | none => cases hm
  | some m' =>
    cases m' with
    | nil => cases hm
    | cons c r =>
      cases hm
      have hl := h _ rfl
      rw [List.length_cons] at hl
      omega

section

variable (hK : ∀ m key r old, m.length ≤ N → readKey m = .found key r → K (copyStr old key))
  (hV : ∀ m value r old, m.length ≤ N → readValue m = .done value r → ∀ s ∈ valueCopy old value, V s)

include hV

theorem parseValue_all {heap : ℕ → Option Char} {loop : Bool → CStr → Option Parse}
    (hl : ∀ isChild m, m.length ≤ N → ∀ p ∈ loop isChild m, p.All K V N) (isChild : Bool) {key m : CStr} (hk : K key)
    (hm : m.length ≤ N) : ∀ p ∈ parseValue heap loop isChild key m, p.All K V N := by
  intro p hp
  unfold parseValue at hp
  split_ifs at hp
  · have hloop := hl true m hm
    cases hq : loop true m with
    | none => simp [hq] at hp
    | some q =>
      cases q with
      | overRead =>
        simp only [hq] at hp
        obtain rfl := Option.some.inj hp
        trivial
      | done child cursor =>
        rw [hq] at hloop
        simp only [hq] at hp
        obtain ⟨hchild, hcursor⟩ := hloop _ rfl
        have hnext := Cursor.next_length hcursor
        cases hn : cursor.next with
        | none =>
          simp only [hn] at hp
          obtain rfl := Option.some.inj hp
          trivial
        | some m' =>
          have hm' := hnext m' hn
          simp only [hn] at hp
          exact afterValue_all hk none_all hchild hm' (hl isChild m' hm') p hp
  · cases hr : readValue m with
    | error m' =>
      have hm' : m'.length ≤ m.length := by
        have hs := (readValue_suffix m).length_le
        rwa [hr] at hs
      simp only [hr] at hp
      obtain rfl := Option.some.inj hp
      refine ⟨⟨hk, none_all, trivial, trivial⟩, ?_⟩
      rintro r ⟨⟩
      omega
    | done value m' =>
      have hm' : m'.length ≤ m.length := by
        have hs := (readValue_suffix m).length_le
        rwa [hr] at hs
      simp only [hr] at hp
      have hchild : JsonValue.null.All K V := trivial
      exact afterValue_all hk (hV m value m' _ hm hr) hchild (hm'.trans hm) (hl isChild m' (hm'.trans hm)) p hp

include hK

theorem parseLoop_all (heap : ℕ → Option Char) (n : ℕ) (isChild : Bool) (m : CStr) (hm : m.length ≤ N) :
    ∀ p ∈ parseLoop heap n isChild m, p.All K V N := by
  induction n generalizing isChild m with
  | zero =>
    intro p hp
    cases hp
  | succ n ih =>
    intro p hp
    cases m with
    | nil =>
      obtain rfl := Option.some.inj hp
      refine ⟨trivial, ?_⟩
      rintro r ⟨⟩
    | cons c m =>
      rw [List.length_cons] at hm
      have hsuffix := (readKey_suffix m).length_le
      rw [parseLoop] at hp
      split_ifs at hp
      · obtain rfl := Option.some.inj hp
        refine ⟨trivial, ?_⟩
        rintro r ⟨⟩
        omega
      · cases hr : readKey m with
        | error m' =>
          rw [hr] at hsuffix
          simp only [hr] at hp
          obtain rfl := Option.some.inj hp
          refine ⟨trivial, ?_⟩
          rintro r ⟨⟩
          exact hsuffix.trans (by omega)
        | found key m' =>
          rw [hr] at hsuffix
          simp only [hr] at hp
          have hblank := (skipBlanks_suffix m'.tail).length_le
          have htail := (List.tail_suffix m').length_le
          have hfound : m'.length ≤ m.length := hsuffix
          exact parseValue_all hV ih isChild (hK m key m' _ (by omega) hr) (by omega) p hp

end

theorem parse_all {heap : ℕ → Option Char} {text : CStr} {tree : JsonValue} {cursor : Cursor}
    (hK : ∀ m key r old, m.length ≤ text.length → readKey m = .found key r → K (copyStr old key))
    (hV : ∀ m value r old, m.length ≤ text.length → readValue m = .done value r → ∀ s ∈ valueCopy old value, V s)
    (h : parseString heap text = some (.done tree cursor)) : tree.All K V :=
  (parseLoop_all hK hV heap _ false text le_rfl _ h).1

end

def EndsPlain (s : CStr) : Prop := s.getLast? ≠ some '\\'

theorem copyStr_last (old : Option Char) (raw : CStr) (h : EndsPlain raw) :
    (copyStr old raw).getLast? = raw.getLast? := by
  induction raw using copyStr.induct with
  | case1 => rfl
  | case2 => exact absurd rfl h
  | case3 c hc => rw [copyStr, if_neg hc]
  | case4 c' s ih =>
    rw [copyStr, if_pos rfl]
    cases s with
    | nil => rfl
    | cons d s =>
      have hs : EndsPlain (d :: s) := by simpa [EndsPlain] using h
      have hcopy := ih hs
      rw [List.getLast?_cons, hcopy]
      simp [List.getLast?_cons]
  | case5 c c' s hc ih =>
    rw [copyStr, if_neg hc]
    have hs : EndsPlain (c' :: s) := by simpa [EndsPlain] using h
    rw [List.getLast?_cons, ih hs]
    simp [List.getLast?_cons]

theorem separatorAfter_value {value m v r : CStr} (h : separatorAfter value m = .done (some v) r) :
    v = value := by
  unfold separatorAfter at h
  split at h
  · cases h
  · split_ifs at h
    cases h
    rfl

theorem stringScan_endsPlain {sign prev : Char} {value m v r : CStr} (hp : value ≠ [] → value.getLast? = some prev)
    (h : stringScan sign prev value m = .done (some v) r) : EndsPlain v := by
  induction m generalizing prev value with
  | nil => cases h
  | cons c m ih =>
    rw [stringScan] at h
    split_ifs at h with hc
    · rw [separatorAfter_value h]
      intro hl
      cases value with
      | nil => cases hl
      | cons d value =>
        rw [hp (List.cons_ne_nil _ _)] at hl
        exact hc.2 (Option.some.inj hl)
    · exact ih (fun _ => by simp) h

theorem numberScan_endsPlain {value m v r : CStr} (hv : EndsPlain value)
    (h : numberScan value m = .done (some v) r) : EndsPlain v := by
  induction m generalizing value with
  | nil => cases h
  | cons c m ih =>
    have hdigit : c.isDigit ∨ c = '.' → EndsPlain (value ++ [c]) := by
      intro hc hl
      rw [List.getLast?_concat] at hl
      exact (digit_plain hc).2.2.2.2 (Option.some.inj hl)
    rw [numberScan] at h
    split_ifs at h with h₁ h₂ h₃ h₄
    · exact ih (hdigit (.inl h₁)) h
    · rw [separatorAfter_value h]
      exact hv
    · cases h
      exact hv
    · exact ih (hdigit (.inr h₄)) h

theorem readValue_endsPlain {m v r : CStr} (h : readValue m = .done (some v) r) : EndsPlain v := by
  unfold readValue at h
  split at h
  · exact stringScan_endsPlain (fun hn => absurd rfl hn) h
  · refine numberScan_endsPlain ?_ h
    rintro ⟨⟩
  · refine numberScan_endsPlain ?_ h
    rintro ⟨⟩

theorem valueCopy_endsPlain {old : Option Char} {value : Option CStr} (h : ∀ s ∈ value, EndsPlain s) :
    ∀ s ∈ valueCopy old value, EndsPlain s := by
  cases value with
  | none =>
    intro s hs
    cases hs
  | some raw =>
    cases raw with
    | nil =>
      intro s hs
      cases hs
    | cons c raw =>
      intro s hs
      obtain rfl : copyStr old (c :: raw) = s := Option.some.inj hs
      have hr := h _ rfl
      unfold EndsPlain
      rw [copyStr_last old _ hr]
      exact hr

theorem parse_endsPlain (heap : ℕ → Option Char) {text : CStr} {tree : JsonValue} {cursor : Cursor}
    (h : parseString heap text = some (.done tree cursor)) : tree.All (fun _ => True) EndsPlain := by
  apply parse_all _ _ h
  · intro _ _ _ _ _ _
    trivial
  · intro m value r old _ hr
    apply valueCopy_endsPlain
    intro s hs
    obtain rfl : value = some s := hs
    exact readValue_endsPlain hr

theorem copyStr_length (old : Option Char) (s : CStr) : (copyStr old s).length ≤ s.length := by
  induction s using copyStr.induct with
  | case1 => rfl
  | case2 =>
    rw [copyStr, if_pos rfl]
    cases old <;> simp
  | case3 c hc => rw [copyStr, if_neg hc]
  | case4 c' s ih =>
    rw [copyStr, if_pos rfl]
    simp only [List.length_cons]
    omega
  | case5 c c' s hc ih =>
    rw [copyStr, if_neg hc]
    simp only [List.length_cons] at ih ⊢
    omega

theorem keyScan_length {sign : Option Char} {key m k r : CStr} (h : keyScan sign key m = .found k r) :
    k.length ≤ key.length + m.length := by
  have hcolon : ∀ (key m k r : CStr), colonAfter key m = .found k r → k = key := by
    intro key m k r h
    unfold colonAfter at h
    split at h
    · cases h
      rfl
    · cases h
  induction m generalizing key with
  | nil => cases h
  | cons c m ih =>
    rw [List.length_cons]
    rw [keyScan] at h
    split_ifs at h
    · rw [hcolon _ _ _ _ h]
      omega
    · cases h
      omega
    · rw [hcolon _ _ _ _ h]
      omega
    · have hk := ih h
      rw [List.length_append, List.length_singleton] at hk
      omega

theorem readKey_length {m key r : CStr} (h : readKey m = .found key r) : key.length ≤ m.length := by
  unfold readKey at h
  have hstart := ((quoteSign_suffix (skipBlanks m)).trans (skipBlanks_suffix m)).length_le
  cases hk : keyScan (quoteSign (skipBlanks m)).1 [] (quoteSign (skipBlanks m)).2 with
  | error m' => simp [hk] at h
  | found k r' =>
    have hlen := keyScan_length hk
    rw [List.length_nil, Nat.zero_add] at hlen
    simp only [hk] at h
    split at h
    · cases h
    · next he =>
      cases h
      omega

theorem stringScan_length {sign prev : Char} {value m v r : CStr}
    (h : stringScan sign prev value m = .done (some v) r) : v.length ≤ value.length + m.length := by
  induction m generalizing prev value with
  | nil => cases h
  | cons c m ih =>
    rw [List.length_cons]
    rw [stringScan] at h
    split_ifs at h
    · rw [separatorAfter_value h]
      omega
    · have hv := ih h
      rw [List.length_append, List.length_singleton] at hv
      omega

theorem numberScan_length {value m v r : CStr} (h : numberScan value m = .done (some v) r) :
    v.length ≤ value.length + m.length := by
  induction m generalizing value with
  | nil => cases h
  | cons c m ih =>
    rw [List.length_cons]
    rw [numberScan] at h
    split_ifs at h
    · have hv := ih h
      rw [List.length_append, List.length_singleton] at hv
      omega
    · rw [separatorAfter_value h]
      omega
    · cases h
      omega
    · have hv := ih h
      rw [List.length_append, List.length_singleton] at hv
      omega

theorem readValue_length {m v r : CStr} (h : readValue m = .done (some v) r) : v.length ≤ m.length := by
  have hstart := (quoteSign_suffix m).length_le
  unfold readValue at h
  split at h
  · next sign start he =>
    rw [he] at hstart
    have hv := stringScan_length h
    rw [List.length_nil, Nat.zero_add] at hv
    exact hv.trans hstart
  · next r' he =>
    rw [he] at hstart
    have hv := numberScan_length h
    rw [List.length_singleton] at hv
    rw [List.length_cons] at hstart
    omega
  · next m' _ he =>
    rw [he] at hstart
    have hv := numberScan_length h
    rw [List.length_nil, Nat.zero_add] at hv
    exact hv.trans hstart

theorem parse_within (heap : ℕ → Option Char) {text : CStr} {tree : JsonValue} {cursor : Cursor}
    (h : parseString heap text = some (.done tree cursor)) :
    tree.All (fun k => k.length ≤ text.length) (fun v => v.length ≤ text.length) := by
  apply parse_all _ _ h
  · intro m key r old hm hr
    exact (copyStr_length old key).trans ((readKey_length hr).trans hm)
  · intro m value r old hm hr s hs
    cases value with
    | none => cases hs
    | some raw =>
      cases raw with
      | nil => cases hs
      | cons c raw =>
        obtain rfl : copyStr old (c :: raw) = s := Option.some.inj hs
        exact (copyStr_length old _).trans ((readValue_length hr).trans hm)

end FishServer
