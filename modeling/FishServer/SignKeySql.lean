import FishServer.JsonParts
import FishServer.ServerRun
import FishServer.Lib.SqlText

namespace FishServer

open SqlText

def User.signKeySql (key : CStr) : CStr :=
  "SELECT u.id FROM user_sign AS us INNER JOIN users AS u ON u.id=us.user_id WHERE us.sign_key='".toList ++
    (key ++ ['\''])

/-- The statement fits its buffer, and its literal is the key with nothing behind it. -/
structure SignKeyRead (key : CStr) : Prop where
  fits : (User.signKeySql key).length + 1 ≤ 256
  literal : firstLiteral (User.signKeySql key) = some (key, [])

theorem all_value {K V : CStr → Prop} {tree : JsonValue} {key v : CStr} (h : tree.All K V)
    (hv : tree.value key = some v) : V v := by
  induction tree with
  | null => cases hv
  | node k value child next _ ih =>
    rw [JsonValue.value] at hv
    split_ifs at hv
    · exact h.2.1 v hv
    · exact ih h.2.2.2 hv

theorem signKeySql_length (key : CStr) : (User.signKeySql key).length = key.length + 94 := by
  unfold User.signKeySql
  rw [List.length_append, List.length_append, List.length_singleton]
  have hp : "SELECT u.id FROM user_sign AS us INNER JOIN users AS u ON u.id=us.user_id WHERE us.sign_key='".toList.length
      = 93 := by decide
  rw [hp]
  omega

theorem signKeySql_literal (key : CStr) : firstLiteral (User.signKeySql key) = readLiteral (key ++ ['\'']) := by
  have hp : "SELECT u.id FROM user_sign AS us INNER JOIN users AS u ON u.id=us.user_id WHERE us.sign_key='".toList =
      "SELECT u.id FROM user_sign AS us INNER JOIN users AS u ON u.id=us.user_id WHERE us.sign_key=".toList ++
        ['\''] := by decide
  unfold User.signKeySql
  rw [hp, List.append_assoc, List.singleton_append]
  apply firstLiteral_append
  decide

theorem sign_key_read_iff (heap : ℕ → Option Char) (text : CStr) (tree : JsonValue) (cursor : Cursor) (key : CStr)
    (hparse : parseString heap text = some (.done tree cursor)) (hkey : tree.value "key".toList = some key)
    (hplain : plainKey key = true) : SignKeyRead key ↔ key.length ≤ 161 ∧ Plain key := by
  have hq : '\'' ∉ key := by
    intro hm
    have hall := List.all_eq_true.mp hplain '\'' hm
    revert hall
    decide
  have hl : EndsPlain key := all_value (parse_endsPlain heap hparse) hkey
  constructor
  · intro h
    have hf := h.fits
    rw [signKeySql_length] at hf
    refine ⟨by omega, ?_⟩
    rw [← readLiteral_exact key hq hl, ← signKeySql_literal]
    exact h.literal
  · rintro ⟨hlen, hp⟩
    constructor
    · rw [signKeySql_length]
      omega
    · rw [signKeySql_literal, readLiteral_exact key hq hl]
      exact hp

theorem sign_key_wildcard : SignKeyRead "a\\%".toList := by
  have hparse : parseString (fun _ => none) "\x7bkey:'a\\\\%'\x7d".toList =
      some (.done (.node "key".toList (some "a\\%".toList) .null .null) (some [])) := by decide
  apply (sign_key_read_iff (fun _ => none) _ _ _ "a\\%".toList hparse rfl (by decide)).mpr
  refine ⟨by decide, ?_⟩
  have hw : "a\\%".toList = ['a', '\\', '%'] := by decide
  rw [hw, plain_cons (by decide), plain_escape]
  exact ⟨.inl rfl, plain_nil⟩

-- the key `a\n`, sent with its backslash doubled, is read as a line feed
theorem sign_key_escape :
    ¬ ∀ (heap : ℕ → Option Char) (text : CStr) (tree : JsonValue) (cursor : Cursor) (key : CStr),
      parseString heap text = some (.done tree cursor) → tree.value "key".toList = some key →
      plainKey key = true → SignKeyRead key := by
  intro h
  have hparse : parseString (fun _ => none) "\x7bkey:'a\\\\n'\x7d".toList =
      some (.done (.node "key".toList (some "a\\n".toList) .null .null) (some [])) := by decide
  have hr := (h _ _ _ _ "a\\n".toList hparse rfl (by decide)).literal
  rw [signKeySql_literal] at hr
  revert hr
  decide

end FishServer
