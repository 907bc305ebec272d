import FishServer.JsonParse

namespace FishServer

/-! Trees of objects together with the way they are written: the quotes and the blanks. -/

def blanks (n : ℕ) : CStr := List.replicate n ' '

def escape (q : Char) : CStr → CStr
  | [] => []
  | c :: s => if c = q ∨ c = '\\' then '\\' :: c :: escape q s else c :: escape q s

structure Head where
  before : ℕ
  quote : Option Char
  key : CStr
  afterKey : ℕ
  afterColon : ℕ
  quote_mark : ∀ q ∈ quote, isQuote q = true
  key_ne : key ≠ []
  key_plain : ∀ c ∈ key, isQuote c = false ∧ c ≠ ' ' ∧ c ≠ ':' ∧ c ≠ '\\'

inductive Leaf
  | str (quote : Char) (text : CStr) (mark : isQuote quote = true) (ne : text ≠ [])
  | num (neg : Bool) (digits : CStr) (ne : digits ≠ []) (digit : ∀ c ∈ digits, c.isDigit ∨ c = '.')

/-- The members of an object. `after` counts the blanks behind a value, `pad` those behind an opening
brace. -/
inductive Members
  | nil
  | leaf (head : Head) (value : Leaf) (after : ℕ) (next : Members)
  | object (head : Head) (pad : ℕ) (inner : Members) (after : ℕ) (next : Members)

def Head.keyText (h : Head) : CStr := h.quote.toList ++ h.key ++ h.quote.toList

def Head.text (h : Head) : CStr :=
  blanks h.before ++ (h.keyText ++ (blanks h.afterKey ++ ':' :: blanks h.afterColon))

def Leaf.text : Leaf → CStr
  | .str q s _ _ => q :: (escape q s ++ [q])
  | .num neg digits _ _ => (if neg then ['-'] else []) ++ digits

def Leaf.value : Leaf → CStr
  | .str _ s _ _ => s
  | .num neg digits _ _ => (if neg then ['-'] else []) ++ digits

def Members.comma : Members → CStr
  | .nil => []
  | _ => [',']

def Members.text : Members → CStr
  | .nil => []
  | .leaf h v a next => h.text ++ (v.text ++ (blanks a ++ (next.comma ++ next.text)))
  | .object h p inner a next =>
    h.text ++ ('{' :: (blanks p ++ (inner.text ++ '}' :: (blanks a ++ (next.comma ++ next.text)))))

def Members.printed (t : Members) : CStr := '{' :: (t.text ++ ['}'])

def Members.tree : Members → JsonValue
  | .nil => .null
  | .leaf h v _ next => .node h.key (some v.value) .null next.tree
  | .object h _ inner _ next => .node h.key none inner.tree next.tree

def Leaf.closes : Leaf → Prop
  | .str _ s _ _ => s.getLast? ≠ some '\\'
  | .num _ _ _ _ => True

def Head.opens (isChild : Bool) (lead : ℕ) (h : Head) : Prop :=
  isChild = true → lead + h.before = 0 → h.keyText.head? ≠ some '}'

def Members.Reads (isChild : Bool) : ℕ → Members → Prop
  | _, .nil => True
  | lead, .leaf h v _ next => h.opens isChild lead ∧ v.closes ∧ next.Reads isChild 0
  | lead, .object h p inner a next =>
    h.opens isChild lead ∧ (inner = .nil → p = 0) ∧ inner.Reads true p ∧
      (next ≠ .nil → a = 0) ∧ (next = .nil → isChild = true → a ≤ 1) ∧ next.Reads isChild 0

-- blanks inside an empty nested object, or two of them between the closing braces of nested objects
def Members.Spread (isChild : Bool) : Members → Prop
  | .nil => False
  | .leaf _ _ _ next => next.Spread isChild
  | .object _ p inner a next =>
    (inner = .nil ∧ 0 < p) ∨ inner.Spread true ∨ (next = .nil ∧ isChild = true ∧ 1 < a) ∨
      next.Spread isChild

end FishServer
