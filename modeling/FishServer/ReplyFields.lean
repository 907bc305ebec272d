import FishServer.JsonContent
import FishServer.ReplyText

namespace FishServer

open Printf

/-! The replies are objects, and `parseString` reads them back. -/

/-- A value of a reply: the int of a `%d`, what `%f` prints, or a text between single quotes. -/
inductive ReplyValue
  | int (n : ℤ)
  | float (s : CStr)
  | text (s : CStr)

def ReplyValue.value : ReplyValue → CStr
  | .int n => decimal n
  | .float s => s
  | .text s => s

def ReplyValue.print (rest : CStr) : ReplyValue → CStr
  | .int n => decimal n ++ rest
  | .float s => s ++ rest
  | .text s => '\'' :: (s ++ '\'' :: rest)

def Floats (s : CStr) : Prop :=
  ∃ neg digits, digits ≠ [] ∧ (∀ c ∈ digits, c.isDigit = true ∨ c = '.') ∧
    s = (if neg = true then ['-'] else []) ++ digits

def ReplyValue.Clean : ReplyValue → Prop
  | .int _ => True
  | .float s => Floats s
  | .text s => s ≠ [] ∧ '\'' ∉ s ∧ '\\' ∉ s

structure Hand where
  quote : Option Char
  gap : ℕ

def replyText (h : Hand) : ℕ → List (CStr × ReplyValue) → CStr → CStr
  | _, [], rest => rest
  | before, (key, v) :: fields, rest =>
    blanks before ++ (h.quote.toList ++ (key ++ (h.quote.toList ++ ':' ::
      v.print ((if fields.isEmpty then [] else [',']) ++ replyText h h.gap fields rest))))

def Formatted.fields : Formatted → List (CStr × ReplyValue)
  | .inRoom p u room seat time =>
    [("op".toList, .text "find room".toList), ("uid".toList, .int p.uid), ("name".toList, .text (printName u.name)),
      ("room".toList, .int room), ("seat".toList, .int seat), ("time".toList, .float time)]
  | .verifyAccount u time =>
    [("op".toList, .text "verify account".toList), ("status".toList, .int 1), ("uid".toList, .int u.id),
      ("coin".toList, .int u.coin), ("name".toList, .text (printName u.name)), ("time".toList, .float time)]
  | .toShot p u json angle bullet =>
    [("op".toList, .text "to shot".toList), ("status".toList, .int 1), ("uid".toList, .int p.uid),
      ("seat".toList, .int p.seat), ("coin".toList, .int u.coin), ("x".toList, .int (json.valueToInt "x".toList)),
      ("y".toList, .int (json.valueToInt "y".toList)), ("angle".toList, .float angle), ("id".toList, .int bullet.id)]
  | .hitFish p u json fish fag =>
    [("op".toList, .text "hit fish".toList), ("uid".toList, .int p.uid), ("coin".toList, .int u.coin),
      ("bullet_id".toList, .int (json.valueToInt "bullet_id".toList)),
      ("bx".toList, .int (json.valueToInt "bx".toList)), ("by".toList, .int (json.valueToInt "by".toList)),
      ("fish_id".toList, .int fish.id), ("fx".toList, .int (json.valueToInt "fx".toList)),
      ("fy".toList, .int (json.valueToInt "fy".toList)), ("fag".toList, .float fag), ("die".toList, .int 1),
      ("ftype".toList, .int fish.type)]
  | .viewOnline p u backupCoin opTime now =>
    let v := Shown.of u backupCoin opTime
    [("socket".toList, .int p.socket), ("id".toList, .int v.id), ("name".toList, .text v.name),
      ("coin".toList, .int v.coin), ("backup_coin".toList, .int v.backupCoin), ("room".toList, .int p.room),
      ("seat".toList, .int p.seat), ("hack".toList, .int (if p.hack then 1 else 0)),
      ("in_time".toList, .int p.inTime), ("op_time".toList, .int v.opTime), ("time".toList, .int now)]
  | .setSetting errors successes =>
    [("op".toList, .text "set setting".toList), ("error".toList, .int errors), ("success".toList, .int successes)]

def Formatted.hand : Formatted → Hand
  | .hitFish .. => ⟨none, 0⟩
  | _ => ⟨some '\'', 1⟩

-- the entries of the list of `viewOnline` end in a comma
def Formatted.tail : Formatted → CStr
  | .viewOnline .. => [',']
  | _ => []

def Formatted.object (f : Formatted) : CStr := '{' :: replyText f.hand 0 f.fields ['}']

theorem escape_single {s : CStr} (hq : '\'' ∉ s) (hb : '\\' ∉ s) : escape '\'' s = s := by
  induction s with
  | nil => rfl
  | cons c s ih =>
    rw [List.mem_cons, not_or] at hq hb
    rw [escape, if_neg, ih hq.2 hb.2]
    rintro (rfl | rfl)
    · exact hq.1 rfl
    · exact hb.1 rfl

theorem ReplyValue.Clean.leaf {v : ReplyValue} (h : v.Clean) :
    ∃ leaf : Leaf, leaf.value = v.value ∧ leaf.closes ∧ ∀ rest, leaf.text ++ rest = v.print rest := by
  cases v with
  | int n =>
    refine ⟨numberLeaf n, numberLeaf_value n, trivial, ?_⟩
    intro rest
    rw [numberLeaf_text]
    rfl
  | float s =>
    obtain ⟨neg, digits, hne, hdigit, rfl⟩ := h
    exact ⟨.num neg digits hne hdigit, rfl, trivial, fun rest => rfl⟩
  | text s =>
    obtain ⟨hne, hquote, hback⟩ := h
    refine ⟨.str '\'' s rfl hne, rfl, ?_, ?_⟩
    · intro hlast
      exact hback (List.mem_of_getLast? hlast)
    · intro rest
      simp [Leaf.text, escape_single hquote hback, ReplyValue.print]

end FishServer
