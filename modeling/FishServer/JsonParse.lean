import Mathlib

namespace FishServer

abbrev CStr := List Char

inductive JsonValue
  | null
  | node (key : CStr) (value : Option CStr) (child next : JsonValue)
deriving DecidableEq

/-- `copy_str` of a non-empty piece. A final backslash leaves one byte of the new block as it was;
`old` is that byte, none standing for NUL. -/
def copyStr (old : Option Char) : CStr → CStr
  | [] => []
  | [c] => if c = '\\' then old.toList else [c]
  | c :: c' :: s => if c = '\\' then c' :: copyStr old s else c :: copyStr old (c' :: s)

def skipBlanks (m : CStr) : CStr := m.dropWhile (fun c => decide (c = ' '))

inductive KeyScan
  | error (m : CStr)
  | found (key m : CStr)

/-- The blanks and the colon after a key; `found` leaves the cursor at the colon. -/
def colonAfter (key m : CStr) : KeyScan :=
  match skipBlanks m with
  | ':' :: r => .found key (':' :: r)
  | m => .error m

def keyScan (sign : Option Char) : CStr → CStr → KeyScan
  | _, [] => .error []
  | key, c :: r =>
    if sign = some c then colonAfter key r
    else if sign = none ∧ c = ':' then .found key (c :: r)
    else if c = ' ' then (if sign = none then colonAfter key (c :: r) else .error (c :: r))
    else keyScan sign (key ++ [c]) r

def isQuote (c : Char) : Bool := c = '\'' || c = '"'

def quoteSign (m : CStr) : Option Char × CStr :=
  match m with
  | c :: r => if isQuote c then (some c, r) else (none, c :: r)
  | [] => (none, [])

def readKey (m : CStr) : KeyScan :=
  let (sign, start) := quoteSign (skipBlanks m)
  match keyScan sign [] start with
  | .found [] m => .error m
  | k => k

inductive ValueScan
  | error (m : CStr)
  | done (value : Option CStr) (m : CStr)

def separatorAfter (value m : CStr) : ValueScan :=
  match skipBlanks m with
  | [] => .error []
  | c :: r => if c = ',' ∨ c = '}' then .done (some value) (c :: r) else .error (c :: r)

def numberScan : CStr → CStr → ValueScan
  | _, [] => .done none []
  | value, c :: r =>
    if c.isDigit then numberScan (value ++ [c]) r
    else if c = ' ' then separatorAfter value (c :: r)
    else if c = ',' ∨ c = '}' then .done (some value) (c :: r)
    else if c = '.' then numberScan (value ++ [c]) r
    else .error (c :: r)

/-- `prev` is `*(m - 1)`. -/
def stringScan (sign : Char) : Char → CStr → CStr → ValueScan
  | _, _, [] => .done none []
  | prev, value, c :: r =>
    if c = sign ∧ prev ≠ '\\' then separatorAfter value r
    else stringScan sign c (value ++ [c]) r

def readValue (m : CStr) : ValueScan :=
  match quoteSign m with
  | (some sign, start) => stringScan sign sign [] start
  | (none, '-' :: r) => numberScan ['-'] r
  | (none, m) => numberScan [] m

def valueCopy (old : Option Char) : Option CStr → Option CStr
  | none => none
  | some [] => none
  | some (c :: s) => some (copyStr old (c :: s))

/-- The cursor after a call: the text that is left, or past the terminating NUL. -/
abbrev Cursor := Option CStr

def Cursor.next : Cursor → Cursor
  | some (_ :: r) => some r
  | _ => none

inductive Parse
  | overRead
  | done (tree : JsonValue) (cursor : Cursor)
deriving DecidableEq

def Parse.link (key : CStr) (value : Option CStr) (child : JsonValue) : Parse → Parse
  | .overRead => .overRead
  | .done tree m => .done (.node key value child tree) m

def atClose (isChild : Bool) (m : CStr) : Bool := isChild && decide (m.head? = some '}')

def afterValue (isChild : Bool) (key : CStr) (value : Option CStr) (child : JsonValue) (m : CStr)
    (rest : Option Parse) : Option Parse :=
  if atClose isChild m then some (.done (.node key value child .null) (some m))
  else rest.map (Parse.link key value child)

def parseValue (heap : ℕ → Option Char) (loop : Bool → CStr → Option Parse) (isChild : Bool)
    (key m : CStr) : Option Parse :=
  if m.head? = some '{' then
    match loop true m with
    | none => none
    | some .overRead => some .overRead
    | some (.done child cursor) =>
      match cursor.next with
      | none => some .overRead
      | some m => afterValue isChild key none child m (loop isChild m)
  else
    match readValue m with
    | .error m => some (.done (.node key none .null .null) (some m))
    | .done value m =>
      afterValue isChild key (valueCopy (heap m.length) value) .null m (loop isChild m)

/-- The outer loop of `parseString` from its test on. `heap` gives the old contents of the blocks that
`copy_str` gets, `n` bounds the rounds and the depth; none is for a bound that is too small. -/
def parseLoop (heap : ℕ → Option Char) : ℕ → Bool → CStr → Option Parse
  | 0, _, _ => none
  | _ + 1, _, [] => some (.done .null none)
  | n + 1, isChild, _ :: m =>
    if atClose isChild m then some (.done .null (some m))
    else
      match readKey m with
      | .error m => some (.done .null (some m))
      | .found key m =>
        parseValue heap (parseLoop heap n) isChild (copyStr (heap m.length) key) (skipBlanks m.tail)

def parseString (heap : ℕ → Option Char) (text : CStr) : Option Parse :=
  parseLoop heap (text.length + 1) false text

end FishServer
