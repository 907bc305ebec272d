import FishServer.JsonTokens
import FishServer.Lib.Heap

namespace FishServer

open BlockHeap

structure ValueFields where
  key : Option ℕ
  value : Option ℕ
  child : Option ℕ
  next : Option ℕ
deriving DecidableEq

inductive JsonBlock
  | fields (f : ValueFields)
  | text (s : CStr)
deriving DecidableEq

def JsonBlock.update (g : ValueFields → ValueFields) : JsonBlock → JsonBlock
  | .fields f => .fields (g f)
  | .text s => .text s

def setKey (k : ℕ) (f : ValueFields) : ValueFields := { f with key := some k }

def setValue (v : ℕ) (f : ValueFields) : ValueFields := { f with value := some v }

def setChild (p : ℕ) (f : ValueFields) : ValueFields := { f with child := some p }

def setNext (p : ℕ) (f : ValueFields) : ValueFields := { f with next := some p }

/-- A `Json` object and the memory that it works in. `phead` is none as long as nothing was stored to
`_phead`. -/
structure Json where
  heap : Heap JsonBlock
  phead : Option (Option ℕ)

-- the constructor sets `_addnum`, `_addlen` and `_addhead` only
def Json.new (h : Heap JsonBlock) : Json := ⟨h, none⟩

inductive Link
  | head
  | next (p : ℕ)
  | child (p : ℕ)

def Json.store (j : Json) (p : ℕ) : Link → Json
  | .head => { j with phead := some (some p) }
  | .next q => { j with heap := j.heap.modify (.update (setNext p)) q }
  | .child q => { j with heap := j.heap.modify (.update (setChild p)) q }

def Json.addKey (j : Json) (node : Link) (key : CStr) : Json :=
  let p := j.heap.fresh
  let h := j.heap.malloc (.fields ⟨none, none, none, none⟩)
  let k := h.fresh
  let h := h.malloc (.text key)
  { j with heap := h.modify (.update (setKey k)) p }.store p node

def Json.copyValue (j : Json) (p : ℕ) : Option CStr → Json
  | none => j
  | some s =>
    let v := j.heap.fresh
    { j with heap := (j.heap.malloc (.text s)).modify (.update (setValue v)) p }

/-- The memory from the cursor on, as texts that each end in a NUL. -/
abbrev Texts := List CStr

def Texts.next : Texts → Texts
  | [] => []
  | [] :: beyond => beyond
  | (_ :: m) :: beyond => m :: beyond

inductive HeapParse
  | fault
  | done (j : Json) (m : Texts)

/-- The outer loop of `parseString` from its test on: which call it is of, where the next `JsonValue` is
stored to, and the memory from the cursor on. -/
abbrev HeapLoop := Bool → Json → Link → CStr → Texts → Option HeapParse

def Json.afterValue (loop : HeapLoop) (isChild : Bool) (j : Json) (p : ℕ) (m : CStr) (beyond : Texts) :
    Option HeapParse :=
  if atClose isChild m then some (.done j (m :: beyond)) else loop isChild j (.next p) m beyond

def Json.parseValue (old : ℕ → Option Char) (loop : HeapLoop) (isChild : Bool) (j : Json) (p : ℕ)
    (m : CStr) (beyond : Texts) : Option HeapParse :=
  if m.head? = some '{' then
    match loop true j (.child p) m beyond with
    | none => none
    | some .fault => some .fault
    | some (.done j mem) =>
      match mem.next with
      | [] => some .fault
      | m :: beyond => j.afterValue loop isChild p m beyond
  else
    match readValue m with
    | .error m => some (.done j (m :: beyond))
    | .done value m =>
      (j.copyValue p (valueCopy (old (m :: beyond).flatten.length) value)).afterValue loop isChild p m beyond

def Json.parseLoop (old : ℕ → Option Char) : ℕ → HeapLoop
  | 0, _, _, _, _, _ => none
  | _ + 1, _, j, _, [], beyond => some (.done j beyond)
  | n + 1, isChild, j, node, _ :: m, beyond =>
    if atClose isChild m then some (.done j (m :: beyond))
    else
      match readKey m with
      | .error m => some (.done j (m :: beyond))
      | .found key m =>
        (j.addKey node (copyStr (old (m :: beyond).flatten.length) key)).parseValue old
          (parseLoop old n) isChild j.heap.fresh (skipBlanks m.tail) beyond

def Texts.size (m : Texts) : ℕ := (m.map (fun s => s.length + 1)).sum

/-- `beyond` is what stands in memory behind the terminating NUL of `text`. -/
def Json.parseString (old : ℕ → Option Char) (j : Json) (text : CStr) (beyond : Texts) :
    Option HeapParse :=
  Json.parseLoop old (Texts.size (text :: beyond)) false j .head text beyond

def fieldsAt (h : Heap JsonBlock) (p : ℕ) : Option ValueFields :=
  match h.block p with
  | some (.fields f) => some f
  | _ => none

def textAt (h : Heap JsonBlock) (p : ℕ) : Option CStr :=
  match h.block p with
  | some (.text s) => some s
  | _ => none

/-- The walk of `getJsonValue`. None is a read through a pointer to no such block, or a bound `n` that is
too small. -/
def findKey (h : Heap JsonBlock) (key : CStr) : ℕ → Option ℕ → Option (Option ℕ)
  | 0, _ => none
  | _ + 1, none => some none
  | n + 1, some p => do
    let f ← fieldsAt h p
    let k ← f.key
    let s ← textAt h k
    if s = key then some (some p) else findKey h key n f.next

def Json.getJsonValue (j : Json) (key : CStr) : Option (Option ℕ) := do
  let head ← j.phead
  findKey j.heap key (j.heap.fresh + 1) head

def Json.value (j : Json) (key : CStr) : Option (Option ℕ) := do
  match ← j.getJsonValue key with
  | none => some none
  | some p => do
    let f ← fieldsAt j.heap p
    some f.value

def freeText (h : Heap JsonBlock) : Option ℕ → Option (Heap JsonBlock)
  | none => some h
  | some b => h.free b

/-- The loop of `clear`, which reads the fields again after each release. -/
def clearFrom : ℕ → Heap JsonBlock → Option ℕ → Option (Heap JsonBlock)
  | 0, _, _ => none
  | _ + 1, h, none => some h
  | n + 1, h, some p => do
    let f ← fieldsAt h p
    let h ← f.child.elim (some h) (fun c => clearFrom n h (some c))
    let f ← fieldsAt h p
    let h ← freeText h f.key
    let f ← fieldsAt h p
    let h ← freeText h f.value
    let f ← fieldsAt h p
    let h ← h.free p
    clearFrom n h f.next

def Json.clear (j : Json) : Option Json := do
  let head ← j.phead
  let h ← clearFrom (j.heap.fresh + 1) j.heap head
  some { j with heap := h }

end FishServer
