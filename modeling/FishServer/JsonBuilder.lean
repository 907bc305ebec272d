import FishServer.JsonParse
import FishServer.Lib.Heap
import FishServer.Lib.Printf
import FishServer.Lib.Transition

namespace FishServer

open BlockHeap Transition

/-! The nodes that a text is built from. A null child of a node or a list is none. -/

inductive NodeValue
  | string (s : CStr)
  | inter (n : ℤ)
  | node (child : Option ℕ)
  | list (child : Option ℕ)
deriving DecidableEq

structure JsonNode where
  key : CStr
  keyAddlen : ℕ
  value : NodeValue
  valueAddlen : ℕ
  next : Option ℕ
deriving DecidableEq

def NodeValue.num : NodeValue → ℕ
  | .string _ => 6
  | .inter _ => 4
  | .node _ => 4
  | .list _ => 2

def JsonNode.setNext (p : ℕ) (f : JsonNode) : JsonNode := { f with next := some p }

def JsonNode.setChild (p : ℕ) (f : JsonNode) : JsonNode := { f with value := .list (some p) }

def JsonNode.isList (f : JsonNode) : Bool :=
  match f.value with
  | .list _ => true
  | _ => false

def JsonNode.child (f : JsonNode) : Option ℕ :=
  match f.value with
  | .node c => c
  | .list c => c
  | _ => none

/-- The part of a `Json` object that builds. `addcurr` is what the constructor left there until a node is
added. -/
structure Builder where
  heap : Heap JsonNode
  addlen : ℕ
  addhead : Option ℕ
  addcurr : Option ℕ

def Builder.new (h : Heap JsonNode) : Builder := ⟨h, 0, none, none⟩

def Builder.count (b : Builder) (n : ℕ) : Builder := { b with addlen := (b.addlen + n) % 2 ^ 32 }

def Builder.alloc (b : Builder) (f : JsonNode) : Builder := { b with heap := b.heap.malloc f }

def Builder.append (b : Builder) (p : ℕ) : Option Builder :=
  if b.addhead = none then some { b with addhead := some p, addcurr := some p }
  else b.addcurr.map (fun q => { b with heap := b.heap.modify (JsonNode.setNext p) q, addcurr := some p })

/-- `_add`. None is a pointer to no node. -/
def Builder.add (b : Builder) (p num : ℕ) : Option Builder := do
  let b ← b.append p
  let f ← b.heap.block p
  some (((b.count f.keyAddlen).count f.valueAddlen).count num)

def Builder.createList (b : Builder) (_add : Bool) : Builder := b.alloc ⟨[], 0, .list none, 0, none⟩

def Builder.pushString (b : Builder) (key value : CStr) (add : Bool) : Option Builder :=
  let b' := b.alloc ⟨key, key.length % 2 ^ 32, .string value, value.length % 2 ^ 32, none⟩
  if add then b'.add b.heap.fresh 6 else some b'

def Builder.pushInter (b : Builder) (key : CStr) (value : ℤ) (add : Bool) : Option Builder :=
  let b' := b.alloc ⟨key, key.length % 2 ^ 32, .inter value, (Printf.decimal value).length, none⟩
  if add then b'.add b.heap.fresh 4 else some b'

def Builder.addOrCount (b : Builder) (p num : ℕ) (add : Bool) : Option Builder :=
  if add then b.add p num else some (b.count num)

def Builder.pushNode (b : Builder) (key : CStr) (node : ℕ) (add : Bool) : Option Builder := do
  let f ← b.heap.block node
  let b' := b.alloc ⟨key, key.length % 2 ^ 32, .node (some node), f.valueAddlen, none⟩
  let b' ← b'.addOrCount b.heap.fresh f.value.num add
  some ((b'.count f.keyAddlen).count 5)

def lastOf (h : Heap JsonNode) : ℕ → ℕ → Option ℕ
  | 0, _ => none
  | n + 1, p => do
    let f ← h.block p
    match f.next with
    | none => some p
    | some q => lastOf h n q

-- where `ptr` ends up: the child of a list, or a `next`
def Builder.hang (b : Builder) (parent child : ℕ) : Option Builder := do
  let f ← b.heap.block parent
  match f.value with
  | .list none => some { b with heap := b.heap.modify (JsonNode.setChild child) parent }
  | .list (some q) =>
    (lastOf b.heap b.heap.fresh q).map
      (fun last => { b with heap := b.heap.modify (JsonNode.setNext child) last })
  | _ =>
    (lastOf b.heap b.heap.fresh parent).map
      (fun last => { b with heap := b.heap.modify (JsonNode.setNext child) last })

def Builder.pushChild (b : Builder) (parent child : ℕ) : Option Builder := do
  let b ← b.hang parent child
  let f ← b.heap.block child
  some (((b.count f.keyAddlen).count f.valueAddlen).count f.value.num)

def Builder.pushTop (b : Builder) (node : ℕ) : Option Builder := do
  let f ← b.heap.block node
  b.add node f.value.num

/-! The text that `toJson` writes, byte by byte. A byte that was not written is none. -/

abbrev Buf := ℕ → Option Char

def Buf.put (buf : Buf) (i : ℕ) (c : Char) : Buf := Function.update buf i (some c)

def Buf.copy (buf : Buf) (i : ℕ) (s : CStr) : Buf :=
  fun j => if i ≤ j ∧ j < i + s.length then s[j - i]? else buf j

def JsonNode.putKey (f : JsonNode) (buf : Buf) (str : ℕ) : Buf × ℕ :=
  if 0 < f.keyAddlen then
    let buf := (buf.put str '"').copy (str + 1) (f.key.take f.keyAddlen)
    let str := str + 1 + f.keyAddlen
    ((buf.put str '"').put (str + 1) ':', str + 2)
  else (buf, str)

/-- A walk of `_toJson`: from the position `str` on it writes the siblings that start at a node. -/
abbrev Writer := Buf → ℕ → Option ℕ → Option (Buf × ℕ)

def isListAt (h : Heap JsonNode) (p : Option ℕ) : Bool := (p.bind h.block).any JsonNode.isList

def JsonNode.putValue (h : Heap JsonNode) (write : Writer) (f : JsonNode) (buf : Buf) (str : ℕ) :
    Option (Buf × ℕ) :=
  match f.value with
  | .string s =>
    let buf := (buf.put str '"').copy (str + 1) (s.take f.valueAddlen)
    let str := str + 1 + f.valueAddlen
    some (buf.put str '"', str)
  | .inter n =>
    some (buf.copy str ((Printf.decimal n).take f.valueAddlen), str + f.valueAddlen - 1)
  | .node none => (write buf str none).map (fun r => (r.1, r.2 - 1))
  | .node (some c) =>
    if isListAt h (some c) then (write buf (str - 1) (some c)).map (fun r => (r.1, r.2 - 1))
    else (write (buf.put str '{') str (some c)).map (fun r => (r.1.put (r.2 - 1 + 1) '}', r.2 - 1 + 1))
  | .list none => some (buf, str)
  | .list (some c) =>
    (write ((buf.put str '[').put (str + 1) '{') (str + 1) (some c)).map
      (fun r => ((r.1.put r.2 '}').put (r.2 + 1) ']', r.2 + 1))

/-- None is a pointer to no node, or a bound `n` that is too small. -/
def toJsonFrom (h : Heap JsonNode) : ℕ → Writer
  | 0, _, _, _ => none
  | _ + 1, buf, str, none => some (buf, str)
  | n + 1, buf, str, some p => do
    let f ← h.block p
    let (buf, str) := f.putKey buf (str + 1)
    let (buf, str) ← f.putValue h (toJsonFrom h n) buf str
    toJsonFrom h n (if f.next.isSome then buf.put (str + 1) ',' else buf) (str + 1) f.next

structure JsonText where
  len : ℕ
  buf : Buf

def Builder.toJson (b : Builder) : Option JsonText := do
  let len := (b.addlen + 2) % 2 ^ 32
  let (buf, str) ← toJsonFrom b.heap (b.heap.fresh + 1) (Buf.put (fun _ => none) 0 '{') 0 b.addhead
  some ⟨len, (buf.put str '}').put (str + 1) '\x00'⟩

inductive BuilderOp
  | createList (add : Bool)
  | pushString (key value : CStr) (add : Bool)
  | pushInter (key : CStr) (value : ℤ) (add : Bool)
  | pushNode (key : CStr) (node : ℕ) (add : Bool)
  | pushChild (parent child : ℕ)
  | pushTop (node : ℕ)

inductive Place
  | value
  | direct
deriving DecidableEq

/-- A builder, where each node was placed (as the value of a key, or in a chain of siblings), and which nodes
were made without being added. No call reads the record. -/
structure Placed where
  builder : Builder
  place : ℕ → Option Place
  loose : ℕ → Bool

def Placed.new : Placed := ⟨Builder.new Heap.empty, fun _ => none, fun _ => false⟩

def Placed.put (t : Placed) (p : ℕ) (place : Place) : Placed :=
  { t with place := Function.update t.place p (some place) }

def Placed.make (t : Placed) (add : Bool) (b : Builder) : Placed :=
  let p := t.builder.heap.fresh
  let t' : Placed := { t with builder := b, loose := Function.update t.loose p (!add) }
  if add then t'.put p .direct else t'

def Placed.step (t : Placed) : BuilderOp → Option Placed
  | .createList add => some (t.make false (t.builder.createList add))
  | .pushString key value add => (t.builder.pushString key value add).map (t.make add)
  | .pushInter key value add => (t.builder.pushInter key value add).map (t.make add)
  | .pushNode key node add => (t.builder.pushNode key node add).map (fun b => (t.make add b).put node .value)
  | .pushChild parent child =>
    (t.builder.pushChild parent child).map (fun b => { t with builder := b }.put child .direct)
  | .pushTop node => (t.builder.pushTop node).map (fun b => { t with builder := b }.put node .direct)

def Placed.once (t : Placed) : BuilderOp → Prop
  | .pushNode _ node _ => t.place node = none
  | .pushChild _ child => t.place child = none
  | .pushTop node => t.place node = none
  | _ => True

instance (t : Placed) (op : BuilderOp) : Decidable (t.once op) :=
  match op with
  | .createList _ | .pushString _ _ _ | .pushInter _ _ _ => inferInstanceAs (Decidable True)
  | .pushNode _ node _ => inferInstanceAs (Decidable (t.place node = none))
  | .pushChild _ child => inferInstanceAs (Decidable (t.place child = none))
  | .pushTop node => inferInstanceAs (Decidable (t.place node = none))

def Placed.run (ops : List BuilderOp) : Option Placed :=
  runIf Placed.step (fun t op => decide (t.once op)) Placed.new ops

def topList : List BuilderOp :=
  [.createList false, .pushString "a".toList "b".toList false, .pushChild 0 1, .pushTop 0]

theorem Placed.reach_run {ops : List BuilderOp} {t : Placed} (h : Placed.run ops = some t) :
    Reach Placed.step Placed.once Placed.new t :=
  Reach.mono (.of_runIf h) (fun _ _ => of_decide_eq_true)

end FishServer
