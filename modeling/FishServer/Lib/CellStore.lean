import FishServer.Lib.Transition

namespace CellStore

variable {β ν : Type*}

def read (m : ℤ → β) (p : ℤ) (n : ℕ) : List β := (List.range n).map (fun k : ℕ => m (p + k))

def write (m : ℤ → β) (p : ℤ) (v : List β) : ℤ → β :=
  fun a => if p ≤ a then v[(a - p).toNat]?.getD (m a) else m a

def overwrite (old : List β) (off : ℕ) (v : List β) : List β :=
  old.take off ++ v ++ old.drop (off + v.length)

abbrev Store (ν β : Type*) := ν → Option (List β)

inductive Op (ν β : Type*)
  | take (p : ν) (v : List β)
  | drop (p : ν)
  | put (p : ν) (off : ℕ) (v : List β)

variable [DecidableEq ν]

def step (s : Store ν β) : Op ν β → Option (Store ν β)
  | .take p v => if (s p).isNone then some (Function.update s p (some v)) else none
  | .drop p => if (s p).isSome then some (Function.update s p none) else none
  | .put p off v => (s p).bind (fun old =>
      if off + v.length ≤ old.length then some (Function.update s p (some (overwrite old off v))) else none)

def Op.Spares (p : ν) : Op ν β → Prop
  | .take _ _ => True
  | .drop q => q ≠ p
  | .put q _ _ => q ≠ p

end CellStore
