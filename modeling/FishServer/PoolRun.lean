import FishServer.PoolLayout
import FishServer.Lib.Transition

namespace FishServer

open Bitmap

/-- A block in use; `pool` tells whether a bitmap bit was taken for it. -/
structure Block where
  ptr : ℤ
  size : ℤ
  pool : Bool

structure PoolState where
  mem : Memory
  live : List Block
  served : Fin 3 → ℕ

inductive PoolOp
  | alloc (size sysPtr : ℤ)
  | free (ptr : ℤ)

def poolClass (s : Memory) (size : ℤ) : Option (Fin 3) :=
  (classOf size).filter (fun i => (freeIndex s i).isSome)

def poolStep (s : PoolState) : PoolOp → Option PoolState
  | .alloc size sysPtr =>
    match memoryAlloc s.mem size sysPtr with
    | (_, none) => none
    | (mem, some ptr) => some
        { mem
          live := ⟨ptr, size, (poolClass s.mem size).isSome⟩ :: s.live
          served := fun i => if poolClass s.mem size = some i then s.served i + 1 else s.served i }
  | .free ptr =>
    if s.live.any (fun b => decide (b.ptr = ptr)) then some
      { s with
        mem := memoryFree s.mem ptr
        live := s.live.eraseP (fun b => decide (b.ptr = ptr)) }
    else none

def poolStart (byte firstPtr : ℤ) (outside : Bytes) : PoolState :=
  { mem := memoryInit byte firstPtr outside, live := [], served := fun _ => 0 }

def quiet : Bytes := fun _ => 0#8

def smallPool : PoolState := poolStart 1250 65536 quiet

def InPool (s : Memory) (ptr : ℤ) : Prop := s.var.firstPtr ≤ ptr ∧ ptr ≤ s.var.endPtr

/-- What callers and the system promise: sizes of at least one byte, system memory outside the pool,
and fewer than `2 ^ 31` blocks ever taken from a class. -/
def PoolAssumed (s : PoolState) : PoolOp → Prop
  | .alloc size sysPtr => 1 ≤ size ∧ ¬ InPool s.mem sysPtr ∧
      ∀ i, poolClass s.mem size = some i → s.served i + 1 < 2 ^ 31
  | .free _ => True

/-- The sum of rows 6 and 4 that starts the search stays an `int`. -/
def CursorFits (s : PoolState) : PoolOp → Prop
  | .alloc size _ => ∀ i, classOf size = some i →
      s.mem.con.bitIndex i + s.mem.con.bitStart i < 2 ^ 31
  | .free _ => True

instance (s : PoolState) (op : PoolOp) : Decidable (PoolAssumed s op) :=
  match op with
  | .alloc size sysPtr => inferInstanceAs (Decidable (1 ≤ size ∧
      ¬ (s.mem.var.firstPtr ≤ sysPtr ∧ sysPtr ≤ s.mem.var.endPtr) ∧
        ∀ i, poolClass s.mem size = some i → s.served i + 1 < 2 ^ 31))
  | .free _ => inferInstanceAs (Decidable True)

instance (s : PoolState) (op : PoolOp) : Decidable (CursorFits s op) :=
  match op with
  | .alloc size _ => inferInstanceAs (Decidable (∀ i, classOf size = some i →
      s.mem.con.bitIndex i + s.mem.con.bitStart i < 2 ^ 31))
  | .free _ => inferInstanceAs (Decidable True)

-- the second class taken whole, a block of the system, and one block of the class given back
def smallRun : List PoolOp := [.alloc 51 7, .alloc 150 7, .alloc 200 7, .alloc 4000 7, .free 65986]

def InClass (con : MemoryCon) (i : Fin 3) (k : ℤ) : Prop := con.bitStart i ≤ k ∧ k < con.bitEnd i

def addrOf (con : MemoryCon) (i : Fin 3) (k : ℤ) : ℤ :=
  con.addrStart i + (k - con.bitStart i) * blockSize i

def Block.range (b : Block) : Set ℤ :=
  match classOf b.size with
  | some i => Set.Ico b.ptr (b.ptr + blockSize i)
  | none => Set.Ico b.ptr (b.ptr + b.size)

structure PoolSafe (s : PoolState) : Prop where
  disjoint : s.live.Pairwise (fun a b => a.pool = true → b.pool = true → Disjoint a.range b.range)
  inside : ∀ b ∈ s.live, b.pool = true → ∃ i, classOf b.size = some i ∧
    s.mem.con.addrStart i ≤ b.ptr ∧ b.ptr + blockSize i ≤ s.mem.con.addrEnd i
  bits : ∀ i k, InClass s.mem.con i k →
    (bitAt s.mem.var.usePtr k = true ↔
      ∃ b ∈ s.live, b.pool = true ∧ classOf b.size = some i ∧ b.ptr = addrOf s.mem.con i k)

end FishServer
