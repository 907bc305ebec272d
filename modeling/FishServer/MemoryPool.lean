import FishServer.Basic
import FishServer.Lib.Bitmap

namespace FishServer

open Bitmap

def blockSize : Fin 3 → ℤ := ![50, 200, 1000]

def blockRatio : Fin 3 → ℤ := ![1, 2, 3]

/-- Rows 2 to 7 of `_memory_con_`; rows 0 and 1 are `blockSize` and `blockRatio`. -/
structure MemoryCon where
  addrStart : Fin 3 → ℤ
  addrEnd : Fin 3 → ℤ
  bitStart : Fin 3 → ℤ
  bitEnd : Fin 3 → ℤ
  bitIndex : Fin 3 → ℤ
  bitUse : Fin 3 → ℤ

def MemoryCon.zero : MemoryCon := ⟨0, 0, 0, 0, 0, 0⟩

/-- `m_var`, with the bytes at and around `use_ptr`. -/
structure MemoryVar where
  firstPtr : ℤ
  endPtr : ℤ
  usePtr : Bytes
  use : ℤ
  total : ℤ
  systemUse : ℤ
  mallocCount : ℤ
  freeCount : ℤ

structure Memory where
  con : MemoryCon
  var : MemoryVar

structure InitLoop where
  con : MemoryCon
  size : ℤ
  bitSize : ℤ
  bitEnd : ℤ

def regionSize (byte sumRatio : ℤ) (i : Fin 3) : ℤ :=
  let m := u32 (byte * blockRatio i) / sumRatio
  let mod := m % blockSize i
  if mod ≠ 0 then u32 (m + (blockSize i - mod)) else m

def initClass (byte sumRatio : ℤ) (l : InitLoop) (i : Fin 3) : InitLoop :=
  let m := regionSize byte sumRatio i
  let bit := m / blockSize i
  let stop := u32 (l.bitEnd + bit)
  { con := { l.con with
      addrStart := Function.update l.con.addrStart i (i32 l.size)
      addrEnd := Function.update l.con.addrEnd i (i32 (m + l.size))
      bitStart := Function.update l.con.bitStart i (i32 l.bitEnd)
      bitEnd := Function.update l.con.bitEnd i (i32 stop) }
    size := u32 (l.size + m)
    bitSize := u32 (l.bitSize + bit)
    bitEnd := stop }

def classes : List (Fin 3) := [0, 1, 2]

/-- `outside` is what the process memory around the bitmap holds. -/
def memoryInit (byte firstPtr : ℤ) (outside : Bytes) : Memory :=
  let oneM := (classes.map blockSize).sum
  let sumRatio := (classes.map blockRatio).sum
  let byte := if byte < oneM then oneM else byte
  let l := classes.foldl (initClass byte sumRatio) ⟨.zero, 0, 0, 0⟩
  let bitM := if l.bitSize % 8 ≠ 0 then l.bitSize / 8 + 1 else l.bitSize / 8
  { con := { l.con with
      addrStart := fun i => i32 (l.con.addrStart i + firstPtr)
      addrEnd := fun i => i32 (l.con.addrEnd i + firstPtr) }
    var :=
      { firstPtr
        endPtr := u32 (firstPtr + l.size - 1)
        usePtr := fun k => if 0 ≤ k ∧ k < bitM then 0#8 else outside k
        use := 0
        total := l.size
        systemUse := 0
        mallocCount := 0
        freeCount := 0 } }

def classOf (size : ℤ) : Option (Fin 3) := classes.find? (fun i => decide (size ≤ blockSize i))

def bitPos (con : MemoryCon) (i : Fin 3) : ℤ :=
  let pos := i32 (con.bitIndex i + con.bitStart i)
  if pos ≥ con.bitEnd i then con.bitStart i else pos

/-- The bit that the search finds and sets; the second scan stops before the first bit of the class. -/
def foundBit (s : Memory) (i : Fin 3) : Option ℤ :=
  let pos := bitPos s.con i
  match scanUp s.var.usePtr pos (s.con.bitEnd i - pos).toNat with
  | some k => some k
  | none => scanDown s.var.usePtr pos (pos - s.con.bitStart i).toNat

-- `free_index`, which starts as -1: a bit with that number counts as none, though it has been set
def freeIndex (s : Memory) (i : Fin 3) : Option ℤ := (foundBit s i).filter (fun k => decide (k ≠ -1))

def setFound (s : Memory) (i : Fin 3) : Memory :=
  { s with var := { s.var with usePtr := (foundBit s i).elim s.var.usePtr (setBit s.var.usePtr) } }

def countAlloc (s : Memory) : Memory :=
  { s with var := { s.var with mallocCount := s.var.mallocCount + 1 } }

def countClass (s : Memory) (i : Fin 3) : Memory :=
  { con := { s.con with bitUse := Function.update s.con.bitUse i (i32 (s.con.bitUse i + 1)) }
    var := { s.var with use := u32 (s.var.use + blockSize i) } }

def takeBlock (s : Memory) (i : Fin 3) (k : ℤ) : Memory :=
  { con := { s.con with bitIndex := Function.update s.con.bitIndex i (i32 (s.con.bitIndex i + 1)) }
    var := { s.var with usePtr := setBit s.var.usePtr k } }

def blockPtr (con : MemoryCon) (i : Fin 3) (k : ℤ) : ℤ :=
  u32 (con.addrStart i + u32 ((k - con.bitStart i) * blockSize i))

/-- `sysPtr` is what `new char[size]` would return; `none` is the null pointer. -/
def memoryAlloc (s : Memory) (size sysPtr : ℤ) : Memory × Option ℤ :=
  if size < 1 then (s, none)
  else
    let s := countAlloc s
    match classOf size with
    | none => ({ s with var := { s.var with systemUse := s.var.systemUse + size } }, some sysPtr)
    | some i =>
      let s := countClass s i
      match freeIndex s i with
      | none => (setFound s i, some sysPtr)
      | some k => (takeBlock s i k, some (blockPtr s.con i k))

def releaseBlock (s : Memory) (i : Fin 3) (p : ℤ) : Memory :=
  let start := (p - s.con.addrStart i) / blockSize i
  { con := { s.con with bitUse := Function.update s.con.bitUse i (i32 (s.con.bitUse i - 1)) }
    var := { s.var with
      use := u32 (s.var.use - blockSize i)
      usePtr := clearBit s.var.usePtr (start + s.con.bitStart i) } }

/-- The class whose address range holds `p`; none prints an error, outside the pool is `delete[]`. -/
def memoryFree (s : Memory) (ptr : ℤ) : Memory :=
  let s := { s with var := { s.var with freeCount := s.var.freeCount + 1 } }
  if s.var.firstPtr ≤ ptr ∧ ptr ≤ s.var.endPtr then
    let p := i32 ptr
    match classes.find? (fun i => decide (s.con.addrStart i ≤ p ∧ p < s.con.addrEnd i)) with
    | some i => releaseBlock s i p
    | none => s
  else s

end FishServer
