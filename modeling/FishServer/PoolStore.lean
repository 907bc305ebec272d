import FishServer.PoolScan
import FishServer.Lib.CellStore

namespace FishServer

open Bitmap Transition

inductive Access
  | pool (op : PoolOp)
  | write (ptr : ℤ) (off : ℕ) (v : List (BitVec 8))
  | elsewhere (a : ℤ) (v : BitVec 8)

def Block.span (b : Block) : Set ℤ := Set.Ico b.ptr (b.ptr + b.size)

def holds (s : PoolState) (ptr : ℤ) : Option Block := s.live.find? (fun b => decide (b.ptr = ptr))

/-- What `new char[size]` gives: bytes outside the pool and outside every other block it gave. -/
def SystemFresh (s : PoolState) : PoolOp → Prop
  | .alloc size sysPtr => poolClass s.mem size = none →
      (∀ a ∈ Set.Ico sysPtr (sysPtr + size), ¬ InPool s.mem a) ∧
      ∀ b ∈ s.live, b.pool = false → Disjoint (Set.Ico sysPtr (sysPtr + size)) b.span
  | .free _ => True

structure SpanInv (s : PoolState) : Prop extends PoolInv s where
  sizes : ∀ b ∈ s.live, 1 ≤ b.size
  outside : ∀ b ∈ s.live, b.pool = false → ∀ a ∈ b.span, ¬ InPool s.mem a
  apart : s.live.Pairwise (fun a b => a.pool = false → b.pool = false → Disjoint a.span b.span)

theorem memoryFree_samePool (s : Memory) (ptr : ℤ) : SamePool s (memoryFree s ptr) := by
  unfold memoryFree
  simp only
  split_ifs
  · split
    · exact ⟨rfl, rfl, rfl, rfl, rfl, rfl⟩
    · exact ⟨rfl, rfl, rfl, rfl, rfl, rfl⟩
  · exact ⟨rfl, rfl, rfl, rfl, rfl, rfl⟩

theorem poolStep_samePool {s t : PoolState} {op : PoolOp} (h : poolStep s op = some t) : SamePool s.mem t.mem := by
  cases op with
  | alloc size sysPtr =>
    obtain ⟨-, ⟨-, -, hsame, -, -⟩ | ⟨i, k, -, -, -, -, hmem⟩⟩ := poolStep_alloc h
    · exact hsame
    · exact hmem ▸ takeBlock_samePool s.mem i k
  | free ptr =>
    obtain ⟨-, rfl⟩ := poolStep_free h
    exact memoryFree_samePool s.mem ptr

theorem poolStep_alloc_live {s t : PoolState} {size sysPtr : ℤ} (h : poolStep s (.alloc size sysPtr) = some t) :
    ∃ ptr, t.live = ⟨ptr, size, (poolClass s.mem size).isSome⟩ :: s.live ∧
      (poolClass s.mem size = none → ptr = sysPtr) := by
  obtain ⟨hsize, -⟩ := poolStep_alloc h
  cases hi : poolClass s.mem size with
  | none =>
    obtain ⟨mem, halloc, -⟩ := memoryAlloc_system sysPtr hsize hi
    simp only [poolStep, halloc, hi] at h
    cases h
    exact ⟨sysPtr, rfl, fun _ => rfl⟩
  | some i =>
    obtain ⟨k, -, -, halloc⟩ := memoryAlloc_served sysPtr hsize hi
    simp only [poolStep, halloc, hi] at h
    cases h
    exact ⟨_, rfl, fun hnone => by cases hnone⟩

theorem SpanInv.step {s t : PoolState} {op : PoolOp} (h : SpanInv s) (ha : PoolAssumed s op)
    (hf : CursorFits s op) (hsys : SystemFresh s op) (ht : poolStep s op = some t) : SpanInv t := by
  have hinv := poolStep_inv h.toPoolInv ha hf ht
  have hsame := poolStep_samePool ht
  have hkept : ∀ b ∈ s.live, b.pool = false → ∀ a ∈ b.span, ¬ InPool t.mem a := by
    intro b hb hp a hspan hin
    exact h.outside b hb hp a hspan ((hsame.inPool a).mp hin)
  cases op with
  | alloc size sysPtr =>
    obtain ⟨ptr, hlive, hptr⟩ := poolStep_alloc_live ht
    refine { hinv with sizes := ?_, outside := ?_, apart := ?_ }
    · rw [hlive]
      exact List.forall_mem_cons.mpr ⟨ha.1, h.sizes⟩
    · rw [hlive]
      refine List.forall_mem_cons.mpr ⟨?_, hkept⟩
      intro hp a hspan hin
      have hnone : poolClass s.mem size = none := by simpa using hp
      obtain rfl := hptr hnone
      exact (hsys hnone).1 a hspan ((hsame.inPool a).mp hin)
    · rw [hlive]
      refine List.pairwise_cons.mpr ⟨?_, h.apart⟩
      intro b hb hp hpb
      have hnone : poolClass s.mem size = none := by simpa using hp
      obtain rfl := hptr hnone
      exact (hsys hnone).2 b hb hpb
  | free ptr =>
    obtain ⟨-, rfl⟩ := poolStep_free ht
    refine { hinv with sizes := ?_, outside := ?_, apart := ?_ }
    · exact fun b hb => h.sizes b (mem_of_eraseP hb)
    · exact fun b hb => hkept b (mem_of_eraseP hb)
    · exact h.apart.sublist List.eraseP_sublist

def Access.Spares (ptr : ℤ) : Access → Prop
  | .pool (.alloc _ _) => True
  | .pool (.free p) => p ≠ ptr
  | .write p _ _ => p ≠ ptr
  | .elsewhere _ _ => True

instance (ptr : ℤ) (op : Access) : Decidable (op.Spares ptr) :=
  match op with
  | .pool (.alloc _ _) => inferInstanceAs (Decidable True)
  | .pool (.free p) => inferInstanceAs (Decidable (p ≠ ptr))
  | .write p _ _ => inferInstanceAs (Decidable (p ≠ ptr))
  | .elsewhere _ _ => inferInstanceAs (Decidable True)

end FishServer
