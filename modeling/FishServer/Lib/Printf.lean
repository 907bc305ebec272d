import Mathlib

namespace Printf

/-- A piece of a formatted text: literal text, the int of a `%d`, or the text that any other conversion
puts in. -/
inductive Piece
  | lit (s : String)
  | int (n : ℤ)
  | str (s : List Char)

def decimal (n : ℤ) : List Char :=
  if n < 0 then '-' :: Nat.toDigits 10 n.natAbs else Nat.toDigits 10 n.natAbs

def Piece.print : Piece → List Char
  | .lit s => s.toList
  | .int n => decimal n
  | .str s => s

def sprintf (pieces : List Piece) : List Char := pieces.flatMap Piece.print

def width (n : ℤ) : ℕ := (decimal n).length

def Piece.literal : Piece → ℕ
  | .lit s => s.length
  | _ => 0

def Piece.filled : Piece → ℕ
  | .lit _ => 0
  | .int n => width n
  | .str s => s.length

theorem Piece.print_length (piece : Piece) : piece.print.length = piece.literal + piece.filled := by
  cases piece with
  | lit s => exact String.length_toList
  | int n => exact (Nat.zero_add (width n)).symm
  | str s => exact (Nat.zero_add s.length).symm

theorem sprintf_length (pieces : List Piece) :
    (sprintf pieces).length = (pieces.map Piece.literal).sum + (pieces.map Piece.filled).sum := by
  induction pieces with
  | nil => rfl
  | cons piece pieces ih =>
    have hprint := piece.print_length
    simp only [sprintf, List.flatMap_cons, List.length_append, List.map_cons, List.sum_cons] at ih ⊢
    omega

theorem width_le {n : ℤ} {k : ℕ} (hk : 0 < k) (h : n.natAbs < 10 ^ k) : width n ≤ k + 1 := by
  have hdigits : (Nat.toDigits 10 n.natAbs).length ≤ k := (Nat.length_toDigits_le_iff (by norm_num) hk).mpr h
  unfold width decimal
  split_ifs
  · rw [List.length_cons]
    omega
  · omega

theorem width_int {n : ℤ} (hlo : -2 ^ 31 ≤ n) (hhi : n < 2 ^ 31) : width n ≤ 11 := by
  apply width_le (by norm_num)
  norm_num at *
  omega

end Printf
