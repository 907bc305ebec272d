import Mathlib

namespace Base64

abbrev Byte := BitVec 8

def alphabet : List Byte :=
  "ABCDEFGHIJKLMNOPQRSTUVWXYZabcdefghijklmnopqrstuvwxyz0123456789+/".toList.map
    (fun c => BitVec.ofNat 8 c.toNat)

def digit (n : ℕ) : Byte := alphabet.getD n 0

def filler : Byte := 0x3D#8

/-- The four digits of a group of twenty-four bits, most significant first. -/
def digits (group : ℕ) : List Byte :=
  [digit (group / 2 ^ 18 % 64), digit (group / 2 ^ 12 % 64), digit (group / 2 ^ 6 % 64),
    digit (group % 64)]

def encode : List Byte → List Byte
  | [] => []
  | [x] => (digits (x.toNat * 2 ^ 16)).take 2 ++ [filler, filler]
  | [x, y] => (digits (x.toNat * 2 ^ 16 + y.toNat * 2 ^ 8)).take 3 ++ [filler]
  | x :: y :: z :: rest => digits (x.toNat * 2 ^ 16 + y.toNat * 2 ^ 8 + z.toNat) ++ encode rest

end Base64
