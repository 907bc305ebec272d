import Mathlib

namespace Sha1

abbrev Byte := BitVec 8
abbrev Word := BitVec 32

@[ext] structure Hash where
  a : Word
  b : Word
  c : Word
  d : Word
  e : Word
deriving DecidableEq

def initial : Hash := ⟨0x67452301#32, 0xEFCDAB89#32, 0x98BADCFE#32, 0x10325476#32, 0xC3D2E1F0#32⟩

def ch (x y z : Word) : Word := (x &&& y) ^^^ (~~~x &&& z)

def parity (x y z : Word) : Word := x ^^^ y ^^^ z

def maj (x y z : Word) : Word := (x &&& y) ^^^ (x &&& z) ^^^ (y &&& z)

def logical (t : ℕ) : Word → Word → Word → Word :=
  if t < 20 then ch else if t < 40 then parity else if t < 60 then maj else parity

def constant (t : ℕ) : Word :=
  if t < 20 then 0x5A827999#32 else if t < 40 then 0x6ED9EBA1#32
  else if t < 60 then 0x8F1BBCDC#32 else 0xCA62C1D6#32

def schedule (m : ℕ → Word) (t : ℕ) : Word :=
  if t < 16 then m t
  else (schedule m (t - 3) ^^^ schedule m (t - 8) ^^^ schedule m (t - 14) ^^^
    schedule m (t - 16)).rotateLeft 1
termination_by t

def round (w : ℕ → Word) (t : ℕ) (v : Hash) : Hash :=
  { a := v.a.rotateLeft 5 + logical t v.b v.c v.d + v.e + constant t + w t
    b := v.a
    c := v.b.rotateLeft 30
    d := v.c
    e := v.d }

def rounds (w : ℕ → Word) (v : Hash) : ℕ → Hash
  | 0 => v
  | t + 1 => round w t (rounds w v t)

def Hash.add (h v : Hash) : Hash := ⟨h.a + v.a, h.b + v.b, h.c + v.c, h.d + v.d, h.e + v.e⟩

def compress (h : Hash) (m : ℕ → Word) : Hash := h.add (rounds (schedule m) h 80)

def wordAt (p : List Byte) (i : ℕ) : Word :=
  p.getD i 0 ++ p.getD (i + 1) 0 ++ p.getD (i + 2) 0 ++ p.getD (i + 3) 0

def blockWords (p : List Byte) (n t : ℕ) : Word := wordAt p (64 * n + 4 * t)

def absorb (p : List Byte) : ℕ → Hash
  | 0 => initial
  | n + 1 => compress (absorb p n) (blockWords p n)

def zeros (length : ℕ) : ℕ := (119 - length % 64) % 64

def lengthBytes (length : ℕ) : List Byte :=
  let bits := BitVec.ofNat 64 (8 * length)
  (List.range 8).map (fun i => bits.extractLsb' (8 * (7 - i)) 8)

def pad (m : List Byte) : List Byte :=
  m ++ 0x80#8 :: List.replicate (zeros m.length) 0 ++ lengthBytes m.length

def wordBytes (w : Word) : List Byte :=
  [w.extractLsb' 24 8, w.extractLsb' 16 8, w.extractLsb' 8 8, w.extractLsb' 0 8]

def Hash.bytes (h : Hash) : List Byte :=
  wordBytes h.a ++ wordBytes h.b ++ wordBytes h.c ++ wordBytes h.d ++ wordBytes h.e

def sha1 (m : List Byte) : List Byte := (absorb (pad m) ((pad m).length / 64)).bytes

theorem schedule_load {m : ℕ → Word} {t : ℕ} (h : t < 16) : schedule m t = m t := by
  rw [schedule, if_pos h]

theorem schedule_expand {m : ℕ → Word} {t : ℕ} (h : ¬ t < 16) :
    schedule m t = (schedule m (t - 3) ^^^ schedule m (t - 8) ^^^ schedule m (t - 14) ^^^
      schedule m (t - 16)).rotateLeft 1 := by
  rw [schedule, if_neg h]

theorem schedule_congr {m m' : ℕ → Word} (h : ∀ t, t < 16 → m t = m' t) (t : ℕ) :
    schedule m t = schedule m' t := by
  induction t using Nat.strong_induction_on with
  | h t ih =>
    by_cases ht : t < 16
    · rw [schedule_load ht, schedule_load ht, h t ht]
    · rw [schedule_expand ht, schedule_expand ht, ih (t - 3) (by omega), ih (t - 8) (by omega),
        ih (t - 14) (by omega), ih (t - 16) (by omega)]

theorem rounds_congr {w w' : ℕ → Word} (v : Hash) {n : ℕ} (h : ∀ t, t < n → w t = w' t) :
    rounds w v n = rounds w' v n := by
  induction n with
  | zero => rfl
  | succ n ih =>
    have hprefix : rounds w v n = rounds w' v n := ih (fun t ht => h t (by omega))
    rw [rounds, rounds, hprefix, round, round, h n (by omega)]

theorem compress_congr {m m' : ℕ → Word} (v : Hash) (h : ∀ t, t < 16 → m t = m' t) :
    compress v m = compress v m' := by
  rw [compress, compress, rounds_congr v (fun t _ => schedule_congr h t)]

theorem blockWords_append {p : List Byte} (q : List Byte) {n t : ℕ} (ht : t < 16)
    (h : 64 * (n + 1) ≤ p.length) : blockWords (p ++ q) n t = blockWords p n t := by
  have hget : ∀ i, i < p.length → (p ++ q).getD i 0 = p.getD i 0 := by
    intro i hi
    rw [List.getD_append _ _ _ _ hi]
  rw [blockWords, blockWords, wordAt, wordAt, hget _ (by omega), hget _ (by omega),
    hget _ (by omega), hget _ (by omega)]

theorem absorb_append {p : List Byte} (q : List Byte) {n : ℕ} (h : 64 * n ≤ p.length) :
    absorb (p ++ q) n = absorb p n := by
  induction n with
  | zero => rfl
  | succ n ih =>
    rw [absorb, absorb, ih (by omega)]
    apply compress_congr
    intro t ht
    exact blockWords_append q ht h

theorem zeros_fill (length : ℕ) : (length + 1 + zeros length) % 64 = 56 := by
  unfold zeros
  omega

theorem zeros_least {length k : ℕ} (h : (length + 1 + k) % 64 = 56) : zeros length ≤ k := by
  unfold zeros
  omega

theorem pad_length (m : List Byte) : (pad m).length % 64 = 0 := by
  have h := zeros_fill m.length
  simp only [pad, lengthBytes, List.length_append, List.length_cons, List.length_replicate,
    List.length_map, List.length_range]
  omega

end Sha1
