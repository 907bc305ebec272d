import FishServer.Fmsg
import FishServer.Lib.Base64

namespace FishServer

def base64char : List Byte :=
  "ABCDEFGHIJKLMNOPQRSTUVWXYZabcdefghijklmnopqrstuvwxyz0123456789+/".toList.map
    (fun c => BitVec.ofNat 8 c.toNat)

def base64Char (current : Byte) : Byte := base64char.getD current.toNat 0

/-- A `char` shifted as an `int` and cut to `unsigned char`. -/
def charRight (c : Byte) (n : ℕ) : Byte := ((promote c).sshiftRight n).setWidth 8

def charLeft (c : Byte) (n : ℕ) : Byte := (promote c <<< n).setWidth 8

def base64Loop (bindata : ℕ → Byte) (binlength : ℕ) : ℕ → ℕ → List Byte
  | 0, _ => []
  | n + 1, i =>
    if binlength ≤ i then []
    else
      let first := base64Char (charRight (bindata i) 2 &&& 0x3F#8)
      let second := charLeft (bindata i) 4 &&& 0x30#8
      if binlength ≤ i + 1 then [first, base64Char second, 0x3D#8, 0x3D#8]
      else
        let second := base64Char (second ||| (charRight (bindata (i + 1)) 4 &&& 0x0F#8))
        let third := charLeft (bindata (i + 1)) 2 &&& 0x3C#8
        if binlength ≤ i + 2 then [first, second, base64Char third, 0x3D#8]
        else
          let third := base64Char (third ||| (charRight (bindata (i + 2)) 6 &&& 0x03#8))
          [first, second, third, base64Char (bindata (i + 2) &&& 0x3F#8)] ++
            base64Loop bindata binlength n (i + 3)

def base64_encode (bindata : ℕ → Byte) (binlength : ℕ) : List Byte :=
  base64Loop bindata binlength binlength 0

theorem right_two (c : Byte) : (charRight c 2 &&& 0x3F#8).toNat = c.toNat / 4 := by
  revert c
  decide

theorem right_four (c : Byte) : (charRight c 4 &&& 0x0F#8).toNat = c.toNat / 16 := by
  revert c
  decide

theorem right_six (c : Byte) : (charRight c 6 &&& 0x03#8).toNat = c.toNat / 64 := by
  revert c
  decide

theorem left_four (c : Byte) : (charLeft c 4 &&& 0x30#8).toNat = c.toNat % 4 * 16 := by
  revert c
  decide

theorem left_two (c : Byte) : (charLeft c 2 &&& 0x3C#8).toNat = c.toNat % 16 * 4 := by
  revert c
  decide

theorem low_six (c : Byte) : (c &&& 0x3F#8).toNat = c.toNat % 64 := by
  revert c
  decide

theorem or_low {a b : Byte} {h k : ℕ} (ha : a.toNat = h * 2 ^ k) (hb : b.toNat < 2 ^ k) :
    (a ||| b).toNat = a.toNat + b.toNat := by
  rw [BitVec.toNat_or, ha, ← Nat.shiftLeft_eq, Nat.shiftLeft_add_eq_or_of_lt hb]

theorem base64Char_eq (current : Byte) : base64Char current = Base64.digit current.toNat := rfl

theorem first_eq {x : Byte} {l : ℕ} (h : l < 2 ^ 16) :
    base64Char (charRight x 2 &&& 0x3F#8) = Base64.digit ((x.toNat * 2 ^ 16 + l) / 2 ^ 18 % 64) := by
  have hx := x.isLt
  rw [base64Char_eq, right_two]
  congr 1
  omega

theorem second_eq {x y : Byte} {l : ℕ} (h : l < 2 ^ 8) :
    base64Char ((charLeft x 4 &&& 0x30#8) ||| (charRight y 4 &&& 0x0F#8)) =
      Base64.digit ((x.toNat * 2 ^ 16 + y.toNat * 2 ^ 8 + l) / 2 ^ 12 % 64) := by
  have hy := y.isLt
  have hlow : (charRight y 4 &&& 0x0F#8).toNat < 2 ^ 4 := by
    rw [right_four]
    omega
  rw [base64Char_eq, or_low (k := 4) (left_four x) hlow, left_four, right_four]
  congr 1
  omega

theorem third_eq {x y z : Byte} :
    base64Char ((charLeft y 2 &&& 0x3C#8) ||| (charRight z 6 &&& 0x03#8)) =
      Base64.digit ((x.toNat * 2 ^ 16 + y.toNat * 2 ^ 8 + z.toNat) / 2 ^ 6 % 64) := by
  have hz := z.isLt
  have hlow : (charRight z 6 &&& 0x03#8).toNat < 2 ^ 2 := by
    rw [right_six]
    omega
  rw [base64Char_eq, or_low (k := 2) (left_two y) hlow, left_two, right_six]
  congr 1
  omega

theorem fourth_eq {x y z : Byte} :
    base64Char (z &&& 0x3F#8) = Base64.digit ((x.toNat * 2 ^ 16 + y.toNat * 2 ^ 8 + z.toNat) % 64) := by
  rw [base64Char_eq, low_six]
  congr 1
  omega

theorem second_alone (x : Byte) :
    base64Char (charLeft x 4 &&& 0x30#8) = Base64.digit (x.toNat * 2 ^ 16 / 2 ^ 12 % 64) := by
  rw [base64Char_eq, left_four]
  congr 1
  omega

theorem third_alone (x y : Byte) :
    base64Char (charLeft y 2 &&& 0x3C#8) =
      Base64.digit ((x.toNat * 2 ^ 16 + y.toNat * 2 ^ 8) / 2 ^ 6 % 64) := by
  rw [base64Char_eq, left_two]
  congr 1
  omega

theorem base64Loop_eq (bindata : ℕ → Byte) (n : ℕ) {binlength i k : ℕ} (hk : binlength = i + k)
    (hn : k ≤ n) :
    base64Loop bindata binlength n i = Base64.encode ((List.range' i k).map bindata) := by
  induction n generalizing i k with
  | zero =>
    have hempty : k = 0 := by omega
    rw [hempty]
    rfl
  | succ n ih =>
    match k with
    | 0 =>
      rw [base64Loop, if_pos (by omega)]
      rfl
    | 1 =>
      have hfirst := first_eq (x := bindata i) (l := 0) (by norm_num)
      rw [Nat.add_zero] at hfirst
      rw [base64Loop, if_neg (by omega), if_pos (by omega), hfirst, second_alone]
      rfl
    | 2 =>
      have hy := (bindata (i + 1)).isLt
      have hfirst := first_eq (x := bindata i) (l := (bindata (i + 1)).toNat * 2 ^ 8) (by omega)
      have hsecond := second_eq (x := bindata i) (y := bindata (i + 1)) (l := 0) (by norm_num)
      simp only [Nat.add_zero] at hsecond
      rw [base64Loop, if_neg (by omega), if_neg (by omega), if_pos (by omega), hfirst, hsecond,
        third_alone (bindata i)]
      rfl
    | k + 3 =>
      have hy := (bindata (i + 1)).isLt
      have hz := (bindata (i + 2)).isLt
      have hfirst := first_eq (x := bindata i)
        (l := (bindata (i + 1)).toNat * 2 ^ 8 + (bindata (i + 2)).toNat) (by omega)
      rw [← Nat.add_assoc] at hfirst
      have hsecond := second_eq (x := bindata i) (y := bindata (i + 1)) hz
      have hthird := third_eq (x := bindata i) (y := bindata (i + 1)) (z := bindata (i + 2))
      have hfourth := fourth_eq (x := bindata i) (y := bindata (i + 1)) (z := bindata (i + 2))
      have hrest := ih (i := i + 3) (k := k) (by omega) (by omega)
      rw [base64Loop, if_neg (by omega), if_neg (by omega), if_neg (by omega), hfirst, hsecond, hthird,
        hfourth, hrest]
      rfl

theorem base64_encode_eq (bindata : ℕ → Byte) (binlength : ℕ) :
    base64_encode bindata binlength = Base64.encode ((List.range binlength).map bindata) := by
  rw [base64_encode, base64Loop_eq bindata binlength (Nat.zero_add binlength).symm le_rfl, List.range_eq_range']

end FishServer
