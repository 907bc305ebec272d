import Mathlib

namespace FishServer

def u32 (x : ℤ) : ℤ := x % 2 ^ 32

def i32 (x : ℤ) : ℤ := (x + 2 ^ 31) % 2 ^ 32 - 2 ^ 31

theorem u32_nonneg (x : ℤ) : 0 ≤ u32 x := by
  unfold u32
  omega

theorem u32_lt (x : ℤ) : u32 x < 2 ^ 32 := by
  unfold u32
  omega

theorem u32_of_bounds {x : ℤ} (h0 : 0 ≤ x) (h1 : x < 2 ^ 32) : u32 x = x := by
  unfold u32
  omega

theorem i32_of_bounds {x : ℤ} (h0 : -2 ^ 31 ≤ x) (h1 : x < 2 ^ 31) : i32 x = x := by
  unfold i32
  omega

theorem i32_succ (x : ℤ) : i32 (i32 x + 1) = i32 (x + 1) := by
  unfold i32
  omega

theorem i32_add_i32 (x y : ℤ) : i32 (x + i32 y) = i32 (x + y) := by
  unfold i32
  omega

end FishServer
