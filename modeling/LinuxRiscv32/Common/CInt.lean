import Mathlib.Algebra.Order.Ring.Int

/-!
# C integers of fixed width

Conversions to unsigned and signed types, on integers. A value that fits into the type is not
changed.
-/

namespace Common

/-- Conversion to a 32-bit unsigned type. -/
def u32 (x : ℤ) : ℤ := x % 2 ^ 32

/-- Conversion to a 32-bit signed type. -/
def s32 (x : ℤ) : ℤ := x.bmod (2 ^ 32)

/-- Conversion to a 64-bit unsigned type. -/
def u64 (x : ℤ) : ℤ := x % 2 ^ 64

/-- Conversion to a 64-bit signed type. -/
def s64 (x : ℤ) : ℤ := x.bmod (2 ^ 64)

variable {x : ℤ}

theorem u32_of_range (h0 : 0 ≤ x) (h : x < 2 ^ 32) : u32 x = x := Int.emod_eq_of_lt h0 h

theorem u64_of_range (h0 : 0 ≤ x) (h : x < 2 ^ 64) : u64 x = x := Int.emod_eq_of_lt h0 h

theorem s32_of_range (h0 : -2 ^ 31 ≤ x) (h : x < 2 ^ 31) : s32 x = x := by
  unfold s32
  apply Int.bmod_eq_of_le <;> omega

theorem s64_of_range (h0 : -2 ^ 63 ≤ x) (h : x < 2 ^ 63) : s64 x = x := by
  unfold s64
  apply Int.bmod_eq_of_le <;> omega

/-- A value that exceeds the type by less than its size wraps once. -/
theorem s32_of_overflow (h0 : 2 ^ 31 ≤ x) (h : x < 2 ^ 31 + 2 ^ 32) : s32 x = x - 2 ^ 32 := by
  have hwrap : s32 x = s32 (x - 2 ^ 32) := (Int.sub_bmod_right x (2 ^ 32)).symm
  rw [hwrap, s32_of_range (by omega) (by omega)]

/-- A 64-bit type on the way does not matter. -/
theorem s32_s64 (x : ℤ) : s32 (s64 x) = s32 x := Int.bmod_bmod_of_dvd (by decide)

/-- An increment, after `n` of them. -/
theorem s32_succ (n : ℕ) : s32 (s32 n + 1) = s32 (n + 1 : ℕ) := by
  rw [Nat.cast_succ]
  exact Int.bmod_add_bmod

theorem s32_lt (x : ℤ) : s32 x < 2 ^ 31 := Int.bmod_lt (by decide)

/-- A non-negative value does not grow, and it is kept exactly if it fits. -/
theorem s32_le_self (h : 0 ≤ x) : s32 x ≤ x := by
  by_cases hlt : x < 2 ^ 31
  · exact (s32_of_range (by omega) hlt).le
  · exact (s32_lt x).le.trans (not_lt.mp hlt)

/-- A value that is not negative is kept exactly if it is below `2 ^ 31`. -/
theorem s32_eq_self_iff (h : 0 ≤ x) : s32 x = x ↔ x < 2 ^ 31 :=
  ⟨fun heq => heq ▸ s32_lt x, fun hlt => s32_of_range (by omega) hlt⟩

end Common
