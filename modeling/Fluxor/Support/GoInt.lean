import Mathlib.Algebra.Group.Nat.Defs
import Mathlib.Algebra.Ring.Int.Defs

/-!
# Signed machine integers

Go's `int64` and `int32` as integers that are reduced to their range after
every operation that may leave it.
-/

namespace Fluxor.Support

open Int

/-- The `int64` that an integer computation leaves in a register. -/
def int64 (x : ℤ) : ℤ := x.bmod (2 ^ 64)

def int32 (x : ℤ) : ℤ := x.bmod (2 ^ 32)

theorem int64_eq_self {x : ℤ} (hlo : -2 ^ 63 ≤ x) (hhi : x < 2 ^ 63) : int64 x = x := by
  unfold int64
  exact bmod_eq_of_le (by omega) (by omega)

theorem int32_eq_self {x : ℤ} (hlo : -2 ^ 31 ≤ x) (hhi : x < 2 ^ 31) : int32 x = x := by
  unfold int32
  exact bmod_eq_of_le (by omega) (by omega)

theorem int32_lt (x : ℤ) : int32 x < 2 ^ 31 := bmod_lt (by decide)

theorem le_int32 (x : ℤ) : -2 ^ 31 ≤ int32 x := le_bmod (by decide)

theorem int32_le_self {x : ℤ} (hlo : -2 ^ 31 ≤ x) : int32 x ≤ x := by
  by_cases hhi : x < 2 ^ 31
  · exact Int.le_of_eq (int32_eq_self hlo hhi)
  · have := int32_lt x
    omega

@[simp] theorem int64_int64 (x : ℤ) : int64 (int64 x) = int64 x := bmod_bmod

@[simp] theorem int64_int64_add (x y : ℤ) : int64 (int64 x + y) = int64 (x + y) := bmod_add_bmod

@[simp] theorem int64_int64_sub (x y : ℤ) : int64 (int64 x - y) = int64 (x - y) := bmod_sub_bmod

@[simp] theorem int32_int32_add (x y : ℤ) : int32 (int32 x + y) = int32 (x + y) := bmod_add_bmod

@[simp] theorem int32_int32_sub (x y : ℤ) : int32 (int32 x - y) = int32 (x - y) := bmod_sub_bmod

/-- `Time.Sub`: the difference of two times, kept in the range of a duration. -/
def durationSub (t u : ℤ) : ℤ := max (-2 ^ 63) (min (t - u) (2 ^ 63 - 1))

theorem durationSub_nonneg {t u : ℤ} (h : u ≤ t) : 0 ≤ durationSub t u := by
  unfold durationSub
  omega

theorem durationSub_le {t u : ℤ} (h : u ≤ t) : durationSub t u ≤ t - u := by
  unfold durationSub
  omega

end Fluxor.Support
