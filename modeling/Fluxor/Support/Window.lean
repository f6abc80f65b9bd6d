import Mathlib.Data.Int.Notation
import Mathlib.Data.Nat.Notation

/-!
# Events in a sliding window

A limiter that keeps the times of its events admits a new one only if there are few of
them in the window that ends now. If it never drops a time that a window still
holds, no window ever holds more than the limit.
-/

namespace Fluxor.Support

open List

/-- The number of times in the window of the given length that ends at `t`. -/
def countIn (within t : ℤ) (times : List ℤ) : ℕ := times.countP fun r => t - within < r ∧ r ≤ t

/-- `done` are the times of all events and `kept` those that the limiter has kept; at
most one event is added, not before `now`. -/
theorem countIn_append {within now recorded : ℤ} {max n : ℕ} {done kept : List ℤ}
    (hn : n ≤ 1) (hle : now ≤ recorded) (hbound : ∀ t, countIn within t done ≤ max)
    (hkept : ∀ cutoff, now - within ≤ cutoff →
      (done.countP fun r => cutoff < r) ≤ kept.countP fun r => cutoff < r)
    (hcan : (kept.countP fun r => now - within < r) < max) (t : ℤ) :
    countIn within t (done ++ replicate n recorded) ≤ max := by
  rw [countIn, countP_append, countP_replicate]
  have hdone := hbound t
  rw [countIn] at hdone
  split
  next hin =>
    have hin : t - within < recorded ∧ recorded ≤ t := by simpa using hin
    -- The window has not ended before the new time, so it holds times that are kept.
    calc (done.countP fun r => t - within < r ∧ r ≤ t) + n
        ≤ (done.countP fun r => t - within < r) + n := by
          refine Nat.add_le_add_right (countP_mono_left fun r _ hr => ?_) n
          simp only [decide_eq_true_eq] at hr ⊢
          exact hr.1
      _ ≤ (kept.countP fun r => t - within < r) + n := Nat.add_le_add_right (hkept _ (by omega)) n
      _ ≤ (kept.countP fun r => now - within < r) + n := by
          refine Nat.add_le_add_right (countP_mono_left fun r _ hr => ?_) n
          simp only [decide_eq_true_eq] at hr ⊢
          omega
      _ ≤ max := by omega
  · exact hdone

end Fluxor.Support
