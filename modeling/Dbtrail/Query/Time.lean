import Mathlib

/-!
# Instants

An instant is a number of microseconds since the Unix epoch. The readers round it down to
a whole hour to find partitions, and use the zero time for "unset".
-/

namespace Dbtrail

def second : ℤ := 1000000

def hour : ℤ := 3600 * second

def truncateTo (unit t : ℤ) : ℤ := t - t % unit

/-- The zero `time.Time`, the first instant of year 1. -/
def zeroTime : ℤ := -62135596800 * second

/-- The time bound that a fetch anchored on a position applies for `since`. -/
def coarseSinceFloor (since : ℤ) : ℤ := truncateTo hour since - hour

theorem truncateTo_le {unit t : ℤ} (pos : 0 < unit) : truncateTo unit t ≤ t := by
  have := Int.emod_nonneg t pos.ne'
  unfold truncateTo
  omega

theorem coarseSinceFloor_le (since : ℤ) : coarseSinceFloor since ≤ since := by
  have le : truncateTo hour since ≤ since := truncateTo_le (by decide)
  have pos : 0 < hour := by decide
  unfold coarseSinceFloor
  omega

theorem lt_truncateTo_hour_add (t : ℤ) : t < truncateTo hour t + hour := by
  have := Int.emod_lt_of_pos t (show 0 < hour by decide)
  rw [truncateTo]
  omega

end Dbtrail
