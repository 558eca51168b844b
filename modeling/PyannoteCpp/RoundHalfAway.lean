import Mathlib.Algebra.Order.Round
import Mathlib.Tactic

set_option autoImplicit false

/-!
# Rounding halves away from zero

The rounding of the C library. It is the usual rounding on numbers that are not
negative and is odd.
-/
namespace PyannoteCpp.RoundHalfAway

variable {K : Type*} [Field K] [LinearOrder K] [IsStrictOrderedRing K] [FloorRing K]

def roundAway (x : K) : ℤ := if 0 ≤ x then round x else -round (-x)

omit [IsStrictOrderedRing K] in
theorem roundAway_nonneg {x : K} (h : 0 ≤ x) : roundAway x = round x := if_pos h

@[simp]
theorem roundAway_intCast (n : ℤ) : roundAway (n : K) = n := by
  by_cases h : (0 : K) ≤ n
  · rw [roundAway_nonneg h, round_intCast]
  · rw [roundAway, if_neg h, ← Int.cast_neg, round_intCast, neg_neg]

theorem le_roundAway (x : K) : x - 1 / 2 ≤ roundAway x := by
  by_cases h : 0 ≤ x
  · rw [roundAway_nonneg h]
    exact (sub_half_lt_round x).le
  · have upper := round_le_add_half (-x)
    rw [roundAway, if_neg h, Int.cast_neg]
    linarith

theorem roundAway_le (x : K) : (roundAway x : K) ≤ x + 1 / 2 := by
  by_cases h : 0 ≤ x
  · rw [roundAway_nonneg h]
    exact round_le_add_half x
  · have lower := sub_half_lt_round (-x)
    rw [roundAway, if_neg h, Int.cast_neg]
    linarith

theorem roundAway_nonneg_of {x : K} (h : 0 ≤ x) : 0 ≤ roundAway x := by
  by_contra neg
  have low := le_roundAway x
  have unit : (roundAway x : K) ≤ -1 := by exact_mod_cast (by omega : roundAway x ≤ -1)
  linarith

end PyannoteCpp.RoundHalfAway
