import Mathlib.Order.Monotone.Basic
import Mathlib.Tactic.Common

/-! Lines on a grid: for each step along the longer side of a right triangle the height
of its slope, rounded to the nearest whole number. A step is followed by a rise of at
most one, and whether there is one can be told without a division. -/
namespace ZynthexOS.Lib.Slope

/-- The height after `k` of `long` steps to the height `short`. -/
def rise (long short k : Nat) : Nat := (2 * (short * k) + long) / (2 * long)

variable {long short : Nat}

/-- The rounded height is at most half a step away from the slope. -/
theorem rise_bounds (short : Nat) (positive : 0 < long) (k : Nat) :
    2 * (long * rise long short k) ≤ 2 * (short * k) + long ∧
      2 * (short * k) + long < 2 * (long * rise long short k) + 2 * long := by
  have parts := Nat.div_add_mod (2 * (short * k) + long) (2 * long)
  have rest := Nat.mod_lt (2 * (short * k) + long) (Nat.mul_pos Nat.zero_lt_two positive)
  rw [Nat.mul_assoc] at parts
  rw [rise]
  omega

/-- What lies within half a step is the rounded height. -/
theorem rise_unique (lower : 2 * (long * h) ≤ 2 * (short * k) + long)
    (upper : 2 * (short * k) + long < 2 * (long * h) + 2 * long) : rise long short k = h := by
  rw [rise, Nat.div_eq_iff (by omega), Nat.mul_comm h, Nat.mul_assoc]
  omega

theorem rise_zero (positive : 0 < long) : rise long short 0 = 0 := by
  apply rise_unique
  · simp
  · rw [Nat.mul_zero, Nat.mul_zero]
    omega

theorem rise_end (positive : 0 < long) : rise long short long = short := by
  apply rise_unique
  · rw [Nat.mul_comm long]
    omega
  · rw [Nat.mul_comm long]
    omega

theorem rise_mono (long short : Nat) : Monotone (rise long short) := by
  intro k l ordered
  have product := Nat.mul_le_mul_left short ordered
  exact Nat.div_le_div_right (by omega)

theorem rise_le (positive : 0 < long) (inside : k ≤ long) : rise long short k ≤ short :=
  (rise_mono long short inside).trans_eq (rise_end positive)

/-- A flat slope rises by one exactly if it gets half a step above the height before. -/
theorem rise_succ (positive : 0 < long) (flat : short ≤ long) (k : Nat) :
    rise long short (k + 1) =
      if 2 * (long * rise long short k) + long ≤ 2 * (short * k) + 2 * short then
        rise long short k + 1
      else rise long short k := by
  obtain ⟨lower, upper⟩ := rise_bounds short positive k
  split_ifs with above
  · apply rise_unique <;> rw [Nat.mul_succ, Nat.mul_succ] <;> omega
  · apply rise_unique <;> rw [Nat.mul_succ] <;> omega

end ZynthexOS.Lib.Slope
