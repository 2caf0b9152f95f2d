import Mathlib.Algebra.Group.Int.Defs
import Mathlib.Tactic.Common

/-! Signed 32-bit arithmetic as C defines it: an operation has a result only where the
exact one is in range. -/
namespace ZynthexOS.Lib.Checked

/-- A value of `int`. -/
def InRange (v : Int) : Prop := -2 ^ 31 ≤ v ∧ v < 2 ^ 31

instance (v : Int) : Decidable (InRange v) := inferInstanceAs (Decidable (_ ∧ _))

/-- A result that is defined only where the exact one is in range. -/
def checked (exact : Int) (result : Int32) : Option Int32 :=
  if InRange exact then some result else none

def add (a b : Int32) : Option Int32 := checked (a.toInt + b.toInt) (a + b)

def sub (a b : Int32) : Option Int32 := checked (a.toInt - b.toInt) (a - b)

def mul (a b : Int32) : Option Int32 := checked (a.toInt * b.toInt) (a * b)

/-- There is no quotient by zero either. -/
def div (a b : Int32) : Option Int32 :=
  if b = 0 then none else checked (a.toInt.tdiv b.toInt) (a / b)

theorem checked_eq {exact : Int} {result r : Int32} (defined : checked exact result = some r) :
    r = result := by
  rw [checked] at defined
  split_ifs at defined
  exact (Option.some.inj defined).symm

/-! Where an operation is defined, it is the wrapping one. -/

theorem add_eq (defined : add a b = some c) : c = a + b := checked_eq defined

theorem sub_eq (defined : sub a b = some c) : c = a - b := checked_eq defined

theorem mul_eq (defined : mul a b = some c) : c = a * b := checked_eq defined

theorem div_eq (defined : div a b = some c) : c = a / b := by
  rw [div] at defined
  split_ifs at defined
  exact checked_eq defined

/-! On numbers in range it is the exact one. -/

variable {a b : Int}

theorem toInt_ofInt (range : InRange a) : (Int32.ofInt a).toInt = a :=
  Int32.toInt_ofInt_of_le range.1 range.2

theorem ofInt_le (left : InRange a) (right : InRange b) : Int32.ofInt a ≤ .ofInt b ↔ a ≤ b := by
  rw [Int32.le_iff_toInt_le, toInt_ofInt left, toInt_ofInt right]

theorem ofInt_lt (left : InRange a) (right : InRange b) : Int32.ofInt a < .ofInt b ↔ a < b := by
  rw [Int32.lt_iff_toInt_lt, toInt_ofInt left, toInt_ofInt right]

theorem ofInt_inj (left : InRange a) (right : InRange b) : Int32.ofInt a = .ofInt b ↔ a = b := by
  rw [← Int32.toInt_inj, toInt_ofInt left, toInt_ofInt right]

theorem add_ofInt (left : InRange a) (right : InRange b) (sum : InRange (a + b)) :
    add (.ofInt a) (.ofInt b) = some (.ofInt (a + b)) := by
  rw [add, checked, toInt_ofInt left, toInt_ofInt right, if_pos sum, Int32.ofInt_add]

theorem sub_ofInt (left : InRange a) (right : InRange b) (difference : InRange (a - b)) :
    sub (.ofInt a) (.ofInt b) = some (.ofInt (a - b)) := by
  rw [sub, checked, toInt_ofInt left, toInt_ofInt right, if_pos difference, Int32.ofInt_sub]

theorem mul_ofInt (left : InRange a) (right : InRange b) (product : InRange (a * b)) :
    mul (.ofInt a) (.ofInt b) = some (.ofInt (a * b)) := by
  rw [mul, checked, toInt_ofInt left, toInt_ofInt right, if_pos product, Int32.ofInt_mul]

theorem div_ofInt (left : InRange a) (right : InRange b) (real : b ≠ 0)
    (quotient : InRange (a.tdiv b)) : div (.ofInt a) (.ofInt b) = some (.ofInt (a.tdiv b)) := by
  have nonzero : Int32.ofInt b ≠ 0 := by
    rw [show (0 : Int32) = .ofInt 0 from rfl, ne_eq, ofInt_inj right (by decide)]
    exact real
  have same : Int32.ofInt a / .ofInt b = .ofInt (a.tdiv b) :=
    (Int32.ofInt_tdiv left.1 (Int.le_of_lt_add_one left.2) right.1 (Int.le_of_lt_add_one right.2)).symm
  rw [div, if_neg nonzero, checked, toInt_ofInt left, toInt_ofInt right, if_pos quotient, same]

end ZynthexOS.Lib.Checked
