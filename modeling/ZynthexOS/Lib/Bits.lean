import Mathlib.Algebra.Group.Nat.Defs
import Mathlib.Tactic.Common

/-! Masks of machine words as arithmetic, and words as rows of bits: testing,
setting and clearing one bit, and a bitmap as a function from word numbers. -/
namespace ZynthexOS.Lib.Bits

/-- Clearing the low bits of a word rounds it down. -/
theorem and_high_mask (low : k ≤ n) (small : x < 2 ^ n) :
    x &&& (2 ^ n - 2 ^ k) = x / 2 ^ k * 2 ^ k := by
  have mask : 2 ^ n - 2 ^ k = (2 ^ (n - k) - 1) * 2 ^ k := by
    rw [Nat.sub_mul, ← Nat.pow_add, Nat.sub_add_cancel low, Nat.one_mul]
  apply Nat.eq_of_testBit_eq
  intro i
  rw [Nat.testBit_and, mask, Nat.testBit_mul_two_pow, Nat.testBit_mul_two_pow,
    Nat.testBit_two_pow_sub_one, Nat.testBit_div_two_pow]
  by_cases high : k ≤ i
  · rw [Nat.sub_add_cancel high]
    by_cases inside : i < n
    · have width : i - k < n - k := by omega
      simp [high, width]
    · have zero : x.testBit i = false :=
        Nat.testBit_lt_two_pow (Nat.lt_of_lt_of_le small (Nat.pow_le_pow_right (by decide) (by omega)))
      simp [zero]
  · simp [high]

/-- Putting low bits into a number that has none is adding them. -/
theorem or_low (aligned : x % 2 ^ k = 0) (small : y < 2 ^ k) : x ||| y = x + y := by
  obtain ⟨q, rfl⟩ := Nat.dvd_of_mod_eq_zero aligned
  rw [Nat.two_pow_add_eq_or_of_lt small]

/-! ## Single bits of a word -/

/-- `1 << j`. -/
def bit (w j : Nat) : BitVec w := 1#w <<< j

theorem getLsbD_bit (inside : i < w) : (bit w j).getLsbD i = decide (i = j) := by
  rw [bit, BitVec.getLsbD_shiftLeft, BitVec.getLsbD_one]
  by_cases same : i = j
  · subst same
    simp [inside, Nat.zero_lt_of_lt inside]
  · simp [same, inside]
    omega

/-- The test `word & (1 << j)`. -/
theorem and_bit_eq_zero (word : BitVec w) (inside : j < w) :
    word &&& bit w j = 0 ↔ word.getLsbD j = false := by
  constructor
  · intro zero
    have here := congrArg (·.getLsbD j) zero
    simpa [getLsbD_bit inside] using here
  · intro clear
    apply BitVec.eq_of_getLsbD_eq
    intro i small
    rw [BitVec.getLsbD_and, getLsbD_bit small]
    by_cases same : i = j
    · subst same
      simp [clear]
    · simp [same]

/-- The update `word |= 1 << j`. -/
theorem getLsbD_or_bit (word : BitVec w) (inside : i < w) :
    (word ||| bit w j).getLsbD i = (decide (i = j) || word.getLsbD i) := by
  rw [BitVec.getLsbD_or, getLsbD_bit inside, Bool.or_comm]

/-- The update `word &= ~(1 << j)`. -/
theorem getLsbD_and_not_bit (word : BitVec w) (inside : i < w) :
    (word &&& ~~~ bit w j).getLsbD i = (!decide (i = j) && word.getLsbD i) := by
  rw [BitVec.getLsbD_and, BitVec.getLsbD_not, getLsbD_bit inside, Bool.and_comm]
  simp [inside]

/-- A word with a clear bit is not all ones. -/
theorem ne_allOnes_iff (word : BitVec w) :
    word ≠ BitVec.allOnes w ↔ ∃ j < w, word.getLsbD j = false := by
  constructor
  · intro ne
    by_contra full
    apply ne
    apply BitVec.eq_of_getLsbD_eq
    intro i small
    by_contra clear
    exact full ⟨i, small, by simpa [small] using clear⟩
  · rintro ⟨j, small, clear⟩ rfl
    simp [small] at clear

/-! ## Bitmaps -/

/-- Bit number `f` of a row of words. -/
def bitAt (words : Nat → BitVec w) (f : Nat) : Bool := (words (f / w)).getLsbD (f % w)

/-- A row of words with one word replaced. -/
def update (words : Nat → BitVec w) (i : Nat) (word : BitVec w) : Nat → BitVec w :=
  fun k => if k = i then word else words k

theorem bitAt_update (words : Nat → BitVec w) (i : Nat) (word : BitVec w) (f : Nat) :
    bitAt (update words i word) f = if f / w = i then word.getLsbD (f % w) else bitAt words f := by
  unfold bitAt update
  split <;> rfl

/-- Two bits are the same when their words and places are. -/
theorem same_bit_iff (f g : Nat) : f = g ↔ f / w = g / w ∧ f % w = g % w := by
  constructor
  · rintro rfl
    exact ⟨rfl, rfl⟩
  · rintro ⟨word, place⟩
    rw [← Nat.div_add_mod f w, ← Nat.div_add_mod g w, word, place]

/-- Setting the bit `f`. -/
theorem bitAt_set (words : Nat → BitVec w) (positive : 0 < w) (f g : Nat) :
    bitAt (update words (f / w) (words (f / w) ||| bit w (f % w))) g =
      (decide (g = f) || bitAt words g) := by
  rw [bitAt_update]
  split
  · rename_i word
    rw [getLsbD_or_bit _ (Nat.mod_lt _ positive), bitAt, word]
    simp only [same_bit_iff (w := w) g f, word, true_and]
  · rename_i word
    have ne : g ≠ f := by
      rintro rfl
      exact word rfl
    simp [ne]

/-- Clearing the bit `f`. -/
theorem bitAt_clear (words : Nat → BitVec w) (positive : 0 < w) (f g : Nat) :
    bitAt (update words (f / w) (words (f / w) &&& ~~~ bit w (f % w))) g =
      (!decide (g = f) && bitAt words g) := by
  rw [bitAt_update]
  split
  · rename_i word
    rw [getLsbD_and_not_bit _ (Nat.mod_lt _ positive), bitAt, word]
    simp only [same_bit_iff (w := w) g f, word, true_and]
  · rename_i word
    have ne : g ≠ f := by
      rintro rfl
      exact word rfl
    simp [ne]

end ZynthexOS.Lib.Bits
