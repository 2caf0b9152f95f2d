import Mathlib.Data.Nat.ModEq
import Mathlib.Logic.Function.Basic
import Mathlib.Tactic.Common

/-! Queues kept in an array of fixed size between two indices that wrap around it.
The items of a queue are listed oldest first; what a push and a pop do to them
holds whether or not the indices have wrapped. -/
namespace ZynthexOS.Lib.Fifo

variable {α : Type*} {size tail head : Nat} {cells : Nat → α} {items : List α} {x : α}

/-- The items stand in the cells from `tail` on, and `head` is the cell behind them. -/
structure Holds (size : Nat) (cells : Nat → α) (tail head : Nat) (items : List α) : Prop where
  tail_lt : tail < size
  fits : items.length ≤ size
  head_eq : head = (tail + items.length) % size
  cell : ∀ i (inside : i < items.length), cells ((tail + i) % size) = items[i]

/-- Cells less than one turn apart are different cells. -/
theorem offset_inj (small : i < size) (small' : j < size)
    (same : (tail + i) % size = (tail + j) % size) : i = j := by
  have cancelled : i % size = j % size := Nat.ModEq.add_left_cancel' tail same
  rwa [Nat.mod_eq_of_lt small, Nat.mod_eq_of_lt small'] at cancelled

namespace Holds

theorem empty (inside : tail < size) : Holds size cells tail tail [] := by
  refine ⟨inside, by simp, ?_, by simp⟩
  exact (Nat.mod_eq_of_lt inside).symm

theorem head_lt (queue : Holds size cells tail head items) : head < size := by
  rw [queue.head_eq]
  exact Nat.mod_lt _ (Nat.zero_lt_of_lt queue.tail_lt)

/-- A push into a free cell. -/
theorem push (queue : Holds size cells tail head items) (room : items.length < size) :
    Holds size (Function.update cells head x) tail ((head + 1) % size) (items ++ [x]) := by
  refine ⟨queue.tail_lt, by simp; omega, ?_, ?_⟩
  · rw [queue.head_eq, Nat.mod_add_mod, List.length_append, List.length_singleton, Nat.add_assoc]
  · intro i inside
    rw [List.length_append, List.length_singleton] at inside
    by_cases last : i = items.length
    · subst last
      rw [← queue.head_eq, Function.update_self]
      simp
    · have older : i < items.length := by omega
      have elsewhere : (tail + i) % size ≠ head := by
        intro same
        rw [queue.head_eq] at same
        exact last (offset_inj (by omega) room same)
      rw [Function.update_of_ne elsewhere, queue.cell i older, List.getElem_append_left older]

/-- A pop yields the oldest item. -/
theorem pop (queue : Holds size cells tail head (x :: items)) :
    cells tail = x ∧ Holds size cells ((tail + 1) % size) head items := by
  have first := queue.cell 0 (by simp)
  have fits := queue.fits
  rw [List.length_cons] at fits
  rw [Nat.add_zero, Nat.mod_eq_of_lt queue.tail_lt] at first
  refine ⟨first, Nat.mod_lt _ (Nat.zero_lt_of_lt queue.tail_lt), by omega, ?_, ?_⟩
  · rw [queue.head_eq, Nat.mod_add_mod, List.length_cons]
    congr 1
    omega
  · intro i inside
    have next := queue.cell (i + 1) (by simp; omega)
    rw [Nat.mod_add_mod, show tail + 1 + i = tail + (i + 1) by omega, next]
    rfl

/-- A push into a full queue takes the cell of the oldest item. -/
theorem push_full (queue : Holds size cells tail head items) (full : items.length = size) :
    Holds size (Function.update cells head x) ((tail + 1) % size) ((head + 1) % size)
      (items.tail ++ [x]) := by
  cases items with
  | nil =>
    have positive := Nat.zero_lt_of_lt queue.tail_lt
    simp only [List.length_nil] at full
    omega
  | cons y items =>
    rw [List.length_cons] at full
    exact queue.pop.2.push (by omega)

/-- Below its size a queue is empty exactly if the indices meet. -/
theorem empty_iff (queue : Holds size cells tail head items) (room : items.length < size) :
    head = tail ↔ items = [] := by
  constructor
  · intro meet
    rw [queue.head_eq] at meet
    have start : (tail + items.length) % size = (tail + 0) % size := by
      rw [meet, Nat.add_zero, Nat.mod_eq_of_lt queue.tail_lt]
    exact List.length_eq_zero_iff.mp (offset_inj room (Nat.zero_lt_of_lt room) start)
  · rintro rfl
    rw [queue.head_eq, List.length_nil, Nat.add_zero, Nat.mod_eq_of_lt queue.tail_lt]

/-- One more push makes the indices meet exactly if one cell is free. -/
theorem full_iff (queue : Holds size cells tail head items) (room : items.length < size) :
    (head + 1) % size = tail ↔ items.length + 1 = size := by
  rw [queue.head_eq, Nat.mod_add_mod, Nat.add_assoc]
  constructor
  · intro meet
    by_contra more
    have start : (tail + (items.length + 1)) % size = (tail + 0) % size := by
      rw [meet, Nat.add_zero, Nat.mod_eq_of_lt queue.tail_lt]
    have zero := offset_inj (by omega) (Nat.zero_lt_of_lt room) start
    omega
  · intro full
    rw [full, Nat.add_mod_right, Nat.mod_eq_of_lt queue.tail_lt]

/-- The items are read off the cells. -/
theorem map_range (queue : Holds size cells tail head items) :
    (List.range items.length).map (fun i => cells ((tail + i) % size)) = items := by
  apply List.ext_getElem
  · simp
  · intro i _ inside
    rw [List.getElem_map, List.getElem_range, queue.cell i inside]

end Holds

end ZynthexOS.Lib.Fifo
