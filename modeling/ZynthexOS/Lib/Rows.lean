import Mathlib.Tactic.Common

/-! Text set in rows of a fixed width, without a bound on their number, and the window
that shows the last rows of it. A row that is full is followed by an empty one at
once. -/
namespace ZynthexOS.Lib.Rows

variable {α : Type*}

/-- The rows above the last one, and the last one. -/
structure Page (α : Type*) where
  above : List (List α)
  row : List α

/-- Nothing but an empty row. -/
def Page.empty : Page α := ⟨[], []⟩

def Page.rows (p : Page α) : List (List α) := p.above ++ [p.row]

def Page.newRow (p : Page α) : Page α := ⟨p.above ++ [p.row], []⟩

/-- The last row with one cell more. -/
def Page.add (p : Page α) (a : α) : Page α := ⟨p.above, p.row ++ [a]⟩

/-- One cell more, and a new row if the last one is full then. -/
def Page.put (width : Nat) (p : Page α) (a : α) : Page α :=
  if (p.add a).row.length ≥ width then (p.add a).newRow else p.add a

/-- How many rows a window of some height does not show. -/
def Page.top (height : Nat) (p : Page α) : Nat := p.rows.length - height

/-- Where the window shows the last row. -/
def Page.line (height : Nat) (p : Page α) : Nat := p.above.length - p.top height

/-- A cell of the window, which is blank where no row or no cell of the row is. -/
def Page.cell (height : Nat) (blank : α) (p : Page α) (r k : Nat) : α :=
  ((p.rows[p.top height + r]?).getD [])[k]?.getD blank

variable {height : Nat} {blank a : α} {p : Page α}

theorem cell_empty (r k : Nat) : (Page.empty : Page α).cell height blank r k = blank := by
  have rows : ∀ i : Nat, ([[]] : List (List α))[i]?.getD [] = [] := by
    intro i
    cases i <;> rfl
  simp [Page.cell, Page.rows, Page.empty, rows]

theorem rows_newRow (p : Page α) : p.newRow.rows = p.rows ++ [[]] := rfl

/-- While the window has rows left, it looks the same after a new row. -/
theorem cell_newRow_room (room : p.rows.length < height) (r k : Nat) :
    p.newRow.cell height blank r k = p.cell height blank r k := by
  have top : p.newRow.top height = p.top height := by
    simp only [Page.top, rows_newRow, List.length_append, List.length_singleton]
    omega
  rw [Page.cell, top, rows_newRow, Page.cell, List.getElem?_append]
  split_ifs with old
  · rfl
  · have none : p.rows[p.top height + r]? = none := List.getElem?_eq_none (Nat.not_lt.mp old)
    rw [none]
    cases (p.top height + r) - p.rows.length <;> rfl

/-- Once it is full, a new row moves the others up. -/
theorem cell_newRow_full (full : height ≤ p.rows.length) (small : r < height) (k : Nat) :
    p.newRow.cell height blank r k =
      if r + 1 < height then p.cell height blank (r + 1) k else blank := by
  have top : p.newRow.top height + r = p.top height + (r + 1) := by
    simp only [Page.top, rows_newRow, List.length_append, List.length_singleton]
    omega
  rw [Page.cell, top, rows_newRow, Page.cell, List.getElem?_append]
  have edge : p.top height + (r + 1) < p.rows.length ↔ r + 1 < height := by
    simp only [Page.top]
    omega
  split_ifs with old inside inside
  · rfl
  · exact absurd (edge.mp old) inside
  · exact absurd (edge.mpr inside) old
  · cases (p.top height + (r + 1)) - p.rows.length <;> rfl

theorem rows_length (p : Page α) : p.rows.length = p.above.length + 1 := by
  rw [Page.rows, List.length_append, List.length_singleton]

theorem rows_add (p : Page α) (a : α) : (p.add a).rows = p.above ++ [p.row ++ [a]] := rfl

/-- A cell more is the next one of the last row. -/
theorem cell_add (r k : Nat) : (p.add a).cell height blank r k =
    if p.top height + r = p.above.length ∧ k = p.row.length then a else p.cell height blank r k := by
  have top : (p.add a).top height = p.top height := by
    rw [Page.top, Page.top, rows_length, rows_length]
    rfl
  rw [Page.cell, top]
  by_cases last : p.top height + r = p.above.length
  · have new : (p.add a).rows[p.top height + r]? = some (p.row ++ [a]) := by
      rw [last, Page.rows]
      exact List.getElem?_concat_length
    have old : p.rows[p.top height + r]? = some p.row := by
      rw [last, Page.rows]
      exact List.getElem?_concat_length
    rw [new, Page.cell, old, Option.getD_some, Option.getD_some, List.getElem?_append]
    split_ifs with inside here here
    · exact absurd here.2 (Nat.ne_of_lt inside)
    · rfl
    · rw [here.2, Nat.sub_self]
      rfl
    · have behind : p.row.length < k := by
        have other : k ≠ p.row.length := fun same => here ⟨last, same⟩
        omega
      rw [List.getElem?_eq_none (Nat.le_of_lt behind), List.getElem?_eq_none]
      simp only [List.length_singleton]
      omega
  · rw [if_neg fun both => last both.1, Page.cell]
    have same : (p.add a).rows[p.top height + r]? = p.rows[p.top height + r]? := by
      rw [rows_add, Page.rows, List.getElem?_append, List.getElem?_append]
      split_ifs with above
      · rfl
      · have past : 1 ≤ p.top height + r - p.above.length := by omega
        rw [List.getElem?_eq_none past, List.getElem?_eq_none past]
    rw [same]

/-! ## Where the last row is -/

theorem line_lt (positive : 0 < height) (p : Page α) : p.line height < height := by
  rw [Page.line, Page.top, rows_length]
  omega

theorem top_line (positive : 0 < height) (p : Page α) : p.top height + p.line height = p.above.length := by
  rw [Page.line, Page.top, rows_length]
  omega

theorem line_newRow_room (room : p.rows.length < height) : p.newRow.line height = p.line height + 1 := by
  rw [rows_length] at room
  simp only [Page.line, Page.top, rows_length, Page.newRow, List.length_append, List.length_singleton]
  omega

theorem line_newRow_full (full : height ≤ p.rows.length) (positive : 0 < height) :
    p.newRow.line height = height - 1 ∧ p.line height = height - 1 := by
  rw [rows_length] at full
  simp only [Page.line, Page.top, rows_length, Page.newRow, List.length_append, List.length_singleton]
  omega

end ZynthexOS.Lib.Rows
