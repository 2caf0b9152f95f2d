import Mathlib.Tactic.Common
import Mathlib.Data.List.Pairwise

/-! Lists of pieces laid end to end over an interval of addresses. Each piece
has a start and a width; a tiling of `[a, e)` places the first piece at `a`,
every other piece where its predecessor ends, and ends at `e`. -/
namespace ZynthexOS.Lib

variable {β : Type*} {start width : β → ℕ} {a c e : ℕ} {x y : β} {xs ys zs : List β}

/-- The pieces cover `[a, e)` in order, without gap or overlap. -/
def Tiles (start width : β → ℕ) : ℕ → List β → ℕ → Prop
  | a, [], e => a = e
  | a, b :: bs, e => start b = a ∧ Tiles start width (a + width b) bs e

@[simp] theorem tiles_nil : Tiles start width a [] e ↔ a = e := Iff.rfl

@[simp] theorem tiles_cons :
    Tiles start width a (x :: xs) e ↔ start x = a ∧ Tiles start width (a + width x) xs e := Iff.rfl

/-- A tiling of a concatenation is two tilings that meet. -/
theorem tiles_append :
    Tiles start width a (xs ++ ys) e ↔
      ∃ c, Tiles start width a xs c ∧ Tiles start width c ys e := by
  induction xs generalizing a with
  | nil => simp
  | cons x xs ih => simp [ih, and_assoc]

theorem Tiles.le (h : Tiles start width a xs e) : a ≤ e := by
  induction xs generalizing a with
  | nil => exact Nat.le_of_eq h
  | cons x xs ih => exact Nat.le_trans (Nat.le_add_right ..) (ih h.2)

/-- Every piece lies inside the tiled interval. -/
theorem Tiles.mem (h : Tiles start width a xs e) (member : x ∈ xs) :
    a ≤ start x ∧ start x + width x ≤ e := by
  induction xs generalizing a with
  | nil => cases member
  | cons y ys ih =>
    obtain ⟨here, rest⟩ := h
    rcases List.mem_cons.mp member with rfl | member
    · exact ⟨Nat.le_of_eq here.symm, by rw [here]; exact rest.le⟩
    · have bounds := ih rest member
      exact ⟨by omega, bounds.2⟩

/-- Pieces do not overlap: each ends before any later one starts. -/
theorem Tiles.pairwise (h : Tiles start width a xs e) :
    xs.Pairwise fun x y => start x + width x ≤ start y := by
  induction xs generalizing a with
  | nil => exact List.Pairwise.nil
  | cons y ys ih =>
    obtain ⟨here, rest⟩ := h
    refine List.pairwise_cons.mpr ⟨fun x member => ?_, ih rest⟩
    rw [here]
    exact (rest.mem member).1

/-- Where a tiling starts is determined by its pieces and its end. -/
theorem Tiles.start_eq (h : Tiles start width a xs e) (h' : Tiles start width c xs e) : a = c := by
  cases xs with
  | nil => exact h.trans h'.symm
  | cons x xs => exact h.1.symm.trans h'.1

/-- A run of pieces may be replaced by any other tiling of the same interval. -/
theorem Tiles.replace (h : Tiles start width a (xs ++ ys ++ zs) e)
    (same : ∀ c d, Tiles start width c ys d → Tiles start width c ys' d) :
    Tiles start width a (xs ++ ys' ++ zs) e := by
  simp only [List.append_assoc, tiles_append] at h ⊢
  obtain ⟨c, before, d, middle, after⟩ := h
  exact ⟨c, before, d, same c d middle, after⟩

end ZynthexOS.Lib
