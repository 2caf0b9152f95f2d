import ZynthexOS.Lib.Slope
import ZynthexOS.Video.Line

/-! Drawing a line. Its points are the ones next to the exact line for every step along
the longer side, so that the loop comes to its end point in as many rounds as that side
has steps. The error term is kept from those points, not from the rounds. -/
namespace ZynthexOS.LineDrawing
open Video Lib.Checked Lib.Slope

/-- End points whose coordinates are below 2^28 in absolute value. -/
structure Segment where
  x0 : Int
  y0 : Int
  x1 : Int
  y1 : Int
  small_x0 : x0.natAbs < 2 ^ 28
  small_y0 : y0.natAbs < 2 ^ 28
  small_x1 : x1.natAbs < 2 ^ 28
  small_y1 : y1.natAbs < 2 ^ 28

namespace Segment

def width (s : Segment) : Nat := (s.x1 - s.x0).natAbs

def height (s : Segment) : Nat := (s.y1 - s.y0).natAbs

/-- The length of the longer side. -/
def steps (s : Segment) : Nat := max s.width s.height

/-- How far the line has got along each side after `k` steps along the longer one. -/
def columns (s : Segment) (k : Nat) : Nat :=
  if s.height ≤ s.width then k else rise s.height s.width k

def rows (s : Segment) (k : Nat) : Nat := if s.height ≤ s.width then rise s.width s.height k else k

def x (s : Segment) (k : Nat) : Int := if s.x0 < s.x1 then s.x0 + s.columns k else s.x0 - s.columns k

def y (s : Segment) (k : Nat) : Int := if s.y0 < s.y1 then s.y0 + s.rows k else s.y0 - s.rows k

/-- The error term at a point. -/
def err (s : Segment) (k : Nat) : Int := s.width * (1 + s.rows k) - s.height * (1 + s.columns k)

variable {s : Segment}

theorem width_lt : s.width < 2 ^ 29 := by
  have x0 := s.small_x0
  have x1 := s.small_x1
  rw [width]
  omega

theorem height_lt : s.height < 2 ^ 29 := by
  have y0 := s.small_y0
  have y1 := s.small_y1
  rw [height]
  omega

theorem columns_flat (flat : s.height ≤ s.width) (k : Nat) : s.columns k = k := if_pos flat

theorem columns_steep (steep : s.width < s.height) (k : Nat) :
    s.columns k = rise s.height s.width k := if_neg (Nat.not_le.mpr steep)

theorem rows_flat (flat : s.height ≤ s.width) (k : Nat) : s.rows k = rise s.width s.height k :=
  if_pos flat

theorem rows_steep (steep : s.width < s.height) (k : Nat) : s.rows k = k :=
  if_neg (Nat.not_le.mpr steep)

theorem steps_flat (flat : s.height ≤ s.width) : s.steps = s.width := Nat.max_eq_left flat

theorem steps_steep (steep : s.width < s.height) : s.steps = s.height :=
  Nat.max_eq_right (Nat.le_of_lt steep)

/-- Twice the error term on a flat line. -/
theorem err_flat (flat : s.height ≤ s.width) (moves : 0 < s.steps) (k : Nat) :
    (s.width : Int) - 2 * s.height < 2 * s.err k ∧ 2 * s.err k ≤ 3 * s.width - 2 * s.height := by
  rw [steps_flat flat] at moves
  have near := rise_bounds s.height moves k
  rw [err, columns_flat flat, rows_flat flat, Int.mul_add, Int.mul_add]
  omega

/-- Twice the error term on a steep line. -/
theorem err_steep (steep : s.width < s.height) (k : Nat) :
    2 * (s.width : Int) - 3 * s.height ≤ 2 * s.err k ∧ 2 * s.err k < 2 * s.width - s.height := by
  have near := rise_bounds s.width (Nat.zero_lt_of_lt steep) k
  rw [err, columns_steep steep, rows_steep steep, Int.mul_add, Int.mul_add]
  omega

theorem err_bounds (moves : 0 < s.steps) (k : Nat) :
    -(3 * 2 ^ 29) ≤ 2 * s.err k ∧ 2 * s.err k ≤ 3 * 2 ^ 29 := by
  have width := s.width_lt
  have height := s.height_lt
  rcases Nat.lt_or_ge s.width s.height with steep | flat
  · have bounds := err_steep steep k
    omega
  · have bounds := err_flat flat moves k
    omega

/-- A step to the side is made exactly if the error term asks for it. -/
theorem columns_succ (moves : 0 < s.steps) (k : Nat) :
    s.columns (k + 1) = if -(s.height : Int) ≤ 2 * s.err k then s.columns k + 1 else s.columns k := by
  rcases Nat.lt_or_ge s.width s.height with steep | flat
  · rw [columns_steep steep, rise_succ (Nat.zero_lt_of_lt steep) (Nat.le_of_lt steep), ← columns_steep steep]
    refine if_congr ?_ rfl rfl
    rw [err, rows_steep steep, Int.mul_add, Int.mul_add]
    omega
  · have bounds := err_flat flat moves k
    rw [columns_flat flat, columns_flat flat, if_pos (by omega)]

/-- Likewise for one up or down. -/
theorem rows_succ (moves : 0 < s.steps) (k : Nat) :
    s.rows (k + 1) = if 2 * s.err k ≤ s.width then s.rows k + 1 else s.rows k := by
  rcases Nat.lt_or_ge s.width s.height with steep | flat
  · have bounds := err_steep steep k
    rw [rows_steep steep, rows_steep steep, if_pos (by omega)]
  · rw [rows_flat flat, rise_succ (by rwa [steps_flat flat] at moves) flat, ← rows_flat flat]
    refine if_congr ?_ rfl rfl
    rw [err, columns_flat flat, Int.mul_add, Int.mul_add]
    omega

/-- The line does not leave its box. -/
theorem columns_le (inside : k ≤ s.steps) : s.columns k ≤ s.width := by
  rcases Nat.lt_or_ge s.width s.height with steep | flat
  · rw [steps_steep steep] at inside
    rw [columns_steep steep]
    exact rise_le (Nat.zero_lt_of_lt steep) inside
  · rw [steps_flat flat] at inside
    rwa [columns_flat flat]

theorem rows_le (inside : k ≤ s.steps) : s.rows k ≤ s.height := by
  rcases Nat.lt_or_ge s.width s.height with steep | flat
  · rw [steps_steep steep] at inside
    rwa [rows_steep steep]
  · rw [steps_flat flat] at inside
    rw [rows_flat flat]
    rcases Nat.eq_zero_or_pos s.width with none | positive
    · rw [none] at inside ⊢
      simp [rise]
    · exact rise_le positive inside

/-- It is at the end point after as many steps as its longer side has, -/
theorem end_iff (inside : k ≤ s.steps) :
    s.columns k = s.width ∧ s.rows k = s.height ↔ k = s.steps := by
  rcases Nat.lt_or_ge s.width s.height with steep | flat
  · rw [columns_steep steep, rows_steep steep, steps_steep steep]
    refine ⟨fun ends => ends.2, ?_⟩
    rintro rfl
    exact ⟨rise_end (Nat.zero_lt_of_lt steep), rfl⟩
  · rw [columns_flat flat, rows_flat flat, steps_flat flat]
    refine ⟨fun ends => ends.1, ?_⟩
    rintro rfl
    rcases Nat.eq_zero_or_pos s.width with none | positive
    · rw [none] at flat ⊢
      simp [rise, Nat.le_zero.mp flat]
    · exact ⟨rfl, rise_end positive⟩

theorem columns_zero (s : Segment) : s.columns 0 = 0 := by
  rcases Nat.lt_or_ge s.width s.height with steep | flat
  · rw [columns_steep steep, rise_zero (Nat.zero_lt_of_lt steep)]
  · rw [columns_flat flat]

theorem rows_zero (s : Segment) : s.rows 0 = 0 := by
  rcases Nat.lt_or_ge s.width s.height with steep | flat
  · rw [rows_steep steep]
  · have bounds := rows_le (s := s) (Nat.zero_le _)
    rw [rows_flat flat] at bounds ⊢
    rcases Nat.eq_zero_or_pos s.width with none | positive
    · rw [none] at flat
      omega
    · exact rise_zero positive

/-! ## The loop -/

/-- What does not change while the segment is drawn. -/
def course (s : Segment) : Course where
  x1 := .ofInt s.x1
  y1 := .ofInt s.y1
  dx := .ofInt s.width
  sx := .ofInt (if s.x0 < s.x1 then 1 else -1)
  dy := .ofInt (-s.height)
  sy := .ofInt (if s.y0 < s.y1 then 1 else -1)

def pen (s : Segment) (k : Nat) : Pen := ⟨.ofInt (s.x k), .ofInt (s.y k), .ofInt (s.err k)⟩

def point (s : Segment) (k : Nat) : Int32 × Int32 := (.ofInt (s.x k), .ofInt (s.y k))

/-- The coordinates stay between those of the end points. -/
theorem x_between (inside : k ≤ s.steps) : min s.x0 s.x1 ≤ s.x k ∧ s.x k ≤ max s.x0 s.x1 := by
  have columns := columns_le inside
  rw [width] at columns
  rw [x]
  split_ifs <;> omega

theorem y_between (inside : k ≤ s.steps) : min s.y0 s.y1 ≤ s.y k ∧ s.y k ≤ max s.y0 s.y1 := by
  have rows := rows_le inside
  rw [height] at rows
  rw [y]
  split_ifs <;> omega

theorem x_range (inside : k ≤ s.steps) : InRange (s.x k) := by
  have between := x_between inside
  have x0 := s.small_x0
  have x1 := s.small_x1
  rw [InRange]
  omega

theorem y_range (inside : k ≤ s.steps) : InRange (s.y k) := by
  have between := y_between inside
  have y0 := s.small_y0
  have y1 := s.small_y1
  rw [InRange]
  omega

theorem x_succ (moves : 0 < s.steps) (k : Nat) :
    s.x (k + 1) = if -(s.height : Int) ≤ 2 * s.err k then
      s.x k + (if s.x0 < s.x1 then 1 else -1) else s.x k := by
  rw [x, x, columns_succ moves]
  split_ifs <;> omega

theorem y_succ (moves : 0 < s.steps) (k : Nat) :
    s.y (k + 1) = if 2 * s.err k ≤ s.width then
      s.y k + (if s.y0 < s.y1 then 1 else -1) else s.y k := by
  rw [y, y, rows_succ moves]
  split_ifs <;> omega

theorem err_succ (moves : 0 < s.steps) (k : Nat) :
    s.err (k + 1) = s.err k + (if -(s.height : Int) ≤ 2 * s.err k then -(s.height : Int) else 0) +
      (if 2 * s.err k ≤ s.width then (s.width : Int) else 0) := by
  rw [err, columns_succ moves, rows_succ moves]
  split_ifs <;> rw [err] <;> push_cast <;> ring

theorem x0_range : InRange s.x0 := by
  have small := s.small_x0
  rw [InRange]
  omega

theorem y0_range : InRange s.y0 := by
  have small := s.small_y0
  rw [InRange]
  omega

theorem x1_range : InRange s.x1 := by
  have small := s.small_x1
  rw [InRange]
  omega

theorem y1_range : InRange s.y1 := by
  have small := s.small_y1
  rw [InRange]
  omega

theorem unit_range (p : Prop) [Decidable p] : InRange (if p then 1 else -1) := by
  split_ifs <;> decide

theorem err_range (moves : 0 < s.steps) (k : Nat) : InRange (s.err k) := by
  have bounds := err_bounds moves k
  rw [InRange]
  omega

theorem double_range (moves : 0 < s.steps) (k : Nat) : InRange (2 * s.err k) := by
  have bounds := err_bounds moves k
  rw [InRange]
  omega

theorem width_range : InRange s.width := by
  have width := s.width_lt
  rw [InRange]
  omega

theorem height_range : InRange (-s.height) := by
  have height := s.height_lt
  rw [InRange]
  omega

/-- The error term after the first half of a round. -/
def halfway (s : Segment) (k : Nat) : Int :=
  s.err k + if -(s.height : Int) ≤ 2 * s.err k then -(s.height : Int) else 0

theorem halfway_range (moves : 0 < s.steps) (k : Nat) : InRange (s.halfway k) := by
  have bounds := err_bounds moves k
  have height := s.height_lt
  rw [InRange, halfway]
  split_ifs <;> omega

theorem pen_column (inside : k < s.steps) :
    (s.pen k).column s.course (.ofInt (2 * s.err k)) =
      some ⟨.ofInt (s.x (k + 1)), .ofInt (s.y k), .ofInt (s.halfway k)⟩ := by
  have moves := Nat.zero_lt_of_lt inside
  have term := halfway_range moves k
  have next := x_range (s := s) (Nat.succ_le_of_lt inside)
  have asked : Int32.ofInt (2 * s.err k) ≥ s.course.dy ↔ -(s.height : Int) ≤ 2 * s.err k :=
    ofInt_le height_range (double_range moves k)
  rw [halfway] at term ⊢
  rw [x_succ moves] at next ⊢
  by_cases asks : -(s.height : Int) ≤ 2 * s.err k
  · rw [if_pos asks] at term next ⊢
    rw [if_pos asks, Pen.column, if_pos (asked.mpr asks)]
    change (add (.ofInt (s.err k)) (.ofInt (-s.height)) >>= fun err =>
      add (.ofInt (s.x k)) (.ofInt (if s.x0 < s.x1 then 1 else -1)) >>= fun x0 => _) = _
    rw [add_ofInt (err_range moves k) height_range term,
      add_ofInt (x_range (Nat.le_of_lt inside)) (unit_range _) next]
    rfl
  · rw [if_neg asks, if_neg asks, Int.add_zero, Pen.column, if_neg (mt asked.mp asks)]
    rfl

theorem pen_row (inside : k < s.steps) :
    Pen.row ⟨.ofInt (s.x (k + 1)), .ofInt (s.y k), .ofInt (s.halfway k)⟩ s.course
      (.ofInt (2 * s.err k)) = some (s.pen (k + 1)) := by
  have moves := Nat.zero_lt_of_lt inside
  have term := err_range moves (k + 1)
  have next := y_range (s := s) (Nat.succ_le_of_lt inside)
  have asked : Int32.ofInt (2 * s.err k) ≤ s.course.dx ↔ 2 * s.err k ≤ s.width :=
    ofInt_le (double_range moves k) width_range
  rw [err_succ moves, ← halfway] at term
  rw [pen, err_succ moves, ← halfway]
  rw [y_succ moves] at next ⊢
  by_cases asks : 2 * s.err k ≤ s.width
  · rw [if_pos asks] at term next ⊢
    rw [if_pos asks, Pen.row, if_pos (asked.mpr asks)]
    change (add (.ofInt (s.halfway k)) (.ofInt s.width) >>= fun err =>
      add (.ofInt (s.y k)) (.ofInt (if s.y0 < s.y1 then 1 else -1)) >>= fun y0 => _) = _
    rw [add_ofInt (halfway_range moves k) width_range term,
      add_ofInt (y_range (Nat.le_of_lt inside)) (unit_range _) next]
    rfl
  · rw [if_neg asks, if_neg asks, Int.add_zero, Pen.row, if_neg (mt asked.mp asks)]

/-- A round takes the pen from one point to the next. -/
theorem move_pen (inside : k < s.steps) : (s.pen k).move s.course = some (s.pen (k + 1)) := by
  have moves := Nat.zero_lt_of_lt inside
  have two : (2 : Int32) = .ofInt 2 := rfl
  have double : mul 2 (s.pen k).err = some (.ofInt (2 * s.err k)) := by
    rw [two]
    exact mul_ofInt (by decide) (err_range moves k) (double_range moves k)
  rw [Pen.move, double]
  simp only [Option.bind_eq_bind, Option.bind_some]
  rw [pen_column inside, Option.bind_some, pen_row inside]

/-- The loop ends at the last point and at no other. -/
theorem pen_last (inside : k ≤ s.steps) :
    ((s.pen k).x0 = s.course.x1 ∧ (s.pen k).y0 = s.course.y1) ↔ k = s.steps := by
  rw [← end_iff inside, pen, course, ofInt_inj (x_range inside) x1_range,
    ofInt_inj (y_range inside) y1_range]
  have columns := columns_le inside
  have rows := rows_le inside
  rw [x, y]
  rw [width] at columns ⊢
  rw [height] at rows ⊢
  split_ifs <;> omega

/-- From a point on the loop draws the points that are left. -/
theorem linePointsLoop_eq (inside : k ≤ s.steps) (enough : s.steps - k < n) :
    linePointsLoop s.course n (s.pen k) = some ((List.range' k (s.steps - k + 1)).map s.point) := by
  induction n generalizing k with
  | zero => cases enough
  | succ n ih =>
    rw [linePointsLoop]
    by_cases last : k = s.steps
    · rw [if_pos ((pen_last inside).mpr last), last, Nat.sub_self]
      rfl
    · have more : k < s.steps := Nat.lt_of_le_of_ne inside last
      rw [if_neg (mt (pen_last inside).mp last), move_pen more]
      simp only [Option.bind_eq_bind, Option.bind_some]
      rw [ih more (by omega), Option.bind_some, show s.steps - k + 1 = s.steps - (k + 1) + 1 + 1 by omega,
        List.range'_succ]
      rfl

/-- `dx`. -/
theorem dx_eq (s : Segment) :
    (if Int32.ofInt s.x1 > .ofInt s.x0 then sub (.ofInt s.x1) (.ofInt s.x0)
      else sub (.ofInt s.x0) (.ofInt s.x1)) = some (.ofInt s.width) := by
  have range := s.width_range
  by_cases right : s.x0 < s.x1
  · have size : (s.width : Int) = s.x1 - s.x0 := by
      rw [width]
      omega
    rw [size] at range ⊢
    rw [if_pos ((ofInt_lt x0_range x1_range).mpr right), sub_ofInt x1_range x0_range range]
  · have size : (s.width : Int) = s.x0 - s.x1 := by
      rw [width]
      omega
    rw [size] at range ⊢
    rw [if_neg (mt (ofInt_lt x0_range x1_range).mp right), sub_ofInt x0_range x1_range range]

/-- `dy`. -/
theorem dy_eq (s : Segment) :
    (if Int32.ofInt s.y1 > .ofInt s.y0 then sub (.ofInt s.y0) (.ofInt s.y1)
      else sub (.ofInt s.y1) (.ofInt s.y0)) = some (.ofInt (-s.height)) := by
  have range := s.height_range
  by_cases down : s.y0 < s.y1
  · have size : -(s.height : Int) = s.y0 - s.y1 := by
      rw [height]
      omega
    rw [size] at range ⊢
    rw [if_pos ((ofInt_lt y0_range y1_range).mpr down), sub_ofInt y0_range y1_range range]
  · have size : -(s.height : Int) = s.y1 - s.y0 := by
      rw [height]
      omega
    rw [size] at range ⊢
    rw [if_neg (mt (ofInt_lt y0_range y1_range).mp down), sub_ofInt y1_range y0_range range]

/-- `sx` and `sy`. -/
theorem sign_eq {a b : Int} (left : InRange a) (right : InRange b) :
    (if Int32.ofInt a < .ofInt b then 1 else -1 : Int32) = .ofInt (if a < b then 1 else -1) := by
  by_cases before : a < b
  · rw [if_pos before, if_pos ((ofInt_lt left right).mpr before)]
    rfl
  · rw [if_neg before, if_neg (mt (ofInt_lt left right).mp before)]
    rfl

theorem x_zero (s : Segment) : s.x 0 = s.x0 := by
  rw [x, columns_zero]
  split_ifs <;> omega

theorem y_zero (s : Segment) : s.y 0 = s.y0 := by
  rw [y, rows_zero]
  split_ifs <;> omega

theorem x_steps (s : Segment) : s.x s.steps = s.x1 := by
  rw [x, ((end_iff (Nat.le_refl _)).mpr rfl).1, width]
  split_ifs <;> omega

theorem y_steps (s : Segment) : s.y s.steps = s.y1 := by
  rw [y, ((end_iff (Nat.le_refl _)).mpr rfl).2, height]
  split_ifs <;> omega

theorem lineStart_eq (s : Segment) :
    lineStart (.ofInt s.x0) (.ofInt s.y0) (.ofInt s.x1) (.ofInt s.y1) = some (s.course, s.pen 0) := by
  have width := s.width_lt
  have height := s.height_lt
  have first : s.err 0 = s.width + -(s.height : Int) := by
    rw [err, columns_zero, rows_zero]
    omega
  have range : InRange (s.width + -(s.height : Int)) := by
    rw [InRange]
    omega
  rw [lineStart, dx_eq, dy_eq, sign_eq x0_range x1_range, sign_eq y0_range y1_range]
  simp only [Option.bind_eq_bind, Option.bind_some]
  rw [add_ofInt width_range height_range range, Option.bind_some, pen, x_zero, y_zero, first]
  rfl

/-- The points of the segment, in the order in which they are drawn. -/
def points (s : Segment) : List (Int32 × Int32) := (List.range (s.steps + 1)).map s.point

theorem linePoints_eq (s : Segment) (enough : s.steps < n) :
    linePoints n (.ofInt s.x0) (.ofInt s.y0) (.ofInt s.x1) (.ofInt s.y1) = some s.points := by
  rw [linePoints, lineStart_eq]
  simp only [Option.bind_eq_bind, Option.bind_some]
  rw [linePointsLoop_eq (Nat.zero_le _) enough, points, List.range_eq_range']
  rfl

theorem points_length (s : Segment) : s.points.length = s.steps + 1 := by simp [points]

theorem points_getElem {k : Nat} (inside : k < s.points.length) : s.points[k] = s.point k := by
  simp [points]

theorem point_x (inside : k ≤ s.steps) : (s.point k).1.toInt = s.x k := toInt_ofInt (x_range inside)

theorem point_y (inside : k ≤ s.steps) : (s.point k).2.toInt = s.y k := toInt_ofInt (y_range inside)

/-- A line that is not steep gets on by one column with each step, -/
theorem x_step (flat : s.height ≤ s.width) (moves : 0 < s.steps) (k : Nat) :
    s.x (k + 1) = s.x k + (s.x1 - s.x0).sign := by
  rw [steps_flat flat, width] at moves
  rw [x, x, columns_flat flat, columns_flat flat]
  split_ifs with right
  · rw [Int.sign_eq_one_of_pos (by omega)]
    omega
  · rw [Int.sign_eq_neg_one_of_neg (by omega)]
    omega

/-- and one that is not flat by one row. -/
theorem y_step (steep : s.width ≤ s.height) (moves : 0 < s.steps) (k : Nat) :
    s.y (k + 1) = s.y k + (s.y1 - s.y0).sign := by
  have asks : 2 * s.err k ≤ s.width := by
    rcases Nat.lt_or_ge s.width s.height with steeper | flat
    · have bounds := err_steep steeper k
      omega
    · have bounds := err_flat flat moves k
      omega
  rw [steps, Nat.max_eq_right steep, height] at moves
  rw [y, y, rows_succ (by rwa [steps, Nat.max_eq_right steep, height]), if_pos asks]
  split_ifs with down
  · rw [Int.sign_eq_one_of_pos (by omega)]
    omega
  · rw [Int.sign_eq_neg_one_of_neg (by omega)]
    omega

end Segment

/-! ## Lines -/

/-- The rounds that a line needs. -/
def rounds (x0 y0 x1 y1 : Int32) : Nat :=
  max (x1.toInt - x0.toInt).natAbs (y1.toInt - y0.toInt).natAbs + 1

/-- The points lead from one end to the other: each step is by one at most along either
axis and by one along each axis that is not the shorter one, inside of the box of the
end points. -/
structure Connects (x0 y0 x1 y1 : Int32) (points : List (Int32 × Int32)) : Prop where
  count : points.length = rounds x0 y0 x1 y1
  first : points.head? = some (x0, y0)
  last : points.getLast? = some (x1, y1)
  near : ∀ k (next : k + 1 < points.length),
    (points[k + 1].1.toInt - points[k].1.toInt).natAbs ≤ 1 ∧
      (points[k + 1].2.toInt - points[k].2.toInt).natAbs ≤ 1
  longer_x : (y1.toInt - y0.toInt).natAbs ≤ (x1.toInt - x0.toInt).natAbs →
    ∀ k (next : k + 1 < points.length),
      points[k + 1].1.toInt = points[k].1.toInt + (x1.toInt - x0.toInt).sign
  longer_y : (x1.toInt - x0.toInt).natAbs ≤ (y1.toInt - y0.toInt).natAbs →
    ∀ k (next : k + 1 < points.length),
      points[k + 1].2.toInt = points[k].2.toInt + (y1.toInt - y0.toInt).sign
  box : ∀ p ∈ points,
    min x0.toInt x1.toInt ≤ p.1.toInt ∧ p.1.toInt ≤ max x0.toInt x1.toInt ∧
      min y0.toInt y1.toInt ≤ p.2.toInt ∧ p.2.toInt ≤ max y0.toInt y1.toInt

theorem connects (s : Segment) :
    Connects (.ofInt s.x0) (.ofInt s.y0) (.ofInt s.x1) (.ofInt s.y1) s.points := by
  have x0 := toInt_ofInt s.x0_range
  have y0 := toInt_ofInt s.y0_range
  have x1 := toInt_ofInt s.x1_range
  have y1 := toInt_ofInt s.y1_range
  have moves {k : Nat} (next : k + 1 < s.points.length) : k < s.steps := by
    rw [s.points_length] at next
    omega
  have here {k : Nat} (next : k + 1 < s.points.length) : s.points[k] = s.point k :=
    Segment.points_getElem _
  have there {k : Nat} (next : k + 1 < s.points.length) : s.points[k + 1] = s.point (k + 1) :=
    Segment.points_getElem _
  refine ⟨?_, ?_, ?_, ?_, ?_, ?_, ?_⟩
  · rw [s.points_length, rounds, x0, y0, x1, y1]
    rfl
  · rw [Segment.points, List.range_succ_eq_map, List.map_cons, List.head?_cons, Segment.point, s.x_zero,
      s.y_zero]
  · rw [Segment.points, List.range_succ, List.map_append, List.map_singleton, List.getLast?_concat,
      Segment.point, s.x_steps, s.y_steps]
  · intro k next
    have inside := moves next
    rw [here next, there next, Segment.point_x inside, Segment.point_y inside,
      Segment.point_x (Nat.le_of_lt inside), Segment.point_y (Nat.le_of_lt inside),
      Segment.x_succ (Nat.zero_lt_of_lt inside), Segment.y_succ (Nat.zero_lt_of_lt inside)]
    constructor
    · split_ifs <;> omega
    · split_ifs <;> omega
  · intro flat k next
    have inside := moves next
    rw [x0, y0, x1, y1] at flat
    rw [here next, there next, Segment.point_x inside, Segment.point_x (Nat.le_of_lt inside), x0, x1]
    exact Segment.x_step flat (Nat.zero_lt_of_lt inside) k
  · intro steep k next
    have inside := moves next
    rw [x0, y0, x1, y1] at steep
    rw [here next, there next, Segment.point_y inside, Segment.point_y (Nat.le_of_lt inside), y0, y1]
    exact Segment.y_step steep (Nat.zero_lt_of_lt inside) k
  · intro p member
    obtain ⟨k, inside, rfl⟩ := List.mem_map.mp member
    have inside := Nat.le_of_lt_succ (List.mem_range.mp inside)
    rw [Segment.point_x inside, Segment.point_y inside, x0, y0, x1, y1]
    have columns := Segment.x_between inside
    have rows := Segment.y_between inside
    exact ⟨columns.1, columns.2, rows.1, rows.2⟩

/-- A coordinate for which no `int` operation overflows. -/
def Small (v : Int32) : Prop := v.toInt.natAbs < 2 ^ 28

instance (v : Int32) : Decidable (Small v) := inferInstanceAs (Decidable (_ < _))

/-- A line between small coordinates draws the points that connect its ends and stops,
without an overflow. -/
theorem drawLine_connects (small_x0 : Small x0) (small_y0 : Small y0) (small_x1 : Small x1)
    (small_y1 : Small y1) :
    ∃ points, Connects x0 y0 x1 y1 points ∧
      ∀ n ≥ rounds x0 y0 x1 y1, linePoints n x0 y0 x1 y1 = some points ∧
        ∀ fb : FbInfo, fb.available = true → ∀ argb,
          framebufferDrawLine fb n x0 y0 x1 y1 argb = plotPoints fb argb points := by
  let s : Segment := ⟨x0.toInt, y0.toInt, x1.toInt, y1.toInt, small_x0, small_y0, small_x1, small_y1⟩
  have connected := connects s
  have points {n : Nat} (enough : n ≥ rounds x0 y0 x1 y1) := s.linePoints_eq (n := n) enough
  simp only [s, Int32.ofInt_toInt] at connected points
  refine ⟨_, connected, fun n enough => ⟨points enough, fun fb available argb => ?_⟩⟩
  exact drawLine_eq available (points enough)

/-- A line that goes down by two in three columns. -/
theorem drawLine_connects_short :
    (Small 0 ∧ Small 3 ∧ Small (-2)) ∧ ∃ points, Connects 0 0 3 (-2) points ∧
      ∀ n ≥ rounds 0 0 3 (-2), linePoints n 0 0 3 (-2) = some points ∧
        ∀ fb : FbInfo, fb.available = true → ∀ argb,
          framebufferDrawLine fb n 0 0 3 (-2) argb = plotPoints fb argb points := by
  have small : Small 0 ∧ Small 3 ∧ Small (-2) := by decide
  exact ⟨small, drawLine_connects small.1 small.1 small.2.1 small.2.2⟩

example : linePoints 4 0 0 3 (-2) = some [(0, 0), (1, -1), (2, -1), (3, -2)] := by decide

end ZynthexOS.LineDrawing
