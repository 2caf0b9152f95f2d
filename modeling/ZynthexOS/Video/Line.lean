import ZynthexOS.Lib.Checked
import ZynthexOS.Video.Framebuffer

/-! The points of `framebuffer_draw_line` in `video/framebuffer.c`, whose `int`
operations are checked: there are none if one of them overflows, or if the rounds the
loop is given do not get it to its end. -/
namespace ZynthexOS.Video
open Lib.Checked

/-- The variables that the loop changes. -/
structure Pen where
  x0 : Int32
  y0 : Int32
  err : Int32

/-- The ones that it does not. -/
structure Course where
  x1 : Int32
  y1 : Int32
  dx : Int32
  sx : Int32
  dy : Int32
  sy : Int32

/-- `if (e2 >= dy) { err += dy; x0 += sx; }`. -/
def Pen.column (pen : Pen) (course : Course) (e2 : Int32) : Option Pen := do
  if e2 ≥ course.dy then
    let err ← add pen.err course.dy
    let x0 ← add pen.x0 course.sx
    some { pen with x0 := x0, err := err }
  else some pen

/-- `if (e2 <= dx) { err += dx; y0 += sy; }`. -/
def Pen.row (pen : Pen) (course : Course) (e2 : Int32) : Option Pen := do
  if e2 ≤ course.dx then
    let err ← add pen.err course.dx
    let y0 ← add pen.y0 course.sy
    some { pen with y0 := y0, err := err }
  else some pen

/-- What a round does that does not end the loop. -/
def Pen.move (pen : Pen) (course : Course) : Option Pen := do
  let e2 ← mul 2 pen.err
  let moved ← pen.column course e2
  moved.row course e2

/-- The points that the loop draws in at most `n` rounds. -/
def linePointsLoop (course : Course) : Nat → Pen → Option (List (Int32 × Int32))
  | 0, _ => none
  | n + 1, pen =>
    if pen.x0 = course.x1 ∧ pen.y0 = course.y1 then some [(pen.x0, pen.y0)]
    else do
      let moved ← pen.move course
      let points ← linePointsLoop course n moved
      some ((pen.x0, pen.y0) :: points)

/-- What is set up before the loop. -/
def lineStart (x0 y0 x1 y1 : Int32) : Option (Course × Pen) := do
  let dx ← (if x1 > x0 then sub x1 x0 else sub x0 x1 : Option Int32)
  let sx := if x0 < x1 then 1 else -1
  let dy ← (if y1 > y0 then sub y0 y1 else sub y1 y0 : Option Int32)
  let sy := if y0 < y1 then 1 else -1
  let err ← add dx dy
  some (⟨x1, y1, dx, sx, dy, sy⟩, ⟨x0, y0, err⟩)

/-- The points of a line. -/
def linePoints (n : Nat) (x0 y0 x1 y1 : Int32) : Option (List (Int32 × Int32)) := do
  let (course, pen) ← lineStart x0 y0 x1 y1
  linePointsLoop course n pen

/-- `framebuffer_putpixel` for a list of points. -/
def plotPoints (fb : FbInfo) (argb : UInt32) (points : List (Int32 × Int32)) : Drawing :=
  points.flatMap fun p => framebufferPutpixel fb p.1.toUInt32 p.2.toUInt32 argb

/-! ## The line that is drawn -/

variable {fb : FbInfo} {argb : UInt32} {course : Course} {pen moved : Pen}

theorem column_eq (done : pen.column course e2 = some moved) :
    moved = if e2 ≥ course.dy then { pen with x0 := pen.x0 + course.sx, err := pen.err + course.dy }
      else pen := by
  rw [Pen.column] at done
  split_ifs at done ⊢ with steps
  · simp only [Option.bind_eq_bind, Option.bind_eq_some_iff, Option.some.injEq] at done
    obtain ⟨err, sum, x0, sum', rfl⟩ := done
    rw [add_eq sum, add_eq sum']
  · exact (Option.some.inj done).symm

theorem row_eq (done : pen.row course e2 = some moved) :
    moved = if e2 ≤ course.dx then { pen with y0 := pen.y0 + course.sy, err := pen.err + course.dx }
      else pen := by
  rw [Pen.row] at done
  split_ifs at done ⊢ with steps
  · simp only [Option.bind_eq_bind, Option.bind_eq_some_iff, Option.some.injEq] at done
    obtain ⟨err, sum, y0, sum', rfl⟩ := done
    rw [add_eq sum, add_eq sum']
  · exact (Option.some.inj done).symm

/-- Where no operation overflows, the loop draws the points. -/
theorem drawLineLoop_eq (fb : FbInfo) (argb : UInt32) (drawn : linePointsLoop course n pen = some points) :
    drawLineLoop fb argb course.x1 course.y1 course.dx course.sx course.dy course.sy n pen.x0 pen.y0
      pen.err = plotPoints fb argb points := by
  induction n generalizing pen points with
  | zero => cases drawn
  | succ n ih =>
    rw [linePointsLoop] at drawn
    rw [drawLineLoop]
    split_ifs at drawn ⊢ with last
    · cases drawn
      simp [plotPoints]
    · simp only [Option.bind_eq_bind, Option.bind_eq_some_iff, Option.some.injEq, Pen.move] at drawn
      obtain ⟨_, ⟨e2, double, between, columns, rows⟩, rest, recursive, rfl⟩ := drawn
      rw [mul_eq double] at columns rows
      rw [plotPoints, List.flatMap_cons, ← plotPoints, ← ih recursive, row_eq rows, column_eq columns]
      dsimp only
      split_ifs <;> rfl

theorem drawLine_eq (available : fb.available = true) (drawn : linePoints n x0 y0 x1 y1 = some points) :
    framebufferDrawLine fb n x0 y0 x1 y1 argb = plotPoints fb argb points := by
  simp only [linePoints, lineStart, Option.bind_eq_bind, Option.bind_eq_some_iff, Option.some.injEq] at drawn
  obtain ⟨_, ⟨dx, width, dy, height, err, sum, rfl⟩, recursive⟩ := drawn
  have loop := drawLineLoop_eq fb argb recursive
  rw [framebufferDrawLine, if_neg (not_not.mpr available), ← loop, add_eq sum]
  split_ifs at width height ⊢ <;> rw [sub_eq width, sub_eq height]

end ZynthexOS.Video
