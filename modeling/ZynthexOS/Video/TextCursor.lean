import ZynthexOS.Drivers.Mouse
import ZynthexOS.Video.Vga

/-! `video/text_cursor.c`: the mouse pointer of the text screen, which is drawn over the
cell it stands on. -/
namespace ZynthexOS.Video
open Drivers

/-- The variables of `text_cursor.c`, and the screen. -/
structure Pointer where
  tcurCol : Nat
  tcurRow : Nat
  tcurAttr : UInt8
  savedCell : UInt16
  hasSaved : Bool
  accumX : Int32
  accumY : Int32
  screen : Screen

/-- `clamp_u32`. -/
def clampU32 (v max : Nat) : Nat := if v > max then max else v

/-- `restore_cell`. -/
def restoreCell (s : Pointer) : Pointer :=
  if s.hasSaved then
    { s with screen := vgaWriteCell s.screen s.tcurRow s.tcurCol s.savedCell, hasSaved := false }
  else s

/-- The cell of the pointer: a solid block in its colour. -/
def Pointer.block (s : Pointer) : UInt16 := (0xDB : UInt8).toUInt16 ||| s.tcurAttr.toUInt16 <<< 8

/-- `text_cursor_draw`. -/
def textCursorDraw (s : Pointer) : Pointer :=
  let s := restoreCell s
  let s := { s with savedCell := vgaReadCell s.screen s.tcurRow s.tcurCol, hasSaved := true }
  { s with screen := vgaWriteCell s.screen s.tcurRow s.tcurCol s.block }

/-- `text_cursor_init`. -/
def textCursorInit (s : Pointer) (col row : Nat) (attr : UInt8) : Pointer :=
  let s := restoreCell s
  textCursorDraw { s with
    tcurCol := clampU32 col (vgaWidth - 1), tcurRow := clampU32 row (vgaHeight - 1)
    tcurAttr := attr, accumX := 0, accumY := 0 }

theorem toInt_sub_four (large : accum ≥ (4 : Int32)) :
    4 ≤ accum.toInt ∧ (accum - 4).toInt = accum.toInt - 4 := by
  have least : (4 : Int32).toInt ≤ accum.toInt := Int32.le_iff_toInt_le.mp large
  have four : (4 : Int32).toInt = 4 := rfl
  have most := accum.toInt_lt
  rw [Int32.toInt_sub, four, Int.bmod]
  omega

theorem toInt_add_four (small : accum ≤ (-4 : Int32)) :
    accum.toInt ≤ -4 ∧ (accum + 4).toInt = accum.toInt + 4 := by
  have most : accum.toInt ≤ (-4 : Int32).toInt := Int32.le_iff_toInt_le.mp small
  have four : (-4 : Int32).toInt = -4 ∧ (4 : Int32).toInt = 4 := ⟨rfl, rfl⟩
  have least := accum.le_toInt
  rw [Int32.toInt_add, four.2, Int.bmod]
  omega

/-- `while (accum >= 4) { if (pos < last) pos++; accum -= 4; moved = 1; }` -/
def stepsUp (last : Nat) (accum : Int32) (pos : Nat) (moved : Bool) : Int32 × Nat × Bool :=
  if accum ≥ 4 then stepsUp last (accum - 4) (if pos < last then pos + 1 else pos) true
  else (accum, pos, moved)
termination_by accum.toInt.toNat
decreasing_by
  have less := toInt_sub_four (by assumption)
  omega

/-- `while (accum <= -4) { if (pos > 0) pos--; accum += 4; moved = 1; }` -/
def stepsDown (accum : Int32) (pos : Nat) (moved : Bool) : Int32 × Nat × Bool :=
  if accum ≤ -4 then stepsDown (accum + 4) (if pos > 0 then pos - 1 else pos) true
  else (accum, pos, moved)
termination_by (-accum.toInt).toNat
decreasing_by
  have more := toInt_add_four (by assumption)
  omega

/-- `text_cursor_handle_event`, whose `ev` is not NULL. -/
def textCursorHandleEvent (s : Pointer) (ev : MouseEvent) : Pointer :=
  let (accumX, col, moved) := stepsUp (vgaWidth - 1) (s.accumX + .ofInt ev.dx) s.tcurCol false
  let (accumX, col, moved) := stepsDown accumX col moved
  let (accumY, row, moved) := stepsUp (vgaHeight - 1) (s.accumY + .ofInt ev.dy) s.tcurRow moved
  let (accumY, row, moved) := stepsDown accumY row moved
  let s := { s with tcurCol := col, tcurRow := row, accumX := accumX, accumY := accumY }
  if moved then textCursorDraw s else s

end ZynthexOS.Video
