import ZynthexOS.Video.Framebuffer
import ZynthexOS.Video.TextCursor

/-! `video/cursor.c`: the mouse pointer of the framebuffer, and the loops in which it and the
one of the text screen take the events of the mouse. -/
namespace ZynthexOS.Video
open Drivers

/-- The variables of `cursor.c`. -/
structure Cursor where
  curX : UInt32
  curY : UInt32
  curColor : UInt32
  curSize : UInt32

/-- The variables before any code has run. -/
def cursorStatics : Cursor := ⟨0, 0, 0x00FFFFFF, 5⟩

/-- `clamp_u32` of `cursor.c`. -/
def Cursor.clampU32 (val min max : UInt32) : UInt32 :=
  if val < min then min else if val > max then max else val

/-- `cursor_draw`. -/
def cursorDraw (fb : FbInfo) (c : Cursor) : Drawing :=
  if ¬ fb.available then []
  else
    let half := c.curSize / 2
    let startX := c.curX.toInt32 - half.toInt32
    let startY := c.curY.toInt32 - half.toInt32
    let clampedX := if startX < 0 then 0 else startX.toUInt32
    let clampedY := if startY < 0 then 0 else startY.toUInt32
    let w := if clampedX + c.curSize > fb.width then fb.width - clampedX else c.curSize
    let h := if clampedY + c.curSize > fb.height then fb.height - clampedY else c.curSize
    framebufferFillRect fb clampedX clampedY w h c.curColor

/-- `cursor_init`. -/
def cursorInit (fb : FbInfo) (x y color : UInt32) : Cursor × Drawing :=
  let c := ⟨x, y, color, 5⟩
  (c, cursorDraw fb c)

/-- `cursor_handle_event`, whose `ev` is not NULL. -/
def cursorHandleEvent (fb : FbInfo) (c : Cursor) (ev : MouseEvent) : Cursor × Drawing :=
  let nx := c.curX.toInt32 + .ofInt ev.dx
  let ny := c.curY.toInt32 + .ofInt ev.dy
  let c :=
    if fb.available ∧ fb.width > 0 ∧ fb.height > 0 then
      { c with
        curX := Cursor.clampU32 (if nx < 0 then 0 else nx.toUInt32) 0 (fb.width - 1)
        curY := Cursor.clampU32 (if ny < 0 then 0 else ny.toUInt32) 0 (fb.height - 1) }
    else c
  (c, cursorDraw fb c)

/-- A mouse whose indices lie in the buffer. -/
abbrev IndexedMouse := { m : Mouse // Indexed m }

/-- `while (mouse_read_event(&ev)) handle(&ev);` -/
def whileEvents (handle : σ → MouseEvent → σ) (s : σ) (m : IndexedMouse) : σ × IndexedMouse :=
  match returned : mouseReadEvent m.1 with
  | (_, none) => (s, m)
  | (m', some ev) => whileEvents handle (handle s ev) ⟨m', (m.2.read returned).1⟩
termination_by m.1.between
decreasing_by exact (m.2.read returned).2

theorem whileEvents_none {handle : σ → MouseEvent → σ} (returned : mouseReadEvent m.1 = (m', none)) :
    whileEvents handle s m = (s, m) := by
  rw [whileEvents]
  split
  next => rfl
  next other => exact nomatch (Prod.mk.inj (returned.symm.trans other)).2

theorem whileEvents_some {handle : σ → MouseEvent → σ} (returned : mouseReadEvent m.1 = (m', some ev)) :
    whileEvents handle s m = whileEvents handle (handle s ev) ⟨m', (m.2.read returned).1⟩ := by
  rw [whileEvents]
  split
  next other => exact nomatch (Prod.mk.inj (returned.symm.trans other)).2
  next other =>
    obtain ⟨rfl, same⟩ := Prod.mk.inj (returned.symm.trans other)
    cases same
    rfl

/-- `cursor_tick`, with what has been drawn before. -/
def cursorTick (fb : FbInfo) (c : Cursor × Drawing) (m : IndexedMouse) : (Cursor × Drawing) × IndexedMouse :=
  whileEvents (fun (c, drawn) ev =>
    let (c, more) := cursorHandleEvent fb c ev
    (c, drawn ++ more)) c m

/-- `text_cursor_tick`. -/
def textCursorTick (s : Pointer) (m : IndexedMouse) : Pointer × IndexedMouse :=
  whileEvents textCursorHandleEvent s m

end ZynthexOS.Video
