import ZynthexOS.Core.Irq
import ZynthexOS.Video.Cursor

/-! `core/time.c`. The timer counts in interrupt 32; whatever else runs leaves its variables
alone. A call of `sleep` is given what happens between the steps of its loop. -/
namespace ZynthexOS.Core
open Drivers Video

/-- What `timer_tick` uses of other files: the drivers, `mouse_enabled`, the framebuffer and
both mouse pointers, with what has been drawn of them. -/
structure Desktop where
  devices : Devices
  indexed : Indexed devices.mouse
  mouseEnabled : Bool
  framebuffer : FbInfo
  cursor : Cursor
  drawn : Drawing
  textCursor : Pointer

/-- The variables of `time.c`, and the rest. -/
structure Clock where
  ticks : UInt32
  seconds : UInt32
  desktop : Desktop

/-- The mouse without the events that have been read. -/
def Desktop.setMouse (d : Desktop) (m : IndexedMouse) : Desktop :=
  { d with devices := { d.devices with mouse := m.1 }, indexed := m.2 }

/-- The pointer follows the mouse, if that is enabled. -/
def Desktop.moveCursor (d : Desktop) : Desktop :=
  if d.mouseEnabled then
    if d.framebuffer.available then
      let ((cursor, drawn), mouse) :=
        cursorTick d.framebuffer (d.cursor, d.drawn) ⟨d.devices.mouse, d.indexed⟩
      { d.setMouse mouse with cursor := cursor, drawn := drawn }
    else
      let (textCursor, mouse) := textCursorTick d.textCursor ⟨d.devices.mouse, d.indexed⟩
      { d.setMouse mouse with textCursor := textCursor }
  else d

/-- `timer_tick`. -/
def timerTick (s : Clock) : Clock :=
  let s := { s with ticks := s.ticks + 1 }
  let s := { s with desktop := s.desktop.moveCursor }
  if s.ticks % 100 = 0 then { s with seconds := s.seconds + 1 } else s

/-- `timer_get_seconds`. -/
def timerGetSeconds (s : Clock) : UInt32 := s.seconds

/-! ## Interrupts -/

theorem Indexed.isrHandlerRest {s : Devices} (indexed : Indexed s.mouse) (irq : Irq) :
    Indexed (isrHandlerRest s irq).1.mouse := by
  rw [Core.isrHandlerRest]
  split_ifs
  · exact indexed
  · exact indexed.irq irq.status irq.data
  · exact indexed
  · exact indexed

theorem Indexed.isrHandlerIrq {s : Devices} (indexed : Indexed s.mouse) (irq : Irq) :
    Indexed (isrHandlerIrq s irq).1.mouse := by
  rw [Core.isrHandlerIrq]
  cases irq.resumes with
  | true => exact Indexed.isrHandlerRest indexed irq
  | false => exact indexed

/-- What an interrupt does to the drivers. -/
def Desktop.handle (d : Desktop) (irq : Irq) : Desktop :=
  { d with devices := (isrHandlerIrq d.devices irq).1, indexed := Indexed.isrHandlerIrq d.indexed irq }

/-- What the handler calls. -/
def Clock.perform (s : Clock) : Effect → Clock
  | .timerTick => timerTick s
  | .schedulerTick | .syscallEntry | .outb _ => s

/-- A hardware interrupt. The one that calls `timer_tick` leaves the drivers alone. -/
def Clock.interrupt (s : Clock) (irq : Irq) : Clock :=
  (isrHandlerIrq s.desktop.devices irq).2.1.foldl Clock.perform
    { s with desktop := s.desktop.handle irq }

/-- An interrupt, or other code, which leaves anything but the variables of `time.c`. -/
inductive Activity where
  | interrupt (irq : Irq)
  | code (desktop : Desktop)

def Clock.act (s : Clock) : Activity → Clock
  | .interrupt irq => s.interrupt irq
  | .code desktop => { s with desktop := desktop }

/-! ## Sleeping -/

/-- What happens while `sleep` goes through its loop once: what comes before it tests the
condition, what comes between the test and `hlt`, and the interrupt that ends the `hlt`. -/
structure Round where
  beforeTest : List Activity
  beforeHlt : List Activity
  wakes : Irq

def Round.activities (r : Round) : List Activity := r.beforeTest ++ r.beforeHlt ++ [.interrupt r.wakes]

/-- The loop of `sleep`: the state in which it ends, if it does, and all that has happened
until then. -/
def sleepLoop (start waitTicks : UInt32) : Clock → List Round → Option (Clock × List Activity)
  | _, [] => none
  | s, round :: rounds =>
    let s := round.beforeTest.foldl Clock.act s
    if s.ticks - start < waitTicks then
      let s := round.beforeHlt.foldl Clock.act s
      (sleepLoop start waitTicks (s.interrupt round.wakes) rounds).map fun (s, later) =>
        (s, round.activities ++ later)
    else some (s, round.beforeTest)

/-- `sleep`. -/
def sleep (s : Clock) (ms : UInt32) (rounds : List Round) : Option (Clock × List Activity) :=
  sleepLoop s.ticks (ms / 10) s rounds

end ZynthexOS.Core
