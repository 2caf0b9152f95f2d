import ZynthexOS.Drivers.Keyboard
import ZynthexOS.Drivers.Mouse

/-! The hardware interrupts of `isr_handler` in `core/idt.c`. What a handler calls and what
it writes to the ports is listed in its order. `scheduler_tick` may switch to another
task; where it is not switched back, the handler does not go on. -/
namespace ZynthexOS.Core
open Drivers

/-- The state of the devices' drivers. -/
structure Devices where
  keyboard : Keyboard
  mouse : Mouse

/-- A hardware interrupt: its number, what the ports hold and whether `scheduler_tick`
comes back if it is called. -/
structure Irq where
  number : Nat
  inside : 32 ≤ number ∧ number ≤ 47
  scancode : UInt8
  status : UInt8
  data : UInt8
  resumes : Bool

inductive Effect where
  | timerTick
  | schedulerTick
  | syscallEntry
  | outb (write : Outb)
  deriving DecidableEq, Repr

/-- `isr_handler` behind the call of `scheduler_tick`: the drivers and the effects. -/
def isrHandlerRest (s : Devices) (irq : Irq) : Devices × List Effect :=
  if irq.number = 33 then
    let (keyboard, writes) := keyboardIrqHandler s.keyboard irq.scancode
    ({ s with keyboard := keyboard }, (writes ++ picSendEoi 1).map .outb)
  else if irq.number = 44 then
    let (mouse, writes) := mouseIrqHandler s.mouse irq.status irq.data
    ({ s with mouse := mouse }, (writes ++ picSendEoi 12).map .outb)
  else if irq.number = 0x80 then (s, [.syscallEntry])
  else (s, (picSendEoi (.ofNat (irq.number - 32))).map .outb)

/-- `isr_handler` for the interrupts 32 to 47: the drivers, the effects and whether it
returns. Only the call of `timer_tick` belongs to the first `if`. -/
def isrHandlerIrq (s : Devices) (irq : Irq) : Devices × List Effect × Bool :=
  let ticks := (if irq.number = 32 then [.timerTick] else []) ++ [.schedulerTick]
  if irq.resumes then
    let (s, effects) := isrHandlerRest s irq
    (s, ticks ++ effects, true)
  else (s, ticks, false)

end ZynthexOS.Core
