import ZynthexOS.Drivers.Pic
import Mathlib.Logic.Function.Basic

/-! `drivers/mouse.c`. The interrupt handler is given the status and the byte it reads
from the ports. -/
namespace ZynthexOS.Drivers

/-- `MOUSE_BUF_SIZE`. -/
def mouseBufSize : Nat := 32

/-- `mouse_event_t`. -/
structure MouseEvent where
  dx : Int
  dy : Int
  scroll : Int
  buttons : UInt8
  deriving DecidableEq, Repr

/-- The variables of `mouse.c`. -/
structure Mouse where
  mouseBuffer : Nat → MouseEvent
  bufHead : Nat
  bufTail : Nat
  packet : Nat → UInt8
  packetIndex : Nat
  hasWheel : Bool

/-- `buffer_empty` and `buffer_full`. -/
def bufferEmpty (s : Mouse) : Bool := s.bufHead = s.bufTail

def bufferFull (s : Mouse) : Bool := (s.bufHead + 1) % mouseBufSize = s.bufTail

/-- `buffer_push`. -/
def bufferPush (s : Mouse) (ev : MouseEvent) : Mouse :=
  if bufferFull s then s
  else
    { s with
      mouseBuffer := Function.update s.mouseBuffer s.bufHead ev
      bufHead := (s.bufHead + 1) % mouseBufSize }

/-- `mouse_has_event`. -/
def mouseHasEvent (s : Mouse) : Bool := !bufferEmpty s

/-- `mouse_read_event`, whose `out` is not NULL: the state and what is written to `out`. -/
def mouseReadEvent (s : Mouse) : Mouse × Option MouseEvent :=
  if bufferEmpty s then (s, none)
  else ({ s with bufTail := (s.bufTail + 1) % mouseBufSize }, some (s.mouseBuffer s.bufTail))

/-- `mouse_init`, where the mouse answers the probe for a wheel with `id`. -/
def mouseInit (s : Mouse) (id : UInt8) : Mouse :=
  { s with bufHead := 0, bufTail := 0, packetIndex := 0, hasWheel := id = 3 }

/-- The bytes of a packet. -/
def needed (hasWheel : Bool) : Nat := if hasWheel then 4 else 3

/-- A byte as `int8_t`. -/
def int8 (byte : UInt8) : Int := byte.toInt8.toInt

/-- The event of a complete packet. -/
def packetEvent (hasWheel : Bool) (packet : Nat → UInt8) : MouseEvent where
  dx := int8 (packet 1)
  dy := -int8 (packet 2)
  scroll := if hasWheel then int8 (packet 3) else 0
  buttons := packet 0 &&& 0x07

/-- `mouse_irq_handler`: the state and what it writes to the ports. -/
def mouseIrqHandler (s : Mouse) (status data : UInt8) : Mouse × List Outb :=
  if status &&& 0x20 = 0 then (s, picSendEoi 12)
  else
    let s := { s with
      packet := Function.update s.packet s.packetIndex data
      packetIndex := s.packetIndex + 1 }
    if s.packetIndex < needed s.hasWheel then (s, picSendEoi 12)
    else
      let s := { s with packetIndex := 0 }
      (bufferPush s (packetEvent s.hasWheel s.packet), picSendEoi 12)

/-! ## The cases of an interrupt -/

/-- What stands in `packet` once it is complete. -/
def Mouse.packetBytes (s : Mouse) : List UInt8 := (List.range (needed s.hasWheel)).map s.packet

/-- The bytes assembled so far with one more. -/
def Mouse.store (s : Mouse) (data : UInt8) (packetIndex : Nat) : Mouse :=
  { s with packet := Function.update s.packet s.packetIndex data, packetIndex := packetIndex }

theorem mouseIrqHandler_other (s : Mouse) (data : UInt8) (other : status &&& 0x20 = 0) :
    (mouseIrqHandler s status data).1 = s := by
  rw [mouseIrqHandler, if_pos other]

theorem mouseIrqHandler_assembles (data : UInt8) (mine : status &&& 0x20 ≠ 0)
    (short : s.packetIndex + 1 < needed s.hasWheel) :
    (mouseIrqHandler s status data).1 = s.store data (s.packetIndex + 1) := by
  rw [mouseIrqHandler, if_neg mine]
  dsimp only
  rw [if_pos short]
  rfl

theorem mouseIrqHandler_complete (data : UInt8) (mine : status &&& 0x20 ≠ 0)
    (last : ¬ s.packetIndex + 1 < needed s.hasWheel) :
    (mouseIrqHandler s status data).1 =
      bufferPush (s.store data 0) (packetEvent s.hasWheel (s.store data 0).packet) := by
  rw [mouseIrqHandler, if_neg mine]
  dsimp only
  rw [if_neg last]
  rfl

/-- An interrupt is acknowledged once, whatever is read from the ports. -/
theorem mouseIrqHandler_outb (s : Mouse) (status data : UInt8) :
    (mouseIrqHandler s status data).2 = picSendEoi 12 := by
  rw [mouseIrqHandler]
  dsimp only
  split_ifs <;> rfl

/-! ## The indices -/

/-- The indices of the queue lie in the buffer, as they do from the start on. -/
structure Indexed (s : Mouse) : Prop where
  head : s.bufHead < mouseBufSize
  tail : s.bufTail < mouseBufSize

/-- How many events stand between the indices. -/
def Mouse.between (s : Mouse) : Nat := (s.bufHead + mouseBufSize - s.bufTail) % mouseBufSize

theorem Indexed.irq (indexed : Indexed s) (status data : UInt8) :
    Indexed (mouseIrqHandler s status data).1 := by
  have next : (s.bufHead + 1) % mouseBufSize < mouseBufSize := Nat.mod_lt _ (by decide)
  rw [mouseIrqHandler]
  dsimp only
  split_ifs
  · exact indexed
  · exact ⟨indexed.head, indexed.tail⟩
  · rw [bufferPush]
    split_ifs
    · exact ⟨indexed.head, indexed.tail⟩
    · exact ⟨next, indexed.tail⟩

/-- A call that returns an event brings the indices one closer. -/
theorem Indexed.read (indexed : Indexed s) (returned : mouseReadEvent s = (s', some ev)) :
    Indexed s' ∧ s'.between < s.between := by
  have head : s.bufHead < 32 := indexed.head
  have tail : s.bufTail < 32 := indexed.tail
  rw [mouseReadEvent, bufferEmpty] at returned
  split_ifs at returned with empty
  · exact nomatch (Prod.mk.inj returned).2
  · obtain ⟨rfl, -⟩ := Prod.mk.inj returned
    rw [decide_eq_true_eq] at empty
    refine ⟨⟨head, Nat.mod_lt _ (Nat.zero_lt_succ 31)⟩, ?_⟩
    simp only [Mouse.between, mouseBufSize]
    omega

end ZynthexOS.Drivers
