import Mathlib.Tactic.Common

/-! `drivers/pic.c`. What a driver writes to the ports is listed in
the order it is written. -/
namespace ZynthexOS.Drivers

/-- One `outb`. -/
structure Outb where
  port : UInt16
  value : UInt8
  deriving DecidableEq, Repr

/-- The end of interrupt as the master and the slave get it. -/
def masterEoi : Outb := ⟨0x20, 0x20⟩

def slaveEoi : Outb := ⟨0xA0, 0x20⟩

/-- `pic_send_eoi`. -/
def picSendEoi (irq : UInt8) : List Outb := (if irq ≥ 8 then [slaveEoi] else []) ++ [masterEoi]

/-- `pic_remap`, where the data ports hold `a1` and `a2`. -/
def picRemap (a1 a2 : UInt8) : List Outb :=
  [ ⟨0x20, 0x11⟩, ⟨0xA0, 0x11⟩
  , ⟨0x21, 0x20⟩, ⟨0xA1, 0x28⟩
  , ⟨0x21, 4⟩, ⟨0xA1, 2⟩
  , ⟨0x21, 0x01⟩, ⟨0xA1, 0x01⟩
  , ⟨0x21, a1⟩, ⟨0xA1, a2⟩ ]

end ZynthexOS.Drivers
