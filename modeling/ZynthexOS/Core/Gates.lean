import ZynthexOS.Lib.Scan
import Mathlib.Algebra.Group.Nat.Defs
import Mathlib.Logic.Function.Basic

/-! `idt_set_gate` and `idt_init` of `core/idt.c`, and the gate that `kernel_boot` adds. The
addresses of the stubs are what the linker makes them. -/
namespace ZynthexOS.Core
open Lib.Scan

/-- `struct idt_entry`. -/
structure IdtEntry where
  offsetLow : UInt16
  selector : UInt16
  zero : UInt8
  typeAttr : UInt8
  offsetHigh : UInt16
  deriving DecidableEq, Repr

/-- The packed bytes of an entry, as a little-endian number. -/
def IdtEntry.raw (e : IdtEntry) : Nat :=
  e.offsetLow.toNat + 2 ^ 16 * e.selector.toNat + 2 ^ 32 * e.zero.toNat + 2 ^ 40 * e.typeAttr.toNat +
    2 ^ 48 * e.offsetHigh.toNat

/-- `IDT_ENTRIES`. -/
def idtEntries : Nat := 256

/-- `idt`, and `limit` and `base` as `idt_load` has loaded them. -/
structure Idt where
  entries : Nat → IdtEntry
  limit : UInt16
  base : UInt32

/-- The entry that `idt_set_gate` stores. -/
def gateEntry (handler : UInt32) : IdtEntry where
  offsetLow := (handler &&& 0xFFFF).toUInt16
  selector := 0x08
  zero := 0
  typeAttr := 0x8E
  offsetHigh := ((handler >>> 16) &&& 0xFFFF).toUInt16

/-- `idt_set_gate`. -/
def idtSetGate (entries : Nat → IdtEntry) (n : Nat) (handler : UInt32) : Nat → IdtEntry :=
  Function.update entries n (gateEntry handler)

/-- `idt_init`, where the table is at `address`. -/
def idtInit (s : Idt) (address : UInt32) (isrHandlers irqHandlers : Nat → UInt32) : Idt :=
  let entries := forRange (fun entries i => Function.update entries i ⟨0, 0, 0, 0, 0⟩) 0 idtEntries s.entries
  let entries := forRange (fun entries i => idtSetGate entries (32 + i) (irqHandlers i)) 0 16 entries
  let entries := forRange (fun entries i => idtSetGate entries i (isrHandlers i)) 0 32 entries
  { entries := entries, limit := .ofNat (8 * idtEntries - 1), base := address }

/-- `idt_init` and `idt_set_gate(0x80, syscall_entry)` in `kernel_boot`. The two arguments more
that `kernel_boot` passes are not parameters of `idt_set_gate`. -/
def bootIdt (s : Idt) (address : UInt32) (isrHandlers irqHandlers : Nat → UInt32) (syscallEntry : UInt32) : Idt :=
  let s := idtInit s address isrHandlers irqHandlers
  { s with entries := idtSetGate s.entries 0x80 syscallEntry }

end ZynthexOS.Core
