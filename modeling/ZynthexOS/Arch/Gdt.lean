import Mathlib.Algebra.Group.Nat.Defs
import Mathlib.Logic.Function.Basic
import Mathlib.Tactic.Common

/-! `arch/x86/gdt.c`, and of `arch/x86/tss.c` what concerns the GDT. -/
namespace ZynthexOS.Arch

/-- `struct gdt_entry`. -/
structure GdtEntry where
  limitLow : UInt16
  baseLow : UInt16
  baseMiddle : UInt8
  access : UInt8
  granularity : UInt8
  baseHigh : UInt8
  deriving DecidableEq, Repr

/-- The packed bytes of an entry, as a little-endian number. -/
def GdtEntry.raw (e : GdtEntry) : Nat :=
  e.limitLow.toNat + 2 ^ 16 * e.baseLow.toNat + 2 ^ 32 * e.baseMiddle.toNat + 2 ^ 40 * e.access.toNat +
    2 ^ 48 * e.granularity.toNat + 2 ^ 56 * e.baseHigh.toNat

/-- `GDT_ENTRIES`. -/
def gdtEntries : Nat := 6

/-- `gdt`, and `limit` and `base` as `gdt_flush` has loaded them. -/
structure Gdt where
  entries : Nat → GdtEntry
  limit : UInt16
  base : UInt32

/-- The entry that `gdt_set_entry` stores. -/
def segmentEntry (base limit : UInt32) (access gran : UInt8) : GdtEntry where
  limitLow := (limit &&& 0xFFFF).toUInt16
  baseLow := (base &&& 0xFFFF).toUInt16
  baseMiddle := ((base >>> 16) &&& 0xFF).toUInt8
  access := access
  granularity := ((limit >>> 16) &&& 0x0F).toUInt8 ||| (gran &&& 0xF0)
  baseHigh := ((base >>> 24) &&& 0xFF).toUInt8

/-- `gdt_set_entry`. -/
def gdtSetEntry (s : Gdt) (num : Nat) (base limit : UInt32) (access gran : UInt8) : Gdt :=
  { s with entries := Function.update s.entries num (segmentEntry base limit access gran) }

/-- `gdt_init`, where the table is at `address`. -/
def gdtInit (s : Gdt) (address : UInt32) : Gdt :=
  let s := gdtSetEntry s 0 0 0 0 0
  let s := gdtSetEntry s 1 0 0xFFFFFFFF 0x9A 0xCF
  let s := gdtSetEntry s 2 0 0xFFFFFFFF 0x92 0xCF
  let s := gdtSetEntry s 3 0 0xFFFFFFFF 0xFA 0xCF
  let s := gdtSetEntry s 4 0 0xFFFFFFFF 0xF2 0xCF
  { s with limit := .ofNat (8 * gdtEntries - 1), base := address }

/-- `sizeof(struct tss_entry)`. -/
def tssSize : UInt32 := 104

/-- `tss_init`, where `tss` is at this address. -/
def tssInit (s : Gdt) (tss : UInt32) : Gdt := gdtSetEntry s 5 tss tssSize 0x89 0x40

/-- The selectors that `gdt_flush` loads into `cs` and `tss_flush` into the task register. -/
def codeSelector : Nat := 0x08

def taskSelector : Nat := 0x28

end ZynthexOS.Arch
