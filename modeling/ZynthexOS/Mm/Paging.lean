import ZynthexOS.Mm.Pmm

/-! `mm/paging.c`. The directory and the cache of table pointers are static
arrays; the tables are frames of physical memory, of which the model keeps the
words by their address. Loading `cr3` and flushing the TLB have no counterpart. -/
namespace ZynthexOS.Mm
open Lib.Memory Lib.Bits Lib.Scan

/-- `PAGE_SIZE`. -/
def pageSize : Nat := 4096

/-- `PAGE_ENTRIES`. -/
def pageEntries : Nat := 1024

/-- `PRESENT | WRITABLE`. -/
def presentWritable : Nat := 0x1 ||| 0x2

/-- The allocator, `page_directory`, `page_tables` and physical memory. -/
structure Vm where
  pmm : Pmm
  directory : Nat → Nat
  tables : Nat → Nat
  phys : Nat → Nat

/-- `array[i] = value`, for an array of words or for words by address. -/
def assign (words : Nat → Nat) (i value : Nat) : Nat → Nat :=
  fun k => if k = i then value else words k

/-- `table[i] = value`. -/
def storeEntry (phys : Nat → Nat) (table i value : Nat) : Nat → Nat :=
  assign phys (table + 4 * i) value

/-- `for (i = 0; i < PAGE_ENTRIES; i++) table[i] = 0`. -/
def clearTable (phys : Nat → Nat) (table : Nat) : Nat → Nat :=
  forRange (fun phys i => storeEntry phys table i 0) 0 pageEntries phys

/-- `paging_init`. -/
def pagingInit (vm : Vm) : Vm :=
  let directory := forRange (fun words i => assign words i 0) 0 pageEntries vm.directory
  let tables := forRange (fun words i => assign words i 0) 0 pageEntries vm.tables
  let (pmm, firstTable) := pmmAllocFrame vm.pmm
  let phys := clearTable vm.phys firstTable
  let phys := forRange
    (fun phys i => storeEntry phys firstTable i (i * pageSize ||| presentWritable)) 1 pageEntries phys
  { pmm := pmm
    directory := assign directory 0 (firstTable ||| presentWritable)
    tables := assign tables 0 firstTable
    phys := phys }

/-- The new page table of `map_page`, when the cache has none. -/
def ensureTable (vm : Vm) (dirIndex : Nat) : Vm :=
  if vm.tables dirIndex = 0 then
    let (pmm, table) := pmmAllocFrame vm.pmm
    { pmm := pmm
      directory := assign vm.directory dirIndex (table ||| presentWritable)
      tables := assign vm.tables dirIndex table
      phys := clearTable vm.phys table }
  else vm

/-- `map_page`. -/
def mapPage (vm : Vm) (virtualAddr physicalAddr : UInt32) : Vm :=
  let dirIndex := virtualAddr.toNat >>> 22
  let tableIndex := (virtualAddr.toNat >>> 12) &&& 0x03FF
  let vm := ensureTable vm dirIndex
  let entry := physicalAddr.toNat &&& 0xFFFFF000 ||| presentWritable
  { vm with phys := storeEntry vm.phys (vm.tables dirIndex) tableIndex entry }

/-- The processor's walk from the directory: the frame address that a virtual
address is translated to, if it is present. -/
def translate (vm : Vm) (virtualAddr : UInt32) : Option Nat :=
  let pde := vm.directory (virtualAddr.toNat >>> 22)
  if pde &&& 0x1 = 0 then none
  else
    let pte := vm.phys ((pde &&& 0xFFFFF000) + 4 * ((virtualAddr.toNat >>> 12) &&& 0x03FF))
    if pte &&& 0x1 = 0 then none else some (pte &&& 0xFFFFF000)

end ZynthexOS.Mm
