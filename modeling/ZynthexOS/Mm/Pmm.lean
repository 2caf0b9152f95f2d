import ZynthexOS.Lib.Memory
import ZynthexOS.Lib.Bits
import ZynthexOS.Lib.Scan

/-! `mm/pmm.c`, the physical frame allocator, with the part of the multiboot
information (`core/multiboot.h`) that `pmm_init` reads. The bitmap behind the
kernel image is an array of its own, apart from the memory that holds the
multiboot information. -/
namespace ZynthexOS.Mm
open Lib.Memory Lib.Bits Lib.Scan

/-- `FRAME_SIZE`. -/
def frameSize : Nat := 4096

/-- `MISSING_MEMORY_MAP`. -/
def missingMemoryMap : Nat := 1

/-- The address of the linker symbol `kernel_start`. -/
def kernelStart : Nat := 0x100000

/-- The static variables of `pmm.c`. -/
structure Pmm where
  bitmap : Nat → BitVec 32
  totalFrames : Nat

def setFrame (pmm : Pmm) (frame : Nat) : Pmm :=
  let word := pmm.bitmap (frame / 32)
  { pmm with bitmap := update pmm.bitmap (frame / 32) (word ||| bit 32 (frame % 32)) }

def clearFrame (pmm : Pmm) (frame : Nat) : Pmm :=
  let word := pmm.bitmap (frame / 32)
  { pmm with bitmap := update pmm.bitmap (frame / 32) (word &&& ~~~ bit 32 (frame % 32)) }

/-- The body of the outer loop: the first clear bit of word `i`, unless the word
is `0xFFFFFFFF`. -/
def firstFreeInWord (pmm : Pmm) (i : Nat) : Option Nat :=
  if pmm.bitmap i ≠ 0xFFFFFFFF then
    ((List.range 32).find? fun j => pmm.bitmap i &&& bit 32 j = 0).map (i * 32 + ·)
  else none

/-- `first_free_frame`, `none` being the result -1. Only the whole words of
`total_frames` are looked at. -/
def firstFreeFrame (pmm : Pmm) : Option Nat :=
  (List.range (pmm.totalFrames / 32)).findSome? (firstFreeInWord pmm)

/-- `pmm_alloc_frame`: the address of the frame, 0 for NULL. -/
def pmmAllocFrame (pmm : Pmm) : Pmm × Nat :=
  match firstFreeFrame pmm with
  | none => (pmm, 0)
  | some frame => (setFrame pmm frame, wrap (frame * frameSize))

def pmmFreeFrame (pmm : Pmm) (frame : Nat) : Pmm := clearFrame pmm (frame / frameSize)

def pmmGetFreeFrames (pmm : Pmm) : Nat :=
  (List.range pmm.totalFrames).countP fun i => pmm.bitmap (i / 32) &&& bit 32 (i % 32) = 0

/-! ### `pmm_init` -/

/-- The fields of `multiboot_mmap_entry_t`. -/
structure MmapEntry where
  size : Nat
  addr : Nat
  len : Nat
  type : Nat
  deriving DecidableEq, Repr

def readWordAt (m : Mem) (a : Nat) : Nat := readWord m (wrap a)

def readQuadAt (m : Mem) (a : Nat) : Nat := readWordAt m a + 2 ^ 32 * readWordAt m (a + 4)

def readEntry (m : Mem) (mmap : Nat) : MmapEntry :=
  ⟨readWordAt m mmap, readQuadAt m (mmap + 4), readQuadAt m (mmap + 12), readWordAt m (mmap + 20)⟩

/-- `flags`, `mmap_length` and `mmap_addr` of `multiboot_info_t`. -/
def mbiFlags (m : Mem) (mbi : Nat) : Nat := readWordAt m mbi
def mbiMmapLength (m : Mem) (mbi : Nat) : Nat := readWordAt m (mbi + 44)
def mbiMmapAddr (m : Mem) (mbi : Nat) : Nat := readWordAt m (mbi + 48)

/-- The entries that both loops of `pmm_init` visit up to `stop`. An entry is
followed by the one `size + 4` bytes further on. -/
def mmapEntries (m : Mem) (stop : Nat) : Nat → Nat → Option (List MmapEntry)
  | 0, _ => none
  | fuel + 1, mmap =>
    if mmap < stop then
      let entry := readEntry m mmap
      (mmapEntries m stop fuel (add32 (add32 mmap entry.size) 4)).map (entry :: ·)
    else some []

/-- `region_end`, a 64-bit sum cut to 32 bits. -/
def regionEnd (entry : MmapEntry) : Nat := wrap (entry.addr + entry.len)

/-- The first loop: the highest region end. -/
def highestAddr (entries : List MmapEntry) : Nat :=
  entries.foldl (fun highest entry => if regionEnd entry > highest then regionEnd entry else highest) 0

/-- `start_frame` and `end_frame` of a region, 64-bit quotients cut to 32 bits. -/
def startFrame (entry : MmapEntry) : Nat := wrap (entry.addr / frameSize)
def endFrame (entry : MmapEntry) : Nat := wrap ((entry.addr + entry.len) % 2 ^ 64 / frameSize)

/-- The second loop: the frames of usable regions are marked free. -/
def freeUsable (pmm : Pmm) (entries : List MmapEntry) : Pmm :=
  entries.foldl (fun pmm entry =>
    if entry.type = 1 then
      forRange (fun pmm f => if f < pmm.totalFrames then clearFrame pmm f else pmm)
        (startFrame entry) (endFrame entry) pmm
    else pmm) pmm

def bitmapEntries (totalFrames : Nat) : Nat := (totalFrames + 31) / 32

/-- `memset(bitmap, 0xFF, bitmap_size)`. -/
def markAllUsed (pmm : Pmm) : Pmm :=
  { pmm with bitmap := fun i =>
      if i < bitmapEntries pmm.totalFrames then 0xFFFFFFFF else pmm.bitmap i }

/-- `bitmap_end`, rounded up to a frame. -/
def bitmapEnd (kernelEnd totalFrames : Nat) : Nat :=
  add32 kernelEnd (bitmapEntries totalFrames * 4 + (frameSize - 1)) &&& 0xFFFFF000

/-- The frames of the kernel image and of the bitmap are marked used. -/
def reserveKernel (pmm : Pmm) (kernelEnd : Nat) : Pmm :=
  forRange setFrame (kernelEnd / frameSize) (bitmapEnd kernelEnd pmm.totalFrames / frameSize)
    (forRange setFrame (kernelStart / frameSize) (add32 kernelEnd (frameSize - 1) / frameSize) pmm)

/-- `pmm_init`: the variables and the result, 0 on success. `kernelEnd` is the
address of the linker symbol. -/
def pmmInit (fuel kernelEnd : Nat) (pmm : Pmm) (m : Mem) (mbi : Nat) : Option (Pmm × Nat) :=
  if mbiFlags m mbi &&& (1 <<< 6) = 0 then some (pmm, missingMemoryMap)
  else
    let start := mbiMmapAddr m mbi
    (mmapEntries m (add32 start (mbiMmapLength m mbi)) fuel start).map fun entries =>
      let pmm := { pmm with totalFrames := highestAddr entries / frameSize }
      (reserveKernel (freeUsable (markAllUsed pmm) entries) kernelEnd, 0)

end ZynthexOS.Mm
