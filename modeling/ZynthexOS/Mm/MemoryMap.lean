import ZynthexOS.Mm.Pmm
import ZynthexOS.Video.Vga

/-! The walks over the memory map in `mm/pmm.c` and `core/multiboot.c`, each written out
where the others are. Here `pmm_init` stores its bitmap to the memory that it reads the map
from, and the fields read of the entries are recorded. -/
namespace ZynthexOS.Mm
open Lib.Memory Lib.Scan Text Video

/-- The fields of `multiboot_mmap_entry_t`, which is packed. -/
inductive EntryField where
  | size
  | addr
  | len
  | type
  deriving DecidableEq, Repr

def EntryField.offset : EntryField → Nat
  | .size => 0
  | .addr => 4
  | .len => 12
  | .type => 20

/-- How many bytes it takes. -/
def EntryField.bytes : EntryField → Nat
  | .size | .type => 4
  | .addr | .len => 8

/-- Memory, the fields that have been read so far with the entry of each, and what the body
of the loop keeps. -/
structure MapWalk (σ : Type) where
  memory : Mem
  reads : List (Nat × EntryField)
  kept : σ

/-- Fields of an entry are read. -/
def MapWalk.read (w : MapWalk σ) (mmap : Nat) (fields : List EntryField) : MapWalk σ :=
  { w with reads := w.reads ++ fields.map (mmap, ·) }

/-- `mbi->mmap_addr + mbi->mmap_length`. -/
def mapStop (m : Mem) (mbi : Nat) : Nat := add32 (mbiMmapAddr m mbi) (mbiMmapLength m mbi)

/-- The entry behind an entry. -/
def nextEntry (m : Mem) (mmap : Nat) : Nat := add32 (add32 mmap (readWordAt m mmap)) 4

/-- The `while` loop of the three walks with at most `n` tests of its condition: whether it
has ended, and what it leaves. -/
def walkMap (mbi : Nat) (body : Nat → MapWalk σ → MapWalk σ) : Nat → Nat → MapWalk σ → Bool × MapWalk σ
  | 0, _, w => (false, w)
  | n + 1, mmap, w =>
    if mmap < mapStop w.memory mbi then
      let w := body mmap w
      walkMap mbi body n (nextEntry w.memory mmap) (w.read mmap [.size])
    else (true, w)

/-- The first loop of `pmm_init`, which keeps `highest_addr`. -/
def raiseHighest (mmap : Nat) (w : MapWalk Nat) : MapWalk Nat :=
  let regionEnd := regionEnd (readEntry w.memory mmap)
  { w with kept := if regionEnd > w.kept then regionEnd else w.kept }.read mmap [.addr, .len]

/-- The address of a word of the bitmap. -/
def bitmapWord (kernelEnd i : Nat) : Nat := wrap (kernelEnd + 4 * i)

/-- `set_frame` and `clear_frame`. -/
def setFrameIn (kernelEnd : Nat) (m : Mem) (frame : Nat) : Mem :=
  let word := readWord m (bitmapWord kernelEnd (frame / 32))
  writeWord m (bitmapWord kernelEnd (frame / 32)) (word ||| 1 <<< (frame % 32))

def clearFrameIn (kernelEnd : Nat) (m : Mem) (frame : Nat) : Mem :=
  let word := readWord m (bitmapWord kernelEnd (frame / 32))
  writeWord m (bitmapWord kernelEnd (frame / 32)) (word &&& (0xFFFFFFFF - 1 <<< (frame % 32)))

/-- The second loop of `pmm_init`. -/
def freeRegion (kernelEnd totalFrames mmap : Nat) (w : MapWalk Unit) : MapWalk Unit :=
  let entry := readEntry w.memory mmap
  if entry.type = 1 then
    let memory := forRange (fun m f => if f < totalFrames then clearFrameIn kernelEnd m f else m)
      (startFrame entry) (endFrame entry) w.memory
    { w with memory := memory }.read mmap [.type, .addr, .addr, .len]
  else w.read mmap [.type]

/-- The loop of `multiboot_print_memory`, which keeps what was given to `vga_print`. -/
def printRegion (mmap : Nat) (w : MapWalk (List (List UInt8))) : MapWalk (List (List UInt8)) :=
  let entry := readEntry w.memory mmap
  let line := [ascii "Region: ", hexBuffer (.ofNat entry.addr), ascii " - ",
    hexBuffer (.ofNat (entry.addr + entry.len)), ascii "\n"]
  { w with kept := w.kept ++ line }.read mmap [.addr, .addr, .len]

/-- `memset(bitmap, 0xFF, bitmap_size)`. -/
def markUsedIn (kernelEnd totalFrames : Nat) (m : Mem) : Mem :=
  forRange (fun m i => writeWord m (bitmapWord kernelEnd i) 0xFFFFFFFF) 0 (bitmapEntries totalFrames) m

/-- The frames of the kernel image and of the bitmap are marked used. -/
def reserveKernelIn (kernelEnd totalFrames : Nat) (m : Mem) : Mem :=
  forRange (setFrameIn kernelEnd) (kernelEnd / frameSize) (bitmapEnd kernelEnd totalFrames / frameSize)
    (forRange (setFrameIn kernelEnd) (kernelStart / frameSize)
      (add32 kernelEnd (frameSize - 1) / frameSize) m)

/-- How a call that walks over the map ends, if it does, the memory it leaves, and the fields
it has read. -/
structure MapCall (α : Type) where
  returned : Option α
  memory : Mem
  reads : List (Nat × EntryField)

/-- `pmm_init`, whose walks are given `n` tests. -/
def pmmInitIn (n kernelEnd mbi : Nat) (m : Mem) : MapCall Nat :=
  if mbiFlags m mbi &&& (1 <<< 6) = 0 then ⟨some missingMemoryMap, m, []⟩
  else
    match walkMap mbi raiseHighest n (mbiMmapAddr m mbi) ⟨m, [], 0⟩ with
    | (false, w) => ⟨none, w.memory, w.reads⟩
    | (true, w) =>
      let totalFrames := w.kept / frameSize
      let m := markUsedIn kernelEnd totalFrames w.memory
      match walkMap mbi (freeRegion kernelEnd totalFrames) n (mbiMmapAddr m mbi) ⟨m, w.reads, ()⟩ with
      | (false, w) => ⟨none, w.memory, w.reads⟩
      | (true, w) => ⟨some 0, reserveKernelIn kernelEnd totalFrames w.memory, w.reads⟩

/-- `multiboot_print_memory`, whose walk is given `n` tests: what it prints. -/
def multibootPrintMemory (n mbi : Nat) (m : Mem) : MapCall (List (List UInt8)) :=
  if mbiFlags m mbi &&& (1 <<< 6) = 0 then ⟨some [ascii "No memory map found\n"], m, []⟩
  else
    match walkMap mbi printRegion n (mbiMmapAddr m mbi) ⟨m, [], [ascii "Memory map:\n"]⟩ with
    | (false, w) => ⟨none, w.memory, w.reads⟩
    | (true, w) => ⟨some w.kept, w.memory, w.reads⟩

end ZynthexOS.Mm
