import ZynthexOS.Mm.Heap
import ZynthexOS.Shell.Shell
import ZynthexOS.Video.Vga

/-! `cmd_alloc`, `cmd_free` and `cmd_freelast` of `shell/shell.c`. -/
namespace ZynthexOS.Shell
open Text Mm Video Lib.Memory

/-- The heap, `last_alloc`, and what was given to `vga_print`. -/
structure AllocState where
  vars : HeapVars
  mem : Mem
  lastAlloc : UInt32
  screen : List CString

def AllocState.print (s : AllocState) (text : String) : AllocState :=
  { s with screen := s.screen ++ [cstring text] }

/-- `vga_print_hex`. -/
def AllocState.printHex (s : AllocState) (value : UInt32) : AllocState :=
  { s with screen := s.screen ++ [bufferString (hexBuffer value)] }

/-- `kmalloc`, with the pointer it returns. -/
def AllocState.kmalloc (fuel : Nat) (s : AllocState) (size : UInt32) : Option (AllocState × UInt32) :=
  let outcome := (Mm.kmalloc fuel s.vars size.toNat).run s.mem
  outcome.result.map fun (vars, ptr) => ({ s with vars := vars, mem := outcome.mem }, .ofNat ptr)

/-- `kfree`, which may print a message. -/
def AllocState.kfree (fuel : Nat) (s : AllocState) (ptr : UInt32) : Option AllocState :=
  let outcome := (Mm.kfree fuel s.vars ptr.toNat).run s.mem
  outcome.result.map fun (vars, message) =>
    { s with vars := vars, mem := outcome.mem, screen := s.screen ++ message.toList.map cstring }

/-- What is printed behind a `kfree`. -/
def AllocState.printFreed (s : AllocState) (ptr : UInt32) : AllocState :=
  ((s.print "Freed: ").printHex ptr).print "\n"

/-- `cmd_alloc`. -/
def cmdAlloc (fuel : Nat) (s : AllocState) : List CString → Option AllocState
  | _ :: argument :: _ =>
    let size := atoi argument
    if size.toInt ≤ 0 then some (s.print "Invalid size\n")
    else do
      let (s, ptr) ← s.kmalloc fuel size.toUInt32
      if ptr = 0 then some (s.print "Allocation failed\n")
      else some (((({ s with lastAlloc := ptr }).print "Allocated at: ").printHex ptr).print "\n")
  | _ => some (s.print "Usage: alloc <size>\n")

/-- `cmd_free`. -/
def cmdFree (fuel : Nat) (s : AllocState) : List CString → Option AllocState
  | _ :: argument :: _ =>
    let ptr := (atoiHex argument).toUInt32
    if ptr = 0 then some (s.print "Invalid address\n")
    else do
      let s ← s.kfree fuel ptr
      some (s.printFreed ptr)
  | _ => some (s.print "Usage: free <address>\n")

/-- `cmd_freelast`. -/
def cmdFreelast (fuel : Nat) (s : AllocState) (_argv : List CString) : Option AllocState :=
  if s.lastAlloc = 0 then some (s.print "No previous allocation\n")
  else do
    let s ← s.kfree fuel s.lastAlloc
    some { s.printFreed s.lastAlloc with lastAlloc := 0 }

end ZynthexOS.Shell
