import ZynthexOS.Mm.Heap
import ZynthexOS.Mm.Paging

/-! The page fault of `core/idt.c`, with paging switched on: the stores of `map_page`
go through the page tables, so that they can fault themselves. Fuel bounds how
deep handlers nest. -/
namespace ZynthexOS.Core
open Mm

/-- How a handler ends that does not return. -/
inductive Stop where
  | panic (message : String)
  | fuel
  deriving DecidableEq, Repr

/-- A store of the kernel. When it faults the processor calls the handler and takes
the store up again. -/
def storeWord (handler : Vm → UInt32 → UInt32 → Except Stop Vm) :
    Nat → Vm → UInt32 → Nat → Except Stop Vm
  | 0, _, _, _ => .error .fuel
  | retries + 1, vm, a, value =>
    match translate vm a with
    | some frame => .ok { vm with phys := assign vm.phys (frame + a.toNat % pageSize) value }
    | none => do storeWord handler retries (← handler vm a 0x2) a value

/-- A load of the kernel, taken up again in the same way. -/
def fetchWord (handler : Vm → UInt32 → UInt32 → Except Stop Vm) :
    Nat → Vm → UInt32 → Except Stop (Vm × Nat)
  | 0, _, _ => .error .fuel
  | retries + 1, vm, a =>
    match translate vm a with
    | some frame => .ok (vm, vm.phys (frame + a.toNat % pageSize))
    | none => do fetchWord handler retries (← handler vm a 0x0) a

/-- The new page table of `map_page`: allocated, cleared and entered. -/
def newTable (store : Vm → UInt32 → Nat → Except Stop Vm) (vm : Vm) (dirIndex : Nat) :
    Except Stop Vm := do
  let (pmm, table) := pmmAllocFrame vm.pmm
  let vm ← (List.range' 0 pageEntries).foldlM (fun vm i => store vm (.ofNat (table + 4 * i)) 0)
    { vm with pmm := pmm }
  .ok { vm with
    directory := assign vm.directory dirIndex (table ||| presentWritable)
    tables := assign vm.tables dirIndex table }

def ensureTableThrough (store : Vm → UInt32 → Nat → Except Stop Vm) (vm : Vm) (dirIndex : Nat) :
    Except Stop Vm :=
  if vm.tables dirIndex = 0 then newTable store vm dirIndex else .ok vm

/-- `map_page`, where the kernel stores through `store`. -/
def mapPageThrough (store : Vm → UInt32 → Nat → Except Stop Vm) (vm : Vm)
    (virtualAddr physicalAddr : UInt32) : Except Stop Vm := do
  let dirIndex := virtualAddr.toNat >>> 22
  let tableIndex := (virtualAddr.toNat >>> 12) &&& 0x03FF
  let vm ← ensureTableThrough store vm dirIndex
  let entry := physicalAddr.toNat &&& 0xFFFFF000 ||| presentWritable
  store vm (.ofNat (vm.tables dirIndex + 4 * tableIndex)) entry

/-- `isr_handler` for interrupt 14, where `cr2` holds `faultAddr`. -/
def isrHandler : Nat → Vm → (faultAddr errorCode : UInt32) → Except Stop Vm
  | 0, _, _, _ => .error .fuel
  | fuel + 1, vm, faultAddr, errorCode =>
    let alignedAddr := faultAddr &&& 0xFFFFF000
    let notPresent := errorCode &&& 0x1 = 0
    let user := errorCode &&& 0x4 ≠ 0
    if notPresent ∧ ¬ user ∧ kernelHeapStart ≤ alignedAddr.toNat ∧ alignedAddr.toNat < kernelHeapEnd then
      let (pmm, frame) := pmmAllocFrame vm.pmm
      if frame = 0 then .error (.panic "Out of physical memory during demand paging")
      else
        mapPageThrough (storeWord (isrHandler fuel) (fuel + 1)) { vm with pmm := pmm } alignedAddr
          (.ofNat frame)
    else .error (.panic "Unhandled Page Fault")

end ZynthexOS.Core
