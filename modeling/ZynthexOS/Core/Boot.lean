import ZynthexOS.Core.Idt
import ZynthexOS.Sched.Sched

/-! What `kernel_boot` (`core/boot.c`) does to the two memory managers: `pmm_init`,
`scheduler_init` with the tasks of `sched/test_task.c`, `paging_init` and `heap_init`,
in this order. There is one memory, which the page tables are part of. -/
namespace ZynthexOS.Core
open Lib.Memory Mm Sched

/-- `sizeof(task_t)`. -/
def taskSize : Nat := 24

/-- The static variables of `pmm.c`, `paging.c`, `heap.c` and `sched.c`, and two ledgers:
the blocks of `kmalloc` that were not freed since, with the size asked for, and the frames
that others got from `pmm_alloc_frame`. -/
structure Kernel where
  pmm : Pmm
  directory : Nat → Nat
  tables : Nat → Nat
  heap : HeapVars
  sched : Scheduler
  live : List (Nat × Nat)
  taken : List Nat

/-- The bytes of memory given by its aligned words. -/
def bytesOf (words : Nat → Nat) : Mem := fun a => .ofNat (words (a / 4 * 4) / 2 ^ (8 * (a % 4)))

/-- What `paging.c` works on. -/
def Kernel.vm (k : Kernel) : Vm := ⟨k.pmm, k.directory, k.tables, readWord k.sched.memory⟩

def Kernel.setVm (k : Kernel) (vm : Vm) : Kernel :=
  { k with
    pmm := vm.pmm
    directory := vm.directory
    tables := vm.tables
    sched := { k.sched with memory := bytesOf vm.phys } }

/-- `kmalloc`, entered in the ledger. -/
def Kernel.kmalloc (fuel : Nat) (k : Kernel) (size : Nat) : Option (Kernel × Nat) :=
  let outcome := (Mm.kmalloc fuel k.heap size).run k.sched.memory
  outcome.result.map fun (heap, ptr) =>
    ({ k with
      heap := heap
      sched := { k.sched with memory := outcome.mem }
      live := if ptr = 0 then k.live else (ptr, size) :: k.live }, ptr)

/-- `kfree`: a call that prints a message frees nothing. -/
def Kernel.kfree (fuel : Nat) (k : Kernel) (ptr : Nat) : Option Kernel :=
  let outcome := (Mm.kfree fuel k.heap ptr).run k.sched.memory
  outcome.result.map fun (heap, message) =>
    { k with
      heap := heap
      sched := { k.sched with memory := outcome.mem }
      live := if message = none then k.live.filter (·.1 ≠ ptr) else k.live }

/-- `task_create_kernel` with its two calls of `kmalloc`. -/
def Kernel.taskCreateKernel (fuel : Nat) (k : Kernel) (entry : UInt32) : Option Kernel := do
  let (k, stack) ← k.kmalloc fuel kernelStackSize.toNat
  if stack = 0 then pure k
  else
    let (k, task) ← k.kmalloc fuel taskSize
    if task = 0 then k.kfree fuel stack
    else
      let (sched, _) ← Sched.taskCreateKernel fuel k.sched entry (.ofNat stack) (.ofNat task)
      pure { k with sched := sched }

/-- `scheduler_init`: `scheduler_create_test_tasks`. -/
def Kernel.schedulerInit (fuel : Nat) (k : Kernel) (testTaskA testTaskB : UInt32) : Option Kernel := do
  let k ← k.taskCreateKernel fuel testTaskA
  k.taskCreateKernel fuel testTaskB

/-- `kernel_boot` up to `heap_init`; `none` also where it ends in `debug_panic`. -/
def kernelBoot (fuel kernelEnd mbi : Nat) (testTaskA testTaskB : UInt32) (k : Kernel) :
    Option Kernel := do
  let (pmm, result) ← pmmInit fuel kernelEnd k.pmm k.sched.memory mbi
  if result ≠ 0 then none
  else
    let k ← { k with pmm := pmm }.schedulerInit fuel testTaskA testTaskB
    let k := k.setVm (pagingInit k.vm)
    pure { k with heap := heapInit k.heap }

/-- The static variables before `kernel_boot`. -/
structure Kernel.Statics (k : Kernel) : Prop where
  heap : k.heap = heapStatics
  sched : Booted k.sched
  frames : k.pmm.totalFrames = 0
  live : k.live = []
  taken : k.taken = []

end ZynthexOS.Core
