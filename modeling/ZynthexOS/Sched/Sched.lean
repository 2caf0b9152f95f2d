import ZynthexOS.Lib.Memory

/-! `sched/sched.c`. The task structures are kept by their address, beside the
memory that holds the kernel stacks. What `kmalloc` answers is an argument of
`task_create_kernel`; the loops over the ready queue take fuel, because nothing
but the shape of the queue makes them end. -/
namespace ZynthexOS.Sched
open Lib.Memory

/-- `KERNEL_STACK_SIZE`. -/
def kernelStackSize : UInt32 := 4096

/-- `task_state_t`. -/
inductive TaskState where
  | ready
  | running
  | blocked
  | zombie
  deriving DecidableEq, Repr

/-- `task_t`. -/
structure Task where
  pid : UInt32
  state : TaskState
  kernelStack : UInt32
  esp : UInt32
  eip : UInt32
  next : UInt32
  deriving DecidableEq, Repr

/-- The static variables of `sched.c`, the task structures by address, `esp0` of
the TSS and the bytes of the kernel stacks. NULL is address 0. -/
structure Scheduler where
  tasks : UInt32 → Task
  currentTask : UInt32
  readyQueue : UInt32
  nextPid : UInt32
  esp0 : UInt32
  memory : Mem

/-- The structure at an address replaced. -/
def Scheduler.setTask (s : Scheduler) (a : UInt32) (task : Task) : Scheduler :=
  { s with tasks := fun b => if b = a then task else s.tasks b }

/-- `task->next = next`. -/
def Scheduler.setNext (s : Scheduler) (a next : UInt32) : Scheduler :=
  s.setTask a { s.tasks a with next := next }

/-- `task->state = state`. -/
def Scheduler.setState (s : Scheduler) (a : UInt32) (state : TaskState) : Scheduler :=
  s.setTask a { s.tasks a with state := state }

/-- `while (tail->next != ready_queue) tail = tail->next`. -/
def findTail (s : Scheduler) : Nat → UInt32 → Option UInt32
  | 0, _ => none
  | fuel + 1, tail =>
    if (s.tasks tail).next ≠ s.readyQueue then findTail s fuel (s.tasks tail).next else some tail

/-- `scheduler_add_task`. -/
def schedulerAddTask (fuel : Nat) (s : Scheduler) (task : UInt32) : Option Scheduler :=
  if s.readyQueue = 0 then some ({ s with readyQueue := task }.setNext task task)
  else
    (findTail s fuel s.readyQueue).map fun tail => (s.setNext tail task).setNext task s.readyQueue

/-- The loop of `scheduler_pick_next`: where it leaves `next`. -/
def pickLoop (s : Scheduler) : Nat → UInt32 → Option UInt32
  | 0, _ => none
  | fuel + 1, next =>
    if next ≠ 0 ∧ (s.tasks next).state ≠ .ready then
      let next := (s.tasks next).next
      if next = s.readyQueue then some next else pickLoop s fuel next
    else some next

/-- `scheduler_pick_next`: the state and the result. -/
def schedulerPickNext (fuel : Nat) (s : Scheduler) : Option (Scheduler × UInt32) :=
  if s.readyQueue = 0 then some (s, 0)
  else
    (pickLoop s fuel s.readyQueue).map fun next =>
      if next ≠ 0 ∧ (s.tasks next).state = .ready then
        ({ s with readyQueue := (s.tasks next).next }, next)
      else (s, 0)

/-- `scheduler_switch_to`, up to the jump of `task_switch_asm`. -/
def schedulerSwitchTo (s : Scheduler) (newTask : UInt32) : Scheduler :=
  if newTask = 0 then s
  else
    let s := { s with esp0 := (s.tasks newTask).kernelStack + kernelStackSize }
    let s := { s with currentTask := newTask }
    s.setState newTask .running

/-- `scheduler_yield`. -/
def schedulerYield (fuel : Nat) (s : Scheduler) : Option Scheduler :=
  if s.currentTask ≠ 0 then
    let s := s.setState s.currentTask .ready
    (schedulerPickNext fuel s).map fun (s, next) =>
      if next ≠ 0 ∧ next ≠ s.currentTask then schedulerSwitchTo s next else s
  else some s

/-- `scheduler_tick`. -/
def schedulerTick (fuel : Nat) (s : Scheduler) : Option Scheduler := schedulerYield fuel s

/-- The structure that `task_create_kernel` fills in: the stack pointer is left
below the return address that it pushes. -/
def newTask (pid entry stack : UInt32) : Task :=
  { pid := pid
    state := .ready
    kernelStack := stack
    esp := stack + kernelStackSize - 4
    eip := entry
    next := 0 }

/-- `task_create_kernel` up to `scheduler_add_task`. -/
def prepareTask (s : Scheduler) (entry stack task : UInt32) : Scheduler :=
  let made := newTask s.nextPid entry stack
  { s with
    nextPid := s.nextPid + 1
    memory := writeWord s.memory made.esp.toNat entry.toNat
    tasks := fun a => if a = task then made else s.tasks a }

/-- `task_create_kernel`, where `kmalloc` answers `stack` and then `task`: the
state and the result. -/
def taskCreateKernel (fuel : Nat) (s : Scheduler) (entry stack task : UInt32) :
    Option (Scheduler × UInt32) :=
  if stack = 0 then some (s, 0)
  else if task = 0 then some (s, 0)
  else (schedulerAddTask fuel (prepareTask s entry stack task) task).map fun s => (s, task)

/-- The static variables before `scheduler_init`. -/
def Booted (s : Scheduler) : Prop := s.currentTask = 0 ∧ s.readyQueue = 0 ∧ s.nextPid = 1

end ZynthexOS.Sched
