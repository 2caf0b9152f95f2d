import ZynthexOS.Lib.I386
import ZynthexOS.Sched.Sched

/-! `boot/task_switch.s`, the layout of `task_t` that it relies on, and the frame
of the call in `scheduler_switch_to`. -/
namespace ZynthexOS.Boot
open Lib.I386 Lib.Memory Sched

/-- `task_switch_asm`. -/
def taskSwitchAsm : List Instr :=
  [ .load .ebx .esp 4
    , .load .edx .esp 8
    , .load .eax .edx 8
    , .load .ecx .edx 12
    , .move .esp .eax
    , .jump .ecx ]

/-- The value of a `task_state_t`. -/
def stateValue : TaskState → UInt32
  | .ready => 0
  | .running => 1
  | .blocked => 2
  | .zombie => 3

/-- A `task_t` in memory: six words in the order of the declaration. -/
structure TaskAt (mem : Mem) (a : UInt32) (task : Task) : Prop where
  pid : loadWord mem a = task.pid
  state : loadWord mem (a + 4) = stateValue task.state
  kernelStack : loadWord mem (a + 8) = task.kernelStack
  esp : loadWord mem (a + 12) = task.esp
  eip : loadWord mem (a + 16) = task.eip
  next : loadWord mem (a + 20) = task.next

/-- The stack on entry to a function of two arguments, above the return address. -/
structure Called (m : Machine) (old new : UInt32) : Prop where
  old : loadWord m.mem (m.regs .esp + 4) = old
  new : loadWord m.mem (m.regs .esp + 8) = new

end ZynthexOS.Boot
