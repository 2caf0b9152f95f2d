import ZynthexOS.Boot.TaskSwitch
import ZynthexOS.Dispatching

/-! Where a dispatched task starts. `task_switch_asm` reads the stack pointer and
the entry point one word below their place in `task_t`, so the stack is the
bottom of the kernel stack and the jump goes to its top. -/
namespace ZynthexOS.TaskStart
open Lib Lib.I386 Lib.Memory Sched Boot Dispatching

/-- The stack pointer and the entry point that `task_t` names. -/
def Agrees (m : Machine) (task : Task) : Prop :=
  (run taskSwitchAsm m).regs .esp = task.esp ∧ (run taskSwitchAsm m).eip = task.eip

/-- Execution starts at the entry with a stack pointer inside the kernel stack. -/
def StartsAt (m : Machine) (entry stack : UInt32) : Prop :=
  (run taskSwitchAsm m).eip = entry ∧
    stack.toNat ≤ ((run taskSwitchAsm m).regs .esp).toNat ∧
    ((run taskSwitchAsm m).regs .esp).toNat < stack.toNat + kernelStackSize.toNat

/-- What the six instructions leave. -/
theorem run_taskSwitchAsm (called : Called m old new) (stored : TaskAt m.mem new task) :
    (run taskSwitchAsm m).regs .esp = task.kernelStack ∧ (run taskSwitchAsm m).eip = task.esp := by
  have stack := stored.kernelStack
  have top := stored.esp
  rw [← called.new] at stack top
  constructor
  · simpa [run, taskSwitchAsm, Instr.exec] using stack
  · simpa [run, taskSwitchAsm, Instr.exec] using top

/-- The fields that only `task_create_kernel` writes. -/
structure Made (s : Scheduler) (task entry stack : UInt32) : Prop where
  kernelStack : (s.tasks task).kernelStack = stack
  esp : (s.tasks task).esp = stack + kernelStackSize - 4
  eip : (s.tasks task).eip = entry

theorem made_setNext (made : Made s task entry stack) (a next : UInt32) :
    Made (s.setNext a next) task entry stack := by
  by_cases same : task = a
  · subst same
    constructor <;> simp [Scheduler.setNext, Scheduler.setTask, made.kernelStack, made.esp, made.eip]
  · constructor <;>
      simp [Scheduler.setNext, Scheduler.setTask, same, made.kernelStack, made.esp, made.eip]

theorem made_setState (made : Made s task entry stack) (a : UInt32) (state : TaskState) :
    Made (s.setState a state) task entry stack := by
  by_cases same : task = a
  · subst same
    constructor <;> simp [Scheduler.setState, Scheduler.setTask, made.kernelStack, made.esp, made.eip]
  · constructor <;>
      simp [Scheduler.setState, Scheduler.setTask, same, made.kernelStack, made.esp, made.eip]

theorem made_congr (made : Made s task entry stack) (same : s'.tasks task = s.tasks task) :
    Made s' task entry stack :=
  ⟨same ▸ made.kernelStack, same ▸ made.esp, same ▸ made.eip⟩

theorem made_addTask (made : Made s task entry stack)
    (added : schedulerAddTask fuel s other = some s') : Made s' task entry stack := by
  unfold schedulerAddTask at added
  split at added
  · cases added
    have headed : Made { s with readyQueue := other } task entry stack := made_congr made rfl
    exact made_setNext headed _ _
  · obtain ⟨tail, -, rfl⟩ := Option.map_eq_some_iff.mp added
    exact made_setNext (made_setNext made _ _) _ _

theorem made_pickNext (made : Made s task entry stack)
    (picked : schedulerPickNext fuel s = some (s', result)) : Made s' task entry stack := by
  unfold schedulerPickNext at picked
  split at picked
  · cases picked
    exact made
  · obtain ⟨next, -, same⟩ := Option.map_eq_some_iff.mp picked
    split at same <;> cases same <;> exact made_congr made rfl

theorem made_switchTo (made : Made s task entry stack) (other : UInt32) :
    Made (schedulerSwitchTo s other) task entry stack := by
  by_cases null : other = 0
  · rw [schedulerSwitchTo, if_pos null]
    exact made
  · have dispatched : Made { s with
        esp0 := (s.tasks other).kernelStack + kernelStackSize, currentTask := other } task entry stack :=
      made_congr made rfl
    rw [schedulerSwitchTo_eq s null]
    exact made_setState dispatched _ _

theorem made_yield (made : Made s task entry stack) (returned : schedulerYield fuel s = some s') :
    Made s' task entry stack := by
  unfold schedulerYield at returned
  split at returned
  · obtain ⟨⟨t, next⟩, picked, same⟩ := Option.map_eq_some_iff.mp returned
    have kept := made_pickNext (made_setState made _ _) picked
    dsimp only at same
    split at same
    · cases same
      exact made_switchTo kept _
    · cases same
      exact kept
  · cases returned
    exact made

/-- A successful `task_create_kernel` makes its task. -/
theorem made_create (created : taskCreateKernel fuel s entry stack task = some (s', task))
    (positive : task ≠ 0) : Made s' task entry stack := by
  unfold taskCreateKernel at created
  split_ifs at created with noStack
  · cases created
    exact absurd rfl positive
  · obtain ⟨added, done, same⟩ := Option.map_eq_some_iff.mp created
    cases same
    refine made_addTask ?_ done
    constructor <;> simp [prepareTask, newTask]

/-- Calls that make no task at this address. -/
def Elsewhere (task : UInt32) (_ : Scheduler) : SchedCall → Prop
  | .create _ _ other => other ≠ task
  | _ => True

/-- States after the task was made by `task_create_kernel`. -/
def Created (entry stack task : UInt32) : Scheduler → Prop :=
  Reachable (fun s' => ∃ fuel s, taskCreateKernel fuel s entry stack task = some (s', task))
    (Guarded (Elsewhere task) SchedStep)

theorem made_created (positive : task ≠ 0) (created : Created entry stack task s) :
    Made s task entry stack := by
  refine created.induct (fun s => Made s task entry stack) ?_ ?_
  · rintro s ⟨fuel, before, made⟩
    exact made_create made positive
  · rintro s call s' made ⟨elsewhere, taken⟩
    cases call with
    | create entry' stack' other =>
      obtain ⟨fuel, result, created⟩ := taken
      unfold taskCreateKernel at created
      split_ifs at created
      · cases created
        exact made
      · cases created
        exact made
      · obtain ⟨added, done, same⟩ := Option.map_eq_some_iff.mp created
        cases same
        exact made_addTask (made_congr made (if_neg (Ne.symm elsewhere))) done
    | pickNext =>
      obtain ⟨fuel, result, picked⟩ := taken
      exact made_pickNext made picked
    | switchTo other => exact taken ▸ made_switchTo made other
    | yield | tick =>
      obtain ⟨fuel, returned⟩ := taken
      exact made_yield made returned

/-- The processor jumps to where `task_t` says exactly if the kernel stack, the
stack pointer and the entry point are one address; and a task that
`task_create_kernel` made starts at its entry exactly if that is the address of
the return address on its stack. -/
theorem task_starts (called : Called m old new) (stored : TaskAt m.mem new task) :
    (Agrees m task ↔ task.kernelStack = task.esp ∧ task.esp = task.eip) ∧
    ∀ entry stack s, new ≠ 0 → Created entry stack new s →
      task = (schedulerSwitchTo s new).tasks new →
      (StartsAt m entry stack ↔ entry = stack + kernelStackSize - 4) := by
  obtain ⟨bottom, target⟩ := run_taskSwitchAsm called stored
  constructor
  · rw [Agrees, bottom, target]
  · rintro entry stack s positive created rfl
    have made := made_switchTo (made_created positive created) new
    rw [StartsAt, bottom, target, made.kernelStack, made.esp]
    have inside : stack.toNat < stack.toNat + kernelStackSize.toNat := Nat.lt_add_of_pos_right (by decide)
    exact ⟨fun starts => starts.1.symm, fun same => ⟨same.symm, Nat.le_refl _, inside⟩⟩

/-- Memory with a frame of the call at `0x200` and the first task at 4136. -/
def firstMachine : Machine where
  regs _ := 0x200
  eip := 0
  mem := [(0x208, 4136), (4136, 1), (4140, 1), (4144, 20), (4148, 4112), (4152, 0x101000),
    (4156, 4136)].foldl (fun m (a, v) => writeWord m a v) fun _ => 0

theorem firstMachine_called : Called firstMachine 0 4136 :=
  ⟨by decide +kernel, by decide +kernel⟩

theorem firstMachine_stores :
    TaskAt firstMachine.mem 4136 ((schedulerSwitchTo oneTask 4136).tasks 4136) := by
  constructor <;> decide +kernel

theorem oneTask_madeHere : Created 0x101000 20 4136 oneTask :=
  .start ⟨0, booted, rfl⟩

/-- The first task does not start at its entry. -/
theorem task_starts_first : ¬ StartsAt firstMachine 0x101000 20 := by
  intro starts
  have top := ((task_starts firstMachine_called firstMachine_stores).2 0x101000 20 oneTask (by decide)
    oneTask_madeHere rfl).mp starts
  exact absurd top (by decide)

/-- The first task: the jump goes to the word below the top of its stack, with the
stack pointer at the bottom. -/
theorem first_task_jumps_into_its_stack :
    ¬ ∀ entry stack task s m, task ≠ 0 → Created entry stack task s → Called m 0 task →
      TaskAt m.mem task ((schedulerSwitchTo s task).tasks task) →
      Agrees m ((schedulerSwitchTo s task).tasks task) ∧ StartsAt m entry stack := by
  intro claim
  have starts := (claim 0x101000 20 4136 oneTask firstMachine (by decide) oneTask_madeHere
    firstMachine_called firstMachine_stores).2
  have target := (run_taskSwitchAsm firstMachine_called firstMachine_stores).2
  rw [starts.1] at target
  exact absurd target (by decide)

end ZynthexOS.TaskStart
