import ZynthexOS.AddressText
import ZynthexOS.Boot.IsrStubs
import ZynthexOS.KernelLog
import ZynthexOS.Sys.Syscall

/-! System calls, from `int 0x80` to `iret`. The stub passes four registers and puts all of them
back, so that a call gives nothing to its caller; what the calls write is on the screen and in
the log. -/
namespace ZynthexOS.SystemCalls
open ZynthexOS.Core Boot KernelLog Lib.Interrupts Lib.I386 Lib.Memory Sys Text Video

/-! ## The stub -/

variable {c : Cpu} {ws : List UInt32} {f : Machine → Option Machine} {m : Machine} {offset returnAddress : UInt32}

/-- `eax`, `ebx`, `ecx` and `edx`. -/
def arguments (m : Machine) : List UInt32 := [m.regs .eax, m.regs .ebx, m.regs .ecx, m.regs .edx]

theorem syscallEntry_balanced : syscallEntry.Balanced [] 4 arguments [] := by
  have setsUp := SetsUp.pushRegs [.edx, .ecx, .ebx, .eax] (by decide)
  exact ⟨⟨_, rfl, setsUp⟩, rfl⟩

/-- The state in which `syscall_handler` starts. -/
def syscallHandlerEntry (c : Cpu) (offset returnAddress : UInt32) : Machine :=
  syscallEntry.call returnAddress (c.enter 0x08 offset none).machine

/-- Saving the registers changes none but the stack pointer. -/
theorem savedRegs_ne (m : Machine) (real : r ≠ .esp) : (savedRegs [] m).regs r = m.regs r := by
  rw [savedRegs, pusha_eq]
  exact pushes_ne _ _ real

theorem enter_ne (c : Cpu) (offset : UInt32) (real : r ≠ .esp) :
    (c.enter 0x08 offset none).machine.regs r = c.machine.regs r := by
  rw [Cpu.enter_machine]
  exact pushes_ne (c.frame none).reverse c.machine real

theorem arguments_saved (c : Cpu) (offset : UInt32) :
    arguments (savedRegs [] (c.enter 0x08 offset none).machine) = arguments c.machine := by
  have kept : ∀ r, r ≠ .esp → (savedRegs [] (c.enter 0x08 offset none).machine).regs r = c.machine.regs r :=
    fun r real => (savedRegs_ne _ real).trans (enter_ne c offset real)
  simp [arguments, kept]

/-- `syscall_handler` gets the caller's `eax`, `ebx`, `ecx` and `edx`, and once it has returned the
caller goes on behind `int 0x80` with every register as it was: no call returns a value. -/
theorem system_call (stack : c.machine.Stack ws) (short : ws.length < 2 ^ 26)
    (done : f (syscallHandlerEntry c offset returnAddress) = some m)
    (returned : Returned 4 (11 + ws.length) (syscallHandlerEntry c offset returnAddress) m) :
    (∃ rest, (syscallHandlerEntry c offset returnAddress).Stack
      (returnAddress :: arguments c.machine ++ rest)) ∧
    ∃ c', syscallEntry.run returnAddress f (c.enter 0x08 offset none) = some c' ∧
      Resumes c c' ∧ c'.machine.Stack ws := by
  have entered := Cpu.enter_stack stack (by omega) 0x08 offset none
  have length : (c.frame none ++ ws).length = 3 + ws.length := by
    rw [List.length_append]
    rfl
  have depth : 11 + ws.length = 8 + (([] : List UInt32).length + (c.frame none ++ ws).length) := by
    rw [length, List.length_nil]
    omega
  have bound : 4 + (8 + (([] : List UInt32).length + (c.frame none ++ ws).length)) < 2 ^ 28 := by
    rw [← depth]
    omega
  obtain ⟨entry, -⟩ := syscallEntry_balanced.call entered bound returnAddress
  rw [arguments_saved] at entry
  rw [depth] at returned
  obtain ⟨m₂, behind, regs, frame⟩ := syscallEntry_balanced.returns entered bound returned
  have run : syscallEntry.run returnAddress f (c.enter 0x08 offset none) =
      some (Cpu.iretd { c.enter 0x08 offset none with machine := m₂ }) := by
    have last : m₂ = runOps syscallEntry.behind m := behind.symm
    rw [last]
    exact congrArg (Option.map _) done
  obtain ⟨eip, cs, eflags, rest⟩ :=
    Cpu.iretd_of_stack (c := { c.enter 0x08 offset none with machine := m₂ }) frame
  refine ⟨⟨_, entry⟩, _, run, ⟨funext fun r => ?_, eip, cs.trans (by simp), eflags⟩, rest⟩
  by_cases real : r = .esp
  · subst real
    have popped := Machine.set_same m₂ .esp (m₂.regs .esp + 12)
    have pushed := pushes_esp (c.frame none).reverse c.machine
    refine popped.trans ?_
    rw [regs, ← pushed, Cpu.enter_machine]
    rfl
  · refine (Machine.set_ne m₂ _ real).trans ?_
    rw [regs]
    exact enter_ne c offset real

/-- Code that calls `SYS_TIME`, with its stack at 0x8000. -/
def caller : Cpu where
  machine := { regs := fun r => if r = .esp then 0x8000 else 3, eip := 0x100002, mem := fun _ => 0 }
  cs := 0x08
  eflags := 0x202

/-- It is inside of a call itself. -/
def callerCalled : Cpu := { caller with machine := [5, 0x100040].foldl Machine.push caller.machine }

/-- The handler returns the time in `eax`, and the caller does not see it. -/
theorem system_call_time : ∃ c', syscallEntry.run 0x100200 (fun m => some (Instr.ret.exec (m.set .eax 60)))
    (callerCalled.enter 0x08 0x100100 none) = some c' ∧ Resumes callerCalled c' ∧
      c'.machine.Stack [0x100040, 5] := by
  have nothing : caller.machine.Stack [] := fun i inside => absurd inside (Nat.not_lt_zero i)
  have stack : callerCalled.machine.Stack ([5, 0x100040].reverse ++ []) := nothing.pushes (by decide)
  have short : ([0x100040, 5] : List UInt32).length < 2 ^ 26 := by decide
  have returned : Returned 4 (11 + 2) (syscallHandlerEntry callerCalled 0x100100 0x100200)
      (Instr.ret.exec ((syscallHandlerEntry callerCalled 0x100100 0x100200).set .eax 60)) :=
    .ret _ _ _ (by decide) _
  exact (system_call (f := fun m => some (Instr.ret.exec (m.set .eax 60))) stack short rfl returned).2

/-! ## What the calls write -/

/-- A system call: the memory and the four registers. -/
structure Call where
  mem : Mem
  eax : UInt32
  ebx : UInt32
  ecx : UInt32
  edx : UInt32

def Call.run (s : Output) (call : Call) : Output := syscallHandler call.mem s call.eax call.ebx call.ecx call.edx

/-- What a call prints: at most `edx` bytes from `ecx` on, those in front of a NUL. -/
def Call.written (call : Call) : List UInt8 :=
  if call.eax = sysWrite ∧ call.ecx ≠ 0 then
    ((List.range call.edx.toNat).map fun i => call.mem (call.ecx + .ofNat i).toNat).takeWhile (· ≠ 0)
  else []

/-- What a call that does not exist leaves in the log. -/
def Call.complaint (call : Call) : List UInt8 :=
  if call.eax = sysWrite ∨ call.eax = sysRead ∨ call.eax = sysTime then []
  else ascii "syscall: unknown " ++ hexText call.eax ++ ascii "\n"

theorem writeLoop_eq (mem : Mem) (str : UInt32) (n : Nat) (i : UInt32) (s : Screen) :
    writeLoop mem str n i s =
      (((List.range n).map fun k => mem (str + (i + .ofNat k)).toNat).takeWhile (· ≠ 0)).foldl vgaPutchar s := by
  induction n generalizing i s with
  | zero => rfl
  | succ n ih =>
    have rest : (List.range n).map (fun k => mem (str + (i + .ofNat (k + 1))).toNat) =
        (List.range n).map fun k => mem (str + (i + 1 + .ofNat k)).toNat := by
      apply List.map_congr_left
      intro k _
      rw [UInt32.ofNat_add, UInt32.add_comm (.ofNat k), ← UInt32.add_assoc i]
      rfl
    have first : str + (i + .ofNat 0) = str + i := congrArg (str + ·) (UInt32.add_zero i)
    rw [writeLoop, List.range_succ_eq_map, List.map_cons, List.map_map, first]
    by_cases some : mem (str + i).toNat ≠ 0
    · rw [if_pos some, List.takeWhile_cons_of_pos (by simpa using some), List.foldl_cons, ih, ← rest]
      rfl
    · rw [if_neg some, List.takeWhile_cons_of_neg (by simpa using some)]
      rfl

theorem hexText_takeWhile (value : UInt32) : (hexText value).takeWhile (· ≠ 0) = hexText value := by
  rw [AddressText.hexText_eq]
  exact List.takeWhile_eq_self_iff.mpr fun c member => by simpa using AddressText.hexBuffer_nonzero member

/-- The log behind `log_init`. -/
theorem tail_logInit (s : Log) : Tail (logInit s) (ascii "log: initialized\n") := by
  have greeting : (ascii "log: initialized\n").takeWhile (· ≠ 0) = ascii "log: initialized\n" := by decide
  rw [logInit, logWrite, greeting]
  exact (Tail.reset s).chars _

theorem Call.run_eq (s : Output) (call : Call) : call.run s =
    ⟨call.written.foldl vgaPutchar s.screen, call.complaint.foldl logChar s.log⟩ := by
  by_cases write : call.eax = sysWrite
  · have silent : call.complaint = [] := if_pos (.inl write)
    rw [silent, Call.run, syscallHandler, if_pos write]
    by_cases pointer : call.ecx ≠ 0
    · have written : call.written = ((List.range call.edx.toNat).map fun i =>
          call.mem (call.ecx + .ofNat i).toNat).takeWhile (· ≠ 0) := if_pos ⟨write, pointer⟩
      rw [written]
      by_cases length : call.edx ≠ 0
      · rw [if_pos ⟨pointer, length⟩, writeLoop_eq]
        simp only [UInt32.zero_add, List.foldl_nil]
      · rw [if_neg fun both => length both.2, not_not.mp length]
        rfl
    · have unwritten : call.written = [] := if_neg fun both => pointer both.2
      rw [unwritten, if_neg fun both => pointer both.1]
      rfl
  · have unwritten : call.written = [] := if_neg fun both => write both.1
    rw [unwritten, Call.run, syscallHandler, if_neg write]
    by_cases known : call.eax = sysRead ∨ call.eax = sysTime
    · have silent : call.complaint = [] := if_pos (.inr known)
      rw [silent]
      split_ifs with read time
      · rfl
      · rfl
      · exact absurd known (not_or.mpr ⟨read, time⟩)
    · have complaint : call.complaint = ascii "syscall: unknown " ++ hexText call.eax ++ ascii "\n" :=
        if_neg (not_or.mpr ⟨write, known⟩)
      obtain ⟨read, time⟩ := not_or.mp known
      have label : (ascii "syscall: unknown ").takeWhile (· ≠ 0) = ascii "syscall: unknown " := by decide
      have line : (ascii "\n").takeWhile (· ≠ 0) = ascii "\n" := by decide
      rw [complaint, if_neg read, if_neg time]
      simp only [logWriteHex, logWrite, label, line, hexText_takeWhile, List.foldl_append, List.foldl_nil]

/-- After any system calls the screen shows what they have printed, one behind the other, and
`dmesg` shows the last of the complaints about those that do not exist. -/
theorem calls_output (calls : List Call) (screen : Screen) (log : Log) :
    (calls.foldl Call.run ⟨screen, logInit log⟩).screen = (calls.flatMap Call.written).foldl vgaPutchar screen ∧
    logDump (calls.foldl Call.run ⟨screen, logInit log⟩).log = ascii "[dmesg]\n" ++
      (ascii "log: initialized\n" ++ calls.flatMap Call.complaint).rtake logBufferSize ++ ascii "\n[end]\n" := by
  have run : ∀ s : Output, calls.foldl Call.run s = ⟨(calls.flatMap Call.written).foldl vgaPutchar s.screen,
      (calls.flatMap Call.complaint).foldl logChar s.log⟩ := by
    induction calls with
    | nil => exact fun _ => rfl
    | cons call calls ih =>
      intro s
      rw [List.foldl_cons, ih, Call.run_eq, List.flatMap_cons, List.flatMap_cons, List.foldl_append,
        List.foldl_append]
  rw [run]
  exact ⟨rfl, ((tail_logInit log).chars _).dump⟩

end ZynthexOS.SystemCalls
