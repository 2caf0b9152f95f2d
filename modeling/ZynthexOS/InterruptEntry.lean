import ZynthexOS.Boot.IsrStubs

/-! An interrupt from the code it interrupts to `isr_handler` and back. -/
namespace ZynthexOS.InterruptEntry
open Lib.I386 Lib.Interrupts Boot

variable {c : Cpu} {m : Machine} {f : Machine → Option Machine} {number : Nat} {code : Option UInt32}
  {offset returnAddress : UInt32} {ws : List UInt32}

/-- The stub of an interrupt below 48. -/
def stubOf (number : Nat) : Stub := if number < 32 then isr number else irq (number - 32)

/-- What the stub of an interrupt pushes: its number, and a word for the error code unless it
is declared to have one. -/
def fakeWords (number : Nat) : List UInt32 :=
  if number ∈ errorCodes then [.ofNat number] else [0, .ofNat number]

/-- The arguments of `isr_handler`. -/
def handlerArguments (m : Machine) : List UInt32 :=
  [loadWord m.mem (m.regs .esp + 32), loadWord m.mem (m.regs .esp + 36)]

theorem stubOf_eq (inside : number < 48) : stubOf number = pushing (fakeWords number) := by
  unfold stubOf fakeWords
  split_ifs with exception coded coded
  · rw [isr, if_pos coded, isrErr]
  · rw [isr, if_neg coded, isrNoErr]
  · simp only [errorCodes, List.mem_cons, List.not_mem_nil, or_false] at coded
    omega
  · rw [irq, irqStub]
    have same : 32 + (number - 32) = number := by omega
    rw [same]

/-- The four instructions behind `pusha`. -/
theorem handlerArguments_setUp : SetsUp 2 handlerArguments
    [.instr (.load .eax .esp 32), .instr (.load .ebx .esp 36), .push .ebx, .push .eax] := by
  have pushed := SetsUp.pushRegs [.ebx, .eax] (by decide)
  have code := pushed.load (by decide : Reg.ebx ≠ .esp) .esp 36
  exact code.load (by decide : Reg.eax ≠ .esp) .esp 32

theorem stubOf_balanced (inside : number < 48) :
    (stubOf number).Balanced (fakeWords number) 2 handlerArguments [.addEsp 8] := by
  rw [stubOf_eq inside]
  exact ⟨⟨_, rfl, handlerArguments_setUp⟩, rfl⟩

/-- The words that a stub has on the stack when it calls `isr_handler`, without the arguments:
the registers, what it has pushed itself, and what the processor has pushed. -/
def frameLength (number : Nat) (code : Option UInt32) : Nat :=
  8 + ((fakeWords number).length + (3 + code.toList.length))

/-- The processor pushes an error code exactly if the stub is declared to have one. -/
def Agrees (number : Nat) (code : Option UInt32) : Prop := code.isSome = true ↔ number ∈ errorCodes

/-- Interrupt `number`, taken from `c`: the state in which `isr_handler` starts. -/
def handlerEntry (c : Cpu) (number : Nat) (offset returnAddress : UInt32) (code : Option UInt32) : Machine :=
  (stubOf number).call returnAddress (c.enter 0x08 offset code).machine

/-- The words in front of the processor's frame, and an error code in it, are two words exactly
if the stub and the processor agree. -/
theorem agrees_iff : Agrees number code ↔ (fakeWords number).length + code.toList.length = 2 := by
  unfold Agrees fakeWords
  cases code <;> split_ifs with coded <;> simp [coded]

theorem enter_esp (c : Cpu) (number : Nat) (offset : UInt32) (code : Option UInt32) :
    ((fakeWords number).foldl Machine.push (c.enter 0x08 offset code).machine).regs .esp +
      .ofNat (4 * ((fakeWords number).length + (3 + code.toList.length))) = c.machine.regs .esp := by
  have entered := pushes_esp (c.frame code).reverse c.machine
  have length : (c.frame code).reverse.length = 3 + code.toList.length := by
    simp [Cpu.frame]
    omega
  have faked := pushes_esp (fakeWords number) (c.enter 0x08 offset code).machine
  rw [length] at entered
  rw [ofNat_four_mul_add, ← UInt32.add_assoc, faked, Cpu.enter_machine]
  exact entered

/-- The second argument of `isr_handler`. Without a code from the processor a stub that is
declared to have one passes on the instruction pointer. -/
def errorArgument (c : Cpu) (number : Nat) (code : Option UInt32) : UInt32 :=
  if number ∈ errorCodes then code.getD c.machine.eip else 0

theorem fakeWords_length (number : Nat) : (fakeWords number).length ≤ 2 := by
  unfold fakeWords
  split_ifs <;> simp

theorem frame_length (c : Cpu) (code : Option UInt32) : (c.frame code).length = 3 + code.toList.length := by
  rw [Cpu.frame, List.length_append, Nat.add_comm]
  rfl

/-- The two words behind the saved registers are the number and the error code. -/
theorem handlerArguments_eq {c : Cpu} {m : Machine} (stack : m.Stack (c.frame code ++ ws))
    (short : ws.length < 2 ^ 26) : handlerArguments (savedRegs (fakeWords number) m) =
      [.ofNat number, errorArgument c number code] := by
  have fakes := fakeWords_length number
  have codes := Option.length_toList_le (o := code)
  have bound : 8 + ((fakeWords number).length + (c.frame code ++ ws).length) < 2 ^ 28 := by
    rw [List.length_append, frame_length]
    omega
  have registers := savedRegs_stack stack bound
  obtain ⟨rest, split⟩ : ∃ rest, saved m (fakeWords number) (c.frame code ++ ws) =
      (pushOrder.map ((fakeWords number).foldl Machine.push m).regs).reverse ++
        (.ofNat number :: errorArgument c number code :: rest) := by
    unfold fakeWords errorArgument saved
    cases code <;> split_ifs <;> exact ⟨_, rfl⟩
  rw [split] at registers
  have first := registers 8 (by simp [pushOrder])
  have second := registers 9 (by simp [pushOrder])
  exact congrArg₂ (fun a b => [a, b]) first second

/-- The end of a stub, when the saved registers are back and its own words are dropped: the
stack pointer is where it was exactly if two words were in front of the frame. -/
theorem iretd_resumes {c₁ : Cpu} (others : ∀ r, r ≠ .esp → m.regs r = c.machine.regs r)
    (level : m.regs .esp + .ofNat (4 * ((fakeWords number).length + (3 + code.toList.length))) =
      c.machine.regs .esp)
    (stack : m.Stack ((fakeWords number).reverse ++ (c.frame code ++ ws))) :
    let last := Cpu.iretd { c₁ with machine := m.set .esp (m.regs .esp + .ofNat (4 * 2)) }
    Resumes c last ∧ last.machine.Stack ws ↔ Agrees number code := by
  obtain ⟨m', here⟩ : ∃ m', m.set .esp (m.regs .esp + .ofNat (4 * 2)) = m' := ⟨_, rfl⟩
  rw [here]
  have esp : m'.regs .esp = m.regs .esp + .ofNat (4 * 2) := by
    rw [← here]
    exact Machine.set_same ..
  have five : (Cpu.iretd { c₁ with machine := m' }).machine.regs .esp = m.regs .esp + .ofNat (4 * 5) := by
    have popped : (Cpu.iretd { c₁ with machine := m' }).machine.regs .esp = m'.regs .esp + 12 :=
      Machine.set_same m' .esp _
    rw [popped, esp, UInt32.add_assoc]
    rfl
  constructor
  · rintro ⟨resumes, -⟩
    rw [resumes.regs, ← level, UInt32.add_right_inj] at five
    have fakes := fakeWords_length number
    have codes := Option.length_toList_le (o := code)
    have same := congrArg UInt32.toNat five
    rw [UInt32.toNat_ofNat', UInt32.toNat_ofNat'] at same
    rw [agrees_iff]
    omega
  · intro agrees
    have two := agrees_iff.mp agrees
    have words : ((fakeWords number).reverse ++ code.toList).length = 2 := by
      rw [List.length_append, List.length_reverse, two]
    have frame : (fakeWords number).reverse ++ (c.frame code ++ ws) =
        ((fakeWords number).reverse ++ code.toList) ++
          ([c.machine.eip, c.cs.toUInt32, c.eflags] ++ ws) := by
      simp [Cpu.frame]
    rw [frame] at stack
    have left : m'.Stack ([c.machine.eip, c.cs.toUInt32, c.eflags] ++ ws) :=
      stack_skip stack (by rw [esp, words]) (by rw [← here]; rfl)
    obtain ⟨eip, cs, eflags, rest⟩ := Cpu.iretd_of_stack (c := { c₁ with machine := m' }) left
    refine ⟨⟨funext fun r => ?_, eip, cs.trans (by simp), eflags⟩, rest⟩
    by_cases real : r = .esp
    · subst real
      rw [five, ← level]
      congr 3
      omega
    · rw [← others r real]
      have popped : (Cpu.iretd { c₁ with machine := m' }).machine.regs r = m'.regs r :=
        Machine.set_ne m' _ real
      rw [popped, ← here]
      exact Machine.set_ne m _ real

/-- An interrupt below 48 through its stub: `isr_handler` gets its number and the error code,
and when it has returned the interrupted code goes on as if nothing had happened, exactly if the
stub and the processor agree about the error code. -/
theorem interrupt_handled (inside : number < 48) (stack : c.machine.Stack ws) (short : ws.length < 2 ^ 26)
    (done : f (handlerEntry c number offset returnAddress code) = some m)
    (returned : Returned 2 (frameLength number code + ws.length)
      (handlerEntry c number offset returnAddress code) m) :
    (∃ rest, (handlerEntry c number offset returnAddress code).Stack
      (returnAddress :: .ofNat number :: errorArgument c number code :: rest)) ∧
    ∃ c', (stubOf number).run returnAddress f (c.enter 0x08 offset code) = some c' ∧
      (Resumes c c' ∧ c'.machine.Stack ws ↔ Agrees number code) := by
  have balanced := stubOf_balanced inside
  have fakes := fakeWords_length number
  have codes := Option.length_toList_le (o := code)
  have entered := Cpu.enter_stack stack (by omega) 0x08 offset code
  have bound : 2 + (8 + ((fakeWords number).length + (c.frame code ++ ws).length)) < 2 ^ 28 := by
    rw [List.length_append, frame_length]
    omega
  have depth : frameLength number code + ws.length =
      8 + ((fakeWords number).length + (c.frame code ++ ws).length) := by
    rw [frameLength, List.length_append, frame_length]
    omega
  have entry := (balanced.call entered bound returnAddress).1
  rw [handlerArguments_eq entered short] at entry
  rw [depth] at returned
  obtain ⟨m₂, behind, regs, rest⟩ := balanced.returns entered bound returned
  have others : ∀ r, r ≠ .esp → m₂.regs r = c.machine.regs r := fun r real => by
    rw [regs, pushes_ne _ _ real, Cpu.enter_machine]
    exact pushes_ne _ _ real
  have level : m₂.regs .esp + .ofNat (4 * ((fakeWords number).length + (3 + code.toList.length))) =
      c.machine.regs .esp := by
    rw [regs]
    exact enter_esp c number offset code
  have run : (stubOf number).run returnAddress f (c.enter 0x08 offset code) =
      some (Cpu.iretd { c.enter 0x08 offset code with
        machine := m₂.set .esp (m₂.regs .esp + .ofNat (4 * 2)) }) := by
    have last : m₂.set .esp (m₂.regs .esp + .ofNat (4 * 2)) = runOps (stubOf number).behind m := behind.symm
    rw [last]
    exact congrArg (Option.map _) done
  exact ⟨⟨_, entry⟩, _, run, iretd_resumes others level rest⟩

/-- Code with its stack at 0x8000, interrupted at 0x100000 with interrupts on. -/
def interrupted : Cpu where
  machine := { regs := fun r => if r = .esp then 0x8000 else 7, eip := 0x100000, mem := fun _ => 0 }
  cs := 0x08
  eflags := 0x202

/-- Inside of a call: a return address and an argument are on the stack. -/
def interruptedCall : Cpu :=
  { interrupted with machine := [5, 0x100040].foldl Machine.push interrupted.machine }

/-- The timer interrupts it, and the handler returns with another value in `eax`. -/
theorem interrupt_handled_timer :
    ∃ c', (stubOf 32).run 0x100200 (fun m => some (Instr.ret.exec (m.set .eax 9)))
      (interruptedCall.enter 0x08 0x100100 none) = some c' ∧
        (Resumes interruptedCall c' ∧ c'.machine.Stack [0x100040, 5] ↔ Agrees 32 none) := by
  have nothing : interrupted.machine.Stack [] := fun i inside => absurd inside (Nat.not_lt_zero i)
  have stack : interruptedCall.machine.Stack ([5, 0x100040].reverse ++ []) := nothing.pushes (by decide)
  have short : ([0x100040, 5] : List UInt32).length < 2 ^ 26 := by decide
  have inside : 32 < 48 := by decide
  have returned : Returned 2 (frameLength 32 none + 2) (handlerEntry interruptedCall 32 0x100100 0x100200 none)
      (Instr.ret.exec ((handlerEntry interruptedCall 32 0x100100 0x100200 none).set .eax 9)) :=
    .ret _ _ _ (by decide) _
  exact (interrupt_handled (f := fun m => some (Instr.ret.exec (m.set .eax 9))) inside stack short rfl returned).2

/-- A code for an exception whose stub knows of none, like 21, 29 and 30. -/
example (code : UInt32) : ¬ Agrees 21 (some code) ∧ ¬ Agrees 29 (some code) ∧ ¬ Agrees 30 (some code) := by
  simp [Agrees, errorCodes]

end ZynthexOS.InterruptEntry
