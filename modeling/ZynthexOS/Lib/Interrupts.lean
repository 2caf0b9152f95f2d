import ZynthexOS.Lib.I386

/-! Interrupts of a 32-bit x86 processor that stays in ring 0: what the processor pushes when it
enters a handler, what `iretd` takes from the stack, and the stubs between them that save the
registers and call a function. -/
namespace ZynthexOS.Lib.Interrupts
open Lib.Memory Lib.I386

/-- The registers and memory, the code segment and the flags. -/
structure Cpu where
  machine : Machine
  cs : UInt16
  eflags : UInt32

/-- The flags that an interrupt gate clears: TF, IF, NT, RF and VM. -/
def gateFlags : UInt32 := 0x34300

/-- The processor enters a handler through an interrupt gate. Some exceptions push an error
code behind the rest. -/
def Cpu.enter (c : Cpu) (selector : UInt16) (offset : UInt32) (code : Option UInt32) : Cpu :=
  let frame := [c.eflags, c.cs.toUInt32, c.machine.eip] ++ code.toList
  { machine := { frame.foldl Machine.push c.machine with eip := offset }
    cs := selector
    eflags := c.eflags &&& ~~~ gateFlags }

/-- `iretd`. -/
def Cpu.iretd (c : Cpu) : Cpu :=
  let esp := c.machine.regs .esp
  { machine := { c.machine.set .esp (esp + 12) with eip := c.machine.top }
    cs := (loadWord c.machine.mem (esp + 4)).toUInt16
    eflags := loadWord c.machine.mem (esp + 8) }

/-- An instruction of a stub. -/
inductive Op where
  | instr (i : Instr)
  /-- `push r` -/
  | push (r : Reg)
  /-- `push dword v` -/
  | pushWord (v : UInt32)
  /-- `add esp, n` -/
  | addEsp (n : UInt32)
  deriving DecidableEq, Repr

def Op.exec (m : Machine) : Op → Machine
  | .instr i => i.exec m
  | .push r => m.push (m.regs r)
  | .pushWord v => m.push v
  | .addEsp n => m.set .esp (m.regs .esp + n)

def runOps (ops : List Op) (m : Machine) : Machine := ops.foldl Op.exec m

/-- A stub: what comes before its only `call`, and what comes between that and `iretd`. -/
structure Stub where
  before : List Op
  behind : List Op

/-- The function called is entered with the address behind the `call` on the stack. -/
def Stub.call (s : Stub) (returnAddress : UInt32) (m : Machine) : Machine :=
  (runOps s.before m).push returnAddress

/-- A stub whose function does `f`, if that returns. -/
def Stub.run (s : Stub) (returnAddress : UInt32) (f : Machine → Option Machine) (c : Cpu) : Option Cpu :=
  (f (s.call returnAddress c.machine)).map fun m =>
    Cpu.iretd { c with machine := runOps s.behind m }

/-- A function of `arity` arguments has returned to its caller: the return address is taken
from the stack, and the `depth` words behind the arguments are what they were. -/
structure Returned (arity depth : Nat) (entry m : Machine) : Prop where
  esp : m.regs .esp = entry.regs .esp + 4
  kept : ∀ i < depth, loadWord m.mem (m.regs .esp + .ofNat (4 * (arity + i))) =
    loadWord entry.mem (m.regs .esp + .ofNat (4 * (arity + i)))

/-- The code that was interrupted goes on where it was, with its registers and flags. -/
structure Resumes (c c' : Cpu) : Prop where
  regs : c'.machine.regs = c.machine.regs
  eip : c'.machine.eip = c.machine.eip
  cs : c'.cs = c.cs
  eflags : c'.eflags = c.eflags

variable {m m' : Machine} {ws vs fake : List UInt32} {ops rest : List Op} {s : Stub} {k : Nat}
  {returnAddress : UInt32} {args : Machine → List UInt32}

theorem runOps_append (first second : List Op) (m : Machine) :
    runOps (first ++ second) m = runOps second (runOps first m) := List.foldl_append

/-! ## The stack of a stub -/

theorem ofNat_four_mul_add (i j : Nat) :
    UInt32.ofNat (4 * (i + j)) = .ofNat (4 * i) + .ofNat (4 * j) := by
  rw [Nat.mul_add, UInt32.ofNat_add]

/-- Words taken from the stack without a look at them. -/
theorem stack_skip (stack : m.Stack (vs ++ ws)) (esp : m'.regs .esp = m.regs .esp + .ofNat (4 * vs.length))
    (mem : m'.mem = m.mem) : m'.Stack ws := by
  intro i inside
  have here := stack (vs.length + i) (by rw [List.length_append]; omega)
  rw [List.getElem_append_right (Nat.le_add_right ..)] at here
  rw [esp, mem, UInt32.add_assoc, ← ofNat_four_mul_add, here]
  congr 1
  omega

theorem pushWords_run (fake : List UInt32) (m : Machine) :
    runOps (fake.map Op.pushWord) m = fake.foldl Machine.push m := List.foldl_map

/-- The function keeps what the stub has on the stack behind the arguments. -/
theorem Returned.stack {args : List UInt32} {entry : Machine}
    (returned : Returned args.length ws.length entry m) (stack : entry.Stack (returnAddress :: args ++ ws)) :
    ∃ args', args'.length = args.length ∧ m.Stack (args' ++ ws) := by
  refine ⟨(List.range args.length).map fun i => loadWord m.mem (m.regs .esp + .ofNat (4 * i)), by simp, ?_⟩
  intro i inside
  rw [List.length_append, List.length_map, List.length_range] at inside
  by_cases argument : i < args.length
  · rw [List.getElem_append_left (by simpa using argument)]
    simp
  · obtain ⟨j, rfl⟩ : ∃ j, i = args.length + j := ⟨i - args.length, by omega⟩
    have less : j < ws.length := by omega
    have one : entry.regs .esp + .ofNat (4 * 1) = m.regs .esp := returned.esp.symm
    have place : m.regs .esp + .ofNat (4 * (args.length + j)) =
        entry.regs .esp + .ofNat (4 * (args.length + j + 1)) := by
      rw [← one, UInt32.add_assoc, ← ofNat_four_mul_add, Nat.add_comm 1]
    have within : args.length + j + 1 < (returnAddress :: args ++ ws).length := by
      simp
      omega
    have here := stack _ within
    have word : (returnAddress :: args ++ ws)[args.length + j + 1]? = ws[j]? := by
      rw [List.cons_append, List.getElem?_cons_succ, List.getElem?_append_right (Nat.le_add_right ..),
        Nat.add_sub_cancel_left]
    rw [List.getElem?_eq_getElem within, List.getElem?_eq_getElem less, Option.some_inj] at word
    rw [returned.kept j less, List.getElem_append_right (by simp), place, here, word]
    simp

/-- A function that leaves a value in a register and does nothing else returns. -/
theorem Returned.ret (arity depth : Nat) (m : Machine) (real : r ≠ .esp) (v : UInt32) :
    Returned arity depth m (Instr.ret.exec (m.set r v)) where
  esp := by
    have same : (m.set r v).regs .esp = m.regs .esp := Machine.set_ne m v (Ne.symm real)
    rw [← same]
    exact Machine.set_same (m.set r v) .esp _
  kept _ _ := rfl

/-! ## What the processor pushes -/

/-- The words on the stack of a handler, in front of those of the interrupted code. -/
def Cpu.frame (c : Cpu) (code : Option UInt32) : List UInt32 :=
  code.toList ++ [c.machine.eip, c.cs.toUInt32, c.eflags]

theorem Cpu.enter_machine (c : Cpu) (selector : UInt16) (offset : UInt32) (code : Option UInt32) :
    (c.enter selector offset code).machine =
      { (c.frame code).reverse.foldl Machine.push c.machine with eip := offset } := by
  cases code <;> rfl

/-- Pushing changes no register but the stack pointer. -/
theorem pushes_ne (vs : List UInt32) (m : Machine) (real : r ≠ .esp) :
    (vs.foldl Machine.push m).regs r = m.regs r := by
  induction vs generalizing m with
  | nil => rfl
  | cons v vs ih => exact (ih _).trans (Machine.set_ne m _ real)

theorem Cpu.enter_stack {c : Cpu} (stack : c.machine.Stack ws) (short : 4 + ws.length < 2 ^ 29)
    (selector : UInt16) (offset : UInt32) (code : Option UInt32) :
    (c.enter selector offset code).machine.Stack (c.frame code ++ ws) := by
  have length : (c.frame code).length ≤ 4 := by cases code <;> simp [Cpu.frame]
  have few : (c.frame code).reverse.length + ws.length < 2 ^ 29 := by
    rw [List.length_reverse]
    omega
  have pushed := stack.pushes few
  rw [List.reverse_reverse] at pushed
  rw [Cpu.enter_machine]
  exact pushed.congr rfl rfl

/-- `iretd` takes three words. -/
theorem Cpu.iretd_of_stack {c : Cpu} {eip cs eflags : UInt32}
    (stack : c.machine.Stack ([eip, cs, eflags] ++ ws)) :
    c.iretd.machine.eip = eip ∧ c.iretd.cs = cs.toUInt16 ∧ c.iretd.eflags = eflags ∧
      c.iretd.machine.Stack ws := by
  have second := stack 1 (by simp)
  have third := stack 2 (by simp)
  refine ⟨stack.top, congrArg UInt32.toUInt16 second, third, ?_⟩
  exact stack_skip stack (Machine.set_same c.machine .esp (c.machine.regs .esp + 12)) rfl

/-! ## Stubs that put back what they find -/

/-- These instructions leave `k` arguments on top of the stack. -/
structure SetsUp (k : Nat) (args : Machine → List UInt32) (ops : List Op) : Prop where
  arity : ∀ m, (args m).length = k
  esp : ∀ m, (runOps ops m).regs .esp + .ofNat (4 * k) = m.regs .esp
  stack : ∀ m ws, m.Stack ws → k + ws.length < 2 ^ 29 → (runOps ops m).Stack (args m ++ ws)

theorem pushRegs_run (rs : List Reg) (real : .esp ∉ rs) (m : Machine) :
    runOps (rs.map Op.push) m = (rs.map m.regs).foldl Machine.push m := by
  induction rs generalizing m with
  | nil => rfl
  | cons r rs ih =>
    rw [List.mem_cons, not_or] at real
    have kept : rs.map (m.push (m.regs r)).regs = rs.map m.regs := List.map_congr_left fun q member =>
      pushes_ne [m.regs r] m fun same => real.2 (same ▸ member)
    change runOps (rs.map Op.push) (m.push (m.regs r)) = _
    rw [ih real.2, kept]
    rfl

/-- Registers are pushed. -/
theorem SetsUp.pushRegs (rs : List Reg) (real : .esp ∉ rs) :
    SetsUp rs.length (fun m => (rs.map m.regs).reverse) (rs.map Op.push) where
  arity m := by simp
  esp m := by
    rw [pushRegs_run rs real]
    have pushed := pushes_esp (rs.map m.regs) m
    rwa [List.length_map] at pushed
  stack m ws stack short := by
    rw [pushRegs_run rs real]
    exact stack.pushes (by rwa [List.length_map])

/-- A register other than the stack pointer is loaded first. -/
theorem SetsUp.load (setsUp : SetsUp k args ops) (real : dst ≠ .esp) (base : Reg) (disp : UInt32) :
    SetsUp k (fun m => args ((Instr.load dst base disp).exec m)) (.instr (.load dst base disp) :: ops) where
  arity _ := setsUp.arity _
  esp m := (setsUp.esp _).trans (Machine.set_ne m _ real.symm)
  stack m ws stack short := setsUp.stack _ ws (stack.congr (Machine.set_ne m _ real.symm) rfl) short

/-- The words of a stub's stack from the saved registers on: the registers, the words that the
stub has pushed before them, and what it has found. -/
def saved (m : Machine) (fake ws : List UInt32) : List UInt32 :=
  (pushOrder.map (fake.foldl Machine.push m).regs).reverse ++ (fake.reverse ++ ws)

/-- A stub that pushes words of its own, saves the registers, calls a function with `k`
arguments, takes the arguments and the registers back and goes on with `rest`. -/
structure Stub.Balanced (s : Stub) (fake : List UInt32) (k : Nat) (args : Machine → List UInt32)
    (rest : List Op) : Prop where
  before : ∃ setup, s.before = fake.map Op.pushWord ++ .instr .pusha :: setup ∧ SetsUp k args setup
  behind : s.behind = .addEsp (.ofNat (4 * k)) :: .instr .popa :: rest

/-- The stub right before it sets up the arguments. -/
def savedRegs (fake : List UInt32) (m : Machine) : Machine :=
  Instr.pusha.exec (fake.foldl Machine.push m)

theorem saved_length : (saved m fake ws).length = 8 + (fake.length + ws.length) := by
  simp [saved, pushOrder]
  omega

theorem savedRegs_stack (stack : m.Stack ws) (short : 8 + (fake.length + ws.length) < 2 ^ 28) :
    (savedRegs fake m).Stack (saved m fake ws) := by
  have pushed : (fake.foldl Machine.push m).Stack (fake.reverse ++ ws) := stack.pushes (by omega)
  rw [savedRegs, pusha_eq, saved]
  exact pushed.pushes (by simp [pushOrder]; omega)

/-- What the function finds on the stack: its arguments, and behind them all that is saved. -/
theorem Stub.Balanced.call (balanced : s.Balanced fake k args rest) (stack : m.Stack ws)
    (short : k + (8 + (fake.length + ws.length)) < 2 ^ 28) (returnAddress : UInt32) :
    (s.call returnAddress m).Stack (returnAddress :: args (savedRegs fake m) ++ saved m fake ws) ∧
      (s.call returnAddress m).regs .esp + .ofNat (4 * (1 + k)) = (savedRegs fake m).regs .esp := by
  obtain ⟨⟨setup, before, setsUp⟩, -⟩ := balanced
  have run : runOps s.before m = runOps setup (savedRegs fake m) := by
    rw [before, runOps_append, pushWords_run]
    rfl
  have length : (saved m fake ws).length = 8 + (fake.length + ws.length) := saved_length
  have registers : (savedRegs fake m).Stack (saved m fake ws) := savedRegs_stack stack (by omega)
  have entry := setsUp.stack _ _ registers (by omega)
  have arity := setsUp.arity (savedRegs fake m)
  have one : ((runOps setup (savedRegs fake m)).push returnAddress).regs .esp + .ofNat (4 * 1) =
      (runOps setup (savedRegs fake m)).regs .esp := pushes_esp [returnAddress] _
  rw [Stub.call, run]
  refine ⟨entry.push (by rw [List.length_append]; omega) returnAddress, ?_⟩
  rw [ofNat_four_mul_add, ← UInt32.add_assoc, one, setsUp.esp]

/-- Once the function has returned the registers are what they were, and the stub's words are
still on the stack. -/
theorem Stub.Balanced.returns (balanced : s.Balanced fake k args rest) (stack : m.Stack ws)
    (short : k + (8 + (fake.length + ws.length)) < 2 ^ 28)
    (returned : Returned k (8 + (fake.length + ws.length)) (s.call returnAddress m) m') :
    ∃ m₂ : Machine, runOps s.behind m' = runOps rest m₂ ∧
      m₂.regs = (fake.foldl Machine.push m).regs ∧ m₂.Stack (fake.reverse ++ ws) := by
  obtain ⟨entry, esp⟩ := balanced.call stack short returnAddress
  obtain ⟨⟨setup, -, setsUp⟩, behind⟩ := balanced
  have arity := setsUp.arity (savedRegs fake m)
  rw [← saved_length (m := m), ← arity] at returned
  obtain ⟨args', same, left⟩ := returned.stack entry
  obtain ⟨m₁, dropped⟩ : ∃ m₁, (Op.addEsp (.ofNat (4 * k))).exec m' = m₁ := ⟨_, rfl⟩
  have esp₁ : m₁.regs .esp = m'.regs .esp + .ofNat (4 * args'.length) := by
    rw [← dropped, same, arity]
    exact Machine.set_same ..
  have kept : m₁.Stack (saved m fake ws) := stack_skip left esp₁ (by rw [← dropped]; rfl)
  have level : m₁.regs .esp = (savedRegs fake m).regs .esp := by
    have four : UInt32.ofNat (4 * 1) = 4 := rfl
    rw [esp₁, same, arity, returned.esp, ← esp, ofNat_four_mul_add, four, ← UInt32.add_assoc]
  obtain ⟨popped, regs⟩ := popa_pusha level kept
  refine ⟨Instr.popa.exec m₁, ?_, regs, popped⟩
  rw [behind, ← dropped]
  rfl

end ZynthexOS.Lib.Interrupts
