import ZynthexOS.Boot.ContextSwitch

/-! Two calls of `context_switch`. It saves the stack pointer but loads it nowhere, so `popa`
takes the registers from the frame of the call itself, which returns to its caller. -/
namespace ZynthexOS.ContextSwitching
open Lib.I386 Lib.Memory Boot

/-- The context does not lie on the frame of the call: the registers of `pusha`, the return
address and the arguments. -/
def FrameApart (m : Machine) (context : UInt32) : Prop :=
  ∀ i < 11, ∀ k < 8,
    Apart (context + .ofNat (4 * k)).toNat (m.regs .esp - 32 + .ofNat (4 * i)).toNat

/-- A call from `a` to `b`, and later one from `b` to `a`. What the first has saved in `a` is
still there, and so is its frame up to the return address. -/
structure RoundTrip (m₁ m₂ : Machine) (a b : UInt32) : Prop where
  distinct : a ≠ b
  first : Called m₁ a b
  firstApart : FrameApart m₁ a
  second : Called m₂ b a
  secondApart : FrameApart m₂ b
  saved : ∀ k < 8, loadWord m₂.mem (a + .ofNat (4 * k)) =
    loadWord (run contextSwitch m₁).mem (a + .ofNat (4 * k))
  frame : ∀ i < 9, loadWord m₂.mem (m₁.regs .esp - 32 + .ofNat (4 * i)) =
    loadWord (run contextSwitch m₁).mem (m₁.regs .esp - 32 + .ofNat (4 * i))

/-- The registers that a function has to keep, but for the stack pointer. -/
def calleeSaved : List Reg := [.edi, .esi, .ebp, .ebx]

/-- Execution goes on right after the call that was entered in `m`, with the registers of
its caller. -/
structure Resumes (m m' : Machine) : Prop where
  eip : m'.eip = m.top
  esp : m'.regs .esp = m.regs .esp + 4
  regs : ∀ r ∈ calleeSaved, m'.regs r = m.regs r

/-- Both calls are entered with one stack pointer, return address and registers. -/
structure SameEntry (m₁ m₂ : Machine) : Prop where
  eip : m₂.top = m₁.top
  esp : m₂.regs .esp = m₁.regs .esp
  regs : ∀ r ∈ calleeSaved, m₂.regs r = m₁.regs r

variable {m m₁ m₂ : Machine} {a b old new : UInt32} {ws : List UInt32}

/-! ## The parts of the function -/

/-- The fields that are saved, from EAX on. -/
def saves : List (UInt32 × Reg) :=
  [(0, .edi), (4, .esi), (8, .ebp), (12, .esp), (16, .ebx), (20, .edx), (24, .ecx), (28, .eax)]

/-- The registers that are loaded before `popa` overwrites them. -/
def restores : List (Reg × UInt32) :=
  [(.edi, 0), (.esi, 4), (.ebp, 8), (.ebx, 16), (.edx, 20), (.ecx, 24), (.eax, 28)]

/-- The half of the function that saves the old context. -/
def saving : List Instr :=
  [.pusha, .load .eax .esp 36] ++ saves.map fun field => .store .eax field.1 field.2

/-- The half that loads the new one, up to `popa`. -/
def restoring : List Instr :=
  .load .eax .esp 40 :: restores.map fun field => .load field.1 .eax field.2

theorem contextSwitch_parts : contextSwitch = saving ++ restoring ++ [.popa, .ret] := rfl

theorem run_saves (fields : List (UInt32 × Reg)) (stack : m.Stack ws)
    (apart : ∀ field ∈ fields, ∀ i < ws.length,
      Apart (m.regs .eax + field.1).toNat (m.regs .esp + .ofNat (4 * i)).toNat) :
    (run (fields.map fun field => .store .eax field.1 field.2) m).regs = m.regs ∧
      (run (fields.map fun field => .store .eax field.1 field.2) m).Stack ws := by
  induction fields generalizing m with
  | nil => exact ⟨rfl, stack⟩
  | cons field fields ih =>
    exact ih (stack.store _ (apart field List.mem_cons_self))
      fun other member => apart other (List.mem_cons_of_mem _ member)

theorem run_restores (fields : List (Reg × UInt32)) (real : ∀ field ∈ fields, field.1 ≠ .esp)
    (stack : m.Stack ws) :
    (run (fields.map fun field => .load field.1 .eax field.2) m).regs .esp = m.regs .esp ∧
      (run (fields.map fun field => .load field.1 .eax field.2) m).Stack ws := by
  induction fields generalizing m with
  | nil => exact ⟨rfl, stack⟩
  | cons field fields ih =>
    have esp : (Instr.exec m (.load field.1 .eax field.2)).regs .esp = m.regs .esp :=
      Machine.set_ne _ _ (Ne.symm (real field List.mem_cons_self))
    obtain ⟨esp', stack'⟩ := ih (fun other member => real other (List.mem_cons_of_mem _ member))
      (stack.congr esp rfl)
    exact ⟨esp'.trans esp, stack'⟩

/-! ## One call -/

/-- The words on the stack of a call behind `pusha`. -/
def callFrame (m : Machine) (old new : UInt32) : List UInt32 :=
  (pushOrder.map m.regs).reverse ++ [m.top, old, new]

theorem pusha_frame (called : Called m old new) :
    (Instr.pusha.exec m).Stack (callFrame m old new) ∧
      (Instr.pusha.exec m).regs .esp = m.regs .esp - 32 := by
  have frame : m.Stack [m.top, old, new] := by
    intro i inside
    match i with
    | 0 => exact congrArg (loadWord m.mem) (UInt32.add_zero _)
    | 1 => exact called.old
    | 2 => exact called.new
  rw [pusha_eq]
  refine ⟨frame.pushes (by simp [pushOrder]), ?_⟩
  rw [← pushes_esp (pushOrder.map m.regs) m]
  exact (UInt32.add_sub_cancel ..).symm

/-- The old context is saved beside the frame of the call. -/
theorem run_saving (called : Called m old new) (apart : FrameApart m old) :
    (run saving m).Stack (callFrame m old new) ∧
      (run saving m).regs .esp = (Instr.pusha.exec m).regs .esp := by
  obtain ⟨stack₁, esp₁⟩ := pusha_frame called
  obtain ⟨m₁, pushed⟩ : ∃ m₁, Instr.pusha.exec m = m₁ := ⟨_, rfl⟩
  rw [pushed] at stack₁ esp₁ ⊢
  obtain ⟨m₂, loaded⟩ : ∃ m₂, Instr.exec m₁ (.load .eax .esp 36) = m₂ := ⟨_, rfl⟩
  have eax₂ : m₂.regs .eax = old := by
    rw [← loaded, Instr.exec, Machine.set_same]
    exact stack₁ 9 (by simp [callFrame, pushOrder])
  have esp₂ : m₂.regs .esp = m₁.regs .esp := by
    rw [← loaded, Instr.exec]
    exact Machine.set_ne _ _ (by decide)
  have stack₂ := stack₁.congr esp₂ (by rw [← loaded]; rfl)
  have place : ∀ field ∈ saves, ∃ k < 8, field.1 = .ofNat (4 * k) := by decide
  have stored := run_saves saves stack₂ (fun field member i less => by
    obtain ⟨k, small, offset⟩ := place field member
    rw [eax₂, esp₂, esp₁, offset]
    exact apart i less k small)
  have whole : run saving m = run (saves.map fun field => .store .eax field.1 field.2) m₂ := by
    rw [saving, run_append, ← loaded, ← pushed]
    rfl
  rw [whole, stored.1]
  exact ⟨stored.2, esp₂⟩

/-- The stack pointer of the new context is not loaded. -/
theorem run_restoring (stack : m.Stack ws) :
    (run restoring m).regs .esp = m.regs .esp ∧ (run restoring m).Stack ws := by
  have esp : (Instr.exec m (.load .eax .esp 40)).regs .esp = m.regs .esp :=
    Machine.set_ne _ _ (by decide)
  obtain ⟨esp', stack'⟩ := run_restores restores (by decide) (stack.congr esp rfl)
  exact ⟨esp'.trans esp, stack'⟩

/-- The call returns to its caller with the caller's registers, whatever the new context. -/
theorem run_contextSwitch (called : Called m old new) (apart : FrameApart m old) :
    (run contextSwitch m).eip = m.top ∧ (run contextSwitch m).regs .esp = m.regs .esp + 4 ∧
      ∀ r, r ≠ .esp → (run contextSwitch m).regs r = m.regs r := by
  obtain ⟨stack, esp⟩ := run_saving called apart
  obtain ⟨esp', stack'⟩ := run_restoring stack
  obtain ⟨stack'', regs⟩ := popa_pusha (esp'.trans esp) stack'
  obtain ⟨m', popped⟩ : ∃ m', Instr.popa.exec (run restoring (run saving m)) = m' := ⟨_, rfl⟩
  rw [popped] at stack'' regs
  have whole : run contextSwitch m = Instr.ret.exec m' := by
    rw [contextSwitch_parts, run_append, run_append, ← popped]
    rfl
  rw [whole, Instr.exec, stack''.top, regs]
  refine ⟨rfl, Machine.set_same m' .esp _, fun r real => ?_⟩
  exact (Machine.set_ne m' _ real).trans (congrFun regs r)

/-- The second call resumes the first one exactly if it was entered like it, so never from
another stack. -/
theorem context_switch_resumes_iff (trip : RoundTrip m₁ m₂ a b) :
    Resumes m₁ (run contextSwitch m₂) ↔ SameEntry m₁ m₂ := by
  obtain ⟨eip, esp, regs⟩ := run_contextSwitch trip.second trip.secondApart
  have real : ∀ r ∈ calleeSaved, r ≠ .esp := by decide
  constructor
  · rintro ⟨eip', esp', regs'⟩
    refine ⟨eip.symm.trans eip', ?_, fun r member => ?_⟩
    · exact (UInt32.add_left_inj 4).mp (esp.symm.trans esp')
    · exact (regs r (real r member)).symm.trans (regs' r member)
  · rintro ⟨eip', esp', regs'⟩
    refine ⟨eip.trans eip', esp.trans (congrArg (· + 4) esp'), fun r member => ?_⟩
    exact (regs r (real r member)).trans (regs' r member)

/-! ## Two stacks -/

/-- Memory that holds these words. -/
def holding (words : List (Nat × Nat)) (mem : Mem) : Mem :=
  words.foldl (fun mem word => writeWord mem word.1 word.2) mem

/-- A call from the context at 0x1000 to the one at 0x2000, in which a call whose frame ends at
0x9000 was saved. -/
def firstCall : Machine where
  regs r := if r = .esp then 0x8000 else 0
  eip := 0
  mem := holding [(0x8000, 0x100000), (0x8004, 0x1000), (0x8008, 0x2000), (0x200C, 0x8FE0)] fun _ => 0

/-- The call back, on that stack. -/
def secondCall : Machine where
  regs r := if r = .esp then 0x9000 else 0
  eip := 0
  mem := holding [(0x9000, 0x100100), (0x9004, 0x2000), (0x9008, 0x1000)] (run contextSwitch firstCall).mem

theorem calls_roundTrip : RoundTrip firstCall secondCall 0x1000 0x2000 where
  distinct := by decide
  first := ⟨by decide +kernel, by decide +kernel⟩
  firstApart := by
    rw [FrameApart]
    decide +kernel
  second := ⟨by decide +kernel, by decide +kernel⟩
  secondApart := by
    rw [FrameApart]
    decide +kernel
  saved := by decide +kernel
  frame := by decide +kernel

/-- The second call returns on its own stack. -/
theorem context_switch_resumes_iff_calls : ¬ Resumes firstCall (run contextSwitch secondCall) := by
  rw [context_switch_resumes_iff calls_roundTrip]
  intro same
  exact absurd same.esp (by decide)

/-- Not even on the stack that was saved in the other context, where its frame ended. -/
theorem context_switch_stays : ¬ ∀ m₁ m₂ a b, RoundTrip m₁ m₂ a b →
    m₂.regs .esp = loadWord m₁.mem (b + 12) + 32 → Resumes m₁ (run contextSwitch m₂) := by
  intro claim
  have resumed := (claim _ _ _ _ calls_roundTrip (by decide +kernel)).eip
  have back := (run_contextSwitch calls_roundTrip.second calls_roundTrip.secondApart).1
  exact absurd (back.symm.trans resumed) (by decide +kernel)

end ZynthexOS.ContextSwitching
